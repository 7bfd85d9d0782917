import RhoTkg.Correction
import RhoTkg.Library.Keyed

/-!
# The cascade kernel

`cascadeNodeMode` appends the rows of a correction, of an excise or of a whole-axis untimed write:
the resumption, then one row per segment of the plan.  The row that takes the store's current slot
gets the highest version, and the prior current row moves to history.

The kernel plans from the current row alone or from a cached head entry where it can; the rows are
those of the plan on the whole chain, which is the one modelled here.
-/

namespace RhoTkg

variable {V : Type}

/-- The configuration the node doors read. -/
structure DoorConfig where
  core : Core
  untimedUnbounded : Bool
  maxPropertiesPerEntity : Nat
  maxLabelsPerNode : Nat
  replaceVersionLabels : List Nat

/-- A node in the store, with the commit clock of its graph. -/
structure NodeState (V : Type) where
  clock : Clock
  history : List (Row V)
  current : Option (Row V)
deriving DecidableEq

/-- The chain of a node. -/
def NodeState.chain (st : NodeState V) : List (Row V) := chainOf st.history st.current

/-- The history is keyed by version: a row replaces the one stored under its version. -/
def putVersion (history : List (Row V)) (r : Row V) : List (Row V) :=
  Keyed.put Row.version history r

/-- `cascadeMode`. -/
inductive CascadeMode where
  | correction
  | void
  | existing
deriving DecidableEq, Repr

/-- `nodeLabelOp`: a whole-axis label change. -/
structure LabelOp where
  tok : Nat
  add : Bool
deriving DecidableEq, Repr

/-- `wholeAxisSupersession`. -/
structure WholeAxisSupersession where
  voidFree : Bool
  seen : Bool := false
  unsafeFed : Bool := false
deriving DecidableEq, Repr

namespace WholeAxisSupersession

/-- `wholeAxisSupersession.note`. -/
def note (s : WholeAxisSupersession) (gap changed : Bool) : WholeAxisSupersession :=
  if changed then { s with seen := true }
  else if s.seen && (!gap || !s.voidFree) then { s with unsafeFed := true }
  else s

/-- `wholeAxisSupersession.replaces`. -/
def replaces (s : WholeAxisSupersession) (tm : Option TemporalMetadata) (now : Int) : Bool :=
  s.seen && !s.unsafeFed && tm.all fun tm => decide (tm.txFrom < now)

end WholeAxisSupersession

/-! ## The appended rows -/

/-- `correctionTemporal`. -/
def correctionTemporal (template : Option TemporalMetadata) (vFrom vTo now : Int) :
    TemporalMetadata :=
  let tm := { template.getD .zero with validFrom := vFrom, validTo := vTo }
  tm.stampAppendedRow now

/-- The resumption row: `src` from `newVT` to `srcEnd`. -/
def resumptionRow (src : Row V) (newVT srcEnd now : Int) : Row V :=
  let tm := { src.block with validFrom := newVT, validTo := srcEnd }
  { src with temporal := some (tm.stampAppendedRow now) }

/-- `markVoid`. -/
def markVoid (row : Row V) : Row V :=
  { row with temporal := some { row.block with void := true }, properties := [] }

/-- `nodeLabelOp.segmentMutates` over `nodePreparedUpdateMutates`. -/
def segmentMutates [DecidableEq V] (lop : Option LabelOp) (prov : Bool) (patch : Patch V)
    (base : Row V) : Bool :=
  match lop with
  | none => prov || nodePropertyUpdatesMutate base patch
  | some lop => base.labels.contains lop.tok != lop.add

/-- `Core.applyNodeLabelOp`. -/
def applyNodeLabelOp (cfg : DoorConfig) (labels : List Nat) :
    Option LabelOp → Except DoorError (List Nat)
  | none => .ok labels
  | some lop =>
    if lop.add then
      if cfg.maxLabelsPerNode < labels.length + 1 then .error .errTooManyLabels
      else if labels.contains lop.tok then .error .errInvalidStoreMutation
      else .ok (labels ++ [lop.tok])
    else if labels.length = 1 then .error .errLastLabel
    else .ok (labels.filter (· != lop.tok))

/-- `Core.buildNodeCorrectionRow`. -/
def buildNodeCorrectionRow (cfg : DoorConfig) (seg : CorrectionSegment V) (template : Row V)
    (now : Int) (patch : Patch V) : Except DoorError (Row V) :=
  let properties := applyPatch seg.base.properties patch
  if cfg.maxPropertiesPerEntity < properties.length then .error .errTooManyProperties
  else .ok { seg.base with
    properties := properties
    temporal := some (correctionTemporal template.temporal seg.vFrom seg.vTo now) }

/-- A row to append with the version of its base row, whose hash is its `PrevHash`. -/
abbrev Appended (V : Type) := Row V × Nat

/-- The rows of one segment. -/
def buildSegmentRow (cfg : DoorConfig) (mode : CascadeMode) (template : Row V) (now : Int)
    (patch : Patch V) (lop : Option LabelOp) (seg : CorrectionSegment V) :
    Except DoorError (Appended V) := do
  let row ← buildNodeCorrectionRow cfg seg template now patch
  let labels ← applyNodeLabelOp cfg row.labels lop
  let row := { row with labels := labels }
  return (if mode = .void then markVoid row else row, seg.base.version)

/-- The kernel's loop over the segments. -/
def buildSegments [DecidableEq V] (cfg : DoorConfig) (mode : CascadeMode) (template : Row V)
    (now : Int) (patch : Patch V) (prov : Bool) (lop : Option LabelOp) :
    List (CorrectionSegment V) → WholeAxisSupersession →
    Except DoorError (List (Appended V) × WholeAxisSupersession)
  | [], sup => .ok ([], sup)
  | seg :: segs, sup =>
    if mode ≠ .correction ∧ seg.gap = true then
      buildSegments cfg mode template now patch prov lop segs (sup.note true false)
    else if mode = .existing ∧ segmentMutates lop prov patch seg.base = false then
      buildSegments cfg mode template now patch prov lop segs (sup.note false false)
    else do
      let row ← buildSegmentRow cfg mode template now patch lop seg
      let rest ← buildSegments cfg mode template now patch prov lop segs (sup.note false true)
      return (row :: rest.1, rest.2)

/-- The rows the kernel appends, in build order: the resumption, then the pieces. -/
def cascadeRows [DecidableEq V] (cfg : DoorConfig) (plan : HeadChain V) (current : Row V)
    (newVT : Int) (patch : Patch V) (mode : CascadeMode) (prov : Bool) (lop : Option LabelOp)
    (now : Int) : Except DoorError (List (Appended V) × WholeAxisSupersession) :=
  -- no resumption when the source starts at `newVT`: it still answers there
  let resumption := (plan.src.filter fun src => cfg.core.nodeValidFrom src != newVT).map fun src =>
    (resumptionRow src newVT plan.srcEnd now, src.version)
  if mode = .void ∧ plan.segments.all (·.gap) = true then .error .errNoVersionValidAt
  else do
    let pieces ← buildSegments cfg mode current now patch prov lop plan.segments
      { voidFree := plan.voidFree }
    return (resumption.toList ++ pieces.1, pieces.2)

/-! ## The current slot -/

/-- The row's own interval is open and the row is not void. -/
def ownOpen (a : ValidAxis) (r : Row V) : Bool := a.isOpen (r.validTo a) && !r.isVoid

/-- Number the appended rows from `first` on. -/
def numberRows (first : Nat) (rows : List (Appended V)) : List (Appended V) :=
  rows.zipIdx.map fun (r, i) => ({ r.1 with version := first + i }, r.2)

/-- `cascadeNewCurrent` over the whole chain: the position of the appended row that takes the
current slot, `none` when the current row keeps it. -/
def cascadeNewCurrent (a : ValidAxis) (preChain : List (Row V)) (appended : List (Appended V))
    (current : Row V) (existing : Bool) : Option Nat :=
  let best := preChain.foldl (fun cur r =>
    if ownOpen a r && cur.all (nodeBeliefNewerThan r) then some r else cur) none
  let slot := (appended.zipIdx.foldl (fun (s : Option (Row V) × Option Nat) (e : Appended V × Nat) =>
    if ownOpen a e.1.1 && s.1.all (nodeBeliefNewerThan e.1.1) then (some e.1.1, some e.2) else s)
    (best, none)).2
  if existing = false ∨ slot.isSome = true ∨ ownOpen a current = true then slot
  else
    (appended.zipIdx.filter fun e => e.1.2 == current.version && !e.1.1.isVoid).getLast?.map (·.2)

/-- `moveToEnd`. -/
def moveToEnd (rows : List (Appended V)) (slot : Option Nat) : List (Appended V) :=
  match slot with
  | none => rows
  | some i => rows.eraseIdx i ++ rows[i]?.toList

/-- The check that the slot can take the row: its labels are the current row's, or differ by the
label change (`ValidateNodeReplacement`, `nodeLabelOp.slotChanges`). -/
def slotLabelsOk (lop : Option LabelOp) (current new : Row V) : Bool :=
  match lop with
  | none => new.labels == current.labels
  | some lop =>
    if current.labels.contains lop.tok == new.labels.contains lop.tok then
      new.labels == current.labels
    else if lop.add then new.labels == current.labels ++ [lop.tok]
    else new.labels == current.labels.filter (· != lop.tok)

/-- The rows as written: the row that takes the current slot has the highest version. -/
def finalRows (first : Nat) (rows : List (Appended V)) (slot : Option Nat) : List (Row V) :=
  (numberRows first (moveToEnd rows slot)).map (·.1)

/-- The prior current row as it moves to history. -/
def demotedRow (current : Row V) (sup : WholeAxisSupersession) (mode : CascadeMode) (now : Int) :
    Row V :=
  if mode == .existing && sup.replaces current.temporal now then current.superseded now else current

/-- The kernel's write of the built rows.  The store checks every row it is given; only the
resumption, which is written first, can fail the check. -/
def writeCascade (cfg : DoorConfig) (st : NodeState V) (current : Row V) (rows : List (Appended V))
    (sup : WholeAxisSupersession) (first : Nat) (mode : CascadeMode) (lop : Option LabelOp)
    (now : Int) : Except DoorError (NodeState V) :=
  let slot := cascadeNewCurrent cfg.core.axis (preCorrectionChain st.history current)
    (numberRows first rows) current (mode == .existing)
  let final := finalRows first rows slot
  if maxUint32 < first + rows.length - 1 then .error .errVersionOverflow
  else if final.all storable = false then .error .errInvalidStoreMutation
  else
    match slot, final.getLast? with
    | some _, some new =>
      if slotLabelsOk lop current new then
        .ok { st with
          history := putVersion (final.dropLast.foldl putVersion st.history)
            (demotedRow current sup mode now)
          current := some new }
      else .error .errInvalidStoreMutation
    | _, _ => .ok { st with history := final.foldl putVersion st.history }

/-- `Core.cascadeNodeMode` at the clock, on the wall reading `wall`. -/
def NodeState.cascadeNodeMode [DecidableEq V] (cfg : DoorConfig) (st : NodeState V)
    (newVF newVT : Int) (patch : Patch V) (mode : CascadeMode) (prov : Bool) (lop : Option LabelOp)
    (wall : Int) : NodeState V × Except DoorError Unit :=
  -- `checkCascadeInterval`
  if cfg.core.axis.claimed newVF = false ∨
      (cfg.core.axis.isOpen newVT = false ∧ newVT ≤ newVF) then
    (st, .error .errInvalidTimeRange)
  else
    match st.current with
    | none => (st, .error (if st.history.isEmpty then .errNodeNotFound else .errEntityDeleted))
    | some current =>
      let plan := cfg.core.planMiss st.history current newVF newVT (mode != .correction)
      match nextEntityVersion plan.maxVersion with
      | .error e => (st, .error e)
      | .ok first =>
        let t := st.clock.now wall
        let st' := { st with clock := t.1 }
        match cascadeRows cfg plan current newVT patch mode prov lop t.2 with
        | .error e => (st', .error e)
        | .ok (rows, sup) =>
          if rows.isEmpty then (st', .ok ())
          else
            match writeCascade cfg st' current rows sup first mode lop t.2 with
            | .error e => (st', .error e)
            | .ok st'' => (st'', .ok ())

end RhoTkg
