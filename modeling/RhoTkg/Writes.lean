import RhoTkg.Chain
import RhoTkg.Clock

/-!
# What a write stamps on a row

The temporal stamps of the node doors, in the words of the source: the instant rules
(`validInstantAfter`, `supersede`, `lifeStart.txFrom`), the stamps of an appended row and of a delete
tombstone, the parsing of the valid-time claims, and the content operations a patch is made of.

`types.PropertySlice` is an association list: setting a key replaces its entry in place or appends
one.  A patch maps a key to a value or, with `none`, deletes it.
-/

namespace RhoTkg

variable {V : Type}

/-! ## Content -/

/-- `Node.SetProperty`. -/
def setProperty (props : List (Nat × V)) (key : Nat) (val : V) : List (Nat × V) :=
  if props.any (·.1 == key) then props.map fun p => if p.1 == key then (key, val) else p
  else props ++ [(key, val)]

/-- `Node.DeleteProperty`. -/
def deleteProperty (props : List (Nat × V)) (key : Nat) : List (Nat × V) :=
  props.filter (·.1 != key)

/-- A property patch: every key with its new value, `none` for a deletion. -/
abbrev Patch (V : Type) := List (Nat × Option V)

/-- The loop over `updates` of `updateNodePreparedInternal` and `buildNodeCorrectionRow`. -/
def applyPatch (props : List (Nat × V)) (patch : Patch V) : List (Nat × V) :=
  patch.foldl (fun props u =>
    match u.2 with
    | some val => setProperty props u.1 val
    | none => deleteProperty props u.1) props

/-- The stored value of a key. -/
def propertyValue (props : List (Nat × V)) (key : Nat) : Option V :=
  (props.find? (·.1 == key)).map (·.2)

/-- `nodePropertyUpdatesMutate`. -/
def nodePropertyUpdatesMutate [DecidableEq V] (current : Row V) (patch : Patch V) : Bool :=
  patch.any fun u => propertyValue current.properties u.1 != u.2

/-! ## Stamps -/

/-- `validInstantAfter`. -/
def validInstantAfter (at_ start : Int) : Int := if at_ ≤ start then wrap64 (start + 1) else at_

/-- The zero block a door gives a row that has none. -/
def TemporalMetadata.zero : TemporalMetadata := { validFrom := 0, validTo := 0, txFrom := 0 }

/-- The temporal block of a row, the zero block when it has none. -/
def Row.block (r : Row V) : TemporalMetadata := r.temporal.getD .zero

/-- `stampAppendedRow`. -/
def TemporalMetadata.stampAppendedRow (tm : TemporalMetadata) (now : Int) : TemporalMetadata :=
  { tm with updatedAt := now, txFrom := now, txTo := 0, deletedAt := 0, void := false }

/-- `stampValidFrom`: the claim, or the axis's start of no claim. -/
def stampValidFrom (a : ValidAxis) (vf : Int) (set : Bool) : Int := if set then vf else a.noClaimStart

/-- `supersession`: the transaction instant and, when the row cannot start there, its start. -/
structure SupersessionInstant where
  tx : Int
  vFrom : Int
deriving DecidableEq, Repr

/-- `Core.supersede` at the clock instant `now`. -/
def supersede (now start recorded : Int) : SupersessionInstant :=
  let tx := validInstantAfter now recorded
  ⟨tx, if tx ≤ start then wrap64 (start + 1) else 0⟩

/-- `Core.nodeVersionUpdateInstant`. -/
def Core.nodeVersionUpdateInstant (c : Core) (now : Int) (current : Row V) : SupersessionInstant :=
  supersede now (c.nodeValidFrom current) current.beliefTx

/-- `supersession.stamp`. -/
def SupersessionInstant.stamp (s : SupersessionInstant) (a : ValidAxis) (tm : TemporalMetadata) :
    TemporalMetadata :=
  let tm := tm.stampAppendedRow s.tx
  if a.claimed tm.validFrom then tm else { tm with validFrom := s.vFrom }

/-- The superseded row: its block with `TxTo` stamped. -/
def Row.superseded (r : Row V) (now : Int) : Row V :=
  { r with temporal := some { r.block with txTo := now } }

/-- `stampDeleteTombstone`.  Whether it clamped a scheduled close is told to caches only. -/
def stampDeleteTombstone (a : ValidAxis) (tm : TemporalMetadata) (at_ : Int) (retract : Bool) :
    TemporalMetadata :=
  { tm with
    deletedAt := at_
    retracted := retract
    validTo := if a.isOpen tm.validTo || at_ < tm.validTo then at_ else tm.validTo
    txFrom := if tm.txFrom = 0 then at_ else tm.txFrom
    txTo := at_ }

/-- The tombstone of a row. -/
def Row.tombstone (r : Row V) (a : ValidAxis) (at_ : Int) (retract : Bool) : Row V :=
  { r with temporal := some (stampDeleteTombstone a r.block at_ retract) }

/-- `validateNodeExplicitTemporalRange`, which the store runs on every row it is given. -/
def storable (r : Row V) : Bool :=
  match r.temporal with
  | none => true
  | some tm =>
    !(tm.validFrom != 0 && tm.validTo != 0 && decide (tm.validTo ≤ tm.validFrom)) &&
      !(tm.retracted && tm.deletedAt == 0) &&
      !(tm.deleteKeptValidTo && tm.deletedAt == 0) &&
      !(tm.deleteKeptValidTo && tm.validTo != 0 && decide (tm.validTo < tm.deletedAt))

/-! ## The instant of a delete -/

/-- The body of the loop over the recorded closes: a close `e` that meets the delete instant moves
it to the next instant or to the clock's.  The state is the clock, the instant, the wall readings left
and whether the instant moved. -/
def meetClose (s : Clock × Int × List Int × Bool) (e : Int) : Clock × Int × List Int × Bool :=
  if e = s.2.1 then
    let t := s.1.now (s.2.2.1.headD 0)
    (t.1, max (wrap64 (s.2.1 + 1)) t.2, s.2.2.1.tail, true)
  else s

/-- One turn of a delete over the closes `ends`. -/
def clearOfCloses (clock : Clock) (at_ : Int) (ends : List Int) (wall : List Int) :
    Clock × Int × List Int × Bool :=
  ends.foldl meetClose (clock, at_, wall, false)

/-- `Core.deleteInstantClearOfCloses` over the recorded closes `ends` of the rows the delete ends.
Every turn that moves the instant consumes wall readings; each close is met at most once, so the
number of closes bounds the turns. -/
def deleteInstantClearOfCloses (ends : List Int) : Nat → Clock → Int → List Int → Clock × Int
  | 0, clock, at_, _ => (clock, at_)
  | fuel + 1, clock, at_, wall =>
    if at_ < maxInt64 then
      let s := clearOfCloses clock at_ ends wall
      if s.2.2.2 then deleteInstantClearOfCloses ends fuel s.1 s.2.1 s.2.2.1
      else (s.1, s.2.1)
    else (clock, at_)

/-- A relationship the delete cascades to: its start and its temporal block. -/
structure CascadedRel where
  start : Int
  validTo : Int
deriving DecidableEq, Repr

/-- `Core.deleteInstantForNodeCascade` on the wall readings `wall`. -/
def Core.deleteInstantForNodeCascade (c : Core) (clock : Clock) (current : Row V)
    (rels : List CascadedRel) (wall : List Int) : Clock × Int :=
  let t := clock.now (wall.headD 0)
  let at_ := rels.foldl (fun at_ r => validInstantAfter at_ r.start)
    (validInstantAfter t.2 (c.nodeValidFrom current))
  let ends := (current.temporal.map (·.validTo)).toList ++ rels.map (·.validTo)
  deleteInstantClearOfCloses ends (ends.length + 1) t.1 at_ wall.tail

/-! ## The next version and the next life -/

/-- The errors of the node doors. -/
inductive DoorError where
  | errNodeNotFound
  | errEntityDeleted
  | errNodeExists
  | errAlreadyClosed
  | errInvalidTimeRange
  | errValidFromBeforePrevious
  | errNoVersionValidAt
  | errInvalidStoreMutation
  | errVersionOverflow
  | errTooManyProperties
  | errTooManyLabels
  | errLabelNotFound
  | errLastLabel
  | errReplaceVersionNotListed
  | errCommitClockExhausted
deriving DecidableEq, Repr

/-- `math.MaxUint32`. -/
def maxUint32 : Nat := 2 ^ 32 - 1

/-- `nextEntityVersion`. -/
def nextEntityVersion (current : Nat) : Except DoorError Nat :=
  if current = maxUint32 then .error .errVersionOverflow else .ok (current + 1)

/-- The highest version of a chain. -/
def topVersion (history : List (Row V)) (current : Row V) : Nat :=
  (history.map Row.version).foldl max current.version

/-- `Core.nodeHasHistoryAbove`. -/
def nodeHasHistoryAbove (history : List (Row V)) (v : Nat) : Bool :=
  decide (v < maxUint32 - 1) && history.any fun r => decide (v < r.version)

/-- `Core.nextNodeVersion`: the history is read only when it has a row above the current one. -/
def nextNodeVersion (history : List (Row V)) (current : Row V) : Except DoorError Nat :=
  nextEntityVersion
    (if nodeHasHistoryAbove history current.version then topVersion history current
    else current.version)

/-- `lifeStart`, without the hash link. -/
structure LifeStart where
  version : Nat
  maxStamp : Int
deriving DecidableEq, Repr

/-- The largest of 0 and a row's `TxFrom`, `TxTo` and `DeletedAt`. -/
def maxStampOf (history : List (Row V)) : Int :=
  history.foldl (fun m r => max (max (max m r.beliefTx) r.txTo) r.deletedAt) 0

/-- `lifeStartOf`. -/
def lifeStartOf (history : List (Row V)) : Except DoorError LifeStart :=
  match history with
  | [] => .ok ⟨0, 0⟩
  | top :: rest => do
    let v ← nextEntityVersion (topVersion rest top)
    return ⟨v, maxStampOf history⟩

/-- `lifeStart.txFrom`. -/
def LifeStart.txFrom (l : LifeStart) (now : Int) : Int := validInstantAfter now l.maxStamp

/-! ## Valid-time claims -/

/-- The two claim keys. -/
inductive ClaimKey where
  | tkgValidFrom
  | tkgValidTo
deriving DecidableEq, Repr

/-- `parseValidClaim` of a plain number: the instant and whether it is a claim. -/
def parseValidClaim (a : ValidAxis) (key : ClaimKey) : Option Int → Except DoorError (Int × Bool)
  | none => .ok (0, false)
  | some t =>
    match a with
    | .legacy => .ok (t, t != 0)
    | .literal =>
      if (key = .tkgValidFrom ∧ t = maxInt64) ∨ (key = .tkgValidTo ∧ t = minInt64) then
        .error .errInvalidTimeRange
      else .ok (t, true)

/-- `updateTemporal`: the valid-time input of an update. -/
structure UpdateTemporal where
  validFrom : Int
  validFromSet : Bool
  validTo : Int
  hasValidTo : Bool
  present : Bool
deriving DecidableEq, Repr

/-- `extractTemporalTracked`; a key is absent (`none`), nil (`some none`) or a number. -/
def extractTemporalTracked (a : ValidAxis) (vf vt : Option (Option Int)) :
    Except DoorError UpdateTemporal :=
  if vf.isNone && vt.isNone then .ok ⟨0, false, a.openEnd, false, false⟩
  else do
    let f ← parseValidClaim a .tkgValidFrom vf.join
    let t ← parseValidClaim a .tkgValidTo vt.join
    let validTo := if t.2 then t.1 else a.openEnd
    if f.2 && vt.isSome && !a.isOpen validTo && decide (validTo ≤ f.1) then
      .error .errInvalidTimeRange
    else .ok ⟨f.1, f.2, validTo, vt.isSome, true⟩

/-- `updateTemporal.closesVersion`. -/
def UpdateTemporal.closesVersion (tmp : UpdateTemporal) (a : ValidAxis) : Bool :=
  tmp.hasValidTo && !a.isOpen tmp.validTo && !tmp.validFromSet

/-- `extractTemporal`, the create's valid-time input: the start, whether it is a claim, the end as
stored. -/
def extractTemporal (a : ValidAxis) (vf vt : Option Int) :
    Except DoorError (Int × Bool × Int) := do
  let f ← parseValidClaim a .tkgValidFrom vf
  let t ← parseValidClaim a .tkgValidTo vt
  let validTo := if t.2 then t.1 else a.openEnd
  if f.2 && !a.isOpen validTo && decide (validTo ≤ f.1) then .error .errInvalidTimeRange
  else .ok (f.1, f.2, validTo)

end RhoTkg
