import RhoTkg.Cascade

/-!
# The node doors

Every plain write door of a node, as a function from the stored node and the door's arguments to the
stored node after the call and the call's result.  A refused call leaves the rows as they are; it may
have drawn instants from the clock.  The wall readings a call takes from the system clock are an
argument.

Constraint checks, contexts, hashes and event dispatch are left out: they can refuse a call or draw
further instants (`tick`), they do not change a stamp or a row.
-/

namespace RhoTkg

variable {V : Type}

/-- What a door returns: the node after the call and the call's result. -/
abbrev DoorResult (V : Type) := NodeState V × Except DoorError Unit

namespace NodeState

variable (st : NodeState V)

/-- `Core.checkWritable` of an open, writable graph. -/
def checkWritable : Except DoorError Unit :=
  if st.clock.clockExhausted then .error .errCommitClockExhausted else .ok ()

/-- `store.ReplaceNodeWithHistory`: the current row goes to history superseded at `now`. -/
def replaceWithHistory (clock : Clock) (current new : Row V) (now : Int) : DoorResult V :=
  if storable new && storable (current.superseded now) then
    ({ clock := clock
       history := putVersion st.history (current.superseded now)
       current := some new }, .ok ())
  else ({ st with clock := clock }, .error .errInvalidStoreMutation)

/-! ## Create and import -/

/-- `Core.claimedStart`: the stored start of a create. -/
def claimedStart (cfg : DoorConfig) (vf : Int) (set first : Bool) : Int :=
  if set then vf
  else if cfg.core.axis = .literal ∨ (first = true ∧ cfg.untimedUnbounded = true) then minInt64
  else 0

/-- The row of a create. -/
def createdRow (cfg : DoorConfig) (version : Nat) (labels : List Nat) (props : List (Nat × V))
    (vf : Int × Bool × Int) (first : Bool) (tx : Int) : Row V :=
  ⟨version, some { validFrom := claimedStart cfg vf.1 vf.2.1 first, validTo := vf.2.2, txFrom := tx },
    labels, props⟩

/-- The store write of a create. -/
def putCreated (clock : Clock) (row : Row V) : DoorResult V :=
  if storable row then ({ st with clock := clock, current := some row }, .ok ())
  else ({ st with clock := clock }, .error .errInvalidStoreMutation)

/-- `Core.addNodeInternal`: a create under a generated ID, which has no chain. -/
def addNode (cfg : DoorConfig) (labels : List Nat) (props : List (Nat × V)) (vf vt : Option Int)
    (wall : Int) : DoorResult V :=
  match st.checkWritable, extractTemporal cfg.core.axis vf vt with
  | .error e, _ => (st, .error e)
  | _, .error e => (st, .error e)
  | .ok (), .ok claims =>
    if st.chain.isEmpty then
      let t := st.clock.now wall
      st.putCreated t.1 (createdRow cfg 0 labels props claims true t.2)
    else (st, .error .errNodeExists)

/-- `Core.importNodeWithIDInternal`: a create under the caller's ID; on a deleted ID the chain goes
on. -/
def importNode (cfg : DoorConfig) (labels : List Nat) (props : List (Nat × V)) (vf vt : Option Int)
    (wall : Int) : DoorResult V :=
  match st.checkWritable, extractTemporal cfg.core.axis vf vt with
  | .error e, _ => (st, .error e)
  | _, .error e => (st, .error e)
  | .ok (), .ok claims =>
    if st.current.isSome then (st, .error .errNodeExists)
    else
      match lifeStartOf st.history with
      | .error e => (st, .error e)
      | .ok life =>
        let t := st.clock.now wall
        st.putCreated t.1
          (createdRow cfg life.version labels props claims (life.version == 0) (life.txFrom t.2))

/-! ## Update and close -/

/-- The new version of an update, before its stamps. -/
def updatedRow (cfg : DoorConfig) (current : Row V) (version : Nat) (patch : Patch V)
    (tmp : UpdateTemporal) (at_ : SupersessionInstant) : Row V :=
  let a := cfg.core.axis
  let tm := current.block
  let tm := if tmp.closesVersion a then
      { tm with validFrom := cfg.core.nodeValidFrom current, validTo := tmp.validTo }
    else
      { tm with
        validFrom := stampValidFrom a tmp.validFrom tmp.validFromSet
        validTo := if tmp.hasValidTo then tmp.validTo else a.openEnd }
  { current with
    version := version
    temporal := some (at_.stamp a tm)
    properties := applyPatch current.properties patch }

/-- `Core.updateNodePreparedInternal` past its no-op check, on an update with valid-time input or on
the legacy axis. -/
def updateCurrent (cfg : DoorConfig) (current : Row V) (patch : Patch V) (tmp : UpdateTemporal)
    (wall : Int) : DoorResult V :=
  let start := cfg.core.nodeValidFrom current
  -- `rejectClosedNodeMutation`
  if cfg.core.axis.isOpen (current.validTo cfg.core.axis) = false then (st, .error .errAlreadyClosed)
  else if tmp.validFromSet = true ∧ tmp.validFrom ≤ start then
    (st, .error .errValidFromBeforePrevious)
  else if tmp.closesVersion cfg.core.axis = true ∧ tmp.validTo ≤ start then
    (st, .error .errInvalidTimeRange)
  else
    match nextNodeVersion st.history current with
    | .error e => (st, .error e)
    | .ok version =>
      if cfg.maxPropertiesPerEntity < (applyPatch current.properties patch).length then
        (st, .error .errTooManyProperties)
      else
        let t := st.clock.now wall
        let at_ := cfg.core.nodeVersionUpdateInstant t.2 current
        st.replaceWithHistory t.1 current (updatedRow cfg current version patch tmp at_) at_.tx

/-- `wholeAxisUntimedUpdate`. -/
def wholeAxisUntimedUpdate (cfg : DoorConfig) (tmp : UpdateTemporal) : Bool :=
  cfg.core.axis == .literal && !tmp.validFromSet &&
    (!tmp.hasValidTo || cfg.core.axis.isOpen tmp.validTo)

/-- `NodeOps.Update`; `prov` tells whether the update names provenance fields. -/
def update [DecidableEq V] (cfg : DoorConfig) (patch : Patch V) (vf vt : Option (Option Int))
    (prov : Bool) (wall : Int) : DoorResult V :=
  match st.checkWritable, extractTemporalTracked cfg.core.axis vf vt with
  | .error e, _ => (st, .error e)
  | _, .error e => (st, .error e)
  | .ok (), .ok tmp =>
    -- an empty update is a read
    if patch.isEmpty && vf.isNone && vt.isNone && !prov then
      (st, if st.current.isSome then .ok () else .error .errNodeNotFound)
    else if wholeAxisUntimedUpdate cfg tmp then
      st.cascadeNodeMode cfg minInt64 cfg.core.axis.openEnd patch .existing prov none wall
    else
      match st.current with
      | none => (st, .error .errNodeNotFound)
      | some current =>
        if prov || tmp.present || nodePropertyUpdatesMutate current patch then
          st.updateCurrent cfg current patch tmp wall
        else (st, .ok ())

/-- The row of an in-place update: no new version, and no new transaction instant. -/
def updatedInPlaceRow (cfg : DoorConfig) (current : Row V) (patch : Patch V) (tmp : UpdateTemporal)
    (hasValidFrom : Bool) (now : Int) : Row V :=
  let tm := { current.block with updatedAt := now }
  let tm := if hasValidFrom then
      { tm with validFrom := stampValidFrom cfg.core.axis tmp.validFrom tmp.validFromSet }
    else tm
  let tm := if tmp.hasValidTo then { tm with validTo := tmp.validTo } else tm
  { current with temporal := some tm, properties := applyPatch current.properties patch }

/-- `Core.updateNodeInPlaceInternal`. -/
def updateInPlace [DecidableEq V] (cfg : DoorConfig) (patch : Patch V) (vf vt : Option (Option Int))
    (wall : Int) : DoorResult V :=
  let a := cfg.core.axis
  match st.checkWritable, extractTemporalTracked a vf vt with
  | .error e, _ => (st, .error e)
  | _, .error e => (st, .error e)
  | .ok (), .ok tmp =>
    match st.current with
    | none => (st, .error .errNodeNotFound)
    | some current =>
      if tmp.present = false ∧ nodePropertyUpdatesMutate current patch = false then (st, .ok ())
      else if a.isOpen (current.validTo a) = false then (st, .error .errAlreadyClosed)
      else if cfg.maxPropertiesPerEntity < (applyPatch current.properties patch).length then
        (st, .error .errTooManyProperties)
      else
        let t := st.clock.now wall
        let row := updatedInPlaceRow cfg current patch tmp vf.isSome t.2
        -- `checkCloseAfterStart`
        if a.isOpen (row.validTo a) = false ∧ row.validTo a ≤ cfg.core.nodeValidFrom row then
          ({ st with clock := t.1 }, .error .errInvalidTimeRange)
        else if storable row then ({ st with clock := t.1, current := some row }, .ok ())
        else ({ st with clock := t.1 }, .error .errInvalidStoreMutation)

/-- `Core.closeNodeVersionInternal`. -/
def closeVersion (cfg : DoorConfig) (end_ : Int) (wall : Int) : DoorResult V :=
  let a := cfg.core.axis
  match st.checkWritable, st.current with
  | .error e, _ => (st, .error e)
  | .ok (), none => (st, .error (if a.isOpen end_ then .errInvalidTimeRange else .errNodeNotFound))
  | .ok (), some current =>
    let start := cfg.core.nodeValidFrom current
    if a.isOpen end_ then (st, .error .errInvalidTimeRange)
    else if a.isOpen (current.validTo a) = false then (st, .error .errAlreadyClosed)
    else if end_ ≤ start then (st, .error .errInvalidTimeRange)
    else
      match nextNodeVersion st.history current with
      | .error e => (st, .error e)
      | .ok version =>
        let t := st.clock.now wall
        let at_ := cfg.core.nodeVersionUpdateInstant t.2 current
        let tm := { current.block with validFrom := start, validTo := end_ }
        st.replaceWithHistory t.1 current
          { current with version := version, temporal := some (at_.stamp a tm) } at_.tx

/-- `replaceNodeVersionMutates`. -/
def replaceNodeVersionMutates [DecidableEq V] (a : ValidAxis) (current : Row V)
    (props : List (Nat × V)) (validFrom validTo : Int) : Bool :=
  current.properties.length != props.length ||
    props.any (fun p => propertyValue current.properties p.1 != some p.2) ||
    current.temporal.all (·.validFrom != validFrom) ||
    a.endInstant current.block.validTo != a.endInstant validTo

/-- `Core.replaceNodeVersionInternal`. -/
def replaceVersion [DecidableEq V] (cfg : DoorConfig) (props : List (Nat × V))
    (validFrom validTo : Int) (wall : Int) : DoorResult V :=
  let a := cfg.core.axis
  match st.checkWritable, st.current with
  | .error e, _ => (st, .error e)
  | .ok (), none => (st, .error .errNodeNotFound)
  | .ok (), some current =>
    if a.claimed validFrom = false ∨ (a.isOpen validTo = false ∧ validTo ≤ validFrom) then
      (st, .error .errInvalidTimeRange)
    else if cfg.maxPropertiesPerEntity < props.length then (st, .error .errTooManyProperties)
    else if current.labels.head?.all (!cfg.replaceVersionLabels.contains ·) then
      (st, .error .errReplaceVersionNotListed)
    else if replaceNodeVersionMutates a current props validFrom validTo = false then (st, .ok ())
    else
      match nextNodeVersion st.history current with
      | .error e => (st, .error e)
      | .ok version =>
        let t := st.clock.now wall
        let now := validInstantAfter t.2 current.beliefTx
        let tm := { current.block with validFrom := validFrom, validTo := validTo }
        st.replaceWithHistory t.1 current
          { current with
            version := version, temporal := some (tm.stampAppendedRow now), properties := props } now

/-! ## Labels -/

/-- `Core.nodeWholeAxis`. -/
def nodeWholeAxis (cfg : DoorConfig) (current : Row V) : Bool :=
  current.temporal.any fun tm =>
    tm.validFrom == minInt64 && cfg.core.axis.isOpen tm.validTo && !tm.void && !tm.retracted &&
      tm.deletedAt == 0 && tm.txTo == 0 && !nodeHasHistoryAbove st.history current.version &&
      decide (maxStampOf st.history ≤ tm.txFrom)

/-- The label doors, `addNodeLabelOneVersion` and `removeNodeLabelOneVersion`, with the per-segment
change of a literal-axis node whose valid time is not one whole-axis segment. -/
def changeLabel [DecidableEq V] (cfg : DoorConfig) (lop : LabelOp) (wall : Int) : DoorResult V :=
  match st.checkWritable, st.current with
  | .error e, _ => (st, .error e)
  | .ok (), none => (st, .error .errNodeNotFound)
  | .ok (), some current =>
    if cfg.core.axis = .literal ∧ st.nodeWholeAxis cfg current = false then
      st.cascadeNodeMode cfg minInt64 cfg.core.axis.openEnd [] .existing false (some lop) wall
    else if current.labels.contains lop.tok = lop.add then
      (st, if lop.add then .ok () else .error .errLabelNotFound)
    else
      match applyNodeLabelOp cfg current.labels (some lop) with
      | .error e => (st, .error e)
      | .ok labels =>
        if cfg.core.axis.isOpen (current.validTo cfg.core.axis) = false then
          (st, .error .errAlreadyClosed)
        else
          match nextNodeVersion st.history current with
          | .error e => (st, .error e)
          | .ok version =>
            let t := st.clock.now wall
            let at_ := cfg.core.nodeVersionUpdateInstant t.2 current
            let tm := { current.block with
              validFrom := cfg.core.axis.noClaimStart, validTo := cfg.core.axis.openEnd }
            st.replaceWithHistory t.1 current
              { current with
                version := version, temporal := some (at_.stamp cfg.core.axis tm)
                labels := labels } at_.tx

/-! ## Corrections and excises -/

/-- `TempOps.SetNodeVersionInterval`. -/
def setNodeVersionInterval [DecidableEq V] (cfg : DoorConfig) (newVF newVT : Int) (patch : Patch V)
    (wall : Int) : DoorResult V :=
  match st.checkWritable with
  | .error e => (st, .error e)
  | .ok () => st.cascadeNodeMode cfg newVF newVT patch .correction false none wall

/-- `TempOps.ExciseNodeValidity`; `validateExciseInterval` is the kernel's own interval check. -/
def exciseNodeValidity [DecidableEq V] (cfg : DoorConfig) (newVF newVT : Int) (wall : Int) :
    DoorResult V :=
  match st.checkWritable with
  | .error e => (st, .error e)
  | .ok () => st.cascadeNodeMode cfg newVF newVT [] .void false none wall

/-! ## Deletes -/

/-- `tombstoneSpec`, of the plain doors. -/
structure TombstoneSpec where
  retract : Bool
  keepPast : Bool
deriving DecidableEq, Repr

/-- `Core.deleteRetracts`. -/
def deleteRetracts (cfg : DoorConfig) (spec : TombstoneSpec) : Bool :=
  spec.retract || (!spec.keepPast && cfg.core.axis == .literal)

/-- `Core.deleteNodeLocked` on the node and the relationships `rels` it cascades to. -/
def endNode (cfg : DoorConfig) (spec : TombstoneSpec) (rels : List CascadedRel) (wall : List Int) :
    DoorResult V :=
  match st.checkWritable, st.current with
  | .error e, _ => (st, .error e)
  | .ok (), none => (st, .error .errNodeNotFound)
  | .ok (), some current =>
    let t := cfg.core.deleteInstantForNodeCascade st.clock current rels wall
    let tombstone := current.tombstone cfg.core.axis t.2 (deleteRetracts cfg spec)
    if storable tombstone then
      ({ clock := t.1, history := putVersion st.history tombstone, current := none }, .ok ())
    else ({ st with clock := t.1 }, .error .errInvalidStoreMutation)

end NodeState
end RhoTkg
