import RhoTkg.GraphTx

/-!
# Relationships within their endpoints

`ConstraintRelWithinEndpoints` asks that a relationship's valid time lies within the valid time of both
its endpoints.  An endpoint is valid from where its current life starts (`nodeCurrentLifeStart`): the
start of the lowest version recorded after the last delete, or the start of the current row when that
is earlier.

The check runs in some doors only.  A create or an import of a relationship checks a probe row, stamped
by a draw on the clock of its own; a close of a node or a relationship, also one by an update that gives
a `tkg_valid_to` alone, checks the row with its end; `ReplaceVersion` checks the row it is about to
write.  All of them read the node's history as it is before the write.  The other doors that give a row
another valid time do not check: `UpdateInPlace`, an update with a `tkg_valid_from`, an untimed update,
corrections, excises, whole-axis updates and label changes.

`Primary.keepsWithin` is what the doors leave unchecked, as a condition on the graph before the call.
-/

namespace RhoTkg

variable {V : Type}

/-! ## The check -/

/-- The errors of the constraint, which wrap `ErrTemporalConstraint`, and the one of a missing
endpoint. -/
inductive ConstraintError where
  | errNodeNotFound
  | errRelBeforeStartNode
  | errRelBeforeEndNode
  | errRelAfterStartNode
  | errRelAfterEndNode
  | errRelExceedsStartNodeValidity
  | errRelExceedsEndNodeValidity
deriving DecidableEq, Repr

/-- The last hard delete a history holds, 0 without one. -/
def lastDelete (history : List (Row V)) : Int := history.foldl (fun d r => max d r.deletedAt) 0

/-- The row was recorded after the delete instant `deleted` and is not void. -/
def Row.ofLife (deleted : Int) (r : Row V) : Bool :=
  r.temporal.any fun tm => !tm.void && (deleted == 0 || decide (deleted < tm.txFrom))

/-- The row of the lower version. -/
def lowerVersion (first : Option (Row V)) (r : Row V) : Option (Row V) :=
  if first.all fun f => decide (r.version < f.version) then some r else first

/-- The first version of the life after the last delete. -/
def firstOfLife (history : List (Row V)) : Option (Row V) :=
  (history.filter (Row.ofLife (lastDelete history))).foldl lowerVersion none

namespace Core

variable (c : Core)

/-- Where a life starts whose earlier versions are in `history` and whose current row starts at
`own`. -/
def nodeLifeStart (history : List (Row V)) (own : Int) : Int :=
  match firstOfLife history with
  | none => own
  | some first => min (c.nodeValidFrom first) own

/-- `Core.nodeCurrentLifeStart`. -/
def nodeCurrentLifeStart (history : List (Row V)) (node : Row V) : Int :=
  if node.version = 0 then c.nodeValidFrom node else c.nodeLifeStart history (c.nodeValidFrom node)

/-- `Core.checkRelAgainstEndpoint` of a relationship with the bounds `rel`. -/
def checkRelAgainstEndpoint (rel : Int × Int) (history : List (Row V)) (node : Row V)
    (isStart : Bool) : Except ConstraintError Unit :=
  let own := c.nodeValidFrom node
  let nodeFrom := if rel.1 < own then c.nodeCurrentLifeStart history node else own
  let nodeTo := node.validTo c.axis
  if rel.1 < nodeFrom then
    .error (if isStart then .errRelBeforeStartNode else .errRelBeforeEndNode)
  else if c.axis.isOpen nodeTo then .ok ()
  else if nodeTo ≤ rel.1 then
    .error (if isStart then .errRelAfterStartNode else .errRelAfterEndNode)
  else if c.axis.isOpen rel.2 = true ∨ nodeTo < rel.2 then
    .error (if isStart then .errRelExceedsStartNodeValidity else .errRelExceedsEndNodeValidity)
  else .ok ()

end Core

/-- `nodeWithValidTo`, `relWithValidTo`. -/
def Row.withValidTo (r : Row V) (validTo : Int) : Row V :=
  { r with temporal := some { r.block with validTo := validTo } }

/-- The valid bounds of an entity's row. -/
def GraphConfig.bounds (cfg : GraphConfig) (e : EntityId) (r : Row V) : Int × Int :=
  (cfg.forEntity e).core.nodeOwnBounds r

namespace Store

variable (cfg : GraphConfig) (s : Store V)

/-- The history rows of an entity. -/
def pastRows (e : EntityId) : List (Row V) := (s.history e).map (·.row)

/-- The current rows of the relationships `ids`. -/
def relRows (ids : Finset Nat) : List (Nat × Stored V) :=
  (ids.sort (· ≤ ·)).filterMap fun r => (s.current (.rel r)).map (r, ·)

/-- `Core.checkRelAgainstEndpoint` on the node `n`, with `node` as its version and `history` as its
history. -/
def checkEndpoint (n : Nat) (history : List (Row V)) (node : Row V) (isStart : Bool)
    (rel : Nat × Row V) : Except ConstraintError Unit :=
  (cfg.forEntity (.node n)).core.checkRelAgainstEndpoint (cfg.bounds (.rel rel.1) rel.2) history node
    isStart

/-- `Core.checkRelWithinEndpoints` against the live endpoints (`liveEndpointNodes`). -/
def checkRelWithinEndpoints (id : Nat) (rel : Row V) (ends : Nat × Nat) :
    Except ConstraintError Unit :=
  match s.current (.node ends.1), s.current (.node ends.2) with
  | some start, some end_ => do
    checkEndpoint cfg ends.1 (s.pastRows (.node ends.1)) start.row true (id, rel)
    checkEndpoint cfg ends.2 (s.pastRows (.node ends.2)) end_.row false (id, rel)
  | _, _ => .error .errNodeNotFound

/-- `Core.checkNodeRelsWithinEndpoints`: the relationships of the node `n` against `node` as its
version. -/
def checkNodeRelsWithinEndpoints (n : Nat) (node : Row V) : Except ConstraintError Unit := do
  (s.relRows (s.outIdx n)).forM fun r =>
    checkEndpoint cfg n (s.pastRows (.node n)) node true (r.1, r.2.row)
  (s.relRows (s.inIdx n)).forM fun r =>
    checkEndpoint cfg n (s.pastRows (.node n)) node false (r.1, r.2.row)

/-- Every current relationship passes the check against the current rows of its endpoints. -/
def RelsWithinEndpoints : Prop :=
  ∀ id x, s.current (.rel id) = some x →
    ∃ ends, x.ends = some ends ∧ s.checkRelWithinEndpoints cfg id x.row ends = .ok ()

end Store

/-! ## The doors under the constraint -/

/-- The end of a close: `CloseVersion`, or an update that gives an end and no start. -/
def NodeEvent.closingEnd (a : ValidAxis) : NodeEvent V → Option Int
  | .closeVersion end_ _ => some end_.toInt
  | .update _ vf vt _ _ =>
    match extractTemporalTracked a (vf.map (·.map Int64.toInt)) (vt.map (·.map Int64.toInt)) with
    | .ok tmp => if tmp.closesVersion a then some tmp.validTo else none
    | .error _ => none
  | _ => none

/-- `ReplaceVersion`. -/
def NodeEvent.isReplaceVersion : NodeEvent V → Bool
  | .replaceVersion .. => true
  | _ => false

/-- The input of a relationship create: `RelOps.Add`, or `RelOps.Import` under the caller's ID. -/
structure RelCreate (V : Type) where
  labels : List Nat
  props : List (Nat × V)
  vf : Option Int64
  vt : Option Int64
  imported : Bool

namespace NodeState

variable (st : NodeState V)

/-- The life a create starts: an import goes on with the chain of a deleted ID. -/
def createLife (imported : Bool) : Except DoorError LifeStart :=
  if imported then
    if st.current.isSome then .error .errNodeExists else lifeStartOf st.history
  else if st.chain.isEmpty then .ok ⟨0, 0⟩
  else .error .errNodeExists

/-- A relationship create under the constraint: the clock after the call and, when every check passes,
the row it stores.  The probe the check sees has a draw on the clock of its own. -/
def createRel (cfg : DoorConfig) (check : Row V → Except ConstraintError Unit) (r : RelCreate V)
    (probe wall : Int64) : Clock × Option (Row V) :=
  match st.checkWritable,
      extractTemporal cfg.core.axis (r.vf.map Int64.toInt) (r.vt.map Int64.toInt),
      st.createLife r.imported with
  | .ok (), .ok claims, .ok life =>
    let row := createdRow cfg life.version r.labels r.props claims (life.version == 0)
    let t := st.clock.now probe.toInt
    match check (row t.2) with
    | .error _ => (t.1, none)
    | .ok () =>
      let u := t.1.now wall.toInt
      (u.1, some (row (if r.imported then life.txFrom u.2 else u.2)))
  | _, _, _ => (st.clock, none)

end NodeState

/-- The calls of a graph with the constraint. -/
inductive ConstrainedCall (V : Type) where
  | createRel (id : Nat) (ends : Nat × Nat) (r : RelCreate V) (probe wall : Int64)
  | door (d : Door V)

/-- The calls on nodes and relationships: the store's own deletes and cuts of a history are none, and
a relationship is created by `createRel`. -/
def Door.isCall : Door V → Bool
  | .chain (.rel _) _ ev => !ev.isCreate
  | .chain (.node _) .. => true
  | .updateInPlace .. => true
  | .deleteNode .. => true
  | .deleteRel .. => true
  | _ => false

namespace Primary

/-- The store calls of a call, when the store accepts every one. -/
def runAll : Primary V → List (RoutedCall V) → Option (Primary V)
  | p, [] => some p
  | p, c :: cs => (p.runCall 0 c).bind fun p' => runAll p' cs

/-- The relationships of the node `n` that are current. -/
def nodeRels (p : Primary V) (n : Nat) : List (Nat × Stored V) := p.store.relRows (p.store.relIDs n)

/-- The relationship bounds `rel` lie within the end of a row. -/
def endsBy (a : ValidAxis) (rel : Int × Int) (validTo : Int) : Bool :=
  a.isOpen validTo || (decide (rel.1 < validTo) && !a.isOpen rel.2 && decide (rel.2 ≤ validTo))

variable [DecidableEq V] (cfg : GraphConfig) (p : Primary V)

/-- The chain of the entity after a chain door. -/
def chainAfter (e : EntityId) (ev : NodeEvent V) : NodeState V :=
  ((p.store.chainState p.clock e).step (cfg.forEntity e) ev).1

/-- The chain of the entity after `UpdateInPlace`. -/
def chainInPlace (e : EntityId) (patch : Patch V) (vf vt : Option (Option Int64)) (wall : Int64) :
    NodeState V :=
  ((p.store.chainState p.clock e).updateInPlace (cfg.forEntity e) patch (vf.map (·.map Int64.toInt))
    (vt.map (·.map Int64.toInt)) wall.toInt).1

/-- The check a door makes: `checkNodeClose`, `checkRelClose`, and `ReplaceVersion`'s check of the row
it is about to write. -/
def checkDoor : Door V → Except ConstraintError Unit
  | .chain e _ ev =>
    match e, p.store.current e, ev.closingEnd cfg.door.core.axis with
    | .node n, some current, some end_ =>
      p.store.checkNodeRelsWithinEndpoints cfg n (current.row.withValidTo end_)
    | .rel id, some current, some end_ =>
      match current.ends with
      | some ends => p.store.checkRelWithinEndpoints cfg id (current.row.withValidTo end_) ends
      | none => .ok ()
    | .node n, some current, none =>
      match (p.chainAfter cfg e ev).current with
      | some new =>
        if ev.isReplaceVersion = true ∧ new.version ≠ current.version then
          p.store.checkNodeRelsWithinEndpoints cfg n new
        else .ok ()
      | none => .ok ()
    | _, _, _ => .ok ()
  | _ => .ok ()

/-- The clock of a call the check refuses: only `ReplaceVersion` has drawn its instant before. -/
def refusedClock (d : Door V) : Clock :=
  match d with
  | .chain _ _ (.replaceVersion ..) => (p.doorCalls cfg d).1
  | _ => p.clock

/-- The relationship row a create stores, with the clock after the call. -/
def createdRel (id : Nat) (ends : Nat × Nat) (r : RelCreate V) (probe wall : Int64) :
    Clock × Option (Row V) :=
  match p.store.current (.node ends.1), p.store.current (.node ends.2) with
  | some _, some _ =>
    (p.store.chainState p.clock (.rel id)).createRel (cfg.forEntity (.rel id))
      (p.store.checkRelWithinEndpoints cfg id · ends) r probe wall
  | _, _ => (p.clock, none)

/-- A call's draw on the clock and its store calls, none when it is refused. -/
def constrainedCalls : ConstrainedCall V → Clock × List (RoutedCall V)
  | .createRel id ends r probe wall =>
    let created := p.createdRel cfg id ends r probe wall
    (created.1, created.2.toList.map fun row => ⟨.put (.rel id) ⟨some ends, row⟩, true⟩)
  | .door d =>
    if d.isCall then
      match p.checkDoor cfg d with
      | .ok () => p.doorCalls cfg d
      | .error _ => (p.refusedClock cfg d, [])
    else (p.clock, [])

/-- One call on a graph with the constraint; a call that fails leaves the rows. -/
def constrainedStep (c : ConstrainedCall V) : Primary V :=
  let calls := p.constrainedCalls cfg c
  ({ p with clock := calls.1 }.runAll calls.2).getD { p with clock := calls.1 }

/-! ## What the doors leave unchecked -/

/-- The row `new` a chain door gives the node `n`: every relationship of the node starts in its
current life, the version the call supersedes counted to it; unless the door has checked it, the
relationships end by the row's end. -/
def nodeRowKeeps (n : Nat) (ev : NodeEvent V) (new : Row V) : Bool :=
  let c := (cfg.forEntity (.node n)).core
  let st := p.store.chainState p.clock (.node n)
  (p.nodeRels n).all fun r =>
    let rel := cfg.bounds (.rel r.1) r.2.row
    decide (c.nodeLifeStart st.rows (c.nodeValidFrom new) ≤ rel.1) &&
      ((ev.closingEnd c.axis).isSome || ev.isReplaceVersion || endsBy c.axis rel (new.validTo c.axis))

/-- The row `new` of the relationship lies within the endpoints. -/
def relRowKeeps (id : Nat) (new : Row V) : Bool :=
  match (p.store.current (.rel id)).bind (·.ends) with
  | some ends => (p.store.checkRelWithinEndpoints cfg id new ends).isOk
  | none => true

/-- The valid time the call gives a row it has not checked keeps the relationships within their
endpoints.  A create has checked its probe: an untimed relationship starts at the instant of its own
row.  An in-place update without valid-time input, a close of a relationship, and a delete are not
concerned. -/
def keepsWithin : ConstrainedCall V → Bool
  | .createRel id ends r probe wall =>
    (p.createdRel cfg id ends r probe wall).2.all fun row =>
      (p.store.checkRelWithinEndpoints cfg id row ends).isOk
  | .door (.chain e _ ev) =>
    match p.store.current e, (p.chainAfter cfg e ev).current with
    | some current, some new =>
      new.version == current.version ||
        match e with
        | .node n => p.nodeRowKeeps cfg n ev new
        | .rel id => (ev.closingEnd cfg.door.core.axis).isSome || p.relRowKeeps cfg id new
    | _, _ => true
  | .door (.updateInPlace e patch vf vt wall) =>
    (vf.isNone && vt.isNone) || (p.chainInPlace cfg e patch vf vt wall).current.all fun new =>
      match e with
      | .node n => (p.store.checkNodeRelsWithinEndpoints cfg n new).isOk
      | .rel id => p.relRowKeeps cfg id new
  | .door _ => true

end Primary
end RhoTkg
