import RhoTkg.Primary

/-!
# Transactions and their rollback

A `GraphTx` writes through the doors of the graph at once and keeps what `Rollback` needs to take the
writes back: for an entity it updates, the row and the history before its first write; for an entity
it deletes, the row and the history before that delete; for an entity it creates, the version it was
created at.  A snapshot holds the history whole, or the rows from a trim point on, or only the trim
point and the highest version, depending on what the store can page and on the head entry of the
chain; the rows below the trim point are read back from the store.

`Rollback` takes the records in seven phases: the deleted nodes, the relationships their deletes
cascaded to, the relationships deleted on their own, the updated relationships, the updated nodes, the
created relationships and the created nodes.  It goes on when a restore fails, and returns the first
error.

The registries, the event buffer, the operation counters and the flush of the store are left out; the
undo goes through the same store doors as the forward writes.
-/

namespace RhoTkg

variable {V : Type}

/-! ## Snapshots -/

/-- The store capabilities a transaction asks for: the history pager and the rollback trim
(`Core.historyTrim`). -/
structure TxCaps where
  pager : Bool
  historyTrim : Bool
deriving DecidableEq, Repr

/-- `nodeSnapshot`, `relSnapshot` and, with no `historyKeepTo`, `deletedNodeSnapshot` and
`deletedRelSnapshot`: the row and its history.  With `useHistoryTrim` the history is the rows below
`historyTrimFrom` and the rows `above`, else it is `history`. -/
structure Snapshot (V : Type) where
  prev : Stored V
  history : List (Stored V)
  historyTrimFrom : Nat
  historyKeepTo : Nat
  useHistoryTrim : Bool
  above : List (Stored V)
deriving DecidableEq, Repr

/-- `nodeHistoryBeforeVersion`, `relHistoryBeforeVersion`. -/
def historyBefore (history : List (Stored V)) (minVersion : Nat) : List (Stored V) :=
  history.filter fun r => decide (r.version < minVersion)

/-- `Core.nodeHistoryVersionsFrom`, `Core.relHistoryVersionsFrom`: one page. -/
def historyFrom (history : List (Stored V)) (version : Nat) : List (Stored V) :=
  history.filter fun r => decide (version ≤ r.version)

/-- `keepPreTxRows`. -/
def keepPreTxRows (history : List (Stored V)) (start keepTo : Nat) : List (Stored V) :=
  history.filter fun r =>
    decide (r.version < start) || (decide (start < r.version) && decide (r.version ≤ keepTo))

namespace Snapshot

/-- The rows from the version of `x` on. -/
def trimmed (x : Stored V) (keepTo : Nat) (above : List (Stored V)) : Snapshot V :=
  ⟨x, [], x.version, keepTo, true, above⟩

/-- A copy of the history. -/
def copied (x : Stored V) (history : List (Stored V)) : Snapshot V := ⟨x, history, 0, 0, false, []⟩

/-- The snapshot of `snapshotCurrentNodeLocked` and `snapshotCurrentRelLocked`; `head` tells whether
the chain has a valid head entry, which names its highest version (`nodeHeadTop`, `relHeadTop`). -/
def ofUpdate (caps : TxCaps) (head : Bool) (x : Stored V) (history : List (Stored V)) :
    Snapshot V :=
  if head then trimmed x (topVersion (history.map (·.row)) x.row) []
  else if caps.pager then trimmed x 0 (historyFrom history x.version)
  else if (historyFrom history x.version).isEmpty then trimmed x 0 []
  else copied x history

/-- `deletedNodeHistorySnapshot`, `deletedRelHistorySnapshot`. -/
def ofDelete (caps : TxCaps) (x : Stored V) (history : List (Stored V)) : Snapshot V :=
  if caps.pager then trimmed x 0 (historyFrom history x.version)
  else if caps.historyTrim = false then copied x history
  else if (historyFrom history x.version).isEmpty then trimmed x 0 []
  else copied x history

/-- `materializeDeletedRelSnapshotHistoryLocked`, on the history as it is now. -/
def materialize (snap : Snapshot V) (history : List (Stored V)) : Snapshot V :=
  if snap.useHistoryTrim then
    { snap with
      history := historyBefore history snap.historyTrimFrom ++ snap.above
      above := []
      useHistoryTrim := false }
  else snap

end Snapshot

/-! ## The transaction -/

/-- `deletedNodeSnapshot`: the node and the relationships its delete cascaded to. -/
structure DeletedNode (V : Type) where
  id : Nat
  node : Snapshot V
  rels : List (Nat × Snapshot V)

/-- `GraphTx`: the created entities with the version they were created at, the updated entities with
their snapshots, the deleted nodes and the deleted relationships, each in the order of the calls. -/
structure GraphTx (V : Type) where
  created : List (EntityId × Nat)
  updated : List (EntityId × Snapshot V)
  deletedNodes : List (DeletedNode V)
  deletedRels : List (Nat × Snapshot V)

namespace GraphTx

/-- `BeginTx`. -/
def new : GraphTx V := ⟨[], [], [], []⟩

variable (tx : GraphTx V)

/-- `snapshotSet`. -/
def isUpdated (e : EntityId) : Bool := tx.updated.any fun u => u.1 == e

/-- `createdNodeSet`, `createdRelSet`. -/
def isCreated (e : EntityId) : Bool := tx.created.any fun c => c.1 == e

/-- A node delete of the transaction cascaded to the relationship. -/
def isCascaded (id : Nat) : Bool := tx.deletedNodes.any fun d => d.rels.any fun r => r.1 == id

/-- `DeleteRelationship` deleted the relationship in the transaction. -/
def isRelDeleted (id : Nat) : Bool := tx.deletedRels.any fun d => d.1 == id

/-- `deletedNodeSet`, `deletedRelSet`. -/
def isDeleted : EntityId → Bool
  | .node id => tx.deletedNodes.any fun d => d.id == id
  | .rel id => tx.isCascaded id || tx.isRelDeleted id

/-- `trackCreatedNodeLocked`, `trackCreatedRelLocked`. -/
def trackCreated (e : EntityId) (version : Nat) : GraphTx V :=
  if tx.isCreated e || tx.isDeleted e then tx
  else { tx with created := tx.created ++ [(e, version)] }

/-- `snapshotCurrentNodeLocked`, `snapshotCurrentRelLocked`. -/
def snapshotCurrent (caps : TxCaps) (head : Bool) (s : Store V) (e : EntityId) : GraphTx V :=
  match s.current e with
  | none => tx
  | some x =>
    if tx.isUpdated e || tx.isCreated e || tx.isDeleted e then tx
    else { tx with updated := tx.updated ++ [(e, .ofUpdate caps head x (s.history e))] }

/-- `materializeDeletedNodeHistoryLocked`: the first trim snapshot of the node. -/
def materializeNode (id : Nat) (history : List (Stored V)) :
    List (DeletedNode V) → List (DeletedNode V)
  | [] => []
  | d :: ds =>
    if d.id = id ∧ d.node.useHistoryTrim = true then
      { d with node := d.node.materialize history } :: ds
    else d :: materializeNode id history ds

/-- The snapshots of one relationship made whole. -/
def materializeRels (id : Nat) (history : List (Stored V)) (rels : List (Nat × Snapshot V)) :
    List (Nat × Snapshot V) :=
  rels.map fun r => if r.1 = id then (r.1, r.2.materialize history) else r

/-- `materializeDeletedNodeHistoryLocked`, `materializeDeletedRelHistoryLocked`. -/
def materialize (s : Store V) : EntityId → GraphTx V
  | .node id => { tx with deletedNodes := materializeNode id (s.history (.node id)) tx.deletedNodes }
  | .rel id => { tx with
      deletedRels := materializeRels id (s.history (.rel id)) tx.deletedRels
      deletedNodes := tx.deletedNodes.map fun d =>
        { d with rels := materializeRels id (s.history (.rel id)) d.rels } }

end GraphTx

/-! ## The calls -/

/-- Whether the `GraphTx` method of a door takes the update snapshot: `UpdateNode` and
`UpdateRelationship` not for a read, the label methods not when their preflight ends the call, the
excises not for a wrong interval. -/
def NodeEvent.takesSnapshot [DecidableEq V] (cfg : DoorConfig) (st : NodeState V) :
    NodeEvent V → Bool
  | .update patch vf vt prov _ =>
    match extractTemporalTracked cfg.core.axis (vf.map (·.map Int64.toInt))
        (vt.map (·.map Int64.toInt)) with
    | .error _ => false
    | .ok tmp =>
      if patch.isEmpty && vf.isNone && vt.isNone && !prov then false
      else prov || tmp.present || NodeState.wholeAxisUntimedUpdate cfg tmp ||
        st.current.any (nodePropertyUpdatesMutate · patch)
  | .replaceVersion .. => true
  | .changeLabel lop _ =>
    st.current.any fun current =>
      if cfg.core.axis = .literal ∧ st.nodeWholeAxis cfg current = false then true
      else current.labels.contains lop.tok != lop.add &&
        (applyNodeLabelOp cfg current.labels (some lop)).isOk &&
        cfg.core.axis.isOpen (current.validTo cfg.core.axis)
  | .setInterval .. => true
  | .excise vf vt _ =>
    cfg.core.axis.claimed vf.toInt &&
      (cfg.core.axis.isOpen vt.toInt || decide (vf.toInt < vt.toInt))
  | _ => false

/-- The door creates. -/
def NodeEvent.isCreate : NodeEvent V → Bool
  | .add .. => true
  | .reimport .. => true
  | _ => false

/-- The door creates under the caller's ID. -/
def NodeEvent.isImport : NodeEvent V → Bool
  | .reimport .. => true
  | _ => false

/-- A call of a transaction; `head` tells whether the chain it updates has a valid head entry. -/
structure TxCall (V : Type) where
  door : Door V
  head : Bool

namespace GraphTx

variable [DecidableEq V] (cfg : GraphConfig) (caps : TxCaps)

/-- What a call records before its door writes: the snapshot of an update, or the whole histories of
an ID it imports again. -/
def before (p : Primary V) (tx : GraphTx V) (c : TxCall V) : GraphTx V :=
  match c.door with
  | .chain e _ ev =>
    if e.accepts ev && ev.takesSnapshot (cfg.forEntity e) (p.store.chainState p.clock e) then
      tx.snapshotCurrent caps c.head p.store e
    else if ev.isImport && tx.isDeleted e then tx.materialize p.store e
    else tx
  | _ => tx

omit [DecidableEq V] in
/-- What a call records after its door has written: a create, or a delete with the snapshots of the
store `s` before it. -/
def after (s s' : Store V) (tx : GraphTx V) (d : Door V) : GraphTx V :=
  match d with
  | .chain e _ ev =>
    match s.current e, s'.current e with
    | none, some x => if ev.isCreate then tx.trackCreated e x.version else tx
    | _, _ => tx
  | .deleteNode id _ _ =>
    match s.current (.node id), s'.current (.node id) with
    | some x, none => { tx with deletedNodes := tx.deletedNodes ++
        [⟨id, .ofDelete caps x (s.history (.node id)),
          (s.cascadedRels id).map fun r => (r.1, .ofDelete caps r.2 (s.history (.rel r.1)))⟩] }
    | _, _ => tx
  | .deleteRel id _ _ =>
    match s.current (.rel id), s'.current (.rel id) with
    | some x, none => { tx with deletedRels := tx.deletedRels ++
        [(id, .ofDelete caps x (s.history (.rel id)))] }
    | _, _ => tx
  | _ => tx

/-- A call of the open transaction. -/
def call (st : Primary V × GraphTx V) (c : TxCall V) : Primary V × GraphTx V :=
  let p' := st.1.step cfg (.txCall c.door)
  (p', after caps st.1.store p'.store (before cfg caps st.1 st.2 c) c.door)

end GraphTx

/-! ## The restores -/

/-- An undo: the store after it, and the error it returns. -/
abbrev Undo (V : Type) := Store V → Store V × Option StoreError

namespace Undo

/-- A store call. -/
def ofCall (c : StoreCall V) : Undo V := fun s =>
  match s.call c with
  | .ok (s', _) => (s', none)
  | .error e => (s, some e)

/-- Nothing to undo. -/
def skip : Undo V := fun s => (s, none)

/-- An undo that fails. -/
def fail (e : StoreError) : Undo V := fun s => (s, some e)

/-- `v` after `u`, unless `u` fails. -/
def andThen (u v : Undo V) : Undo V := fun s =>
  match u s with
  | (s', none) => v s'
  | (s', some e) => (s', some e)

/-- The store calls in order, up to the first that fails. -/
def ofCalls : List (StoreCall V) → Undo V
  | [] => skip
  | c :: cs => (ofCall c).andThen (ofCalls cs)

/-- All undos in order, with the first error (`capture`). -/
def captured : List (Undo V) → Undo V
  | [] => skip
  | u :: us => fun s =>
    let r := u s
    let r' := captured us r.1
    (r'.1, r.2.or r'.2)

end Undo

section Restores

variable (caps : TxCaps) (e : EntityId)

/-- `PutNodeVersion`, `PutRelVersion` of every row. -/
def putVersions (rows : List (Stored V)) : List (StoreCall V) :=
  rows.map fun r => .putVersion e r.version r

/-- `restoreNodeHistory`, `restoreRelHistory`. -/
def restoreHistory (history : List (Stored V)) : Undo V :=
  Undo.ofCalls (.truncateHistory e 0 :: putVersions e history)

/-- `restoreNodeHistoryFrom`, `restoreRelHistoryFrom`. -/
def restoreHistoryFrom (start : Nat) (above : List (Stored V)) : Undo V := fun s =>
  if caps.historyTrim then Undo.ofCalls (.trimHistoryFrom e start :: putVersions e above) s
  else restoreHistory e (historyBefore (s.history e) start ++ above) s

/-- `removeNodeTxRows`, `removeRelTxRows`; `keepTo + 1` is a `uint32`. -/
def removeTxRows (start keepTo : Nat) : Undo V := fun s =>
  if caps.historyTrim = false then restoreHistory e (keepPreTxRows (s.history e) start keepTo) s
  else if keepTo ≤ start then Undo.ofCall (.trimHistoryFrom e start) s
  else
    (Undo.ofCall (.trimHistoryFrom e ((keepTo + 1) % (maxUint32 + 1)))).andThen (fun s =>
      if (s.history e).any fun r => r.version == start then
        Undo.ofCalls (.trimHistoryFrom e start ::
          putVersions e ((s.history e).filter fun r => decide (start < r.version))) s
      else (s, none)) s

/-- `restoreDeletedNodeHistory`, `restoreDeletedRelHistory`. -/
def restoreDeletedHistory (snap : Snapshot V) : Undo V :=
  if snap.useHistoryTrim then restoreHistoryFrom caps e snap.historyTrimFrom snap.above
  else restoreHistory e snap.history

/-- `restoreNodeSnapshotHistory`, `restoreRelSnapshotHistory`. -/
def restoreSnapshotHistory (snap : Snapshot V) : Undo V :=
  if snap.useHistoryTrim && !snap.above.isEmpty then
    restoreHistoryFrom caps e snap.historyTrimFrom snap.above
  else if snap.useHistoryTrim then removeTxRows caps e snap.historyTrimFrom snap.historyKeepTo
  else restoreHistory e snap.history

/-- `removeCreatedNodeHistory`, `removeCreatedRelHistory`. -/
def removeCreatedHistory (start : Nat) : Undo V := fun s =>
  if start = 0 then Undo.ofCall (.truncateHistory e 0) s
  else if caps.historyTrim then Undo.ofCall (.trimHistoryFrom e start) s
  else restoreHistory e (historyBefore (s.history e) start) s

/-! ### Labels -/

/-- `commonLabelPrefix`. -/
def commonLabelPrefix : List Nat → List Nat → Nat
  | a :: l, b :: m => if a = b then commonLabelPrefix l m + 1 else 0
  | _, _ => 0

/-- The change of one turn of `restoreNodeLabels`; `none` when the turn returns an error. -/
def nextLabelOp (labels target : List Nat) : Option LabelOp :=
  let k := commonLabelPrefix labels target
  if (target[k]?).any fun tok => !labels.contains tok then (target[k]?).map (⟨·, true⟩)
  else if k = 0 ∧ labels.head? ≠ target.head? then
    match target.head? with
    | none => none
    | some primary => (labels[if 1 < labels.idxOf primary then 1 else 0]?).map (⟨·, false⟩)
  else if labels.length ≤ k ∨ labels.length = 1 then none
  else (labels[k]?).map (⟨·, false⟩)

/-- The working copy with the change. -/
def Stored.changeLabel (x : Stored V) (lop : LabelOp) : Stored V :=
  { x with row := { x.row with
    labels := if lop.add then x.row.labels ++ [lop.tok] else x.row.labels.filter (· != lop.tok) } }

/-- The loop of `restoreNodeLabels`.  Every turn adds the next missing label of the target or takes a
label away, so the labels of the row and twice those of the target bound the turns. -/
def restoreLabelsLoop (id : Nat) (target : Stored V) : Nat → Stored V → Undo V
  | 0, _ => .fail .errInvalidStoreMutation
  | fuel + 1, working =>
    if working.row.labels = target.row.labels then .skip
    else
      match nextLabelOp working.row.labels target.row.labels with
      | none => .fail .errInvalidStoreMutation
      | some lop =>
        (Undo.ofCall (.changeNodeLabelToken id lop (working.changeLabel lop))).andThen
          (restoreLabelsLoop id target fuel (working.changeLabel lop))

/-- `restoreNodeLabels`, when the labels differ. -/
def restoreNodeLabels (id : Nat) (current target : Stored V) : Undo V :=
  if target.row.labels.isEmpty then .fail .errInvalidStoreMutation
  else restoreLabelsLoop id target
    (current.row.labels.length + 2 * target.row.labels.length + 1) current

/-- The labels and then the row of a node that is there. -/
def replaceNodeRow (id : Nat) (current x : Stored V) : Undo V :=
  (if current.row.labels = x.row.labels then Undo.skip else restoreNodeLabels id current x).andThen
    (Undo.ofCall (.replace (.node id) x))

/-! ### Rows -/

/-- `restoreDeletedNodeRow`, `restoreDeletedRelRow`. -/
def restoreDeletedRow (x : Stored V) : Undo V := fun s =>
  match s.current e with
  | none => Undo.ofCall (.put e x) s
  | some current =>
    match e with
    | .node id => replaceNodeRow id current x s
    | .rel id =>
      -- `sameRelationshipIndexFields`
      if current.row.labels = x.row.labels ∧ current.ends = x.ends then
        Undo.ofCall (.replace (.rel id) x) s
      else Undo.ofCalls [.deleteRelationship id, .put (.rel id) x] s

/-- `restoreUpdatedNode`, and `replaceRelationshipScopedAwareToken` of phase 4. -/
def restoreUpdatedRow (x : Stored V) : Undo V := fun s =>
  match e with
  | .node id =>
    match s.current (.node id) with
    | none => (s, some .errNodeNotFound)
    | some current => replaceNodeRow id current x s
  | .rel id => Undo.ofCall (.replace (.rel id) x) s

/-- `undoRelationshipCreate`, `deleteNodeCascadeScopedAware`. -/
def undoCreate : EntityId → Undo V
  | .node id => Undo.ofCall (.deleteNodeCascade id)
  | .rel id => Undo.ofCall (.deleteRelationship id)

end Restores

/-! ## Rollback -/

/-- One record of the undo log. -/
inductive UndoEntry (V : Type) where
  | deleted (e : EntityId) (snap : Snapshot V)
  | updated (e : EntityId) (snap : Snapshot V)
  | created (e : EntityId) (version : Nat)

/-- The row and the history of a record, as two restores. -/
def UndoEntry.restores (caps : TxCaps) : UndoEntry V → List (Undo V)
  | .deleted e snap => [restoreDeletedRow e snap.prev, restoreDeletedHistory caps e snap]
  | .updated e snap => [restoreUpdatedRow e snap.prev, restoreSnapshotHistory caps e snap]
  | .created e version => [undoCreate e, removeCreatedHistory caps e version]

/-- A relationship's ID. -/
def EntityId.isRel : EntityId → Bool
  | .node _ => false
  | .rel _ => true

namespace GraphTx

variable (tx : GraphTx V)

/-- The updated entities of one kind, the newest first. -/
def updatedEntries (isRel : Bool) : List (UndoEntry V) :=
  (tx.updated.filter fun u => u.1.isRel == isRel).reverse.map fun u => .updated u.1 u.2

/-- The created entities of one kind, the newest first. -/
def createdEntries (isRel : Bool) : List (UndoEntry V) :=
  (tx.created.filter fun c => c.1.isRel == isRel).reverse.map fun c => .created c.1 c.2

/-- The deleted nodes, the newest first. -/
def nodeEntries : List (UndoEntry V) :=
  tx.deletedNodes.reverse.map fun d => .deleted (.node d.id) d.node

/-- The relationships the node deletes cascaded to. -/
def cascadeEntries : List (UndoEntry V) :=
  tx.deletedNodes.reverse.flatMap fun d => d.rels.map fun r => .deleted (.rel r.1) r.2

/-- The relationships deleted on their own, the newest first. -/
def relEntries : List (UndoEntry V) :=
  tx.deletedRels.reverse.map fun d => .deleted (.rel d.1) d.2

/-- The records in the order `Rollback` takes them. -/
def undoEntries : List (UndoEntry V) :=
  tx.nodeEntries ++ (tx.cascadeEntries ++ (tx.relEntries ++ (tx.updatedEntries true ++
    (tx.updatedEntries false ++ (tx.createdEntries true ++ tx.createdEntries false)))))

/-- `GraphTx.Rollback`. -/
def rollback (caps : TxCaps) : Undo V := .captured (tx.undoEntries.flatMap (·.restores caps))

end GraphTx

end RhoTkg
