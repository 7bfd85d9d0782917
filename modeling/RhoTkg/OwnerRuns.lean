import RhoTkg.OwnerIndex

/-!
# The owner index over whole runs

A graph on a store with an owner index: the calls of `UniqueGraph`, whose kernel now looks the holders of a
value up in the index and claims the values of the row before the row is written, and the batch creates.
A claim can fail, and then the call is refused with the claims before it put; a store write can fail after
the claims, and then its row is not stored.

`Rollback` brings rows back without a claim, where the rollback of an import or a merge claims the values of
its rows again.  When another node has claimed a value since the transaction freed it, the index names that
node and misses the one the value came back to (`freed_claim_taken`).  In the runs in which at every rollback
the values the undo log brings back were last claimed by the nodes they come back to, the index misses no
holder (`owner_index_covers`).
-/

namespace RhoTkg

open List Function

/-- How a call ends that the kernel has let pass: another check refuses it, a claim fails after the claims
`put`, a store call fails after `written` others and stores nothing, or the call succeeds. -/
inductive CallOutcome where
  | refused
  | claimFailed (put : UniqueCheck → Bool)
  | writeFailed (written : Nat)
  | done

/-- A create of a batch.  With `claimFailed` one of its claims fails, after those given. -/
structure PendingNode where
  id : Nat
  labels : List Nat
  props : List (Nat × Value)
  vf : Option Int64
  vt : Option Int64
  wall : Int64
  claimFailed : Option (UniqueCheck → Bool)

/-- The create as a door, at a wall clock. -/
def PendingNode.door (pn : PendingNode) (wall : Int64) : Door Value :=
  .chain (.node pn.id) none (.add (newNodeLabels pn.labels) pn.props pn.vf pn.vt wall)

/-- A create with its store call. -/
structure NodeCreate where
  pending : PendingNode
  wall : Int64
  calls : List (RoutedCall Value)

/-- A graph on a store with an owner index. -/
structure OwnerGraph extends UniqueGraph where
  index : OwnerIndex

/-- The calls. -/
inductive OwnerEvent where
  | call (d : Door Value) (o : CallOutcome)
  | batch (pending : List PendingNode) (wall : Int64) (writeFailed : Bool)
  | beginTx (wall : Int64)
  | txCall (c : TxCall Value) (o : CallOutcome)
  | txAddNodes (pending : List PendingNode) (o : CallOutcome)
  | commit
  | rollback

/-! ## The creates of a batch -/

namespace Primary

variable (cfg : GraphConfig)

/-- The creates of `Batch.Execute`: all rows get one transaction time. -/
def executeCreates (p : Primary Value) (wall : Int64) (pending : List PendingNode) : List NodeCreate :=
  pending.map fun pn => ⟨pn, wall, (p.doorCalls cfg (pn.door wall)).2⟩

/-- The creates of `GraphTx.AddNodes`: every node draws on the clock. -/
def addNodesCreates : Primary Value → List PendingNode → Clock × List NodeCreate
  | p, [] => (p.clock, [])
  | p, pn :: rest =>
    let r := p.doorCalls cfg (pn.door pn.wall)
    let r' := addNodesCreates { p with clock := r.1 } rest
    (r'.1, ⟨pn, pn.wall, r.2⟩ :: r'.2)

/-- The store write of one create. -/
def putNode (token : Nat) (p : Primary Value) (n : NodeCreate) : Option (Primary Value) :=
  n.calls.foldlM (fun p c => p.runCall token c) p

/-- `PutNodesBatch`: all rows or none. -/
def putNodesBatch (token : Nat) (p : Primary Value) (creates : List NodeCreate) : Option (Primary Value) :=
  creates.foldlM (putNode token) p

/-- `PutNodesBatch` in a transaction, which records every create. -/
def putNodesTx (caps : TxCaps) (token : Nat) (q : Primary Value × GraphTx Value)
    (creates : List NodeCreate) : Option (Primary Value × GraphTx Value) :=
  creates.foldlM (fun q n => (q.1.putNode token n).map fun p =>
    (p, GraphTx.after caps q.1.store p.store q.2 (n.pending.door n.wall))) q

end Primary

/-- The kernel's lookup in a batch: a value that an earlier create of the batch has is refused. -/
def seenJudge (seen : List (OwnedValue × Nat)) (judge : UniqueCheck → Option UniqueError)
    (ck : UniqueCheck) : Option UniqueError :=
  ((seen.find? (·.1 == ck.ownedValue)).map fun s => .violation s.2).or (judge ck)

namespace OwnerGraph

variable (cfg : GraphConfig) (caps : TxCaps) (reg : List UniqueConstraint) (st : OwnerGraph)

/-- The lookup of the kernel: the owner index answers for a key under a `UniqueCurrent` constraint. -/
def judge (oi : OwnerIndex) (selfID : Nat) (ck : UniqueCheck) : Option UniqueError :=
  if ck.scope = .current then
    ((oi.nodesByOwnerIndex st.nodes ck.label ck.key ck.raw).find? (· != selfID)).map .violation
  else st.toUniqueGraph.judge selfID ck

/-- A door with its check and its claims. -/
def runDoor (token : Nat) (d : Door Value) (o : CallOutcome) : Primary Value × OwnerIndex :=
  let r := st.graph.doorCalls cfg d.newNode
  let graph := { st.graph with clock := r.1 }
  match st.graph.enforceUnique cfg reg (st.judge st.index) d.newNode with
  | .error _ => (graph, st.index)
  | .ok cks =>
    let id := d.newNode.nodeID.getD 0
    match o with
    | .refused => (graph, st.index)
    | .claimFailed put => (graph, st.index.claimAll id (cks.filter put))
    | .writeFailed written =>
      (graph.runCalls token (r.2.dropLast.take written), st.index.claimAll id cks)
    | .done => (graph.runCalls token r.2, st.index.claimAll id cks)

/-- The state of the partition of a batch. -/
structure Partition where
  index : OwnerIndex
  seen : List (OwnedValue × Nat)
  survivors : List NodeCreate

/-- One create of the partition: the check, then the claims. -/
def partitionNode (b : Partition) (n : NodeCreate) : Partition :=
  match slotRow n.calls with
  | none => b
  | some row =>
    match enforceUniqueForNode reg (seenJudge b.seen (st.judge b.index n.pending.id)) row none with
    | .error _ => b
    | .ok cks =>
      match n.pending.claimFailed with
      | some put => { b with index := b.index.claimAll n.pending.id (cks.filter put) }
      | none =>
        ⟨b.index.claimAll n.pending.id cks, cks.map (fun ck => (ck.ownedValue, n.pending.id)) ++ b.seen,
          b.survivors ++ [n]⟩

/-- `partitionBatchNodesByUnique`. -/
def partitionBatchNodesByUnique (creates : List NodeCreate) : Partition :=
  creates.foldl (st.partitionNode reg) ⟨st.index, [], []⟩

/-- `enforceUniqueForNodes` up to the claims: every value of every node is checked first. -/
def enforceUniqueForNodes (seen : List (OwnedValue × Nat)) :
    List NodeCreate → Except UniqueError (List (NodeCreate × List UniqueCheck))
  | [] => .ok []
  | n :: ns =>
    match slotRow n.calls with
    | none => enforceUniqueForNodes seen ns
    | some row =>
      match enforceUniqueForNode reg (seenJudge seen (st.judge st.index n.pending.id)) row none with
      | .error e => .error e
      | .ok cks =>
        match enforceUniqueForNodes (cks.map (fun ck => (ck.ownedValue, n.pending.id)) ++ seen) ns with
        | .error e => .error e
        | .ok checked => .ok ((n, cks) :: checked)

end OwnerGraph

/-- The claims of `enforceUniqueForNodes`. -/
def OwnerIndex.claimNodes (oi : OwnerIndex) (checked : List (NodeCreate × List UniqueCheck)) : OwnerIndex :=
  checked.foldl (fun oi n => oi.claimAll n.1.pending.id n.2) oi

namespace OwnerGraph

variable (cfg : GraphConfig) (caps : TxCaps) (reg : List UniqueConstraint) (st : OwnerGraph)

/-- `GraphTx.AddNodes` on a store whose transactions have no scope: one batch, all or nothing. -/
def addNodes (tx : GraphTx Value) (pending : List PendingNode) (o : CallOutcome) : OwnerGraph :=
  let r := st.graph.addNodesCreates cfg pending
  let graph := { st.graph with clock := r.1 }
  match st.enforceUniqueForNodes reg [] r.2 with
  | .error _ => { st with graph := graph }
  | .ok checked =>
    match if r.2.all (fun n => (slotRow n.calls).isSome) then o else .refused with
    | .refused => { st with graph := graph }
    | .claimFailed put => { st with
        graph := graph
        index := st.index.claimNodes (checked.map fun n => (n.1, n.2.filter put)) }
    | .writeFailed _ => { st with graph := graph, index := st.index.claimNodes checked }
    | .done =>
      match Primary.putNodesTx caps st.token (graph, tx) r.2 with
      | none => { st with graph := graph, index := st.index.claimNodes checked }
      | some q =>
        { graph := q.1
          ids := pending.map (·.id) ++ st.ids
          tx := some q.2
          index := st.index.claimNodes checked }

/-- One call. -/
def step : OwnerEvent → OwnerGraph
  | .call d o =>
    { st with
      graph := (st.runDoor cfg reg 0 d o).1
      ids := d.newNode.nodeID.toList ++ st.ids
      index := (st.runDoor cfg reg 0 d o).2 }
  | .batch pending wall writeFailed =>
    let graph := { st.graph with clock := (st.graph.clock.now wall.toInt).1 }
    let b := st.partitionBatchNodesByUnique reg (st.graph.executeCreates cfg wall pending)
    { st with
      graph := if writeFailed then graph else (graph.putNodesBatch 0 b.survivors).getD graph
      ids := pending.map (·.id) ++ st.ids
      index := b.index }
  | .beginTx wall =>
    match st.tx with
    | some _ => st
    | none => { st with
        graph := st.graph.step cfg (.beginTx wall)
        tx := some .new
        index := st.index.restart }
  | .txCall c o =>
    match st.tx with
    | none => st
    | some tx =>
      if c.door.newNode.inTx then
        let r := st.runDoor cfg reg st.token c.door o
        { graph := r.1
          ids := c.door.newNode.nodeID.toList ++ st.ids
          tx := some (GraphTx.after caps st.graph.store r.1.store
            (GraphTx.before cfg caps st.graph tx ⟨c.door.newNode, c.head⟩) c.door.newNode)
          index := r.2 }
      else st
  | .txAddNodes pending o =>
    match st.tx with
    | none => st
    | some tx => st.addNodes cfg caps reg tx pending o
  | .commit =>
    match st.tx with
    | none => st
    | some _ => { st with graph := st.graph.step cfg .commit, tx := none }
  | .rollback =>
    match st.tx with
    | none => st
    | some tx =>
      { st with
        graph := { st.graph with
          store := (tx.rollback caps st.graph.store).1
          log := st.graph.log.discardScopedLog st.token
          scopeToken := none }
        tx := none }

/-- At a rollback: the values the undo log brings back were last claimed, since `BeginTx`, by the nodes
they come back to, if at all. -/
def keepsOwners : OwnerEvent → Bool
  | .rollback => st.ids.all fun b => (st.undoRow b).all fun row =>
      reg.all fun c => c.scope != .current || (row.binds c.label c.key).all fun k =>
        (st.index.lastClaim (c.label, c.key, k)).all (· == b)
  | _ => true

/-! ## The invariant -/

/-- The nodes the undo log describes are known, and a value of theirs that was not claimed since `BeginTx` is
claimed by the node. -/
structure Undoes (reg : List UniqueConstraint) (ids : List Nat) (oi : OwnerIndex)
    (rolled : Nat → Option (Stored Value)) : Prop where
  known : ∀ id, rolled id ≠ none → id ∈ ids
  claims : ∀ c ∈ reg, c.scope = .current → ∀ id x k, rolled id = some x →
    x.row.binds c.label c.key = some k → oi.lastClaim (c.label, c.key, k) = none →
      oi.claims (c.label, c.key, k) = some id

/-- The index covers the current nodes, and but for the claims since `BeginTx` also those the undo log
describes. -/
structure Inv : Prop where
  rows : NodesOk st.nodes
  known : ∀ id, st.nodes id ≠ none → id ∈ st.ids
  covers : st.index.Covers reg st.nodes
  last : ∀ k id, st.index.lastClaim k = some id → st.index.claims k = some id
  records : ∀ tx, st.tx = some tx → ∀ a ∈ tx.undoEntries, a.RowOk
  undoes : ∀ tx, st.tx = some tx → Undoes reg st.ids st.index (rolledRow tx.undoEntries st.nodes)

variable {cfg caps reg st}

/-! ## The claims of a call -/

variable {id token : Nat} {cks : List UniqueCheck} {oi : OwnerIndex}
  {f : Nat → Option (Stored Value)} {ids : List Nat} {graph p p' : Primary Value}
  {tx : GraphTx Value} {judge : UniqueCheck → Option UniqueError} {row : Row Value} {n : NodeCreate}
  {seen : List (OwnedValue × Nat)} {creates ns : List NodeCreate}
  {checked : List (NodeCreate × List UniqueCheck)}

/-- A claim of a value that no other node holds. -/
theorem Inv.put (h : Inv reg st) {k : OwnedValue}
    (hfree : ∀ b y, b ≠ id → st.nodes b = some y → y.row.binds k.1 k.2.1 ≠ some k.2.2) :
    Inv reg { st with index := st.index.put id k } := by
  refine ⟨h.rows, h.known, h.covers.put hfree, fun k' b hlast => ?_, h.records, fun tx htx => ?_⟩
  · rw [OwnerIndex.lastClaim_put] at hlast
    rw [OwnerIndex.claims_put]
    split at hlast
    · rw [if_pos ‹_›]
      exact hlast
    · rw [if_neg ‹_›]
      exact h.last k' b hlast
  · refine ⟨(h.undoes tx htx).known, fun c hc hscope b y vk hy hvk hlast => ?_⟩
    rw [OwnerIndex.lastClaim_put] at hlast
    rw [OwnerIndex.claims_put]
    split at hlast
    · cases hlast
    · rw [if_neg ‹_›]
      exact (h.undoes tx htx).claims c hc hscope b y vk hy hvk hlast

/-- The values of the checks that would be claimed are held by no other node. -/
def Free (nodes : Nat → Option (Stored Value)) (id : Nat) (cks : List UniqueCheck) : Prop :=
  ∀ ck ∈ cks, ck.scope = .current → ck.unchanged = false → ∀ b y, b ≠ id → nodes b = some y →
    y.row.binds ck.label ck.key ≠ some ck.valueKey

theorem Free.filter {nodes : Nat → Option (Stored Value)} (h : Free nodes id cks)
    (p : UniqueCheck → Bool) : Free nodes id (cks.filter p) :=
  fun ck hck => h ck (mem_filter.mp hck).1

theorem Inv.claimAll (h : Inv reg st) (hfree : Free st.nodes id cks) :
    Inv reg { st with index := st.index.claimAll id cks } := by
  refine @foldlRecOn _ _ (fun oi => Inv reg { st with index := oi }) _ _ _ h fun _ h k hk => h.put ?_
  obtain ⟨ck, hck, rfl⟩ := mem_map.mp hk
  obtain ⟨hck, hclaimed⟩ := mem_filter.mp hck
  rw [Bool.and_eq_true, beq_iff_eq, Bool.not_eq_true'] at hclaimed
  exact hfree ck hck hclaimed.1 hclaimed.2

/-- A value that the index was asked for has no other holder. -/
theorem judge_eq_none (hcovers : oi.Covers reg st.nodes) {ck : UniqueCheck}
    (hck : Checked reg (st.judge oi id) ck) (hscope : ck.scope = .current)
    (hun : ck.unchanged = false) {b : Nat} {y : Stored Value} (hb : b ≠ id)
    (hy : st.nodes b = some y) : y.row.binds ck.label ck.key ≠ some ck.valueKey := by
  intro hk
  obtain ⟨c, hc, hlabel, hkey, hcscope⟩ := hck.constraint
  obtain ⟨hmem, w, hw, hwk⟩ := binds_eq_some.mp hk
  obtain ⟨stored, hstored, hform⟩ := mem_equalIndexKeys hck.raw hwk hck.float
  have hfound : b ∈ oi.nodesByOwnerIndex st.nodes ck.label ck.key ck.raw := by
    rw [hlabel, hkey]
    refine (hcovers.mem_nodesByOwnerIndex hc (hcscope ▸ hscope) ck.raw b).mpr ?_
    exact ⟨y, w, stored, hy, hlabel ▸ hmem, hkey ▸ hw, hstored, hform⟩
  have hjudge := hck.judged hun
  rw [judge, if_pos hscope, Option.map_eq_none_iff, find?_eq_none] at hjudge
  exact hjudge b hfound (by simpa using hb)

/-! ## The writes of a call -/

/-- Every value of the row is claimed by the node. -/
def Owned (reg : List UniqueConstraint) (oi : OwnerIndex) (id : Nat) (row : Row Value) : Prop :=
  ∀ c ∈ reg, c.scope = .current → ∀ k, row.binds c.label c.key = some k →
    oi.claims (c.label, c.key, k) = some id

/-- What a write does to the nodes: nothing, or it deletes one, or it gives one a row whose values it has
claimed. -/
inductive Written (reg : List UniqueConstraint) (st : OwnerGraph) (ids : List Nat) (s' : Store Value) : Prop
  | same (hnodes : s'.nodes = st.nodes)
  | deleted {id : Nat} (hnodes : s'.nodes = Function.update st.nodes id none)
  | stored {id : Nat} {x : Stored Value} (hid : id ∈ ids)
      (hnodes : s'.nodes = Function.update st.nodes id (some x)) (hrow : NodeRowOk id x)
      (howned : Owned reg st.index id x.row)

theorem update_none_or (b : Nat) :
    Function.update f id none b = none ∨ Function.update f id none b = f b := by
  by_cases hb : b = id
  · exact .inl (by rw [hb, update_self])
  · exact .inr (update_of_ne hb _ _)

/-- The current nodes after a write. -/
theorem Inv.nodes_written (h : Inv reg st) {s' : Store Value} (hids : st.ids ⊆ ids)
    (hw : Written reg st ids s') :
    NodesOk s'.nodes ∧ (∀ id, s'.nodes id ≠ none → id ∈ ids) ∧ st.index.Covers reg s'.nodes := by
  cases hw with
  | same hnodes =>
    rw [hnodes]
    exact ⟨h.rows, fun id hne => hids (h.known id hne), h.covers⟩
  | deleted hnodes =>
    rw [hnodes]
    refine ⟨h.rows.update (fun _ h => nomatch h), fun b hb => hids (h.known b fun hnone => hb ?_),
      h.covers.mono fun b => update_none_or b⟩
    rcases update_none_or b with heq | heq
    · exact heq
    · rw [heq, hnone]
  | @stored id x hid hnodes hrow howned =>
    rw [hnodes]
    refine ⟨h.rows.update fun y hy => Option.some.inj hy ▸ hrow, fun b hb => ?_, h.covers.update howned⟩
    by_cases heq : b = id
    · rw [heq]
      exact hid
    · rw [update_of_ne heq] at hb
      exact hids (h.known b hb)

theorem Undoes.mono {ids' : List Nat} {g : Nat → Option (Stored Value)} (h : Undoes reg ids oi f)
    (hids : ids ⊆ ids') (hg : ∀ id, g id = none ∨ g id = f id) : Undoes reg ids' oi g := by
  refine ⟨fun id hne => hids (h.known id ((hg id).resolve_left hne ▸ hne)),
    fun c hc hscope id x k hx hk hlast => ?_⟩
  rcases hg id with hnone | heq
  · cases hnone.symm.trans hx
  · exact h.claims c hc hscope id x k (heq ▸ hx) hk hlast

/-- A write outside the transaction. -/
theorem Inv.write (h : Inv reg st) (hids : st.ids ⊆ ids) (hw : Written reg st ids graph.store) :
    Inv reg { st with graph := graph, ids := ids } := by
  obtain ⟨hrows, hknown, hcovers⟩ := h.nodes_written hids hw
  refine ⟨hrows, hknown, hcovers, h.last, h.records, fun tx htx => ?_⟩
  have hold := h.undoes tx htx
  show Undoes reg ids st.index (rolledRow tx.undoEntries graph.store.nodes)
  cases hw with
  | same hnodes =>
    rw [hnodes]
    exact hold.mono hids fun _ => .inr rfl
  | @deleted id hnodes =>
    rw [hnodes]
    refine hold.mono hids fun b => ?_
    rcases UniqueGraph.rolledRow_update tx.undoEntries st.nodes id none with ⟨-, hroll⟩ | ⟨-, hroll⟩
    · exact .inr (congrFun hroll b)
    · rw [congrFun hroll b]
      exact update_none_or b
  | @stored id x hid hnodes hrow howned =>
    rw [hnodes]
    rcases UniqueGraph.rolledRow_update tx.undoEntries st.nodes id (some x) with ⟨-, hroll⟩ | ⟨-, hroll⟩
    · exact hold.mono hids fun b => .inr (congrFun hroll b)
    · rw [hroll]
      refine ⟨fun b hb => ?_, fun c hc hscope b y k hy hk hlast => ?_⟩
      · by_cases heq : b = id
        · rw [heq]
          exact hid
        · rw [update_of_ne heq] at hb
          exact hids (hold.known b hb)
      · by_cases heq : b = id
        · subst heq
          rw [update_self, Option.some.injEq] at hy
          subst hy
          exact howned c hc hscope k hk
        · rw [update_of_ne heq] at hy
          exact hold.claims c hc hscope b y k hy hk hlast

/-- A write of the transaction. -/
theorem Inv.txWrite (h : Inv reg st) {tx' : GraphTx Value} (htx : st.tx = some tx)
    (hids : st.ids ⊆ ids) (hw : Written reg st ids graph.store)
    (hrec : NodesRecorded st.graph.store graph.store tx tx') :
    Inv reg { st with graph := graph, ids := ids, tx := some tx' } := by
  obtain ⟨hrows, hknown, hcovers⟩ := h.nodes_written hids hw
  refine ⟨hrows, hknown, hcovers, h.last, fun tx'' htx'' => ?_, fun tx'' htx'' => ?_⟩
  · cases htx''
    exact hrec.rows h.rows (h.records tx htx)
  · cases htx''
    exact (h.undoes tx htx).mono hids fun id => (hrec.rolled id).symm

/-! ## The doors -/

/-- After the claims of a call every value of the judged row is claimed by the node. -/
theorem owned_claimAll {prev : Option (Row Value)} (hprev : ∀ p, prev = some p → Owned reg oi id p)
    (hjudged : Judged reg judge cks prev row) : Owned reg (oi.claimAll id cks) id row := by
  intro c hc hscope k hk
  rcases hjudged c hc k hk with ⟨p, hp, hpk⟩ | ⟨ck, hck, hlabel, hkey, -, hval, hckscope, hun, -⟩
  · rcases oi.claims_claimAll id cks (c.label, c.key, k) with
      ⟨hclaim, -⟩ | ⟨hclaim, -⟩
    · exact hclaim
    · rw [hclaim]
      exact hprev p hp c hc hscope k hpk
  · rcases oi.claims_claimAll id cks (c.label, c.key, k) with
      ⟨hclaim, -⟩ | ⟨-, hother⟩
    · exact hclaim
    · refine absurd ?_ (hother ck hck (hckscope.trans hscope) hun)
      rw [UniqueCheck.ownedValue, hlabel, hkey, hval]

/-- Calls that write history rows leave the nodes. -/
theorem nodes_runCalls_dropLast {cs : List (RoutedCall Value)} (hcs : HistoryThenSlot cs) (n : Nat)
    (p : Primary Value) (token : Nat) :
    (p.runCalls token (cs.dropLast.take n)).store.nodes = p.store.nodes := by
  have hputs : ∀ c ∈ cs.dropLast.take n, ∃ e version x, c.call = .putVersion e version x :=
    fun c hc => hcs c (mem_of_mem_take hc)
  rcases Primary.nodes_runCalls (p := p) (fun c hc => hputs c (mem_of_mem_dropLast hc)) token with
    hsame | ⟨c, t, hlast, ht, hafter⟩
  · exact hsame
  · obtain ⟨e, version, x, hput⟩ := hputs c (mem_of_getLast? hlast)
    rw [hput] at hafter
    rw [← ht]
    cases hafter with
    | same hnodes => exact hnodes
    | deleted hdel => cases hdel
    | slot hslot => cases hslot

/-- **A door** claims values that no other node holds, and what it writes it has claimed. -/
theorem Inv.runDoor (h : Inv reg st) (token : Nat) (d : Door Value) (o : CallOutcome) :
    Inv reg { st with index := (st.runDoor cfg reg token d o).2 } ∧
      Written reg { st with index := (st.runDoor cfg reg token d o).2 } (d.newNode.nodeID.toList ++ st.ids)
        (st.runDoor cfg reg token d o).1.store ∧
      ((st.runDoor cfg reg token d o).1.store.nodes = st.graph.store.nodes ∨
        (st.runDoor cfg reg token d o).1.store.nodes =
          (st.graph.runDoor cfg token d.newNode).store.nodes) := by
  unfold OwnerGraph.runDoor
  split
  · exact ⟨h, .same rfl, .inl rfl⟩
  rename_i cks hcheck
  have hfree : Free st.nodes (d.newNode.nodeID.getD 0) cks := by
    intro ck hck hscope hun b y hb hy
    obtain ⟨id, hid, hchecked⟩ := Primary.checked_of_enforceUnique hcheck ck hck
    rw [hid, Option.getD_some] at hb
    exact judge_eq_none h.covers hchecked hscope hun hb hy
  cases o with
  | refused => exact ⟨h, .same rfl, .inl rfl⟩
  | claimFailed put => exact ⟨h.claimAll (hfree.filter put), .same rfl, .inl rfl⟩
  | writeFailed written =>
    have hnodes := nodes_runCalls_dropLast (Primary.historyThenSlot_doorCalls cfg st.graph d.newNode) written
      { st.graph with clock := (st.graph.doorCalls cfg d.newNode).1 } token
    exact ⟨h.claimAll hfree, .same hnodes, .inl hnodes⟩
  | done =>
    refine ⟨h.claimAll hfree, ?_, .inr rfl⟩
    cases Primary.nodes_runDoor (fun id y hy => (h.rows id y hy).nodup) hcheck token with
    | same hnodes => exact .same hnodes
    | deleted hd hnodes => exact .deleted hnodes
    | @stored id x hd hnodes hrow hvalid hnodup hjudged =>
      refine .stored (by simp [hd]) hnodes ⟨hvalid, hnodup⟩ ?_
      rw [hd, Option.getD_some]
      refine owned_claimAll (fun p hp c hc hscope k hk => ?_) hjudged
      obtain ⟨z, hz, rfl⟩ := Option.map_eq_some_iff.mp hp
      exact h.covers c hc hscope id z k hz hk

/-! ## The creates of a batch -/

/-- The store call of a create: none, or the put of a row with distinct labels. -/
def CreateOk (n : NodeCreate) : Prop :=
  n.calls = [] ∨
    ∃ x : Stored Value, n.calls = [⟨.put (.node n.pending.id) x, true⟩] ∧ x.row.labels.Nodup

theorem createOk_doorCalls (p : Primary Value) (pn : PendingNode) (wall : Int64) :
    CreateOk ⟨pn, wall, (p.doorCalls cfg (pn.door wall)).2⟩ := by
  unfold CreateOk PendingNode.door Primary.doorCalls
  dsimp only
  split
  swap
  · exact .inl rfl
  split
  swap
  · exact .inl rfl
  generalize p.store.chainState p.clock (.node pn.id) = q
  cases hcur : q.current with
  | some current =>
    refine .inl (NodeState.storeCalls_of_sameRows (NodeState.sameRows_of_isCreate rfl ?_))
    rw [hcur]
    nofun
  | none =>
    unfold NodeState.storeCalls
    rw [hcur]
    cases hnew : (q.step (cfg.forEntity (.node pn.id)) (.add (newNodeLabels pn.labels) pn.props pn.vf pn.vt
      wall)).1.current with
    | none => exact .inl rfl
    | some new =>
      refine .inr ⟨_, rfl, ?_⟩
      show new.labels.Nodup
      rw [NodeState.labels_of_create hcur rfl hnew]
      exact nodup_newNodeLabels _

theorem createOk_executeCreates (p : Primary Value) (wall : Int64) (pending : List PendingNode) :
    ∀ n ∈ p.executeCreates cfg wall pending, CreateOk n ∧ n.pending ∈ pending := by
  intro n hn
  obtain ⟨pn, hpn, rfl⟩ := mem_map.mp hn
  exact ⟨createOk_doorCalls p pn wall, hpn⟩

theorem createOk_addNodesCreates (p : Primary Value) (pending : List PendingNode) :
    ∀ n ∈ (p.addNodesCreates cfg pending).2, CreateOk n ∧ n.pending ∈ pending := by
  induction pending generalizing p with
  | nil => exact fun _ hn => nomatch hn
  | cons pn rest ih =>
    intro n hn
    rcases mem_cons.mp hn with rfl | hn
    · exact ⟨createOk_doorCalls p pn pn.wall, mem_cons_self⟩
    · obtain ⟨hok, hmem⟩ := ih _ n hn
      exact ⟨hok, mem_cons_of_mem _ hmem⟩

/-- The write of a create: nothing, or the node gets the row. -/
theorem putNode_eq_some (hn : CreateOk n) (h : p.putNode token n = some p') :
    p'.store = p.store ∨ ∃ x, slotRow n.calls = some x.row ∧ NodeRowOk n.pending.id x ∧
      p.store.nodes n.pending.id = none ∧
      p'.store.nodes = Function.update p.store.nodes n.pending.id (some x) := by
  unfold Primary.putNode at h
  rcases hn with hnil | ⟨x, hput, hnodup⟩
  · rw [hnil] at h
    cases h
    exact .inl rfl
  · rw [hput] at h
    refine .inr ⟨x, by rw [hput]; rfl, ?_⟩
    obtain ⟨q, hq, h⟩ := Option.bind_eq_some_iff.mp h
    cases h
    obtain ⟨r, hcall⟩ := Primary.call_of_runCall hq
    generalize p'.store = s' at hcall ⊢
    cases Store.call_effect hcall with
    | putNode hvalid hnone => exact ⟨⟨hvalid, hnodup⟩, hnone, Store.nodes_setCurrent_node _ _ _⟩

/-! ## The checks of a batch -/

/-- What the check of one create says. -/
theorem create_checked (hcovers : oi.Covers reg st.nodes)
    (hcheck : enforceUniqueForNode reg (seenJudge seen (st.judge oi id)) row none = .ok cks) :
    Free st.nodes id cks ∧ ∀ ck ∈ cks, ck.unchanged = false → ck.ownedValue ∉ seen.map (·.1) := by
  have hchecked := checked_of_enforceUniqueForNode hcheck
  refine ⟨fun ck hck hscope hun b y hb hy => ?_, fun ck hck hun hmem => ?_⟩
  · obtain ⟨hc, hraw, hfloat, hjudged⟩ := hchecked ck hck
    have hjudge := (Option.or_eq_none_iff.mp (hjudged hun)).2
    exact judge_eq_none hcovers ⟨hc, hraw, hfloat, fun _ => hjudge⟩ hscope hun hb hy
  · have hseen := (Option.or_eq_none_iff.mp ((hchecked ck hck).judged hun)).1
    rw [Option.map_eq_none_iff, find?_eq_none] at hseen
    obtain ⟨s, hs, heq⟩ := mem_map.mp hmem
    exact hseen s hs (beq_iff_eq.mpr heq)

/-- Every value of the create is claimed by the node, and later creates of the batch see it. -/
def OwnedSeen (reg : List UniqueConstraint) (oi : OwnerIndex) (seen : List (OwnedValue × Nat))
    (n : NodeCreate) : Prop :=
  ∀ row, slotRow n.calls = some row → Owned reg oi n.pending.id row ∧
    ∀ c ∈ reg, c.scope = .current → ∀ k, row.binds c.label c.key = some k →
      (c.label, c.key, k) ∈ seen.map (·.1)

/-- The claims of later creates leave it so. -/
theorem OwnedSeen.claimAll (h : OwnedSeen reg oi seen n)
    (hcks : ∀ ck ∈ cks, ck.unchanged = false → ck.ownedValue ∉ seen.map (·.1)) :
    OwnedSeen reg (oi.claimAll id cks) seen n := by
  intro row hrow
  obtain ⟨howned, hseen⟩ := h row hrow
  refine ⟨fun c hc hscope k hk => ?_, hseen⟩
  rcases oi.claims_claimAll id cks (c.label, c.key, k) with
    ⟨-, ck, hck, -, hun, heq⟩ | ⟨hclaim, -⟩
  · exact absurd (heq ▸ hseen c hc hscope k hk) (hcks ck hck hun)
  · rw [hclaim]
    exact howned c hc hscope k hk

theorem OwnedSeen.append (h : OwnedSeen reg oi seen n) (more : List (OwnedValue × Nat)) :
    OwnedSeen reg oi (more ++ seen) n := by
  refine fun row hrow => ⟨(h row hrow).1, fun c hc hscope k hk => ?_⟩
  rw [map_append]
  exact mem_append_right _ ((h row hrow).2 c hc hscope k hk)

/-- The claims of a create own its row. -/
theorem ownedSeen_create (hrow : slotRow n.calls = some row)
    (hcheck : enforceUniqueForNode reg judge row none = .ok cks) :
    OwnedSeen reg (oi.claimAll n.pending.id cks)
      (cks.map (fun ck => (ck.ownedValue, n.pending.id)) ++ seen) n := by
  intro row' hrow'
  rw [hrow, Option.some.injEq] at hrow'
  subst hrow'
  have hjudged := judged_of_enforceUniqueForNode hcheck
  have hnew : ∀ p, (none : Option (Row Value)) = some p → Owned reg oi n.pending.id p := nofun
  refine ⟨owned_claimAll hnew hjudged, fun c hc hscope k hk => ?_⟩
  rcases hjudged c hc k hk with ⟨p, hp, -⟩ | ⟨ck, hck, hlabel, hkey, -, hval, -⟩
  · cases hp
  · refine mem_map.mpr ⟨(ck.ownedValue, n.pending.id),
      mem_append_left _ (mem_map.mpr ⟨ck, hck, rfl⟩), ?_⟩
    rw [UniqueCheck.ownedValue, hlabel, hkey, hval]

/-- What holds while a batch is partitioned. -/
structure Parts (reg : List UniqueConstraint) (st : OwnerGraph) (creates : List NodeCreate) (b : Partition) :
    Prop where
  inv : Inv reg { st with index := b.index }
  survivors : ∀ n ∈ b.survivors, n ∈ creates ∧ OwnedSeen reg b.index b.seen n

theorem Parts.partitionNode {b : Partition} (h : Parts reg st creates b) (hn : n ∈ creates) :
    Parts reg st creates (st.partitionNode reg b n) := by
  unfold OwnerGraph.partitionNode
  split
  · exact h
  rename_i row hrow
  split
  · exact h
  rename_i cks hcheck
  obtain ⟨hfree, hunseen⟩ := create_checked h.inv.covers hcheck
  split
  · rename_i put _
    refine ⟨h.inv.claimAll (hfree.filter put), fun m hm => ⟨(h.survivors m hm).1, ?_⟩⟩
    exact (h.survivors m hm).2.claimAll fun ck hck => hunseen ck (mem_filter.mp hck).1
  · refine ⟨h.inv.claimAll hfree, fun m hm => ?_⟩
    rcases mem_append.mp hm with hm | hm
    · obtain ⟨hmem, howned⟩ := h.survivors m hm
      exact ⟨hmem, (howned.claimAll hunseen).append _⟩
    · rw [mem_singleton.mp hm]
      exact ⟨hn, ownedSeen_create hrow hcheck⟩

/-- **The partition** claims values that no other node holds, and its survivors own their rows. -/
theorem Inv.partition (h : Inv reg st) (creates : List NodeCreate) :
    Parts reg st creates (st.partitionBatchNodesByUnique reg creates) :=
  foldlRecOn creates _ ⟨h, fun _ hn => nomatch hn⟩ fun _ hb _ hn => hb.partitionNode hn

/-- The checks of `AddNodes` pass values that no other node holds. -/
theorem free_enforceUniqueForNodes (hcovers : st.index.Covers reg st.nodes)
    (h : st.enforceUniqueForNodes reg seen ns = .ok checked) :
    ∀ e ∈ checked, Free st.nodes e.1.pending.id e.2 := by
  induction ns generalizing seen checked with
  | nil =>
    cases h
    exact fun _ he => nomatch he
  | cons n ns ih =>
    rw [enforceUniqueForNodes] at h
    split at h
    · exact ih h
    split at h
    · cases h
    rename_i cks hcheck
    split at h
    · cases h
    rename_i rest hrest
    cases h
    intro e he
    rcases mem_cons.mp he with rfl | he
    · exact (create_checked hcovers hcheck).1
    · exact ih hrest e he

theorem Inv.claimNodes (h : Inv reg st) (hfree : ∀ e ∈ checked, Free st.nodes e.1.pending.id e.2) :
    Inv reg { st with index := st.index.claimNodes checked } :=
  @foldlRecOn _ _ (fun oi => Inv reg { st with index := oi }) checked _ _ h
    fun _ h e he => h.claimAll (hfree e he)

/-- The claims of `AddNodes` own the rows: a later node has no value of an earlier one. -/
theorem owned_claimNodes (hcovers : st.index.Covers reg st.nodes)
    (h : st.enforceUniqueForNodes reg seen ns = .ok checked) (oi : OwnerIndex) :
    (∀ m, OwnedSeen reg oi seen m → OwnedSeen reg (oi.claimNodes checked) seen m) ∧
      ∀ n ∈ ns, ∀ row, slotRow n.calls = some row →
        Owned reg (oi.claimNodes checked) n.pending.id row := by
  induction ns generalizing seen checked oi with
  | nil =>
    cases h
    exact ⟨fun _ hm => hm, fun _ hn => nomatch hn⟩
  | cons n ns ih =>
    rw [enforceUniqueForNodes] at h
    split at h
    · rename_i hnone
      obtain ⟨hkeep, hrest⟩ := ih h oi
      refine ⟨hkeep, fun m hm row hrow => ?_⟩
      rcases mem_cons.mp hm with rfl | hm
      · cases hnone.symm.trans hrow
      · exact hrest m hm row hrow
    rename_i row hrow
    split at h
    · cases h
    rename_i cks hcheck
    split at h
    · cases h
    rename_i rest hrest
    cases h
    obtain ⟨-, hunseen⟩ := create_checked hcovers hcheck
    obtain ⟨hkeep, howned⟩ := ih hrest (oi.claimAll n.pending.id cks)
    refine ⟨fun m hm row' hrow' => ?_, fun m hm row' hrow' => ?_⟩
    · exact ⟨(hkeep m ((hm.claimAll hunseen).append _) row' hrow').1, (hm row' hrow').2⟩
    · rcases mem_cons.mp hm with rfl | hm
      · exact (hkeep m (ownedSeen_create hrow hcheck) row' hrow').1
      · exact howned m hm row' hrow'

/-! ## The writes of a batch -/

/-- The write of a create that owns its row. -/
theorem written_putNode (hn : CreateOk n) (hid : n.pending.id ∈ st.ids)
    (howned : ∀ row, slotRow n.calls = some row → Owned reg st.index n.pending.id row)
    (h : st.graph.putNode token n = some graph) : Written reg st st.ids graph.store := by
  rcases putNode_eq_some hn h with hsame | ⟨x, hrow, hok, -, hnodes⟩
  · exact .same (congrArg Store.nodes hsame)
  · exact .stored hid hnodes hok (howned _ hrow)

theorem Inv.putNodes (h : Inv reg st)
    (hcreates : ∀ n ∈ creates, CreateOk n ∧ n.pending.id ∈ st.ids ∧ ∀ row, slotRow n.calls = some
      row → Owned reg st.index n.pending.id row)
    (hput : st.graph.putNodesBatch token creates = some graph) :
    Inv reg { st with graph := graph } := by
  induction creates generalizing st with
  | nil =>
    cases hput
    exact h
  | cons n ns ih =>
    obtain ⟨p, hp, hput⟩ := Option.bind_eq_some_iff.mp hput
    obtain ⟨hok, hid, howned⟩ := hcreates n mem_cons_self
    exact @ih { st with graph := p } (h.write (fun _ hid => hid) (written_putNode hok hid howned hp))
      (fun m hm => hcreates m (mem_cons_of_mem _ hm)) hput

/-- The record of a create of `AddNodes`. -/
theorem nodesRecorded_putNode (hn : CreateOk n) (h : p.putNode token n = some p') :
    NodesRecorded p.store p'.store tx
      (GraphTx.after caps p.store p'.store tx (n.pending.door n.wall)) := by
  rcases putNode_eq_some hn h with hsame | ⟨x, -, -, hnone, hnodes⟩
  · have hafter : GraphTx.after caps p.store p'.store tx (n.pending.door n.wall) = tx := by
      unfold GraphTx.after PendingNode.door
      dsimp only
      rw [hsame]
      split
      · rename_i y hcur hnew
        cases hcur.symm.trans hnew
      · rfl
    rw [hafter]
    exact .unrecorded fun id => .inl (by rw [hsame])
  · have hafter : GraphTx.after caps p.store p'.store tx (n.pending.door n.wall) =
        tx.trackCreated (.node n.pending.id) x.version := by
      have hcur : p.store.current (.node n.pending.id) = none := hnone
      have hnew : p'.store.current (.node n.pending.id) = some x := by
        have := congrFun hnodes n.pending.id
        rw [update_self] at this
        exact this
      unfold GraphTx.after PendingNode.door
      dsimp only
      rw [hcur, hnew]
      rfl
    rw [hafter]
    refine .trackCreated fun id hne => ?_
    rw [hnodes, update_of_ne]
    exact fun heq => hne (by rw [heq])

theorem Inv.putNodesTx (h : Inv reg st) {q : Primary Value × GraphTx Value} (htx : st.tx = some tx)
    (hcreates : ∀ n ∈ creates, CreateOk n ∧ n.pending.id ∈ st.ids ∧ ∀ row, slotRow n.calls = some
      row → Owned reg st.index n.pending.id row)
    (hput : Primary.putNodesTx caps token (st.graph, tx) creates = some q) :
    Inv reg { st with graph := q.1, tx := some q.2 } := by
  induction creates generalizing st tx with
  | nil =>
    cases hput
    have heq : { st with graph := st.graph, tx := some tx } = st := by rw [← htx]
    rw [heq]
    exact h
  | cons n ns ih =>
    obtain ⟨q', hq', hput⟩ := Option.bind_eq_some_iff.mp hput
    obtain ⟨p, hp, rfl⟩ := Option.map_eq_some_iff.mp hq'
    obtain ⟨hok, hid, howned⟩ := hcreates n mem_cons_self
    have hinv := h.txWrite htx (fun _ hid => hid) (written_putNode hok hid howned hp)
      (@nodesRecorded_putNode caps token st.graph p tx n hok hp)
    have hrest := ih hinv rfl (fun m hm => hcreates m (mem_cons_of_mem _ hm)) hput
    exact hrest

/-- More known nodes and another clock. -/
theorem Inv.withIds (h : Inv reg st) (graph : Primary Value) (hids : st.ids ⊆ ids)
    (hstore : graph.store = st.graph.store) : Inv reg { st with graph := graph, ids := ids } :=
  h.write hids (.same (congrArg Store.nodes hstore))

/-- **`GraphTx.AddNodes`** keeps the invariant. -/
theorem Inv.addNodes (h : Inv reg st) (htx : st.tx = some tx) (pending : List PendingNode)
    (o : CallOutcome) : Inv reg (st.addNodes cfg caps reg tx pending o) := by
  have hcreates := @createOk_addNodesCreates cfg st.graph pending
  unfold OwnerGraph.addNodes
  dsimp only
  generalize st.graph.addNodesCreates cfg pending = r at hcreates
  have hclock : ∀ st : OwnerGraph, Inv reg st →
      Inv reg { st with graph := { st.graph with clock := r.1 } } :=
    fun st h => h.withIds _ (fun _ hid => hid) rfl
  split
  · exact hclock st h
  rename_i checked hcheck
  have hfree := free_enforceUniqueForNodes h.covers hcheck
  split
  · exact hclock st h
  · rename_i put _
    refine hclock _ (h.claimNodes fun e he => ?_)
    obtain ⟨e', he', rfl⟩ := mem_map.mp he
    exact (hfree e' he').filter put
  · exact hclock _ (h.claimNodes hfree)
  · split
    · exact hclock _ (h.claimNodes hfree)
    · rename_i q hput
      have hinv := (h.claimNodes hfree).withIds { st.graph with clock := r.1 }
        (subset_append_right (pending.map (·.id)) st.ids) rfl
      refine hinv.putNodesTx htx (fun n hn => ?_) hput
      obtain ⟨hok, hmem⟩ := hcreates n hn
      exact ⟨hok, mem_append_left _ (mem_map.mpr ⟨n.pending, hmem, rfl⟩),
        (owned_claimNodes h.covers hcheck st.index).2 n hn⟩

/-! ## The runs -/

/-- **One call** keeps the invariant, when at a rollback the values the undo log brings back were last
claimed by their nodes. -/
theorem Inv.step (h : Inv reg st) {ev : OwnerEvent} (hok : st.keepsOwners reg ev = true) :
    Inv reg (st.step cfg caps reg ev) := by
  cases ev with
  | call d o =>
    obtain ⟨hinv, hwritten, -⟩ := @Inv.runDoor cfg reg st h 0 d o
    exact hinv.write (subset_append_right _ _) hwritten
  | batch pending wall writeFailed =>
    have hcreates := @createOk_executeCreates cfg st.graph wall pending
    rw [OwnerGraph.step]
    generalize st.graph.executeCreates cfg wall pending = creates at hcreates
    obtain ⟨hinv, hsurvivors⟩ := h.partition creates
    have hinv := hinv.withIds { st.graph with clock := (st.graph.clock.now wall.toInt).1 }
      (subset_append_right (pending.map (·.id)) st.ids) rfl
    split
    · exact hinv
    · cases hput : Primary.putNodesBatch 0 { st.graph with clock := (st.graph.clock.now wall.toInt).1 }
        (st.partitionBatchNodesByUnique reg creates).survivors with
      | none => exact hinv
      | some graph =>
        refine hinv.putNodes (fun n hn => ?_) hput
        obtain ⟨hn, howned⟩ := hsurvivors n hn
        obtain ⟨hok, hmem⟩ := hcreates n hn
        exact ⟨hok, mem_append_left _ (mem_map.mpr ⟨n.pending, hmem, rfl⟩),
          fun row hrow => (howned row hrow).1⟩
  | beginTx wall =>
    rw [OwnerGraph.step]
    split
    · exact h
    · have hstore : (st.graph.step cfg (.beginTx wall)).store = st.graph.store := by
        rw [Primary.step]
        split <;> rfl
      have hinv := h.withIds _ (fun _ hid => hid) hstore
      refine ⟨hinv.rows, hinv.known, hinv.covers, by rintro _ _ ⟨⟩, fun tx htx => ?_, fun tx htx => ?_⟩
      · cases htx
        rintro _ ⟨⟩
      · cases htx
        exact ⟨hinv.known, fun c hc hscope id x k hx hk _ => hinv.covers c hc hscope id x k hx hk⟩
  | txCall c o =>
    rw [OwnerGraph.step]
    split
    · exact h
    rename_i tx htx
    split
    swap
    · exact h
    rename_i hin
    obtain ⟨hinv, hwritten, hnodes⟩ := @Inv.runDoor cfg reg st h st.token c.door o
    exact hinv.txWrite htx (subset_append_right _ _) hwritten
      (@GraphTx.nodesRecorded_call _ _ tx _ cfg caps st.graph st.token ⟨c.door.newNode, c.head⟩ hin hnodes)
  | txAddNodes pending o =>
    rw [OwnerGraph.step]
    split
    · exact h
    · exact h.addNodes ‹_› pending o
  | commit =>
    rw [OwnerGraph.step]
    split
    · exact h
    · have hstore : (st.graph.step cfg .commit).store = st.graph.store := by
        rw [Primary.step]
        split <;> rfl
      have hinv := h.withIds _ (fun _ hid => hid) hstore
      exact ⟨hinv.rows, hinv.known, hinv.covers, hinv.last, by rintro _ ⟨⟩, by rintro _ ⟨⟩⟩
  | rollback =>
    rw [OwnerGraph.step]
    split
    · exact h
    rename_i tx htx
    have hundoes := h.undoes tx htx
    have hback : ∀ id, (tx.rollback caps st.graph.store).1.nodes id = none ∨
        (tx.rollback caps st.graph.store).1.nodes id = rolledRow tx.undoEntries st.nodes id :=
      fun id => tx.nodes_rollback h.rows (h.records tx htx) id
    have hrolled : st.index.Covers reg (rolledRow tx.undoEntries st.nodes) := by
      intro c hc hscope id x k hx hk
      cases hundo : UndoEntry.lastOf (.node id) tx.undoEntries with
      | none =>
        rw [rolledRow, hundo] at hx
        exact h.covers c hc hscope id x k hx hk
      | some a =>
        cases hlast : st.index.lastClaim (c.label, c.key, k) with
        | none => exact hundoes.claims c hc hscope id x k hx hk hlast
        | some b =>
          have hid := hundoes.known id (by simp [hx])
          rw [rolledRow, hundo] at hx
          have hrow : st.undoRow id = some x.row := by simp [UniqueGraph.undoRow, htx, hundo, hx]
          rw [keepsOwners, all_eq_true] at hok
          have hown := hok id hid
          rw [hrow, Option.all_some, all_eq_true] at hown
          have hown := hown c hc
          rw [hscope, hk, Option.all_some, hlast, Option.all_some] at hown
          have hb : b = id := by simpa using hown
          rw [← hb]
          exact h.last _ _ hlast
    refine ⟨fun id x hx => ?_, fun id hne => ?_, hrolled.mono hback, h.last,
      by rintro _ ⟨⟩, by rintro _ ⟨⟩⟩
    · refine h.rows.rolledRow (h.records tx htx) id x ((hback id).resolve_left ?_ ▸ hx)
      exact fun hnone => by cases hnone.symm.trans hx
    · exact hundoes.known id ((hback id).resolve_left hne ▸ hne)

/-- A graph without an open transaction, whose rows are rows of the store and known to the lookups, and
whose owner indexes are ready: the seed has gone over the nodes. -/
structure Start (reg : List UniqueConstraint) (st : OwnerGraph) : Prop where
  tx : st.tx = none
  rows : NodesOk st.nodes
  known : ∀ id, st.nodes id ≠ none → id ∈ st.ids
  ready : ∃ oi oi', OwnerIndex.seedOwnerIndexes st.nodes st.ids reg oi = .ok oi' ∧ st.index = oi'.restart

theorem Start.inv (h : Start reg st) : Inv reg st := by
  obtain ⟨oi, oi', hseed, hindex⟩ := h.ready
  have hcovers := OwnerIndex.covers_seedOwnerIndexes h.known hseed
  refine ⟨h.rows, h.known, by rw [hindex]; exact hcovers, by rw [hindex]; exact nofun,
    fun tx htx => absurd (h.tx.symm.trans htx) nofun, fun tx htx => nomatch h.tx.symm.trans htx⟩

/-- **The owner index misses no holder**, in every run in which at every rollback the values the undo log
brings back were last claimed by the nodes they come back to.  Under a `UniqueCurrent` constraint the owner
of a value that a current node carries is the node; the lookup finds exactly the current nodes with an
equal value; and no two current nodes carry equal values. -/
theorem owner_index_covers
    (h : Runs.Reachable (Start reg)
      (Runs.Guarded (OwnerGraph.step cfg caps reg) fun st ev => st.keepsOwners reg ev = true) st) :
    ∀ c ∈ reg, c.scope = .current →
      (∀ id x v k, st.nodes id = some x → c.label ∈ x.row.labels →
        propertyValue x.row.properties c.key = some v → v.uniqueKey = some k →
          st.index.claims (c.label, c.key, k) = some id) ∧
      (∀ raw id, id ∈ st.index.nodesByOwnerIndex st.nodes c.label c.key raw ↔
        ∃ x w stored, st.nodes id = some x ∧ c.label ∈ x.row.labels ∧
          propertyValue x.row.properties c.key = some w ∧
          indexablePropertyValueKey w = some stored ∧ stored ∈ equalIndexKeys raw) ∧
      NoDuplicates c st.nodes := by
  have hinv : Inv reg st := h.invariant (fun _ hstart => hstart.inv)
    (fun _ _ _ _ hinv hstep => hstep.2 ▸ hinv.step hstep.1)
  intro c hc hscope
  refine ⟨fun id x v k hx hlabel hv hk => ?_, hinv.covers.mem_nodesByOwnerIndex hc hscope,
    hinv.covers.noDuplicates hc hscope⟩
  exact hinv.covers c hc hscope id x k hx (binds_eq_some.mpr ⟨hlabel, v, hv, hk⟩)

/-! ## Runs on fixed calls -/

/-- An empty graph with a ready index. -/
def emptyOwners : OwnerGraph := ⟨UniqueGraph.emptyGraph, ⟨fun _ => none, []⟩⟩

theorem start_emptyOwners : Start [UniqueGraph.keyConstraint] emptyOwners :=
  ⟨rfl, (fun _ _ h => nomatch h), fun _ h => absurd rfl h, emptyOwners.index, emptyOwners.index, rfl, rfl⟩

/-- In one transaction node 1 moves off the value 7 and node 2 is created with `val`; the transaction is
rolled back. -/
def claimRun (val : IntValue) : List OwnerEvent :=
  [.call (UniqueGraph.addNode 1 ⟨.int64, 7, .refl true⟩ 1) .done, .beginTx 2,
    .txCall ⟨UniqueGraph.updateNode 1 ⟨.int64, 8, .refl true⟩ 3, false⟩ .done,
    .txCall ⟨UniqueGraph.addNode 2 val 4, false⟩ .done, .rollback]

/-- The graph after a list of calls. -/
def runOf (evs : List OwnerEvent) : OwnerGraph :=
  evs.foldl (OwnerGraph.step Primary.legacyConfig ⟨true, true⟩ [UniqueGraph.keyConstraint]) emptyOwners

/-- Node 2 claims the value 7 that the transaction has freed, and the rollback gives it back to node 1: the
owner of the value is a node that is gone, the lookup finds nothing, and a third node can take the value. -/
theorem freed_claim_taken : ∃ st, Runs.Reachable (Start [UniqueGraph.keyConstraint])
      (Runs.Guarded (OwnerGraph.step Primary.legacyConfig ⟨true, true⟩ [UniqueGraph.keyConstraint])
        fun _ _ => True) st ∧
    UniqueGraph.valueOf st.toUniqueGraph 1 = some (.int ⟨.int64, 7, rfl⟩) ∧
    st.index.claims (1, 1, .int .int64 7) = some 2 ∧
    st.index.nodesByOwnerIndex st.nodes 1 1 (.int ⟨.int64, 7, rfl⟩) = [] ∧
    UniqueGraph.valueOf (st.step Primary.legacyConfig ⟨true, true⟩ [UniqueGraph.keyConstraint]
      (.call (UniqueGraph.addNode 3 ⟨.int64, 7, rfl⟩ 5) .done)).toUniqueGraph 3 =
        some (.int ⟨.int64, 7, rfl⟩) := by
  refine ⟨runOf (claimRun ⟨.int64, 7, rfl⟩), .foldl (.start start_emptyOwners) ?_, ?_, ?_, ?_, ?_⟩
  · exact ⟨trivial, trivial, trivial, trivial, trivial, trivial⟩
  · decide +kernel
  · decide +kernel
  · decide +kernel
  · decide +kernel

/-- The same run with another value for node 2 keeps the owner of 7. -/
theorem owner_index_covers_atNine :
    (runOf (claimRun ⟨.int32, 9, rfl⟩)).index.claims (1, 1, .int .int64 7) = some 1 ∧
      1 ∈ (runOf (claimRun ⟨.int32, 9, rfl⟩)).index.nodesByOwnerIndex
        (runOf (claimRun ⟨.int32, 9, rfl⟩)).nodes 1 1 (.int ⟨.int64, 7, rfl⟩) := by
  obtain ⟨howner, hlookup, -⟩ := @owner_index_covers Primary.legacyConfig ⟨true, true⟩
    [UniqueGraph.keyConstraint] (runOf (claimRun ⟨.int32, 9, rfl⟩))
    (.foldl (.start start_emptyOwners) (by decide +kernel)) UniqueGraph.keyConstraint
    mem_cons_self rfl
  obtain ⟨x, hx, hlabel, hv⟩ := UniqueGraph.valueOf_eq_some
    (show UniqueGraph.valueOf (runOf (claimRun ⟨.int32, 9, rfl⟩)).toUniqueGraph 1 =
      some (.int ⟨.int64, 7, rfl⟩) by decide +kernel)
  exact ⟨howner 1 x _ _ hx hlabel hv rfl, (hlookup _ 1).mpr ⟨x, _, _, hx, hlabel, hv, rfl, by decide⟩⟩

end OwnerGraph

end RhoTkg
