import RhoTkg.Library.Runs
import RhoTkg.TxNodes
import RhoTkg.UniqueDoors

/-!
# Unique values of the current nodes

A graph on a store without an owner index, under the constraints `reg`: standalone calls and the calls of
one transaction, each checked by the kernel against the nodes it finds, and the commit or the rollback of
the transaction.  The lookup of a value's holders reads the current nodes; `ids` are the IDs of the nodes
that are or were there.

`Rollback` writes the rows of the undo log back without a check.  Between the call of the transaction that
freed a value and the rollback a standalone call can have bound the value to another node, and then both
nodes carry it (`freed_value_taken`).  While no standalone call takes a value the undo log has for another
node, no two current nodes carry equal values (`current_values_unique`): the invariant is that both the
current nodes and the nodes the undo log describes (`rolledRow`) are without duplicates.
-/

namespace RhoTkg

open List Function

/-! ## Nodes without duplicates -/

/-- No two of the nodes carry the label of the constraint and equal values of its key. -/
def NoDuplicates (c : UniqueConstraint) (f : Nat → Option (Stored Value)) : Prop :=
  ∀ a b x y v w, f a = some x → f b = some y → c.label ∈ x.row.labels → c.label ∈ y.row.labels →
    propertyValue x.row.properties c.key = some v → propertyValue y.row.properties c.key = some w →
      v.Equal w → a = b

/-- Values with one key that is no float's are equal. -/
theorem Value.equal_of_uniqueKey {v w : Value} {k : IndexKey} (hv : v.uniqueKey = some k)
    (hw : w.uniqueKey = some k) (hfloat : isFloatValueKey k = false) : v.Equal w := by
  cases v <;> cases w <;>
    simp only [Value.uniqueKey, indexablePropertyValueKey, Option.map_some, Option.map_none,
      canonicalIndexKey, Option.some.injEq, reduceCtorEq] at hv hw <;> subst hv <;>
    simp only [reduceCtorEq, IndexKey.string.injEq, IndexKey.temporal.injEq, IndexKey.bool.injEq,
      IndexKey.int.injEq, isFloatValueKey] at hw hfloat
  · exact hw.symm
  · exact ⟨hw.1.symm, hw.2.symm⟩
  · exact hw.2.symm
  · exact hw.symm

section NoDuplicates

variable {c : UniqueConstraint} {f g : Nat → Option (Stored Value)}

theorem binds_eq_some {r : Row Value} {label key : Nat} {k : IndexKey} :
    r.binds label key = some k ↔
      label ∈ r.labels ∧ ∃ v, propertyValue r.properties key = some v ∧ v.uniqueKey = some k := by
  rw [Row.binds]
  split
  · rename_i hlabel
    rw [uniqueValueKey, Option.bind_eq_some_iff]
    exact ⟨fun h => ⟨contains_iff_mem.mp hlabel, h⟩, fun h => h.2⟩
  · rename_i hlabel
    exact ⟨by rintro ⟨⟩, fun h => absurd (contains_iff_mem.mpr h.1) hlabel⟩

/-- Duplicates by the keys of the values. -/
theorem noDuplicates_iff : NoDuplicates c f ↔ ∀ a b x y k, f a = some x → f b = some y →
    x.row.binds c.label c.key = some k → y.row.binds c.label c.key = some k →
      isFloatValueKey k = false → a = b := by
  constructor
  · intro h a b x y k hx hy hxk hyk hfloat
    obtain ⟨hlx, v, hv, hvk⟩ := binds_eq_some.mp hxk
    obtain ⟨hly, w, hw, hwk⟩ := binds_eq_some.mp hyk
    exact h a b x y v w hx hy hlx hly hv hw (Value.equal_of_uniqueKey hvk hwk hfloat)
  · intro h a b x y v w hx hy hlx hly hv hw heq
    obtain ⟨k, hvk, hwk, hfloat⟩ := heq.uniqueKey
    exact h a b x y k hx hy (binds_eq_some.mpr ⟨hlx, v, hv, hvk⟩)
      (binds_eq_some.mpr ⟨hly, w, hw, hwk⟩) hfloat

/-- Fewer nodes. -/
theorem NoDuplicates.mono (h : NoDuplicates c f) (hg : ∀ id, g id = none ∨ g id = f id) :
    NoDuplicates c g := by
  intro a b x y v w hx hy
  have hfrom : ∀ id z, g id = some z → f id = some z := fun id z hz => by
    rcases hg id with hnone | heq
    · cases hnone.symm.trans hz
    · rw [← heq]
      exact hz
  exact h a b x y v w (hfrom a x hx) (hfrom b y hy)

/-- One node gets a row of which no other node has a value. -/
theorem NoDuplicates.update (h : NoDuplicates c f) {id : Nat} {x : Stored Value}
    (hx : ∀ b y k, b ≠ id → f b = some y → x.row.binds c.label c.key = some k →
      y.row.binds c.label c.key = some k → isFloatValueKey k = false → False) :
    NoDuplicates c (Function.update f id (some x)) := by
  rw [noDuplicates_iff] at h ⊢
  intro a b y z k hy hz hyk hzk hfloat
  by_cases ha : a = id
  · by_cases hb : b = id
    · rw [ha, hb]
    · subst ha
      rw [update_self, Option.some.injEq] at hy
      rw [update_of_ne hb] at hz
      subst hy
      cases hx b z k hb hz hyk hzk hfloat
  · rw [update_of_ne ha] at hy
    by_cases hb : b = id
    · subst hb
      rw [update_self, Option.some.injEq] at hz
      subst hz
      cases hx a y k ha hy hzk hyk hfloat
    · rw [update_of_ne hb] at hz
      exact h a b y z k hy hz hyk hzk hfloat

end NoDuplicates

/-! ## The graph -/

/-- A graph with the IDs its lookups read and the open transaction. -/
structure UniqueGraph where
  graph : Primary Value
  ids : List Nat
  tx : Option (GraphTx Value)

/-- The calls.  `refused` tells that another check of the door refuses the call. -/
inductive UniqueEvent where
  | call (d : Door Value) (refused : Bool)
  | beginTx (wall : Int64)
  | txCall (c : TxCall Value) (refused : Bool)
  | commit
  | rollback

namespace UniqueGraph

variable (cfg : GraphConfig) (caps : TxCaps) (reg : List UniqueConstraint) (st : UniqueGraph)

/-- The current nodes. -/
def nodes (id : Nat) : Option (Stored Value) := st.graph.store.nodes id

/-- `nodesByLabelAndProperty`: the current nodes with the label and a value stored under one of the keys
of the value. -/
def nodesByLabelAndProperty (label key : Nat) (raw : Value) : List Nat :=
  st.ids.filter fun id => (st.nodes id).any fun x => x.row.labels.contains label &&
    ((propertyValue x.row.properties key).bind indexablePropertyValueKey).any
      ((equalIndexKeys raw).contains ·)

/-- The lookup of the kernel: another node that holds the value. -/
def judge (selfID : Nat) (ck : UniqueCheck) : Option UniqueError :=
  ((st.nodesByLabelAndProperty ck.label ck.key ck.raw).find? (· != selfID)).map .violation

/-- A door with its check. -/
def runDoor (token : Nat) (d : Door Value) (refused : Bool) : Primary Value :=
  match st.graph.enforceUnique cfg reg st.judge d.newNode with
  | .ok _ =>
    if refused then { st.graph with clock := (st.graph.doorCalls cfg d.newNode).1 }
    else st.graph.runDoor cfg token d.newNode
  | .error _ => { st.graph with clock := (st.graph.doorCalls cfg d.newNode).1 }

/-- The scope of the open transaction. -/
def token : Nat := st.graph.scopeToken.getD 0

/-- One call. -/
def step : UniqueEvent → UniqueGraph
  | .call d refused =>
    { st with graph := st.runDoor cfg reg 0 d refused, ids := d.newNode.nodeID.toList ++ st.ids }
  | .beginTx wall =>
    match st.tx with
    | some _ => st
    | none => { st with graph := st.graph.step cfg (.beginTx wall), tx := some .new }
  | .txCall c refused =>
    match st.tx with
    | none => st
    | some tx =>
      if c.door.newNode.inTx then
        let graph := st.runDoor cfg reg st.token c.door refused
        { graph := graph
          ids := c.door.newNode.nodeID.toList ++ st.ids
          tx := some (GraphTx.after caps st.graph.store graph.store
            (GraphTx.before cfg caps st.graph tx ⟨c.door.newNode, c.head⟩) c.door.newNode) }
      else st
  | .commit =>
    match st.tx with
    | none => st
    | some _ => { st with graph := st.graph.step cfg .commit, tx := none }
  | .rollback =>
    match st.tx with
    | none => st
    | some tx =>
      { st with
        graph := { st.graph with
          store := (tx.rollback caps st.graph.store).1
          log := st.graph.log.discardScopedLog st.token
          scopeToken := none }
        tx := none }

/-! ## The values the undo log keeps -/

/-- The row the undo log brings back for a node. -/
def undoRow (id : Nat) : Option (Row Value) :=
  st.tx.bind fun tx => (UndoEntry.lastOf (.node id) tx.undoEntries).bind fun a => a.row.map (·.row)

/-- The undo log has a record of the node. -/
def undone (id : Nat) : Bool :=
  st.tx.any fun tx => (UndoEntry.lastOf (.node id) tx.undoEntries).isSome

/-- Another current node binds the value. -/
def boundElsewhere (id label key : Nat) (k : IndexKey) : Bool :=
  st.ids.any fun b => b != id && (st.nodes b).any fun y => y.row.binds label key == some k

/-- The row would bind to the node a value that no other current node has and that the undo log brings
back for another node. -/
def takesFreed (id : Nat) (row : Row Value) : Bool :=
  reg.any fun c => c.scope == .current && (row.binds c.label c.key).any fun k =>
    !st.boundElsewhere id c.label c.key k &&
      st.ids.any fun b => b != id && (st.undoRow b).any fun y => y.binds c.label c.key == some k

/-- A standalone call on a node without a record takes no value the undo log has for another node. -/
def leavesFreed : UniqueEvent → Bool
  | .call d _ =>
    match d.newNode.nodeID, slotRow (st.graph.doorCalls cfg d.newNode).2 with
    | some id, some row => st.undone id || !st.takesFreed reg id row
    | _, _ => true
  | _ => true

/-! ## The invariant -/

/-- The rows are rows of the store, the lookups know the nodes, and no constraint `UniqueCurrent` has
duplicates. -/
structure GoodNodes (reg : List UniqueConstraint) (ids : List Nat) (f : Nat → Option (Stored Value)) :
    Prop where
  rows : NodesOk f
  known : ∀ id, f id ≠ none → id ∈ ids
  unique : ∀ c ∈ reg, c.scope = .current → NoDuplicates c f

/-- The current nodes are good, and so are the nodes the undo log describes. -/
structure Inv : Prop where
  nodes : GoodNodes reg st.ids st.nodes
  records : ∀ tx, st.tx = some tx → ∀ a ∈ tx.undoEntries, a.RowOk
  rolled : ∀ tx, st.tx = some tx → GoodNodes reg st.ids (rolledRow tx.undoEntries st.nodes)

variable {cfg caps reg st}

variable {f : Nat → Option (Stored Value)} {ids : List Nat} {id b : Nat} {k : IndexKey}
  {y : Stored Value}

theorem GoodNodes.mono {ids' : List Nat} {g : Nat → Option (Stored Value)} (h : GoodNodes reg ids f)
    (hids : ids ⊆ ids') (hg : ∀ id, g id = none ∨ g id = f id) : GoodNodes reg ids' g := by
  refine ⟨fun id x hx => ?_, fun id hne => ?_, fun c hc hscope => (h.unique c hc hscope).mono hg⟩
  · rcases hg id with hnone | heq
    · cases hnone.symm.trans hx
    · exact h.rows id x (heq ▸ hx)
  · exact hids (h.known id ((hg id).resolve_left hne ▸ hne))

theorem GoodNodes.update {x : Stored Value} (h : GoodNodes reg ids f) (hx : NodeRowOk id x)
    (hunique : ∀ c ∈ reg, c.scope = .current → ∀ b y k, b ≠ id → f b = some y → x.row.binds c.label
      c.key = some k → y.row.binds c.label c.key = some k → isFloatValueKey k = false → False) :
    GoodNodes reg (id :: ids) (Function.update f id (some x)) := by
  refine ⟨h.rows.update fun y hy => Option.some.inj hy ▸ hx, fun b hb => ?_, fun c hc hscope =>
    (h.unique c hc hscope).update (hunique c hc hscope)⟩
  by_cases heq : b = id
  · rw [heq]
    exact mem_cons_self
  · rw [update_of_ne heq] at hb
    exact mem_cons_of_mem _ (h.known b hb)

/-- A judged value is bound by no other current node. -/
theorem judge_eq_none (hknown : ∀ id, st.nodes id ≠ none → id ∈ st.ids) {ck : UniqueCheck}
    (hjudge : st.judge id ck = none) (hraw : ck.raw.uniqueKey = some k)
    (hfloat : isFloatValueKey k = false) (hb : b ≠ id) (hy : st.nodes b = some y)
    (hk : y.row.binds ck.label ck.key = some k) : False := by
  obtain ⟨hlabel, w, hw, hwk⟩ := binds_eq_some.mp hk
  obtain ⟨key, hkey, hmem⟩ := mem_equalIndexKeys hraw hwk hfloat
  rw [judge, Option.map_eq_none_iff, find?_eq_none] at hjudge
  refine hjudge b (mem_filter.mpr ⟨hknown b (by rw [hy]; nofun), ?_⟩) (by simpa using hb)
  simp [hy, hlabel, hw, hkey, hmem]

/-- What a door with its check does to the nodes. -/
theorem doorNodes_runDoor (hrows : NodesOk st.nodes) (token : Nat) (d : Door Value) (refused : Bool) :
    ((st.runDoor cfg reg token d refused).store = st.graph.store ∨
      (st.runDoor cfg reg token d refused).store = (st.graph.runDoor cfg token d.newNode).store) ∧
    ∃ cks, st.graph.DoorNodes cfg reg st.judge d.newNode cks (st.runDoor cfg reg token d refused).store := by
  unfold runDoor
  split
  · rename_i cks hcheck
    split
    · exact ⟨.inl rfl, [], .same rfl⟩
    · exact ⟨.inr rfl, cks, Primary.nodes_runDoor (fun id y hy => (hrows id y hy).nodup) hcheck token⟩
  · exact ⟨.inl rfl, [], .same rfl⟩

/-- A value of a judged row is bound by no other current node. -/
theorem judged_value (h : GoodNodes reg st.ids st.nodes) {cks : List UniqueCheck} {row : Row Value}
    (hjudged : Judged reg (st.judge id) cks ((st.nodes id).map (·.row)) row) {c : UniqueConstraint}
    (hc : c ∈ reg) (hscope : c.scope = .current) (hk : row.binds c.label c.key = some k)
    (hfloat : isFloatValueKey k = false) (hb : b ≠ id) (hy : st.nodes b = some y)
    (hyk : y.row.binds c.label c.key = some k) : False := by
  rcases hjudged c hc k hk with ⟨p, hp, hpk⟩ | ⟨ck, -, hlabel, hkey, hraw, -, -, -, hjudge⟩
  · obtain ⟨z, hz, rfl⟩ := Option.map_eq_some_iff.mp hp
    exact hb (noDuplicates_iff.mp (h.unique c hc hscope) b id y z k hy hz hyk hpk hfloat)
  · exact judge_eq_none h.known hjudge hraw hfloat hb hy (by rw [hlabel, hkey]; exact hyk)

/-- **A checked call keeps the current nodes good.** -/
theorem GoodNodes.runDoor (h : GoodNodes reg st.ids st.nodes) (token : Nat) (d : Door Value)
    (refused : Bool) : GoodNodes reg (d.newNode.nodeID.toList ++ st.ids)
      (st.runDoor cfg reg token d refused).store.nodes := by
  obtain ⟨-, cks, hafter⟩ := @doorNodes_runDoor cfg reg st h.rows token d refused
  have hids : st.ids ⊆ d.newNode.nodeID.toList ++ st.ids := subset_append_right _ _
  cases hafter with
  | same hnodes =>
    rw [hnodes]
    exact h.mono hids fun _ => .inr rfl
  | @deleted id hd hnodes =>
    rw [hnodes]
    refine h.mono hids fun b => ?_
    by_cases hb : b = id
    · exact .inl (by rw [hb, update_self])
    · exact .inr (update_of_ne hb _ _)
  | @stored id x hd hnodes hrow hvalid hnodup hjudged =>
    rw [hnodes, hd]
    exact h.update ⟨hvalid, hnodup⟩ fun c hc hscope b y k hb hy hxk hyk hfloat =>
      judged_value h hjudged hc hscope hxk hfloat hb hy hyk

/-- The nodes the undo log describes, when one current node changes. -/
theorem rolledRow_update (entries : List (UndoEntry Value)) (f : Nat → Option (Stored Value)) (id : Nat)
    (x : Option (Stored Value)) :
    (UndoEntry.lastOf (.node id) entries ≠ none ∧
        rolledRow entries (Function.update f id x) = rolledRow entries f) ∨
      UndoEntry.lastOf (.node id) entries = none ∧
        rolledRow entries (Function.update f id x) = Function.update (rolledRow entries f) id x := by
  have helse : ∀ b, b ≠ id → rolledRow entries (update f id x) b = rolledRow entries f b := by
    intro b hb
    unfold rolledRow
    rw [update_of_ne hb]
  cases hlast : UndoEntry.lastOf (.node id) entries with
  | some a =>
    refine .inl ⟨nofun, funext fun b => ?_⟩
    by_cases hb : b = id
    · rw [hb, rolledRow, rolledRow, hlast]
    · exact helse b hb
  | none =>
    refine .inr ⟨rfl, funext fun b => ?_⟩
    by_cases hb : b = id
    · rw [hb, update_self, rolledRow, hlast]
      exact update_self _ _ _
    · rw [update_of_ne hb, helse b hb]

/-- A standalone call that takes no freed value keeps the nodes the undo log describes good. -/
theorem GoodNodes.rolled_call {tx : GraphTx Value} (h : GoodNodes reg st.ids st.nodes)
    (hrolled : GoodNodes reg st.ids (rolledRow tx.undoEntries st.nodes)) (htx : st.tx = some tx)
    {d : Door Value} {refused : Bool} (hok : st.leavesFreed cfg reg (.call d refused) = true) :
    GoodNodes reg (d.newNode.nodeID.toList ++ st.ids)
      (rolledRow tx.undoEntries (st.runDoor cfg reg 0 d refused).store.nodes) := by
  obtain ⟨-, cks, hafter⟩ := @doorNodes_runDoor cfg reg st h.rows 0 d refused
  have hids : st.ids ⊆ d.newNode.nodeID.toList ++ st.ids := subset_append_right _ _
  cases hafter with
  | same hnodes =>
    rw [hnodes]
    exact hrolled.mono hids fun _ => .inr rfl
  | @deleted id hd hnodes =>
    rw [hnodes]
    refine hrolled.mono hids fun b => ?_
    rcases rolledRow_update tx.undoEntries st.nodes id none with ⟨-, hroll⟩ | ⟨-, hroll⟩
    · exact .inr (congrFun hroll b)
    · by_cases hb : b = id
      · exact .inl ((congrFun hroll b).trans (by rw [hb, update_self]))
      · exact .inr ((congrFun hroll b).trans (update_of_ne hb _ _))
  | @stored id x hd hnodes hrow hvalid hnodup hjudged =>
    rw [hnodes]
    rcases rolledRow_update tx.undoEntries st.nodes id (some x) with ⟨-, hroll⟩ | ⟨hlast, hroll⟩
    · exact hrolled.mono hids fun b => .inr (congrFun hroll b)
    · have hroll' : rolledRow tx.undoEntries (Function.update st.graph.store.nodes id (some x)) =
        Function.update (rolledRow tx.undoEntries st.nodes) id (some x) := hroll
      rw [hroll', hd]
      refine hrolled.update ⟨hvalid, hnodup⟩ fun c hc hscope b y k hb hy hxk hyk hfloat => ?_
      have helse : st.boundElsewhere id c.label c.key k = false := by
        by_contra hne
        rw [Bool.not_eq_false, boundElsewhere, any_eq_true] at hne
        obtain ⟨b', -, hb'⟩ := hne
        rw [Bool.and_eq_true, bne_iff_ne, Option.any_eq_true] at hb'
        obtain ⟨hne', y', hy', hyk'⟩ := hb'
        exact judged_value h hjudged hc hscope hxk hfloat hne' hy' (beq_iff_eq.mp hyk')
      cases hundo : UndoEntry.lastOf (.node b) tx.undoEntries with
      | none =>
        rw [rolledRow, hundo] at hy
        exact judged_value h hjudged hc hscope hxk hfloat hb hy hyk
      | some a =>
        -- the value is in the undo log: the call has taken it
        have hbids := hrolled.known b (by simp [hy])
        rw [rolledRow, hundo] at hy
        have hundone : st.undone id = false := by simp [undone, htx, hlast]
        rw [leavesFreed, hd, hrow] at hok
        simp only [hundone, Bool.false_or, Bool.not_eq_true'] at hok
        refine Bool.false_ne_true (hok.symm.trans ?_)
        refine any_eq_true.mpr ⟨c, hc, ?_⟩
        rw [hscope, beq_self_eq_true, Bool.true_and, hxk, Option.any_some, helse, Bool.not_false,
          Bool.true_and]
        refine any_eq_true.mpr ⟨b, hbids, ?_⟩
        have hrowb : st.undoRow b = some y.row := by simp [undoRow, htx, hundo, hy]
        rw [hrowb, Option.any_some, hyk, beq_self_eq_true, Bool.and_true]
        exact bne_iff_ne.mpr hb

/-- **One call** that takes no freed value keeps the invariant. -/
theorem Inv.step (h : Inv reg st) {ev : UniqueEvent} (hok : st.leavesFreed cfg reg ev = true) :
    Inv reg (st.step cfg caps reg ev) := by
  cases ev with
  | call d refused =>
    exact ⟨h.nodes.runDoor 0 d refused, h.records,
      fun tx htx => h.nodes.rolled_call (h.rolled tx htx) htx hok⟩
  | beginTx wall =>
    rw [UniqueGraph.step]
    split
    · exact h
    · have hstore : (st.graph.step cfg (.beginTx wall)).store = st.graph.store := by
        rw [Primary.step]
        split <;> rfl
      have hnodes : GoodNodes reg st.ids (st.graph.step cfg (.beginTx wall)).store.nodes := by
        rw [hstore]
        exact h.nodes
      refine ⟨hnodes, fun tx htx => ?_, fun tx htx => ?_⟩
      · cases htx
        rintro _ ⟨⟩
      · cases htx
        exact hnodes
  | txCall c refused =>
    rw [UniqueGraph.step]
    split
    · exact h
    · rename_i tx htx
      split
      swap
      · exact h
      rename_i hin
      have hrec := @GraphTx.nodesRecorded_call _ _ tx _ cfg caps st.graph st.token
        ⟨c.door.newNode, c.head⟩ hin
        ((@doorNodes_runDoor cfg reg st h.nodes.rows st.token c.door refused).1.imp
          (congrArg Store.nodes) (congrArg Store.nodes))
      refine ⟨h.nodes.runDoor st.token c.door refused, fun tx' htx' => ?_, fun tx' htx' => ?_⟩
      · cases htx'
        exact hrec.rows h.nodes.rows (h.records tx htx)
      · cases htx'
        exact (h.rolled tx htx).mono (subset_append_right _ _) fun id => (hrec.rolled id).symm
  | commit =>
    rw [UniqueGraph.step]
    split
    · exact h
    · have hstore : (st.graph.step cfg .commit).store = st.graph.store := by
        rw [Primary.step]
        split <;> rfl
      refine ⟨?_, by rintro _ ⟨⟩, by rintro _ ⟨⟩⟩
      show GoodNodes reg st.ids (st.graph.step cfg .commit).store.nodes
      rw [hstore]
      exact h.nodes
  | rollback =>
    rw [UniqueGraph.step]
    split
    · exact h
    · rename_i tx htx
      refine ⟨?_, by rintro _ ⟨⟩, by rintro _ ⟨⟩⟩
      exact (h.rolled tx htx).mono (fun _ hid => hid) fun id =>
        tx.nodes_rollback h.nodes.rows (h.records tx htx) id

/-! ## The runs -/

/-- A graph without an open transaction, whose rows are rows of the store and known to the lookups, and
without duplicates. -/
structure Start (reg : List UniqueConstraint) (st : UniqueGraph) : Prop where
  tx : st.tx = none
  rows : NodesOk st.nodes
  known : ∀ id, st.nodes id ≠ none → id ∈ st.ids
  unique : ∀ c ∈ reg, c.scope = .current → NoDuplicates c st.nodes

theorem Start.inv (h : Start reg st) : Inv reg st :=
  ⟨⟨h.rows, h.known, h.unique⟩, fun _ htx => absurd (h.tx.symm.trans htx) nofun,
    fun _ htx => nomatch h.tx.symm.trans htx⟩

/-- **No two current nodes carry equal values** of a `UniqueCurrent` key, in every run from a graph
without duplicates in which no standalone call takes a value the undo log of the open transaction brings
back for another node. -/
theorem current_values_unique
    (h : Runs.Reachable (Start reg)
      (Runs.Guarded (UniqueGraph.step cfg caps reg) fun st ev => st.leavesFreed cfg reg ev = true) st) :
    ∀ c ∈ reg, c.scope = .current → NoDuplicates c st.nodes := by
  have hinv : Inv reg st := h.invariant (fun _ hstart => hstart.inv)
    (fun _ _ _ _ hinv hstep => hstep.2 ▸ hinv.step hstep.1)
  exact hinv.nodes.unique

/-! ## Runs on fixed calls -/

/-- A constraint on label 1 and key 1. -/
def keyConstraint : UniqueConstraint := ⟨1, 1, .current⟩

/-- An empty graph. -/
def emptyGraph : UniqueGraph := ⟨.new .fresh, [], none⟩

theorem start_emptyGraph : Start [keyConstraint] emptyGraph :=
  ⟨rfl, nofun, fun _ h => absurd rfl h, fun _ _ _ _ _ _ _ _ _ h => nomatch h⟩

/-- Create a node with a value of key 1. -/
def addNode (id : Nat) (val : IntValue) (wall : Int64) : Door Value :=
  .chain (.node id) none (.add [1] [(1, .int val)] none none wall)

/-- Update the value of key 1. -/
def updateNode (id : Nat) (val : IntValue) (wall : Int64) : Door Value :=
  .chain (.node id) none (.update [(1, some (.int val))] none none false wall)

/-- A transaction moves node 1 off the value 7, node 2 is created with `val`, and the transaction is rolled
back. -/
def takenRun (val : IntValue) : List UniqueEvent :=
  [.call (addNode 1 ⟨.int64, 7, rfl⟩ 1) false, .beginTx 2,
    .txCall ⟨updateNode 1 ⟨.int64, 8, rfl⟩ 3, false⟩ false, .call (addNode 2 val 4) false, .rollback]

/-- The graph after a list of calls. -/
def runOf (evs : List UniqueEvent) : UniqueGraph :=
  evs.foldl (UniqueGraph.step Primary.legacyConfig ⟨true, true⟩ [keyConstraint]) emptyGraph

/-- The values of key 1 that the nodes of label 1 carry. -/
def valueOf (st : UniqueGraph) (id : Nat) : Option Value :=
  (st.nodes id).bind fun x =>
    if x.row.labels.contains 1 then propertyValue x.row.properties 1 else none

theorem valueOf_eq_some {st : UniqueGraph} {v : Value} (h : valueOf st id = some v) :
    ∃ x, st.nodes id = some x ∧ 1 ∈ x.row.labels ∧ propertyValue x.row.properties 1 = some v := by
  obtain ⟨x, hx, h⟩ := Option.bind_eq_some_iff.mp h
  split at h
  · exact ⟨x, hx, contains_iff_mem.mp ‹_›, h⟩
  · cases h

/-- Node 2 takes the value 7 while the transaction has freed it, and the rollback gives it back to
node 1. -/
theorem freed_value_taken : ∃ st, Runs.Reachable (Start [keyConstraint])
      (Runs.Guarded (UniqueGraph.step Primary.legacyConfig ⟨true, true⟩ [keyConstraint])
        fun _ _ => True) st ∧
    ¬ NoDuplicates keyConstraint st.nodes := by
  refine ⟨runOf (takenRun ⟨.int32, 7, rfl⟩), .foldl (.start start_emptyGraph) ?_, fun h => ?_⟩
  · exact ⟨trivial, trivial, trivial, trivial, trivial, trivial⟩
  · obtain ⟨x, hx, hlx, hvx⟩ := valueOf_eq_some (show valueOf (runOf (takenRun ⟨.int32, 7, rfl⟩)) 1 =
      some (.int ⟨.int64, 7, rfl⟩) by decide +kernel)
    obtain ⟨y, hy, hly, hvy⟩ := valueOf_eq_some (show valueOf (runOf (takenRun ⟨.int32, 7, rfl⟩)) 2 =
      some (.int ⟨.int32, 7, rfl⟩) by decide +kernel)
    exact absurd (h 1 2 x y _ _ hx hy hlx hly hvx hvy rfl) (by decide)

/-- The same run with another value for node 2 leaves no duplicates. -/
theorem current_values_unique_atNine :
    NoDuplicates keyConstraint (runOf (takenRun ⟨.int32, 9, rfl⟩)).nodes :=
  current_values_unique (.foldl (.start start_emptyGraph) (by decide +kernel)) keyConstraint
    mem_cons_self rfl

end UniqueGraph

end RhoTkg
