import RhoTkg.NodeSlots
import RhoTkg.TxDoors

/-!
# What a door does to the nodes

A chain door of a node writes its history rows and then the row of the node's slot, with the labels and
the properties the door has computed; a chain door of a relationship writes no node.  Only the node a
door names can change (`Primary.nodes_runDoor_else`).
-/

namespace RhoTkg

open List

variable {V : Type}

/-- The node whose rows a door writes. -/
def Door.nodeID : Door V → Option Nat
  | .chain (.node id) _ _ => some id
  | .updateInPlace (.node id) .. => some id
  | .deleteNode id .. => some id
  | .hardDeleteNode id => some id
  | .hardDeleteNodeCascade id => some id
  | _ => none

/-- The door builds a row; the others delete or trim. -/
def Door.buildsRow : Door V → Bool
  | .chain .. => true
  | .updateInPlace .. => true
  | _ => false

/-- The labels of a create. -/
def NodeEvent.createLabels : NodeEvent V → List Nat
  | .add labels .. => labels
  | .reimport labels .. => labels
  | _ => []

/-! ## What a door stores -/

section Content

variable {cfg : DoorConfig} {st : NodeState V} {ev : NodeEvent V} {current new : Row V}

/-- A close keeps the properties. -/
theorem NodeState.properties_closeVersion {end_ wall : Int} (hcur : st.current = some current)
    (hnew : (st.closeVersion cfg end_ wall).1.current = some new) :
    new.properties = current.properties := by
  have hsame : st.current = some new → new.properties = current.properties := fun h => by
    rw [Option.some.inj (hcur.symm.trans h)]
  unfold closeVersion at hnew
  rw [hcur] at hnew
  split at hnew
  · exact hsame hnew
  · rename_i heq
    cases heq
  · rename_i heq
    cases heq
    dsimp only at hnew
    split_ifs at hnew
    · exact hsame hnew
    · exact hsame hnew
    · exact hsame hnew
    · split at hnew
      · exact hsame hnew
      · rcases replaceWithHistory_current hnew with h | h
        · rw [h]
        · exact hsame h

variable [DecidableEq V]

/-- A label change of one version keeps the properties. -/
theorem NodeState.properties_changeLabel {lop : LabelOp} {wall : Int64}
    (hcascade : (NodeEvent.changeLabel lop wall : NodeEvent V).cascadesAt cfg st = none)
    (hcur : st.current = some current)
    (hnew : (st.changeLabel cfg lop wall.toInt).1.current = some new) :
    new.properties = current.properties := by
  have hsame : st.current = some new → new.properties = current.properties := fun h => by
    rw [Option.some.inj (hcur.symm.trans h)]
  simp only [NodeEvent.cascadesAt, hcur, Option.any_some, Bool.not_eq_true', ite_eq_right_iff,
    reduceCtorEq, imp_false] at hcascade
  unfold changeLabel at hnew
  rw [hcur] at hnew
  split at hnew
  · exact hsame hnew
  · rename_i heq
    cases heq
  · rename_i heq
    cases heq
    rw [if_neg hcascade] at hnew
    split at hnew
    · exact hsame hnew
    · split at hnew
      · exact hsame hnew
      · split at hnew
        · exact hsame hnew
        · split at hnew
          · exact hsame hnew
          · rcases replaceWithHistory_current hnew with h | h
            · rw [h]
            · exact hsame h

/-- A create stores the labels it is given. -/
theorem NodeState.labels_of_create (hcur : st.current = none) (hcreate : ev.isCreate = true)
    (hnew : (st.step cfg ev).1.current = some new) : new.labels = ev.createLabels := by
  have hput : ∀ (clock : Clock) (row : Row V), (st.putCreated clock row).1.current = some new →
      row = new := by
    intro clock row h
    unfold putCreated at h
    split at h
    · exact Option.some.inj h
    · exact nomatch hcur.symm.trans h
  have hsame : st.current ≠ some new := by rw [hcur]; nofun
  cases ev with
  | add labels props vf vt wall =>
    change (st.addNode cfg labels props _ _ _).1.current = some new at hnew
    unfold addNode at hnew
    split at hnew
    · exact absurd hnew hsame
    · exact absurd hnew hsame
    · split at hnew
      · rw [← hput _ _ hnew]
        rfl
      · exact absurd hnew hsame
  | reimport labels props vf vt wall =>
    change (st.importNode cfg labels props _ _ _).1.current = some new at hnew
    unfold importNode at hnew
    split at hnew
    · exact absurd hnew hsame
    · exact absurd hnew hsame
    · split at hnew
      · exact absurd hnew hsame
      · split at hnew
        · exact absurd hnew hsame
        · rw [← hput _ _ hnew]
          rfl
  | _ => cases hcreate

/-- Only a create writes rows of an entity that is not there. -/
theorem NodeState.sameRows_of_none {e : EntityId} (haccepts : e.accepts ev = true)
    (hcreate : ev.isCreate = false) (hcur : st.current = none) : st.SameRows (st.step cfg ev).1 := by
  by_cases hin : (Door.chain e none ev).inTx = true
  · exact sameRows_step hin haccepts hcreate (.inr hcur)
  · cases ev with
    | closeVersion end_ wall =>
      show st.SameRows (st.closeVersion cfg end_.toInt wall.toInt).1
      unfold closeVersion
      rw [hcur]
      split
      · exact ⟨rfl, rfl⟩
      · exact ⟨rfl, rfl⟩
      · rename_i heq
        cases heq
    | _ => exact absurd rfl hin

/-- A create of an entity that is there is refused. -/
theorem NodeState.sameRows_of_isCreate (hcreate : ev.isCreate = true) (hcur : st.current ≠ none) :
    st.SameRows (st.step cfg ev).1 := by
  obtain ⟨hhist, hsame | ⟨hnone, -⟩⟩ := createsIn_step cfg st hcreate
  · exact ⟨hhist, hsame⟩
  · exact absurd hnone hcur

end Content

section Calls

variable {cfg : DoorConfig} {st st' : NodeState V} {ev : NodeEvent V} {e : EntityId}
  {ends : Option (Nat × Nat)} {c : RoutedCall V}

theorem historyThenSlot_nil : HistoryThenSlot ([] : List (RoutedCall V)) := fun _ hc => nomatch hc

theorem historyThenSlot_singleton (c : RoutedCall V) : HistoryThenSlot [c] := fun _ hc => nomatch hc

theorem NodeState.historyThenSlot_storeCalls : HistoryThenSlot (st.storeCalls e ends ev cfg st') := by
  unfold storeCalls
  split
  · exact historyThenSlot_singleton _
  · split
    · intro c hc
      unfold cascadeCalls at hc
      have hput : ∀ (r : Row V), ∃ e' version x, StoreCall.putVersion e r.version ⟨ends, r⟩ =
          StoreCall.putVersion e' version x := fun r => ⟨_, _, _, rfl⟩
      split at hc
      · rw [append_nil] at hc
        obtain ⟨r, -, rfl⟩ := mem_map.mp (mem_of_mem_dropLast hc)
        exact hput r
      · rw [dropLast_append_of_ne_nil (cons_ne_nil _ _), mem_append] at hc
        rcases hc with hc | hc
        · obtain ⟨r, -, rfl⟩ := mem_map.mp hc
          exact hput r
        · rw [dropLast_cons_cons, dropLast_singleton, mem_singleton] at hc
          rw [hc]
          exact ⟨_, _, _, rfl⟩
    · split
      · exact historyThenSlot_nil
      · exact historyThenSlot_singleton _
  · exact historyThenSlot_nil

/-- The call that gives the slot of a node the row `new`. -/
structure SlotCall (new : Row V) (id : Nat) (ev : NodeEvent V) (c : StoreCall V) (id' : Nat)
    (x : Stored V) : Prop where
  id_eq : id' = id
  row : x.row = new
  added : ∀ l, c.addedLabel = some l → ∃ lop wall, ev = .changeLabel lop wall ∧ lop.add = true ∧ lop.tok = l

variable {id id' : Nat} {new current : Row V} {x : Stored V}

/-- A call with the row `new` that adds the label of the event, if any. -/
theorem slotCall_of_addedLabel {c : StoreCall V} (hslot : c.slot = some (id', x))
    (hnew : c.slot = some (id, ⟨ends, new⟩))
    (hadded : c.addedLabel = none ∨ ∃ lop wall, ev = .changeLabel lop wall ∧ c.addedLabel = if
      lop.add then some lop.tok else none) : SlotCall new id ev c id' x := by
  cases hslot.symm.trans hnew
  refine ⟨rfl, rfl, fun l hl => ?_⟩
  rcases hadded with hnone | ⟨lop, wall, hev, hlop⟩
  · cases hnone.symm.trans hl
  · rw [hlop] at hl
    split at hl
    · exact ⟨lop, wall, hev, ‹_›, Option.some.inj hl⟩
    · cases hl

theorem slotCall_supersedingCall {prev : Row V}
    (hslot : (supersedingCall (.node id) ends ev current new prev).call.slot = some (id', x)) :
    SlotCall new id ev (supersedingCall (.node id) ends ev current new prev).call id' x := by
  cases ev with
  | changeLabel lop wall => exact slotCall_of_addedLabel hslot rfl (.inr ⟨lop, wall, rfl, rfl⟩)
  | _ => exact slotCall_of_addedLabel hslot rfl (.inl rfl)

theorem slotCall_slotCall
    (hslot : (slotCall (.node id) ends ev current new).call.slot = some (id', x)) :
    SlotCall new id ev (slotCall (.node id) ends ev current new).call id' x := by
  cases ev with
  | changeLabel lop wall =>
    unfold slotCall at hslot ⊢
    dsimp only at hslot ⊢
    split at hslot
    · rename_i hlabels
      rw [if_pos hlabels]
      exact slotCall_of_addedLabel hslot rfl (.inl rfl)
    · rename_i hlabels
      rw [if_neg hlabels]
      exact slotCall_of_addedLabel hslot rfl (.inr ⟨lop, wall, rfl, rfl⟩)
  | _ => exact slotCall_of_addedLabel hslot rfl (.inl rfl)

/-- The row a chain door gives the slot of its node. -/
theorem NodeState.slotCall_storeCalls
    (hlast : (st.storeCalls (.node id) ends ev cfg st').getLast? = some c)
    (hslot : c.call.slot = some (id', x)) :
    ∃ new, st'.current = some new ∧ SlotCall new id ev c.call id' x := by
  unfold storeCalls at hlast
  split at hlast
  · rename_i new hcur hnew
    cases hlast
    exact ⟨new, hnew, slotCall_of_addedLabel hslot rfl (.inl rfl)⟩
  · rename_i current new hcur hnew
    refine ⟨new, hnew, ?_⟩
    split at hlast
    · unfold cascadeCalls at hlast
      split at hlast
      · rw [append_nil, getLast?_map] at hlast
        obtain ⟨r, -, rfl⟩ := Option.map_eq_some_iff.mp hlast
        cases hslot
      · rw [getLast?_append, getLast?_cons_cons, getLast?_singleton, Option.some_or,
          Option.some.injEq] at hlast
        subst hlast
        exact slotCall_slotCall hslot
    · split at hlast
      · cases hlast
      · cases hlast
        exact slotCall_supersedingCall hslot
  · cases hlast

/-- A chain door deletes no node, and on a relationship it writes no node's slot. -/
theorem NodeState.slot_of_mem_storeCalls (hc : c ∈ st.storeCalls e ends ev cfg st') :
    c.call.deletedNode = none ∧ (e.isRel = true → c.call.slot = none) := by
  have hsuperseding : ∀ current new prev : Row V,
      (supersedingCall e ends ev current new prev).call.deletedNode = none ∧
        (e.isRel = true → (supersedingCall e ends ev current new prev).call.slot = none) := by
    intro current new prev
    cases e <;> cases ev <;> simp [supersedingCall, StoreCall.deletedNode, StoreCall.slot, EntityId.isRel]
  have hslot : ∀ current new : Row V, (slotCall e ends ev current new).call.deletedNode = none ∧
      (e.isRel = true → (slotCall e ends ev current new).call.slot = none) := by
    intro current new
    cases e with
    | rel id => cases ev <;> exact ⟨rfl, fun _ => rfl⟩
    | node id =>
      refine ⟨?_, nofun⟩
      cases ev with
      | changeLabel lop wall =>
        unfold slotCall
        dsimp only
        split <;> rfl
      | _ => rfl
  unfold storeCalls at hc
  split at hc
  · rw [mem_singleton] at hc
    subst hc
    cases e with
    | node id => exact ⟨rfl, nofun⟩
    | rel id => exact ⟨rfl, fun _ => rfl⟩
  · split at hc
    · unfold cascadeCalls at hc
      rw [mem_append, mem_map] at hc
      rcases hc with ⟨r, -, rfl⟩ | hc
      · exact ⟨rfl, fun _ => rfl⟩
      · split at hc
        · cases hc
        · rw [mem_cons, mem_singleton] at hc
          rcases hc with rfl | rfl
          · exact ⟨rfl, fun _ => rfl⟩
          · exact hslot _ _
    · split at hc
      · cases hc
      · rw [mem_singleton] at hc
        subst hc
        exact hsuperseding _ _ _
  · cases hc

end Calls

/-! ## The calls of a door -/

namespace Primary

variable [DecidableEq V] {cfg : GraphConfig} {p : Primary V}

theorem historyThenSlot_doorCalls (cfg : GraphConfig) (p : Primary V) (d : Door V) :
    HistoryThenSlot (p.doorCalls cfg d).2 := by
  cases d with
  | chain e ends ev =>
    rw [doorCalls]
    split
    · dsimp only
      split
      · exact NodeState.historyThenSlot_storeCalls
      · exact historyThenSlot_nil
    · exact historyThenSlot_nil
  | updateInPlace e patch vf vt wall =>
    rw [doorCalls]
    split
    · split
      · exact historyThenSlot_nil
      · exact historyThenSlot_singleton _
    · exact historyThenSlot_nil
  | deleteNode | deleteRel =>
    rw [doorCalls]
    split
    · exact historyThenSlot_singleton _
    · exact historyThenSlot_nil
  | hardDeleteNode | hardDeleteNodeCascade | hardDeleteRel | truncateHistory | trimHistoryFrom =>
    exact historyThenSlot_singleton _

variable {c : RoutedCall V} {e : EntityId} {ends : Option (Nat × Nat)} {ev : NodeEvent V}
  {d : Door V} {id : Nat}

/-- The calls of a chain door. -/
theorem mem_doorCalls_chain (hc : c ∈ (p.doorCalls cfg (.chain e ends ev)).2) :
    c.call.deletedNode = none ∧ (e.isRel = true → c.call.slot = none) := by
  rw [doorCalls] at hc
  split at hc
  · dsimp only at hc
    split at hc
    · exact NodeState.slot_of_mem_storeCalls hc
    · cases hc
  · cases hc

/-- The calls of an in-place update. -/
theorem mem_doorCalls_updateInPlace {patch : Patch V} {vf vt : Option (Option Int64)} {wall : Int64}
    (hc : c ∈ (p.doorCalls cfg (.updateInPlace e patch vf vt wall)).2) :
    ∃ x, c.call = .replace e x := by
  rw [doorCalls] at hc
  split at hc
  · split at hc
    · cases hc
    · rw [mem_singleton] at hc
      exact ⟨_, by rw [hc]⟩
  · cases hc

/-- The calls of the doors that delete or trim. -/
theorem mem_doorCalls_else (hd : d.buildsRow = false) (hc : c ∈ (p.doorCalls cfg d).2) :
    c.call.slot = none ∧ ∀ id, c.call.deletedNode = some id → d.nodeID = some id := by
  cases d with
  | chain | updateInPlace => cases hd
  | deleteNode id spec wall =>
    rw [doorCalls] at hc
    split at hc
    · rw [mem_singleton] at hc
      subst hc
      exact ⟨rfl, fun _ h => h⟩
    · cases hc
  | deleteRel id spec wall =>
    rw [doorCalls] at hc
    split at hc
    · rw [mem_singleton] at hc
      subst hc
      exact ⟨rfl, by rintro _ ⟨⟩⟩
    · cases hc
  | hardDeleteNode | hardDeleteNodeCascade =>
    cases mem_singleton.mp hc
    exact ⟨rfl, fun _ h => h⟩
  | hardDeleteRel | truncateHistory | trimHistoryFrom =>
    cases mem_singleton.mp hc
    exact ⟨rfl, by rintro _ ⟨⟩⟩

/-- The node whose slot the last call writes. -/
theorem nodeID_of_slot {x : Stored V} (hlast : (p.doorCalls cfg d).2.getLast? = some c)
    (hslot : c.call.slot = some (id, x)) : d.nodeID = some id := by
  have hmem := mem_of_getLast? hlast
  cases d with
  | chain e ends ev =>
    cases e with
    | rel r => exact absurd (hslot.symm.trans ((mem_doorCalls_chain hmem).2 rfl)) nofun
    | node n =>
      rw [doorCalls] at hlast
      split at hlast
      · dsimp only at hlast
        split at hlast
        · obtain ⟨new, -, hcall⟩ := NodeState.slotCall_storeCalls hlast hslot
          rw [hcall.id_eq]
          rfl
        · cases hlast
      · cases hlast
  | updateInPlace e patch vf vt wall =>
    obtain ⟨y, hy⟩ := mem_doorCalls_updateInPlace hmem
    rw [hy] at hslot
    cases e with
    | rel r => cases hslot
    | node n =>
      cases hslot
      rfl
  | _ => exact nomatch hslot.symm.trans (mem_doorCalls_else rfl hmem).1

/-- The node the last call deletes. -/
theorem nodeID_of_deletedNode (hlast : (p.doorCalls cfg d).2.getLast? = some c)
    (hdel : c.call.deletedNode = some id) : d.nodeID = some id := by
  have hmem := mem_of_getLast? hlast
  cases d with
  | chain e ends ev => exact nomatch hdel.symm.trans (mem_doorCalls_chain hmem).1
  | updateInPlace e patch vf vt wall =>
    obtain ⟨x, hx⟩ := mem_doorCalls_updateInPlace hmem
    rw [hx] at hdel
    cases hdel
  | _ => exact (mem_doorCalls_else rfl hmem).2 id hdel

/-- The nodes after a door, by its last call. -/
theorem nodes_runDoor_last (cfg : GraphConfig) (p : Primary V) (d : Door V) (token : Nat) :
    (p.runDoor cfg token d).store.nodes = p.store.nodes ∨
      ∃ (c : RoutedCall V) (t : Store V), (p.doorCalls cfg d).2.getLast? = some c ∧
        t.nodes = p.store.nodes ∧ NodesAfter t c.call (p.runDoor cfg token d).store :=
  nodes_runCalls (p := { p with clock := (p.doorCalls cfg d).1 }) (historyThenSlot_doorCalls cfg p d) token

/-- **A door leaves the other nodes.** -/
theorem nodes_runDoor_else (hid : d.nodeID ≠ some id) (token : Nat) :
    (p.runDoor cfg token d).store.nodes id = p.store.nodes id := by
  rcases nodes_runDoor_last cfg p d token with hsame | ⟨c, t, hlast, ht, hafter⟩
  · rw [hsame]
  · rw [← ht]
    cases hafter with
    | same hnodes => rw [hnodes]
    | @deleted id' hdel hnodes =>
      have hne : id ≠ id' := fun h => hid (h ▸ nodeID_of_deletedNode hlast hdel)
      rw [hnodes, Function.update_of_ne hne]
    | @slot id' x hslot hnodes hok =>
      have hne : id ≠ id' := fun h => hid (h ▸ nodeID_of_slot hlast hslot)
      rw [hnodes, Function.update_of_ne hne]

/-- A create of a node that is there leaves it. -/
theorem store_of_create (hcreate : ev.isCreate = true) (hcur : p.store.current e ≠ none)
    (token : Nat) : (p.runDoor cfg token (.chain e ends ev)).store = p.store := by
  have hcalls : (p.doorCalls cfg (.chain e ends ev)).2 = [] := by
    rw [doorCalls]
    split
    · dsimp only
      split
      · refine NodeState.storeCalls_of_sameRows (NodeState.sameRows_of_isCreate hcreate ?_)
        simpa [Store.chainState] using hcur
      · rfl
    · rfl
  rw [runDoor, hcalls]
  rfl

/-- A delete of a node deletes it or leaves it. -/
theorem nodes_deleteNode {spec : NodeState.TombstoneSpec} {wall : List Int64} (token : Nat) :
    (p.runDoor cfg token (.deleteNode id spec wall)).store.nodes = p.store.nodes ∨
      (p.runDoor cfg token (.deleteNode id spec wall)).store.nodes =
        Function.update p.store.nodes id none := by
  rcases nodes_runDoor_last cfg p (.deleteNode id spec wall) token with hsame | ⟨c, t, hlast, ht, hafter⟩
  · exact .inl hsame
  · rw [← ht]
    cases hafter with
    | same hnodes => exact .inl hnodes
    | deleted hdel hnodes =>
      have hid : some id = some _ := nodeID_of_deletedNode hlast hdel
      cases hid
      exact .inr hnodes
    | slot hslot =>
      exact absurd (hslot.symm.trans (mem_doorCalls_else rfl (mem_of_getLast? hlast)).1) nofun

end Primary

end RhoTkg
