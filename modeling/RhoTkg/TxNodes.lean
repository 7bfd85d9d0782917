import RhoTkg.NodeDoors
import RhoTkg.NodeRollback
import RhoTkg.TxRecords

/-!
# The undo log of a transaction at the nodes

The undo log describes the nodes `Rollback` would leave (`rolledRow`): for a node with a record the row of
the last one, for the others the current row.  A call of the transaction leaves this picture as it is,
but that a node it creates is gone in it (`GraphTx.nodesRecorded_call`): the snapshot of an update or of
a delete is the row the picture has for the node.
-/

namespace RhoTkg

open List UndoEntry GraphTx

variable {V : Type} {s s' : Store V} {tx tx' tx'' : GraphTx V} {e : EntityId} {id : Nat}

/-- The nodes the undo log describes are rows of the store. -/
theorem NodesOk.rolledRow {f : Nat → Option (Stored V)} (hf : NodesOk f) {entries : List (UndoEntry V)}
    (hentries : ∀ a ∈ entries, a.RowOk) : NodesOk (rolledRow entries f) := by
  intro id x hx
  unfold RhoTkg.rolledRow at hx
  split at hx
  · exact hf id x hx
  · rename_i a ha
    obtain ⟨hmem, hentity⟩ := mem_of_lastOf ha
    exact hentries a hmem id hentity x hx

/-- What a call of the transaction does to the nodes the undo log describes, and that the rows it records
are rows of the store. -/
structure NodesRecorded (s s' : Store V) (tx tx' : GraphTx V) : Prop where
  rolled : ∀ id, rolledRow tx'.undoEntries s'.nodes id = rolledRow tx.undoEntries s.nodes id ∨
    rolledRow tx'.undoEntries s'.nodes id = none
  rows : NodesOk s.nodes → (∀ a ∈ tx.undoEntries, a.RowOk) → ∀ a ∈ tx'.undoEntries, a.RowOk

namespace NodesRecorded

theorem trans (h : NodesRecorded s s tx tx') (h' : NodesRecorded s s' tx' tx'') :
    NodesRecorded s s' tx tx'' where
  rolled id := by
    rcases h'.rolled id with heq | hnone
    · rw [heq]
      exact h.rolled id
    · exact .inr hnone
  rows hs htx := h'.rows hs (h.rows hs htx)

/-- A call that records nothing and changes no node without a record. -/
theorem unrecorded
    (h : ∀ id, s'.nodes id = s.nodes id ∨ UndoEntry.lastOf (.node id) tx.undoEntries ≠ none) :
    NodesRecorded s s' tx tx where
  rolled id := by
    refine .inl ?_
    unfold rolledRow
    cases hlast : lastOf (.node id) tx.undoEntries with
    | none => exact (h id).resolve_right fun hne => hne hlast
    | some a => rfl
  rows _ htx := htx

/-- Records that go in before the others of a node, or are its first. -/
theorem inserted (new : List (UndoEntry V))
    (hlast : ∀ id, UndoEntry.lastOf (.node id) tx'.undoEntries =
      (UndoEntry.lastOf (.node id) tx.undoEntries).or (UndoEntry.lastOf (.node id) new))
    (hmem : ∀ a ∈ tx'.undoEntries, a ∈ new ∨ a ∈ tx.undoEntries)
    (hnew : ∀ a ∈ new, ∀ id, a.entity = .node id → a.row = s.nodes id)
    (hsame : ∀ id, s'.nodes id = s.nodes id ∨ UndoEntry.lastOf (.node id) tx'.undoEntries ≠ none) :
    NodesRecorded s s' tx tx' where
  rolled id := by
    unfold rolledRow
    rw [hlast id]
    cases hold : lastOf (.node id) tx.undoEntries with
    | some a => exact .inl rfl
    | none =>
      rw [Option.none_or]
      cases hadd : lastOf (.node id) new with
      | none =>
        refine .inl ((hsame id).resolve_right fun hne => hne ?_)
        rw [hlast id, hold, hadd]
        rfl
      | some a =>
        obtain ⟨hmem, hentity⟩ := mem_of_lastOf hadd
        exact .inl (hnew a hmem id hentity)
  rows hs hrows a ha := by
    rcases hmem a ha with ha | ha
    · intro id hid x hx
      exact hs id x ((hnew a ha id hid).symm.trans hx)
    · exact hrows a ha

theorem materialized (s : Store V) (tx : GraphTx V) (e : EntityId) :
    NodesRecorded s s tx (tx.materialize s e) := by
  have hrow : ∀ a b : UndoEntry V, MadeWhole e (s.history e) a b → b.row = a.row := by
    rintro a b (rfl | ⟨snap, rfl, rfl⟩)
    · rfl
    · show some (snap.materialize _).prev = some snap.prev
      unfold Snapshot.materialize
      split <;> rfl
  have hwhole : Forall₂ (MadeWhole e (s.history e)) tx.undoEntries
    (tx.materialize s e).undoEntries := forall₂_materialize e
  refine ⟨fun id => .inl ?_, fun _ htx b hb => ?_⟩
  · have hlast := lastOf_madeWhole (.node id) hwhole
    unfold rolledRow
    generalize lastOf (.node id) tx.undoEntries = x at hlast
    generalize lastOf (.node id) (tx.materialize s e).undoEntries = y at hlast
    cases hlast with
    | none => rfl
    | some hab => exact hrow _ _ hab
  · obtain ⟨a, ha, hab⟩ := exists_mem_of_forall₂ hwhole hb
    intro id hid x hx
    exact htx a ha id (hab.entity ▸ hid) x (by rw [← hrow a b hab]; exact hx)

/-- The snapshot of an update. -/
theorem snapshotCurrent {caps : TxCaps} {head : Bool}
    (helse : ∀ id, e ≠ .node id → s'.nodes id = s.nodes id)
    (hgone : s.current e = none → s'.nodes = s.nodes) :
    NodesRecorded s s' tx (tx.snapshotCurrent caps head s e) := by
  unfold GraphTx.snapshotCurrent
  split
  · rename_i hnone
    exact .unrecorded fun id => .inl (congrFun (hgone hnone) id)
  · rename_i x hx
    split
    · rename_i htracked
      refine .unrecorded fun id => ?_
      by_cases he : e = .node id
      · subst he
        refine .inr (lastOf_undoEntries_ne_none.mpr ?_)
        simpa [or_assoc] using htracked
      · exact .inl (helse id he)
    · obtain ⟨L, M, htx, htx'⟩ := undoEntries_updated tx e (.ofUpdate caps head x (s.history e))
      rename_i huntracked
      have hfirst : lastOf e tx.undoEntries = none := by
        by_contra hne
        exact huntracked (by simpa [or_assoc] using lastOf_undoEntries_ne_none.mp hne)
      refine .inserted [.updated e (.ofUpdate caps head x (s.history e))] (fun id => ?_)
        (fun a ha => ?_) (fun a ha id hid => ?_) (fun id => ?_)
      · rw [htx, htx']
        refine lastOf_insert fun _ hne => ?_
        obtain ⟨a, ha⟩ := Option.ne_none_iff_exists'.mp hne
        obtain ⟨hmem, hentity⟩ := mem_of_lastOf ha
        rw [mem_singleton.mp hmem] at hentity
        have hentity : e = .node id := hentity
        rw [htx, hentity, lastOf_append, Option.or_eq_none_iff] at hfirst
        exact hfirst.2
      · rw [htx', mem_append, mem_append] at ha
        rw [htx, mem_append]
        exact or_left_comm.mp ha
      · rw [mem_singleton.mp ha] at hid ⊢
        have hid : e = .node id := hid
        show some (Snapshot.ofUpdate caps head x (s.history e)).prev = s.nodes id
        rw [Store.nodes, ← hid, hx]
        unfold Snapshot.ofUpdate
        split_ifs <;> rfl
      · by_cases he : e = .node id
        · refine .inr fun hnone => ?_
          rw [lastOf_eq_none, htx'] at hnone
          exact hnone (.updated e (.ofUpdate caps head x (s.history e))) (by simp) he
        · exact .inl (helse id he)

/-- The record of a create. -/
theorem trackCreated {version : Nat} (helse : ∀ id, e ≠ .node id → s'.nodes id = s.nodes id) :
    NodesRecorded s s' tx (tx.trackCreated e version) := by
  unfold GraphTx.trackCreated
  split
  · rename_i htracked
    refine .unrecorded fun id => ?_
    by_cases he : e = .node id
    · subst he
      refine .inr (lastOf_undoEntries_ne_none.mpr ?_)
      rcases Bool.or_eq_true_iff.mp htracked with h | h
      · exact .inr (.inl h)
      · exact .inr (.inr h)
    · exact .inl (helse id he)
  · obtain ⟨L, M, htx, htx'⟩ := undoEntries_created tx e version
    refine ⟨fun id => ?_, fun _ hrows a ha => ?_⟩
    · unfold rolledRow
      rw [htx, htx', lastOf_append, lastOf_append, lastOf_append]
      cases hM : lastOf (.node id) M with
      | some a => exact .inl rfl
      | none =>
        have hentity : (created e version : UndoEntry V).entity = e := rfl
        by_cases he : e = .node id
        · rw [lastOf_cons, hentity, if_pos he]
          exact .inr rfl
        · rw [lastOf_cons, hentity, if_neg he]
          refine .inl ?_
          cases lastOf (.node id) L with
          | none => exact helse id he
          | some a => rfl
    · rw [htx', mem_append, mem_append, mem_singleton] at ha
      rcases ha with ha | rfl | ha
      · exact hrows a (by rw [htx]; exact mem_append_left _ ha)
      · exact fun _ _ _ h => nomatch h
      · exact hrows a (by rw [htx]; exact mem_append_right _ ha)

end NodesRecorded

section Calls

variable [DecidableEq V] {cfg : GraphConfig} {caps : TxCaps} {p : Primary V} {token : Nat}

omit [DecidableEq V] in
/-- Only a create and a delete record something after the door. -/
theorem GraphTx.after_chain {ends : Option (Nat × Nat)} {ev : NodeEvent V}
    (hcreate : ev.isCreate = false) (t : GraphTx V) :
    GraphTx.after caps s s' t (.chain e ends ev) = t := by
  unfold after
  dsimp only
  split
  · rw [hcreate]
    exact if_neg Bool.false_ne_true
  · rfl

/-- A call on a chain. -/
theorem nodesRecorded_chain {ends : Option (Nat × Nat)} {ev : NodeEvent V} {head : Bool}
    (hin : (Door.chain e ends ev).inTx = true)
    (hstore : s'.nodes = p.store.nodes ∨
      s'.nodes = (p.runDoor cfg token (.chain e ends ev)).store.nodes) :
    NodesRecorded p.store s' tx (GraphTx.after caps p.store s'
      (GraphTx.before cfg caps p tx ⟨.chain e ends ev, head⟩) (.chain e ends ev)) := by
  have helse : ∀ id, e ≠ .node id → s'.nodes id = p.store.nodes id := by
    intro id he
    rcases hstore with hnodes | hnodes
    · rw [hnodes]
    · rw [hnodes]
      refine Primary.nodes_runDoor_else (fun h => he ?_) token
      cases e with
      | node n =>
        cases h
        rfl
      | rel n => cases h
  have hsame : (p.runDoor cfg token (.chain e ends ev)).store = p.store →
      s'.nodes = p.store.nodes := fun h => by
    rcases hstore with hnodes | hnodes
    · exact hnodes
    · rw [hnodes, h]
  cases hcreate : ev.isCreate with
  | false =>
    rw [after_chain hcreate]
    unfold before
    dsimp only
    split
    · refine .snapshotCurrent helse fun hnone => hsame ?_
      exact Primary.store_of_noSnapshot hin hcreate (.inr hnone) token
    · rename_i hno
      have hkept := hsame (Primary.store_of_noSnapshot hin hcreate (.inl (by simpa using hno)) token)
      split
      · exact (NodesRecorded.materialized p.store tx e).trans
          (.unrecorded fun id => .inl (congrFun hkept id))
      · exact .unrecorded fun id => .inl (congrFun hkept id)
  | true =>
    have hsnap : ev.takesSnapshot (cfg.forEntity e) (p.store.chainState p.clock e) = false := by
      cases ev <;> first | rfl | cases hcreate
    unfold GraphTx.before GraphTx.after
    dsimp only
    rw [hsnap, Bool.and_false, if_neg Bool.false_ne_true]
    have hfirst : NodesRecorded p.store p.store tx
        (if (ev.isImport && tx.isDeleted e) = true then tx.materialize p.store e else tx) := by
      split
      · exact .materialized p.store tx e
      · exact .unrecorded fun _ => .inl rfl
    generalize (if (ev.isImport && tx.isDeleted e) = true then tx.materialize p.store e else tx) = t
      at hfirst
    refine hfirst.trans ?_
    split
    · rw [if_pos hcreate]
      exact .trackCreated helse
    · rename_i hno
      refine .unrecorded fun id => .inl ?_
      by_cases he : e = .node id
      · subst he
        cases hcur : p.store.current (.node id) with
        | some x =>
          rw [hsame (Primary.store_of_create hcreate (by simp [hcur]) token)]
        | none =>
          cases hcur' : s'.current (.node id) with
          | none => exact hcur'.trans hcur.symm
          | some x => exact absurd hcur' (hno x hcur)
      · exact helse id he

/-- **A call of the transaction**, refused or not, leaves the nodes the undo log describes, but for a node
it creates. -/
theorem GraphTx.nodesRecorded_call {c : TxCall V} (hin : c.door.inTx = true)
    (hstore : s'.nodes = p.store.nodes ∨ s'.nodes = (p.runDoor cfg token c.door).store.nodes) :
    NodesRecorded p.store s' tx
      (GraphTx.after caps p.store s' (GraphTx.before cfg caps p tx c) c.door) := by
  obtain ⟨d, head⟩ := c
  cases d with
  | chain e ends ev => exact nodesRecorded_chain hin hstore
  | deleteNode id spec wall =>
    have hnodes : s'.nodes = p.store.nodes ∨ s'.nodes = Function.update p.store.nodes id none := by
      rcases hstore with h | h
      · exact .inl h
      · rw [h]
        exact Primary.nodes_deleteNode token
    have helse : ∀ n, n ≠ id → s'.nodes n = p.store.nodes n := fun n hn => by
      rcases hnodes with h | h
      · rw [h]
      · rw [h, Function.update_of_ne hn]
    unfold before after
    dsimp only
    split
    · rename_i x hx hgone
      obtain ⟨M, htx, htx'⟩ := undoEntries_deletedNode tx
        ⟨id, .ofDelete caps x (p.store.history (.node id)),
          (p.store.cascadedRels id).map fun r => (r.1, .ofDelete caps r.2 (p.store.history (.rel r.1)))⟩
      generalize ((p.store.cascadedRels id).map fun r =>
        (r.1, Snapshot.ofDelete caps r.2 (p.store.history (.rel r.1)))) = rels at htx'
      have hsnap : some (Snapshot.ofDelete caps x (p.store.history (.node id))).prev =
          p.store.nodes id := by
        rw [Store.nodes, hx]
        unfold Snapshot.ofDelete
        split_ifs <;> rfl
      generalize Snapshot.ofDelete caps x (p.store.history (.node id)) = snap at htx' hsnap
      have hrels : ∀ n, lastOf (.node n)
          (rels.map fun r => deleted (.rel r.1) r.2) = none := by
        intro n
        refine lastOf_eq_none.mpr fun a ha => ?_
        obtain ⟨r, -, rfl⟩ := mem_map.mp ha
        rintro ⟨⟩
      refine .inserted (.deleted (.node id) snap :: rels.map fun r => .deleted (.rel r.1) r.2)
        (fun n => ?_) (fun a ha => ?_) (fun a ha n hn => ?_) (fun n => ?_)
      · rw [htx', nil_append, lastOf_append, lastOf_append,
          lastOf_append, hrels, Option.or_none, ← lastOf_append, ← htx,
          lastOf_cons, lastOf_cons _ _ (rels.map _), hrels]
        rfl
      · rw [htx', nil_append, mem_append, mem_singleton, mem_append,
          mem_append] at ha
        rw [htx, mem_append, mem_cons]
        tauto
      · rcases mem_cons.mp ha with rfl | ha
        · cases hn
          exact hsnap
        · obtain ⟨r, -, rfl⟩ := mem_map.mp ha
          cases hn
      · by_cases hn : n = id
        · subst hn
          refine .inr fun hnone => ?_
          rw [lastOf_eq_none, htx'] at hnone
          exact hnone (.deleted (.node n) snap) (by simp) rfl
        · exact .inl (helse n hn)
    · rename_i hno
      refine .unrecorded fun n => .inl ?_
      rcases hnodes with h | h
      · rw [h]
      · by_cases hn : n = id
        · subst hn
          cases hcur : p.store.current (.node n) with
          | none => rw [h, Function.update_self, Store.nodes, hcur]
          | some x =>
            refine absurd ?_ (hno x hcur)
            have hnone : s'.nodes n = none := by rw [h, Function.update_self]
            exact hnone
        · exact helse n hn
  | deleteRel id spec wall =>
    have hnodes : s'.nodes = p.store.nodes := by
      rcases hstore with h | h
      · exact h
      · rw [h]
        exact funext fun n => Primary.nodes_runDoor_else (by simp [Door.nodeID]) token
    unfold before after
    dsimp only
    split
    · rename_i x hx hgone
      obtain ⟨M, htx, -, htx'⟩ := undoEntries_deletedRel tx id
        (.ofDelete caps x (p.store.history (.rel id)))
      refine .inserted [.deleted (.rel id) (.ofDelete caps x (p.store.history (.rel id)))]
        (fun n => ?_) (fun a ha => ?_) (fun a ha n hn => ?_) (fun n => .inl (by rw [hnodes]))
      · rw [htx, htx']
        exact lastOf_insert fun _ hne =>
          absurd (lastOf_eq_none.mpr fun a ha => by rw [mem_singleton.mp ha]; rintro ⟨⟩) hne
      · simp only [htx, htx', mem_append] at ha ⊢
        tauto
      · rw [mem_singleton.mp ha] at hn
        cases hn
    · exact .unrecorded fun n => .inl (by rw [hnodes])
  | _ => cases hin

end Calls

end RhoTkg
