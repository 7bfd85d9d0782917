import RhoTkg.Primary

/-!
# The current rows of the nodes

A store call gives the current slot of a node a row, deletes a node, or leaves the nodes
(`Store.nodes_call`).  A door writes its history rows first, so what it does to the nodes is what its
last call does (`Primary.nodes_runCalls`).
-/

namespace RhoTkg

variable {V : Type} {s s' t : Store V} {c : StoreCall V} {r : Option (Change V)}

/-! ## What a call writes -/

/-- The row a store call puts in the current slot of a node. -/
def StoreCall.slot : StoreCall V → Option (Nat × Stored V)
  | .put (.node id) x => some (id, x)
  | .replace (.node id) x => some (id, x)
  | .replaceWithHistory (.node id) x _ _ => some (id, x)
  | .changeNodeLabelToken id _ x => some (id, x)
  | .changeNodeLabelTokenWithHistory id _ x _ _ => some (id, x)
  | _ => none

/-- The label a store call adds. -/
def StoreCall.addedLabel : StoreCall V → Option Nat
  | .changeNodeLabelToken _ lop _ => if lop.add then some lop.tok else none
  | .changeNodeLabelTokenWithHistory _ lop _ _ _ => if lop.add then some lop.tok else none
  | _ => none

/-- The node a store call deletes. -/
def StoreCall.deletedNode : StoreCall V → Option Nat
  | .deleteNode id => some id
  | .deleteNodeCascade id => some id
  | .deleteNodeWithHistory id .. => some id
  | _ => none

/-! ## What a call does to the nodes -/

/-- The current rows of the nodes. -/
def Store.nodes (s : Store V) (id : Nat) : Option (Stored V) := s.current (.node id)

/-- The row a call gives the slot is valid, has the labels of the row it replaces but for the label the
call adds, and is the first of a node only in a create. -/
structure SlotOk (s : Store V) (c : StoreCall V) (id : Nat) (x : Stored V) : Prop where
  valid : validSnapshot (.node id) x = true
  labels : ∀ y, s.nodes id = some y → y.row.labels.Nodup →
    x.row.labels.Nodup ∧ ∀ l ∈ x.row.labels, l ∈ y.row.labels ∨ c.addedLabel = some l
  created : s.nodes id = none → c = .put (.node id) x

/-- What a store call does to the nodes. -/
inductive NodesAfter (s : Store V) (c : StoreCall V) (s' : Store V) : Prop
  | same (hnodes : s'.nodes = s.nodes)
  | deleted {id : Nat} (hc : c.deletedNode = some id)
      (hnodes : s'.nodes = Function.update s.nodes id none)
  | slot {id : Nat} {x : Stored V} (hc : c.slot = some (id, x))
      (hnodes : s'.nodes = Function.update s.nodes id (some x)) (hok : SlotOk s c id x)

variable {e : EntityId} {lop : LabelOp} {new old x : Stored V} {id : Nat}

/-- A label change adds its label or takes it away. -/
theorem validLabelChange_labels (h : validLabelChange e old new lop = true)
    (hnodup : old.row.labels.Nodup) :
    validSnapshot e new = true ∧ new.row.labels.Nodup ∧
      ∀ l ∈ new.row.labels, l ∈ old.row.labels ∨ (if lop.add then some lop.tok else none) = some l := by
  unfold validLabelChange at h
  split at h
  · rename_i hadd
    simp only [validLabelAddition, Bool.and_eq_true, beq_iff_eq, bne_iff_ne, Bool.not_eq_true',
      List.contains_eq_mem, decide_eq_true_eq, decide_eq_false_iff_not, List.all_eq_true] at h
    obtain ⟨⟨⟨⟨⟨hvalid, -⟩, hnew⟩, htok⟩, hlen⟩, hold⟩ := h
    -- the old labels and the added one, and no more
    have hcons : (lop.tok :: old.row.labels).Nodup := List.nodup_cons.mpr ⟨hnew, hnodup⟩
    have hsub : lop.tok :: old.row.labels ⊆ new.row.labels := List.cons_subset.mpr ⟨htok, hold⟩
    have hperm := (hcons.subperm hsub).perm_of_length_le (by rw [hlen]; exact le_rfl)
    refine ⟨hvalid, hperm.nodup_iff.mp hcons, fun l hl => ?_⟩
    rcases List.mem_cons.mp (hperm.mem_iff.mpr hl) with rfl | hl
    · exact .inr (if_pos hadd)
    · exact .inl hl
  · simp only [validLabelRemoval, Bool.and_eq_true, beq_iff_eq, bne_iff_ne, Bool.not_eq_true',
      List.contains_eq_mem, decide_eq_true_eq, decide_eq_false_iff_not, List.all_eq_true,
      Bool.or_eq_true] at h
    obtain ⟨⟨⟨⟨⟨hvalid, -⟩, hmem⟩, -⟩, hlen⟩, hold⟩ := h
    have hsub : old.row.labels.erase lop.tok ⊆ new.row.labels := fun l hl => by
      rw [hnodup.mem_erase_iff] at hl
      exact (hold l hl.2).resolve_left hl.1
    have hperm := ((hnodup.erase lop.tok).subperm hsub).perm_of_length_le
      (by rw [hlen, List.length_erase_of_mem hmem])
    refine ⟨hvalid, hperm.nodup_iff.mp (hnodup.erase _), fun l hl => .inl ?_⟩
    exact List.mem_of_mem_erase (hperm.mem_iff.mpr hl)

theorem validLabelChange_valid (h : validLabelChange e old new lop = true) :
    validSnapshot e new = true := by
  unfold validLabelChange at h
  split at h
  · simp only [validLabelAddition, Bool.and_eq_true] at h
    exact h.1.1.1.1.1
  · simp only [validLabelRemoval, Bool.and_eq_true] at h
    exact h.1.1.1.1.1

theorem slotOk_of_validReplacement (hcur : s.current (.node id) = some old)
    (hvalid : validReplacement (.node id) old x = true) : SlotOk s c id x := by
  simp only [validReplacement, Bool.and_eq_true, beq_iff_eq] at hvalid
  refine ⟨hvalid.1.1, fun y hy hnodup => ?_, fun hnone => nomatch hcur.symm.trans hnone⟩
  cases hcur.symm.trans hy
  rw [hvalid.1.2]
  exact ⟨hnodup, fun l hl => .inl hl⟩

theorem slotOk_of_validLabelChange (hcur : s.current (.node id) = some old)
    (hvalid : validLabelChange (.node id) old x lop = true)
    (hadd : c.addedLabel = if lop.add then some lop.tok else none) : SlotOk s c id x := by
  refine ⟨validLabelChange_valid hvalid, fun y hy hnodup => ?_,
    fun hnone => nomatch hcur.symm.trans hnone⟩
  cases hcur.symm.trans hy
  rw [hadd]
  exact (validLabelChange_labels hvalid hnodup).2

theorem Store.nodes_setCurrent_node (s : Store V) (id : Nat) (x : Option (Stored V)) :
    (s.setCurrent (.node id) x).nodes = Function.update s.nodes id x := by
  funext b
  by_cases hb : b = id
  · subst hb
    rw [Function.update_self, nodes, current_setCurrent, Function.update_self]
  · rw [Function.update_of_ne hb, nodes, current_setCurrent, Function.update_of_ne (by simpa using hb)]
    rfl

theorem Store.nodes_setCurrent_rel (s : Store V) (id : Nat) (x : Option (Stored V)) :
    (s.setCurrent (.rel id) x).nodes = s.nodes := by
  funext b
  rfl

/-- **What an accepted store call does to the nodes.** -/
theorem Store.nodes_call (h : s.call c = .ok (s', r)) : NodesAfter s c s' := by
  cases Store.call_effect h with
  | putNode hvalid hnone =>
    exact .slot rfl (nodes_setCurrent_node _ _ _) ⟨hvalid,
      fun y hy => absurd (hnone.symm.trans hy) nofun, fun _ => rfl⟩
  | @putRel id x => exact .same (nodes_setCurrent_rel s id (some x))
  | @replaced e x old hcur hvalid =>
    cases e with
    | rel id => exact .same (nodes_setCurrent_rel _ _ _)
    | node id =>
      exact .slot rfl (nodes_setCurrent_node _ _ _) (slotOk_of_validReplacement hcur hvalid)
  | labelled hcur hvalid =>
    exact .slot rfl (nodes_setCurrent_node _ _ _) (slotOk_of_validLabelChange hcur hvalid rfl)
  | @superseded e x prev old hcur hprev hvalid hkept =>
    cases e with
    | rel id => exact .same (nodes_setCurrent_rel _ _ _)
    | node id =>
      exact .slot rfl (nodes_setCurrent_node _ _ _) (slotOk_of_validReplacement hcur hvalid)
  | labelSuperseded hcur hprev hvalid hkept =>
    exact .slot rfl (nodes_setCurrent_node _ _ _) (slotOk_of_validLabelChange hcur hvalid rfl)
  | versionPut | truncated | notTruncated | trimmed | notTrimmed | relDeleted | relEnded =>
    exact .same rfl
  | nodeDeleted | nodeCascaded => exact .deleted rfl (nodes_setCurrent_node _ _ _)
  | nodeEnded =>
    refine .deleted rfl ((nodes_setCurrent_node _ _ _).trans (congrArg (Function.update · _ _) ?_))
    funext b
    simp [nodes]

/-- The calls of a door before its last write history rows. -/
def HistoryThenSlot (cs : List (RoutedCall V)) : Prop :=
  ∀ c ∈ cs.dropLast, ∃ e version x, c.call = .putVersion e version x

/-- The nodes after the calls of a door: as before, or as the last call leaves them. -/
theorem Primary.nodes_runCalls {p : Primary V} {cs : List (RoutedCall V)} (hcs : HistoryThenSlot cs)
    (token : Nat) : (p.runCalls token cs).store.nodes = p.store.nodes ∨
      ∃ (c : RoutedCall V) (t : Store V), cs.getLast? = some c ∧ t.nodes = p.store.nodes ∧
        NodesAfter t c.call (p.runCalls token cs).store := by
  induction cs generalizing p with
  | nil => exact .inl rfl
  | cons c cs ih =>
    rw [Primary.runCalls]
    split
    · exact .inl rfl
    · rename_i p' hrun
      obtain ⟨r, hcall⟩ := call_of_runCall hrun
      cases cs with
      | nil => exact .inr ⟨c, p.store, rfl, rfl, Store.nodes_call hcall⟩
      | cons d ds =>
        obtain ⟨e, version, x, hput⟩ := hcs c List.mem_cons_self
        have hkeep : p'.store.nodes = p.store.nodes := by
          rw [hput] at hcall
          generalize p'.store = s' at hcall
          cases Store.call_effect hcall
          rfl
        have hrest : HistoryThenSlot (d :: ds) := fun c' hc' =>
          hcs c' (List.mem_cons_of_mem _ hc')
        rcases ih (p := p') hrest with hsame | ⟨c', t, hlast, ht, hafter⟩
        · exact .inl (hsame.trans hkeep)
        · exact .inr ⟨c', t, hlast, ht.trans hkeep, hafter⟩

end RhoTkg
