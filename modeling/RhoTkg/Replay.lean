import RhoTkg.Replica

/-!
# Replaying the record of a store call

A replica whose store equals the primary's reaches the primary's next store by applying the record of
the primary's call, when the call is *reproducible*: the superseded row it writes is the one the
handler rebuilds from its local row, and a label change is the one the handler infers
(`Store.Effect.replay`).

Two changes need not be applied in the order of their calls.  A put of a node's current row can be
applied before changes that leave this row and the history row under its version alone
(`Store.applyChanges_slotWritten`).
-/

namespace RhoTkg

open List Function Store

variable {V : Type}

/-! ## Reproducible calls -/

/-- What the handler needs of a call to reproduce it from its own current row. -/
def StoreCall.Reproducible (s : Store V) : StoreCall V → Prop
  | .replaceWithHistory e x _ prev => ∀ old, s.current e = some old →
    old.version ≠ x.version ∧ prev = reproduceSupersededTxTo old x
  | .changeNodeLabelToken id lop x => ∀ old, s.current (.node id) = some old →
    labelTokenDiff old x = if lop.add then ([lop.tok], []) else ([], [lop.tok])
  | .changeNodeLabelTokenWithHistory id lop x _ prev => ∀ old, s.current (.node id) = some old →
    (labelTokenDiff old x = if lop.add then ([lop.tok], []) else ([], [lop.tok])) ∧
      prev = reproduceSupersededTxTo old x
  | _ => True

section Replay

variable {s s' t : Store V}

variable {new old x : Stored V} {e : EntityId} {id : Nat} {withHistory : Bool}
  {l m : List (Change V)}

theorem labelTokenDiff_self (h : new.row.labels = old.row.labels) :
    labelTokenDiff old new = ([], []) := by
  simp [labelTokenDiff, h]

theorem validReplacement_labels (h : validReplacement e old new = true) :
    new.row.labels = old.row.labels := by
  simp only [validReplacement, Bool.and_eq_true, beq_iff_eq] at h
  exact h.1.2

/-- The local versions are those the primary checked. -/
theorem Store.localTombstones_map {rels : List (RelTombstone V)}
    (h : rels.findSome? (s.relTombstoneError id) = none) :
    s.localTombstones (rels.map fun rt => (rt.id, rt.tombstone)) = .ok rels := by
  induction rels with
  | nil => rfl
  | cons rt rels ih =>
    rw [findSome?_eq_none_iff] at h
    have hrt := h rt mem_cons_self
    have hrest := ih (findSome?_eq_none_iff.mpr fun x hx => h x (mem_cons_of_mem _ hx))
    unfold relTombstoneError at hrt
    split at hrt
    · split at hrt
      · cases hrt
      · rename_i old hcur
        split at hrt
        · rename_i hok
          simp only [Bool.and_eq_true, beq_iff_eq] at hok
          rw [map_cons, localTombstones, hcur, hrest]
          simp only [hok.1]
          rfl
        · cases hrt
    · cases hrt

theorem Store.removeRels_empty (s : Store V) : s.removeRels ∅ = s := by
  simp only [removeRels, Finset.notMem_empty, if_false, Finset.sdiff_empty]
  congr 1
  funext e
  cases e <;> rfl

variable [DecidableEq V]

/-- A label change the handler infers. -/
theorem Store.applyPut_label {lop : LabelOp} (hcur : s.current (.node id) = some old)
    (hdiff : labelTokenDiff old x = if lop.add then ([lop.tok], []) else ([], [lop.tok])) :
    s.applyPut (.node id) x withHistory = s.applyLabelOp id lop old x withHistory := by
  have hne : labelTokenDiff old x ≠ ([], []) := by
    rw [hdiff]
    split <;> simp
  have hold : old ≠ x := by
    rintro rfl
    exact hne (labelTokenDiff_self rfl)
  unfold applyPut
  simp only [hcur]
  rw [if_neg hold, if_neg hne, applyNodeLabelChange, hdiff]
  obtain ⟨tok, add⟩ := lop
  cases add <;> rfl

/-- A replacement the handler infers. -/
theorem Store.applyPut_replacement (hcur : s.current e = some old) (hne : old ≠ x)
    (hlabels : x.row.labels = old.row.labels) :
    s.applyPut e x withHistory = s.applyReplacement e old x withHistory := by
  unfold applyPut
  simp only [hcur]
  rw [if_neg hne]
  cases e with
  | rel id => rfl
  | node id => exact if_pos (labelTokenDiff_self hlabels)

/-- **The record of a reproducible call** takes an equal store where the call took the primary's. -/
theorem Store.applyChange_of_call {c : StoreCall V} {change : Change V}
    (hcall : s.call c = .ok (s', some change)) (hrep : c.Reproducible s) :
    s.applyChange change = .ok s' := by
  have heff := call_effect hcall
  cases heff with
  | putNode _ hnone | putRel _ _ _ _ hnone =>
    simp only [applyChange, applyPut, hnone]
    rw [show s.put _ _ = _ from hcall]
    rfl
  | @replaced e x old hcur hvalid =>
    by_cases hsame : old = x
    · subst hsame
      have hself : s.setCurrent e (some old) = s := by
        rw [setCurrent, ← hcur, update_eq_self]
      simp only [applyChange, applyPut, hcur, if_true, hself]
    · rw [applyChange, applyPut_replacement hcur hsame (validReplacement_labels hvalid),
        applyReplacement, if_neg Bool.false_ne_true, show s.replace _ _ = _ from hcall]
      rfl
  | @labelled id lop x old hcur hvalid =>
    rw [applyChange, applyPut_label hcur (hrep old hcur), applyLabelOp,
      if_neg Bool.false_ne_true, show s.changeNodeLabelToken _ _ _ = _ from hcall]
    rfl
  | @superseded e x prev old hcur _ hvalid _ =>
    obtain ⟨hver, rfl⟩ := hrep old hcur
    have hne : old ≠ x := fun h => hver (by rw [h])
    rw [applyChange, applyPut_replacement hcur hne (validReplacement_labels hvalid),
      applyReplacement, if_pos rfl, show s.replaceWithHistory _ _ _ _ = _ from hcall]
    rfl
  | @labelSuperseded id lop x prev old hcur _ _ _ =>
    obtain ⟨hdiff, rfl⟩ := hrep old hcur
    rw [applyChange, applyPut_label hcur hdiff, applyLabelOp, if_pos rfl,
      show s.changeNodeLabelTokenWithHistory _ _ _ _ _ = _ from hcall]
    rfl
  | versionPut =>
    rw [applyChange, show s.putVersion _ _ _ = _ from hcall]
    rfl
  | truncated =>
    rw [applyChange, if_neg Bool.false_ne_true, show s.truncateHistory _ _ = _ from hcall]
    rfl
  | trimmed =>
    rw [applyChange, if_pos rfl, show s.trimHistoryFrom _ _ = _ from hcall]
    rfl
  | relDeleted =>
    rw [applyChange, applyRelDelete, show s.deleteRelationship _ = _ from hcall]
    rfl
  | relEnded hcur =>
    simp only [applyChange, applyRelDelete, hcur]
    rw [show s.deleteRelWithHistory _ _ _ = _ from hcall]
    rfl
  | @nodeDeleted id hid hcur hrels =>
    rw [applyChange, applyNodeDelete, deleteNodeCascade, if_neg hid, if_neg, hrels,
      removeRels_empty]
    · rfl
    · simpa using hcur
  | nodeCascaded =>
    rw [applyChange, applyNodeDelete, show s.deleteNodeCascade _ = _ from hcall]
    rfl
  | nodeEnded hcur hrels =>
    simp only [applyChange, applyNodeDelete, hcur, localTombstones_map hrels]
    rw [show s.deleteNodeWithHistory _ _ _ _ = _ from hcall]
    rfl

theorem Store.applyChanges_append (h : s.applyChanges l = .ok t) :
    s.applyChanges (l ++ m) = t.applyChanges m := by
  induction l generalizing s with
  | nil =>
    cases h
    rfl
  | cons c l ih =>
    rw [applyChanges] at h
    rw [cons_append, applyChanges]
    split at h
    · cases h
    · exact ih h

theorem Store.applyChanges_append_ok (h : s.applyChanges (l ++ m) = .ok t) :
    ∃ u, s.applyChanges l = .ok u ∧ u.applyChanges m = .ok t := by
  induction l generalizing s with
  | nil => exact ⟨s, rfl, h⟩
  | cons c l ih =>
    rw [cons_append, applyChanges] at h
    rw [applyChanges]
    split at h
    · cases h
    · exact ih h

end Replay

/-! ## A slot written early -/

/-- A node's current row set, with the history row of a superseding write. -/
def Store.slotWritten (id : Nat) (row : Stored V) (prev : Option (Stored V)) (s : Store V) : Store V :=
  match prev with
  | none => s.setCurrent (.node id) (some row)
  | some prev => (s.putHistoryRow (.node id) prev).setCurrent (.node id) (some row)

/-- The change leaves the node's current row alone, and the history row under the version a
superseding write demotes. -/
def Change.ClearOf (id : Nat) (demoted : Option Nat) : Change V → Prop
  | .put e _ _ => e ≠ .node id
  | .nodeDelete n _ _ _ => n ≠ id
  | .relDelete _ _ => True
  | .historyVersion e version _ => e = .node id → demoted ≠ some version
  | .historyTruncate e _ _ => e ≠ .node id

instance (id : Nat) (demoted : Option Nat) : (b : Change V) → Decidable (b.ClearOf id demoted)
  | .put _ _ _ => inferInstanceAs (Decidable (_ ≠ _))
  | .nodeDelete _ _ _ _ => inferInstanceAs (Decidable (_ ≠ _))
  | .relDelete _ _ => inferInstanceAs (Decidable True)
  | .historyVersion _ _ _ => inferInstanceAs (Decidable (_ → _))
  | .historyTruncate _ _ _ => inferInstanceAs (Decidable (_ ≠ _))

theorem Change.ClearOf.without {id : Nat} {demoted : Option Nat} {b : Change V}
    (h : b.ClearOf id demoted) : b.ClearOf id none := by
  cases b with
  | historyVersion => exact fun _ hnone => nomatch hnone
  | _ => exact h

namespace Store

variable {s : Store V} {id : Nat} {row : Stored V} {prev : Option (Stored V)}

section Slot

variable (s id row prev)

@[simp] theorem outIdx_slotWritten : (s.slotWritten id row prev).outIdx = s.outIdx := by
  cases prev <;> rfl

@[simp] theorem inIdx_slotWritten : (s.slotWritten id row prev).inIdx = s.inIdx := by
  cases prev <;> rfl

@[simp] theorem relIDs_slotWritten (n : Nat) :
    (s.slotWritten id row prev).relIDs n = s.relIDs n := by
  simp [relIDs]

end Slot

variable {e : EntityId}

theorem current_slotWritten (he : e ≠ .node id) :
    (s.slotWritten id row prev).current e = s.current e := by
  cases prev <;> exact update_of_ne he _ _

theorem current_rel_slotWritten (n : Nat) :
    (s.slotWritten id row prev).current (.rel n) = s.current (.rel n) :=
  current_slotWritten fun h => nomatch h

theorem isSome_current_slotWritten (hsome : (s.current (.node id)).isSome = true) (e : EntityId) :
    ((s.slotWritten id row prev).current e).isSome = (s.current e).isSome := by
  by_cases he : e = .node id
  · subst he
    rw [hsome]
    cases prev <;> simp [slotWritten]
  · rw [current_slotWritten he]

theorem isNone_current_slotWritten (hsome : (s.current (.node id)).isSome = true) (e : EntityId) :
    ((s.slotWritten id row prev).current e).isNone = (s.current e).isNone := by
  rw [← Option.not_isSome, ← Option.not_isSome, isSome_current_slotWritten hsome]

theorem history_slotWritten (he : e ≠ .node id) :
    (s.slotWritten id row prev).history e = s.history e := by
  cases prev with
  | none => rfl
  | some prev => exact update_of_ne he _ _

/-! ### The parts of the doors past a slot write -/

section Parts

variable {e : EntityId}

theorem setCurrent_slotWritten (he : e ≠ .node id) (x : Option (Stored V)) :
    (s.slotWritten id row prev).setCurrent e x = (s.setCurrent e x).slotWritten id row prev := by
  cases prev <;> simp only [slotWritten, setCurrent, putHistoryRow, update_comm he]

theorem putHistoryRow_slotWritten {x : Stored V}
    (h : e = .node id → ∀ p ∈ prev, p.version ≠ x.version) :
    (s.slotWritten id row prev).putHistoryRow e x =
      (s.putHistoryRow e x).slotWritten id row prev := by
  cases prev with
  | none => rfl
  | some prev =>
    simp only [slotWritten, setCurrent, putHistoryRow]
    by_cases he : e = .node id
    · subst he
      simp only [update_self, update_idem]
      rw [Keyed.put_comm (h rfl prev rfl)]
    · rw [update_of_ne he, update_of_ne (Ne.symm he), update_comm he]

theorem putHistoryRow_rel_slotWritten (n : Nat) (x : Stored V) :
    (s.slotWritten id row prev).putHistoryRow (.rel n) x =
      (s.putHistoryRow (.rel n) x).slotWritten id row prev :=
  putHistoryRow_slotWritten fun h => nomatch h

theorem setHistory_slotWritten (he : e ≠ .node id) (rows : List (Stored V)) :
    (s.slotWritten id row prev).setHistory e rows =
      (s.setHistory e rows).slotWritten id row prev := by
  cases prev with
  | none => rfl
  | some prev =>
    simp only [slotWritten, setCurrent, setHistory, putHistoryRow]
    rw [update_of_ne he.symm, update_comm he]

theorem addAdj_slotWritten (n : Nat) (ends : Nat × Nat) :
    (s.slotWritten id row prev).addAdj n ends = (s.addAdj n ends).slotWritten id row prev := by
  cases prev <;> rfl

theorem removeRels_slotWritten (ids : Finset Nat) :
    (s.slotWritten id row prev).removeRels ids = (s.removeRels ids).slotWritten id row prev := by
  have hcur : ∀ t : Store V, (t.setCurrent (.node id) (some row)).removeRels ids =
      (t.removeRels ids).setCurrent (.node id) (some row) := by
    intro t
    simp only [removeRels, setCurrent]
    congr 1
    funext e
    cases e with
    | rel r => simp [update_of_ne]
    | node n => simp [update_apply]
  cases prev with
  | none => exact hcur s
  | some prev => exact hcur (s.putHistoryRow (.node id) prev)

theorem cascadedRelIDs_slotWritten (n : Nat) :
    (s.slotWritten id row prev).cascadedRelIDs n = s.cascadedRelIDs n := by
  simp [cascadedRelIDs, current_slotWritten]

theorem relTombstoneError_slotWritten (n : Nat) :
    (s.slotWritten id row prev).relTombstoneError n = s.relTombstoneError n := by
  funext rt
  simp [relTombstoneError, current_slotWritten]

theorem foldl_putHistoryRow_slotWritten (rels : List (RelTombstone V)) :
    rels.foldl (fun s rt => s.putHistoryRow (.rel rt.id) rt.tombstone)
        (s.slotWritten id row prev) =
      (rels.foldl (fun s rt => s.putHistoryRow (.rel rt.id) rt.tombstone) s).slotWritten
        id row prev := by
  induction rels generalizing s with
  | nil => rfl
  | cons rt rels ih =>
    rw [foldl_cons, foldl_cons, putHistoryRow_rel_slotWritten, ih]

end Parts

/-! ### The doors past a slot write -/

/-- A result with the slot written. -/
def throughSlot (id : Nat) (row : Stored V) (prev : Option (Stored V)) (r : StoreResult V) :
    StoreResult V :=
  r.map fun x => (x.1.slotWritten id row prev, x.2)

section Doors

variable {e : EntityId} {x : Stored V}

theorem put_slotWritten (hsome : (s.current (.node id)).isSome = true) (he : e ≠ .node id) :
    (s.slotWritten id row prev).put e x = throughSlot id row prev (s.put e x) := by
  unfold put
  simp only [isNone_current_slotWritten hsome, isSome_current_slotWritten hsome]
  split
  · split
    · split
      · rfl
      · split
        · rfl
        · rw [setCurrent_slotWritten he, addAdj_slotWritten]
          rfl
    · split
      · rfl
      · rw [setCurrent_slotWritten he]
        rfl
  · rfl

theorem replaceRow_slotWritten (he : e ≠ .node id) (valid : Stored V → Bool) :
    (s.slotWritten id row prev).replaceRow valid e x =
      throughSlot id row prev (s.replaceRow valid e x) := by
  unfold replaceRow
  simp only [current_slotWritten he]
  split
  · split
    · rfl
    · split
      · rw [setCurrent_slotWritten he]
        rfl
      · rfl
  · rfl

theorem replaceRowWithHistory_slotWritten (he : e ≠ .node id) (valid : Stored V → Bool) (v : Nat)
    (p : Stored V) : (s.slotWritten id row prev).replaceRowWithHistory valid e x v p =
      throughSlot id row prev (s.replaceRowWithHistory valid e x v p) := by
  unfold replaceRowWithHistory
  simp only [current_slotWritten he]
  split
  · split
    · rfl
    · split
      · rw [putHistoryRow_slotWritten (fun h => absurd h he), setCurrent_slotWritten he]
        rfl
      · rfl
  · rfl

theorem putVersion_slotWritten {version : Nat}
    (h : e = .node id → ∀ p ∈ prev, p.version ≠ version) :
    (s.slotWritten id row prev).putVersion e version x =
      throughSlot id row prev (s.putVersion e version x) := by
  unfold putVersion
  split
  · rename_i hvalid
    simp only [validVersionSnapshot, Bool.and_eq_true, beq_iff_eq] at hvalid
    rw [putHistoryRow_slotWritten (hvalid.2 ▸ h)]
    rfl
  · rfl

theorem truncateHistory_slotWritten (he : e ≠ .node id) (keep : Nat) :
    (s.slotWritten id row prev).truncateHistory e keep =
      throughSlot id row prev (s.truncateHistory e keep) := by
  unfold truncateHistory
  simp only [history_slotWritten he, setHistory_slotWritten he]
  split
  · split <;> rfl
  · rfl

theorem trimHistoryFrom_slotWritten (he : e ≠ .node id) (minVersion : Nat) :
    (s.slotWritten id row prev).trimHistoryFrom e minVersion =
      throughSlot id row prev (s.trimHistoryFrom e minVersion) := by
  unfold trimHistoryFrom
  simp only [history_slotWritten he, setHistory_slotWritten he]
  split
  · split <;> rfl
  · rfl

theorem deleteRelationship_slotWritten (n : Nat) :
    (s.slotWritten id row prev).deleteRelationship n =
      throughSlot id row prev (s.deleteRelationship n) := by
  unfold deleteRelationship
  rw [current_rel_slotWritten, removeRels_slotWritten]
  split
  · rfl
  · split <;> rfl

theorem deleteRelWithHistory_slotWritten (n v : Nat) (tombstone : Stored V) :
    (s.slotWritten id row prev).deleteRelWithHistory n v tombstone =
      throughSlot id row prev (s.deleteRelWithHistory n v tombstone) := by
  unfold deleteRelWithHistory
  rw [current_rel_slotWritten, putHistoryRow_rel_slotWritten, removeRels_slotWritten]
  split
  · split
    · rfl
    · split <;> rfl
  · rfl

variable {n : Nat}

theorem deleteNodeCascade_slotWritten (hn : n ≠ id) :
    (s.slotWritten id row prev).deleteNodeCascade n =
      throughSlot id row prev (s.deleteNodeCascade n) := by
  have he : EntityId.node n ≠ .node id := by simpa using hn
  unfold deleteNodeCascade
  rw [current_slotWritten he, removeRels_slotWritten, relIDs_slotWritten, setCurrent_slotWritten he,
    cascadedRelIDs_slotWritten]
  split
  · rfl
  · split <;> rfl

theorem deleteNodeWithHistory_slotWritten (hn : n ≠ id) (v : Nat) (tombstone : Stored V)
    (rels : List (RelTombstone V)) :
    (s.slotWritten id row prev).deleteNodeWithHistory n v tombstone rels =
      throughSlot id row prev (s.deleteNodeWithHistory n v tombstone rels) := by
  have he : EntityId.node n ≠ .node id := by simpa using hn
  unfold deleteNodeWithHistory
  rw [current_slotWritten he, putHistoryRow_slotWritten (fun h => absurd h he),
    foldl_putHistoryRow_slotWritten, relIDs_slotWritten, removeRels_slotWritten,
    setCurrent_slotWritten he, cascadedRelIDs_slotWritten, relTombstoneError_slotWritten]
  split
  · split
    · rfl
    · split
      · rfl
      · split
        · rfl
        · split <;> rfl
  · rfl

end Doors

/-! ### Records past a slot write -/

theorem applied_throughSlot (r : StoreResult V) : (throughSlot id row prev r).applied =
    r.applied.map (·.slotWritten id row prev) := by
  cases r <;> rfl

theorem localTombstones_slotWritten (rels : List (Nat × Stored V)) :
    (s.slotWritten id row prev).localTombstones rels = s.localTombstones rels := by
  induction rels with
  | nil => rfl
  | cons x rels ih => simp only [localTombstones, current_rel_slotWritten, ih]

variable {e : EntityId} {b : Change V} {demoted : Option Nat} {t t' : Store V} {l : List (Change V)}
  {old x : Stored V} {valid : Stored V → Bool} {withHistory : Bool}

/-- A change that is clear of a node keeps the node's current row. -/
theorem Applied.current_node (h : s.Applied b t) (hclear : b.ClearOf id demoted) :
    t.current (.node id) = s.current (.node id) := by
  have hset : ∀ {u : Store V} {e : EntityId} {x : Option (Stored V)}, e ≠ .node id →
      (u.setCurrent e x).current (.node id) = u.current (.node id) := fun he =>
    update_of_ne he.symm _ _
  cases h with
  | already => rfl
  | created => exact hset hclear
  | relCreated =>
    rw [current_addAdj]
    exact hset hclear
  | replaced | superseded => exact hset hclear
  | nodeDeleted => exact hset fun h => hclear (EntityId.node.inj h)
  | nodeEnded =>
    refine (hset fun h => hclear (EntityId.node.inj h)).trans ?_
    rw [current_removeRels_node, current_foldl_putHistoryRow]
    rfl
  | relDeleted | relEnded | versionPut | truncated | trimmed => rfl

theorem replaceRow_of_current (hcur : s.current e = some old) : s.replaceRow valid e x =
      if validSnapshot e x && valid old then .ok (s.setCurrent e (some x), some (.put e x false))
      else .error .errInvalidStoreMutation := by
  simp only [replaceRow, hcur, Bool.and_eq_true, ite_and]

theorem replaceRowWithHistory_of_current {p : Stored V} {v : Nat} (hcur : s.current e = some old) :
    s.replaceRowWithHistory valid e x v p =
      if validSnapshot e x && validVersionSnapshot e v p &&
          (old.version == v && valid old && validReplacement e old p) then
        .ok ((s.putHistoryRow e p).setCurrent e (some x), some (.put e x true))
      else .error .errInvalidStoreMutation := by
  simp only [replaceRowWithHistory, hcur]
  by_cases h : (validSnapshot e x && validVersionSnapshot e v p) = true
  · rw [h]
    simp
  · simp [h]

theorem reproduceSupersededTxTo_version (old new : Stored V) :
    (reproduceSupersededTxTo old new).version = old.version := by
  unfold reproduceSupersededTxTo
  split <;> rfl

variable [DecidableEq V]

theorem applyPut_slotWritten (hsome : (s.current (.node id)).isSome = true) (he : e ≠ .node id)
    (x : Stored V) (withHistory : Bool) :
    (s.slotWritten id row prev).applyPut e x withHistory =
      (s.applyPut e x withHistory).map (·.slotWritten id row prev) := by
  have hreplace : ∀ old, (s.slotWritten id row prev).applyReplacement e old x withHistory =
      (s.applyReplacement e old x withHistory).map (·.slotWritten id row prev) := by
    intro old
    unfold applyReplacement replaceWithHistory replace
    rw [replaceRowWithHistory_slotWritten he, replaceRow_slotWritten he, applied_throughSlot,
      applied_throughSlot]
    split <;> rfl
  have hlabel : ∀ n old, e = .node n → (s.slotWritten id row prev).applyNodeLabelChange n old x
      withHistory = (s.applyNodeLabelChange n old x withHistory).map (·.slotWritten id row prev) := by
    rintro n old rfl
    have hop : ∀ lop, (s.slotWritten id row prev).applyLabelOp n lop old x withHistory =
        (s.applyLabelOp n lop old x withHistory).map (·.slotWritten id row prev) := by
      intro lop
      unfold applyLabelOp changeNodeLabelTokenWithHistory changeNodeLabelToken
      rw [replaceRowWithHistory_slotWritten he, replaceRow_slotWritten he, applied_throughSlot,
        applied_throughSlot]
      split <;> rfl
    unfold applyNodeLabelChange
    split
    · exact hop _
    · exact hop _
    · rfl
  unfold applyPut
  rw [current_slotWritten he]
  cases s.current e with
  | none => rw [put_slotWritten hsome he, applied_throughSlot]
  | some old =>
    dsimp only
    split
    · rfl
    · cases e with
      | rel n => exact hreplace old
      | node n =>
        dsimp only
        split
        · exact hreplace old
        · exact hlabel n old rfl

/-- A change that is clear of a node applies the same after the node's slot is written. -/
theorem applyChange_slotWritten (hsome : (s.current (.node id)).isSome = true)
    (hclear : b.ClearOf id (prev.map Stored.version)) : (s.slotWritten id row prev).applyChange b =
      (s.applyChange b).map (·.slotWritten id row prev) := by
  cases b with
  | put e x withHistory => exact applyPut_slotWritten hsome hclear x withHistory
  | nodeDelete n tombstone rels cascaded =>
    cases tombstone with
    | none =>
      simp only [applyChange, applyNodeDelete, deleteNodeCascade_slotWritten hclear]
      cases s.deleteNodeCascade n with
      | ok r => rfl
      | error e =>
        simp only [throughSlot, Except.map, deleted]
        split <;> rfl
    | some tombstone =>
      have he : EntityId.node n ≠ .node id := fun h => hclear (EntityId.node.inj h)
      simp only [applyChange, applyNodeDelete, current_slotWritten he, localTombstones_slotWritten,
        deleteNodeWithHistory_slotWritten hclear, applied_throughSlot]
      cases s.current (.node n) with
      | none => rfl
      | some old =>
        dsimp only
        split <;> rfl
  | relDelete n tombstone =>
    cases tombstone with
    | none =>
      simp only [applyChange, applyRelDelete, deleteRelationship_slotWritten]
      cases s.deleteRelationship n with
      | ok r => rfl
      | error e =>
        simp only [throughSlot, Except.map, deleted]
        split <;> rfl
    | some tombstone =>
      simp only [applyChange, applyRelDelete, current_rel_slotWritten,
        deleteRelWithHistory_slotWritten, applied_throughSlot]
      cases s.current (.rel n) <;> rfl
  | historyVersion e version x =>
    rw [applyChange, putVersion_slotWritten, applied_throughSlot]
    · rfl
    · rintro he p hp rfl
      exact hclear he (by rw [hp]; rfl)
  | historyTruncate e isTrim bound =>
    rw [applyChange, trimHistoryFrom_slotWritten hclear, truncateHistory_slotWritten hclear,
      applied_throughSlot, applied_throughSlot, applyChange]
    split <;> rfl

theorem current_node_applyChanges (hclear : ∀ b ∈ l, b.ClearOf id demoted)
    (h : s.applyChanges l = .ok t) : t.current (.node id) = s.current (.node id) := by
  induction l generalizing s with
  | nil =>
    cases h
    rfl
  | cons b l ih =>
    rw [applyChanges] at h
    split at h
    · cases h
    · rename_i u hu
      rw [ih (fun c hc => hclear c (mem_cons_of_mem _ hc)) h,
        (applyChange_applied hu).current_node (hclear b mem_cons_self)]

/-- Changes that are clear of a node apply the same after the node's slot is written. -/
theorem applyChanges_slotWritten (hsome : (s.current (.node id)).isSome = true)
    (hclear : ∀ b ∈ l, b.ClearOf id (prev.map Stored.version)) (h : s.applyChanges l = .ok t) :
    (s.slotWritten id row prev).applyChanges l = .ok (t.slotWritten id row prev) := by
  induction l generalizing s with
  | nil =>
    cases h
    rfl
  | cons b l ih =>
    have hb := hclear b mem_cons_self
    rw [applyChanges] at h
    split at h
    · cases h
    · rename_i u hu
      rw [applyChanges, applyChange_slotWritten hsome hb, hu]
      refine ih ?_ (fun c hc => hclear c (mem_cons_of_mem _ hc)) h
      rwa [(applyChange_applied hu).current_node hb]

/-- A put of a node's current row, as the slot it writes: the same on every store that has the same
current row. -/
theorem applyPut_eq_slotWritten (hs : s.current (.node id) = some old)
    (ht : t.current (.node id) = some old) (h : t.applyPut (.node id) row withHistory = .ok t') :
    ∃ prev, (∀ p ∈ prev, withHistory = true ∧ p.version = old.version) ∧
      t' = t.slotWritten id row prev ∧
      s.applyPut (.node id) row withHistory = .ok (s.slotWritten id row prev) := by
  have hrow : ∀ valid : Stored V → Bool, withHistory = false →
      (t.replaceRow valid (.node id) row).applied = .ok t' →
      ∃ prev, (∀ p ∈ prev, withHistory = true ∧ p.version = old.version) ∧
        t' = t.slotWritten id row prev ∧
        (s.replaceRow valid (.node id) row).applied = .ok (s.slotWritten id row prev) := by
    intro valid hwh hr
    rw [replaceRow_of_current ht] at hr
    split at hr
    · rename_i hok
      cases hr
      exact ⟨none, (fun _ hp => nomatch hp), rfl, by rw [replaceRow_of_current hs, if_pos hok]; rfl⟩
    · cases hr
  have hhist : ∀ valid : Stored V → Bool, withHistory = true →
      (t.replaceRowWithHistory valid (.node id) row old.version
        (reproduceSupersededTxTo old row)).applied = .ok t' →
      ∃ prev, (∀ p ∈ prev, withHistory = true ∧ p.version = old.version) ∧
        t' = t.slotWritten id row prev ∧
        (s.replaceRowWithHistory valid (.node id) row old.version
          (reproduceSupersededTxTo old row)).applied = .ok (s.slotWritten id row prev) := by
    intro valid hwh hr
    rw [replaceRowWithHistory_of_current ht] at hr
    split at hr
    · rename_i hok
      cases hr
      refine ⟨some (reproduceSupersededTxTo old row), ?_, rfl, by
        rw [replaceRowWithHistory_of_current hs, if_pos hok]; rfl⟩
      rintro p ⟨⟩
      exact ⟨hwh, reproduceSupersededTxTo_version old row⟩
    · cases hr
  unfold applyPut at h ⊢
  simp only [hs, ht] at h ⊢
  by_cases hsame : old = row
  · subst hsame
    rw [if_pos rfl] at h ⊢
    cases h
    refine ⟨none, (fun _ hp => nomatch hp), ?_, ?_⟩
    · rw [slotWritten, setCurrent, ← ht, update_eq_self]
    · rw [slotWritten, setCurrent, ← hs, update_eq_self]
  · rw [if_neg hsame] at h ⊢
    unfold applyNodeLabelChange applyLabelOp applyReplacement at h ⊢
    cases withHistory with
    | false =>
      split at h
      · rw [if_pos ‹_›]
        exact hrow _ rfl h
      · rw [if_neg ‹_›]
        split at h
        · exact hrow _ rfl h
        · exact hrow _ rfl h
        · cases h
    | true =>
      split at h
      · rw [if_pos ‹_›]
        exact hhist _ rfl h
      · rw [if_neg ‹_›]
        split at h
        · exact hhist _ rfl h
        · exact hhist _ rfl h
        · cases h

/-- **A put made early.**  Changes that are clear of a node can be applied after a put of its current
row that was made after them. -/
theorem applyChanges_put_early (hcur : t.current (.node id) = some old)
    (hclear : ∀ b ∈ l, b.ClearOf id (if withHistory then some old.version else none))
    (hl : s.applyChanges l = .ok t) (h : t.applyChange (.put (.node id) row withHistory) = .ok t') :
    s.applyChanges (.put (.node id) row withHistory :: l) = .ok t' := by
  have hs : s.current (.node id) = some old := (current_node_applyChanges hclear hl).symm.trans hcur
  obtain ⟨prev, hprev, rfl, hput⟩ := applyPut_eq_slotWritten hs hcur h
  rw [applyChanges, applyChange, hput]
  refine applyChanges_slotWritten (by rw [hs]; rfl) (fun b hb => ?_) hl
  cases prev with
  | none => exact (hclear b hb).without
  | some p =>
    obtain ⟨hwh, hver⟩ := hprev p rfl
    have hb' := hclear b hb
    rwa [if_pos hwh, ← hver] at hb'

end Store
end RhoTkg
