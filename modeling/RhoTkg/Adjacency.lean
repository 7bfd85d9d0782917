import RhoTkg.GraphStore

/-!
# The adjacency of the store follows its rows

The outgoing and incoming indexes of a node hold exactly the relationships whose current row starts or
ends there, and the endpoints of a current relationship are current.  Every store call keeps this
(`Store.Adjacent.call`), so it holds in every store a graph works on.
-/

namespace RhoTkg

open Function

variable {V : Type}

namespace Store

/-- The endpoints of a current relationship. -/
def relEnds (s : Store V) (r : Nat) : Option (Nat × Nat) := (s.current (.rel r)).bind (·.ends)

/-- The indexes are those of the current relationships, whose endpoints are current. -/
structure Adjacent (s : Store V) : Prop where
  out : ∀ n r, r ∈ s.outIdx n ↔ ∃ m, s.relEnds r = some (n, m)
  inc : ∀ n r, r ∈ s.inIdx n ↔ ∃ m, s.relEnds r = some (m, n)
  live : ∀ r ends, s.relEnds r = some ends →
    s.current (.node ends.1) ≠ none ∧ s.current (.node ends.2) ≠ none

theorem adjacent_empty : (Store.empty : Store V).Adjacent :=
  ⟨fun _ _ => by simp [empty, relEnds], fun _ _ => by simp [empty, relEnds], nofun⟩

section Adjacent

variable {s s' : Store V}

theorem Adjacent.mem_relIDs (h : s.Adjacent) {n r : Nat} :
    r ∈ s.relIDs n ↔ ∃ ends, s.relEnds r = some ends ∧ (ends.1 = n ∨ ends.2 = n) := by
  rw [relIDs, Finset.mem_union, h.out, h.inc]
  constructor
  · rintro (⟨m, hm⟩ | ⟨m, hm⟩)
    · exact ⟨_, hm, .inl rfl⟩
    · exact ⟨_, hm, .inr rfl⟩
  · rintro ⟨ends, hends, rfl | rfl⟩
    · exact .inl ⟨ends.2, hends⟩
    · exact .inr ⟨ends.1, hends⟩

/-- A relationship of a node is current. -/
theorem Adjacent.current_of_mem_relIDs (h : s.Adjacent) {n r : Nat} (hr : r ∈ s.relIDs n) :
    s.current (.rel r) ≠ none := by
  obtain ⟨ends, hends, -⟩ := h.mem_relIDs.mp hr
  intro hnone
  rw [relEnds, hnone] at hends
  cases hends

/-- A call that keeps the endpoints of the relationships and removes no node. -/
theorem Adjacent.of_relEnds (h : s.Adjacent) (hout : s'.outIdx = s.outIdx)
    (hinc : s'.inIdx = s.inIdx) (hends : ∀ r, s'.relEnds r = s.relEnds r)
    (hlive : ∀ n, s.current (.node n) ≠ none → s'.current (.node n) ≠ none) : s'.Adjacent where
  out n r := by rw [hout, hends, h.out]
  inc n r := by rw [hinc, hends, h.inc]
  live r ends hr := by
    have hboth := h.live r ends (by rw [← hends, hr])
    exact ⟨hlive _ hboth.1, hlive _ hboth.2⟩

/-- The current row is exchanged for one with the same endpoints. -/
theorem Adjacent.setCurrent (h : s.Adjacent) {e : EntityId} {x old : Stored V}
    (hcur : s.current e = some old) (hends : ∀ r, e = .rel r → x.ends = old.ends) :
    (s.setCurrent e (some x)).Adjacent := by
  refine h.of_relEnds rfl rfl (fun r => ?_) fun n hn => ?_
  · by_cases he : EntityId.rel r = e
    · subst he
      simp only [relEnds, current_setCurrent, update_self, hcur, Option.bind_some]
      exact hends r rfl
    · simp only [relEnds, current_setCurrent, update_of_ne he]
  · by_cases he : EntityId.node n = e
    · subst he
      simp
    · rwa [current_setCurrent, update_of_ne he]

/-- Relationships go with their entries. -/
theorem Adjacent.removeRels (h : s.Adjacent) (ids : Finset Nat) : (s.removeRels ids).Adjacent := by
  have hends : ∀ r, (s.removeRels ids).relEnds r = if r ∈ ids then none else s.relEnds r := by
    intro r
    rw [relEnds, current_removeRels_rel]
    split <;> rfl
  constructor
  · intro n r
    show r ∈ s.outIdx n \ ids ↔ _
    rw [Finset.mem_sdiff, h.out, hends]
    split <;> simp_all
  · intro n r
    show r ∈ s.inIdx n \ ids ↔ _
    rw [Finset.mem_sdiff, h.inc, hends]
    split <;> simp_all
  · intro r ends hr
    rw [hends] at hr
    split at hr
    · cases hr
    · exact h.live r ends hr

/-- A node without relationships goes. -/
theorem Adjacent.removeNode (h : s.Adjacent) {n : Nat}
    (hnone : ∀ r ends, s.relEnds r = some ends → ends.1 ≠ n ∧ ends.2 ≠ n) :
    (s.setCurrent (.node n) none).Adjacent := by
  have hends : ∀ r, (s.setCurrent (.node n) none).relEnds r = s.relEnds r := by
    intro r
    rfl
  refine ⟨fun m r => by rw [hends]; exact h.out m r, fun m r => by rw [hends]; exact h.inc m r,
    fun r ends hr => ?_⟩
  have hne := hnone r ends hr
  rw [current_setCurrent, update_of_ne (by simpa using hne.1),
    update_of_ne (by simpa using hne.2)]
  exact h.live r ends hr

/-- A node goes with its relationships. -/
theorem Adjacent.removeNodeRels (h : s.Adjacent) (n : Nat) :
    ((s.removeRels (s.relIDs n)).setCurrent (.node n) none).Adjacent := by
  refine (h.removeRels _).removeNode fun r ends hr => ?_
  rw [relEnds, current_removeRels_rel] at hr
  split at hr
  · cases hr
  · rename_i hnot
    rw [h.mem_relIDs] at hnot
    exact ⟨fun he => hnot ⟨ends, hr, .inl he⟩, fun he => hnot ⟨ends, hr, .inr he⟩⟩

/-- A new relationship is entered at its endpoints. -/
theorem Adjacent.putRel (h : s.Adjacent) {id : Nat} {x : Stored V} {ends : Nat × Nat}
    (hends : x.ends = some ends) (hstart : s.current (.node ends.1) ≠ none)
    (hend : s.current (.node ends.2) ≠ none) (hnone : s.current (.rel id) = none) :
    ((s.setCurrent (.rel id) (some x)).addAdj id ends).Adjacent := by
  have hnew : ∀ r, ((s.setCurrent (.rel id) (some x)).addAdj id ends).relEnds r =
      if r = id then some ends else s.relEnds r := by
    intro r
    rw [relEnds, current_addAdj, current_setCurrent]
    by_cases hr : r = id
    · subst hr
      rw [update_self, if_pos rfl]
      exact hends
    · rw [update_of_ne (by simpa using hr), if_neg hr]
      rfl
  have hold : s.relEnds id = none := by rw [relEnds, hnone]; rfl
  constructor
  · intro n r
    show r ∈ update s.outIdx ends.1 (insert id (s.outIdx ends.1)) n ↔ _
    rw [hnew, update_apply]
    by_cases hr : r = id
    · subst hr
      have : r ∉ s.outIdx n := fun hmem => by simpa [hold] using (h.out n r).mp hmem
      split
      · rename_i hn
        simp [hn, Prod.ext_iff]
      · rename_i hn
        simp only [this, if_true, Option.some.injEq, Prod.ext_iff, false_iff, not_exists, not_and]
        exact fun m hm => absurd hm.symm hn
    · rw [if_neg hr, ← h.out]
      split
      · rename_i hn
        rw [Finset.mem_insert, hn]
        simp [hr]
      · rfl
  · intro n r
    show r ∈ update s.inIdx ends.2 (insert id (s.inIdx ends.2)) n ↔ _
    rw [hnew, update_apply]
    by_cases hr : r = id
    · subst hr
      have : r ∉ s.inIdx n := fun hmem => by simpa [hold] using (h.inc n r).mp hmem
      split
      · rename_i hn
        simp [hn, Prod.ext_iff]
      · rename_i hn
        simp only [this, if_true, Option.some.injEq, Prod.ext_iff, false_iff, not_exists, not_and]
        exact fun m _ hm => absurd hm.symm hn
    · rw [if_neg hr, ← h.inc]
      split
      · rename_i hn
        rw [Finset.mem_insert, hn]
        simp [hr]
      · rfl
  · intro r ends' hr
    rw [hnew] at hr
    split at hr
    · cases hr
      exact ⟨hstart, hend⟩
    · exact h.live r ends' hr

/-- **Every store call keeps the adjacency.** -/
theorem Adjacent.call (h : s.Adjacent) {c : StoreCall V} {r : Option (Change V)}
    (hcall : s.call c = .ok (s', r)) : s'.Adjacent := by
  have hkept : ∀ {t : Store V}, t.current = s.current → t.outIdx = s.outIdx → t.inIdx = s.inIdx →
      t.Adjacent := fun hcur hout hinc =>
    h.of_relEnds hout hinc (fun r => by rw [relEnds, relEnds, hcur]) fun n hn => by rwa [hcur]
  have hends : ∀ {e : EntityId} {old new : Stored V}, validReplacement e old new = true →
      new.ends = old.ends := by
    intro e old new hvalid
    simp only [validReplacement, Bool.and_eq_true, beq_iff_eq] at hvalid
    exact hvalid.2
  cases call_effect hcall with
  | @putNode id x _ hnone =>
    refine h.of_relEnds rfl rfl (fun r => ?_) fun n hn => ?_
    · rfl
    · by_cases he : n = id
      · subst he
        simp
      · rwa [current_setCurrent, update_of_ne (by simpa using he)]
  | putRel _ hx hstart hend hnone =>
    exact h.putRel hx (Option.isSome_iff_ne_none.mp hstart) (Option.isSome_iff_ne_none.mp hend) hnone
  | replaced hcur hvalid => exact h.setCurrent hcur fun _ _ => hends hvalid
  | labelled hcur => exact h.setCurrent hcur nofun
  | superseded hcur _ hvalid =>
    exact (hkept (t := s.putHistoryRow _ _) rfl rfl rfl).setCurrent hcur fun _ _ => hends hvalid
  | labelSuperseded hcur =>
    exact (hkept (t := s.putHistoryRow _ _) rfl rfl rfl).setCurrent hcur nofun
  | versionPut | truncated => exact hkept rfl rfl rfl
  | notTruncated => exact h
  | trimmed => exact hkept rfl rfl rfl
  | notTrimmed => exact h
  | relDeleted => exact h.removeRels _
  | relEnded => exact (hkept (t := s.putHistoryRow _ _) rfl rfl rfl).removeRels _
  | @nodeDeleted id _ _ hrels =>
    refine h.removeNode fun r ends hr => ?_
    have hnot : r ∉ s.relIDs id := by simp [hrels]
    rw [h.mem_relIDs] at hnot
    exact ⟨fun he => hnot ⟨ends, hr, .inl he⟩, fun he => hnot ⟨ends, hr, .inr he⟩⟩
  | @nodeCascaded id => exact h.removeNodeRels id
  | @nodeEnded id tombstone old rels =>
    have hfold : ∀ (rels : List (RelTombstone V)) (t : Store V),
        (rels.foldl (fun s rt => s.putHistoryRow (.rel rt.id) rt.tombstone) t).outIdx = t.outIdx ∧
        (rels.foldl (fun s rt => s.putHistoryRow (.rel rt.id) rt.tombstone) t).inIdx = t.inIdx := by
      intro rels
      induction rels with
      | nil => exact fun t => ⟨rfl, rfl⟩
      | cons rt rels ih => exact fun t => ih _
    have hrows := hkept (t := rels.foldl (fun s rt => s.putHistoryRow (.rel rt.id) rt.tombstone)
      (s.putHistoryRow (.node id) tombstone)) (by simp) (hfold rels _).1 (hfold rels _).2
    have hids : s.relIDs id = (rels.foldl (fun s rt => s.putHistoryRow (.rel rt.id) rt.tombstone)
        (s.putHistoryRow (.node id) tombstone)).relIDs id := by
      rw [relIDs, relIDs, (hfold rels _).1, (hfold rels _).2]
      rfl
    rw [nodeDeleted, hids]
    exact hrows.removeNodeRels id

end Adjacent

end Store
end RhoTkg
