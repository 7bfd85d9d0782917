import Mathlib.Data.List.Forall2
import Mathlib.Data.List.Nodup
import Mathlib.Data.List.Perm.Basic
import Mathlib.Logic.Function.Basic

/-!
# Lists of writes, the last one of a key winning

A write gives a key its content, or none to delete it.  `run` performs a list of writes on a map
seen as a function.  What a key holds afterwards depends on the map only where nothing is written
(`run_congr`), so a list of writes can be performed again over any part of itself (`run_redo`), only
the last write of a key counts (`run_dedupLast`), and when no key is written twice the order does
not (`run_perm`).
-/

namespace LastWrite

open List Function

variable {κ α : Type*} [DecidableEq κ] {s t : κ → Option α} {ws ws' : List (κ × Option α)} {k : κ}

/-- The map after the writes. -/
def run (s : κ → Option α) (ws : List (κ × Option α)) : κ → Option α :=
  ws.foldl (fun s w => Function.update s w.1 w.2) s

theorem run_cons (s : κ → Option α) (w : κ × Option α) (ws : List (κ × Option α)) :
    run s (w :: ws) = run (Function.update s w.1 w.2) ws := rfl

/-- A key that is not written keeps its content. -/
theorem run_of_notMem (h : k ∉ ws.map Prod.fst) : run s ws k = s k := by
  induction ws generalizing s with
  | nil => rfl
  | cons w ws ih =>
    rw [map_cons, mem_cons, not_or] at h
    rw [run_cons, ih h.2, update_of_ne h.1]

/-- The content of a key afterwards depends on the map only if the key is not written. -/
theorem run_congr (h : k ∈ ws.map Prod.fst ∨ s k = t k) : run s ws k = run t ws k := by
  induction ws generalizing s t with
  | nil => exact h.resolve_left not_mem_nil
  | cons w ws ih =>
    rw [run_cons, run_cons]
    apply ih
    by_cases hk : k = w.1
    · subst hk
      exact .inr (by rw [update_self, update_self])
    · rw [update_of_ne hk, update_of_ne hk]
      refine h.imp (fun h => ?_) id
      exact (mem_cons.mp h).resolve_left hk

/-- Writes may be performed over a part of themselves. -/
theorem run_redo (h : ∀ w ∈ ws', w.1 ∈ ws.map Prod.fst) : run (run s ws') ws = run s ws := by
  funext k
  apply run_congr
  by_cases hk : k ∈ ws'.map Prod.fst
  · obtain ⟨w, hw, rfl⟩ := mem_map.mp hk
    exact .inl (h w hw)
  · exact .inr (run_of_notMem hk)

/-- The write of a key that is written once. -/
theorem run_of_mem (hnodup : (ws.map Prod.fst).Nodup) {v : Option α} (h : (k, v) ∈ ws) :
    run s ws k = v := by
  induction ws generalizing s with
  | nil => cases h
  | cons w ws ih =>
    rw [map_cons, nodup_cons] at hnodup
    rw [run_cons]
    rcases mem_cons.mp h with rfl | h
    · rw [run_of_notMem hnodup.1, update_self]
    · exact ih hnodup.2 h

/-- The order of writes to different keys does not matter. -/
theorem run_perm (hnodup : (ws.map Prod.fst).Nodup) (h : ws.Perm ws') : run s ws = run s ws' := by
  have hnodup' : (ws'.map Prod.fst).Nodup := (h.map Prod.fst).nodup_iff.mp hnodup
  funext k
  by_cases hk : k ∈ ws.map Prod.fst
  · obtain ⟨w, hw, rfl⟩ := mem_map.mp hk
    rw [run_of_mem hnodup (v := w.2) hw, run_of_mem hnodup' (v := w.2) (h.mem_iff.mp hw)]
  · rw [run_of_notMem hk, run_of_notMem (fun hk' => hk ((h.map Prod.fst).mem_iff.mpr hk'))]

/-- A key holds what it held, or what one of its writes gave it. -/
theorem run_cases (s : κ → Option α) (ws : List (κ × Option α)) (k : κ) :
    (k ∉ ws.map Prod.fst ∧ run s ws k = s k) ∨ ∃ v, (k, v) ∈ ws ∧ run s ws k = v := by
  induction ws generalizing s with
  | nil => exact .inl ⟨not_mem_nil, rfl⟩
  | cons w ws ih =>
    obtain ⟨hk, heq⟩ | ⟨v, hv, heq⟩ := ih (update s w.1 w.2)
    · by_cases hw : k = w.1
      · subst hw
        exact .inr ⟨w.2, mem_cons_self, heq.trans (update_self ..)⟩
      · refine .inl ⟨?_, heq.trans (update_of_ne hw ..)⟩
        rw [map_cons, mem_cons]
        exact not_or.mpr ⟨hw, hk⟩
    · exact .inr ⟨v, mem_cons_of_mem _ hv, heq⟩

/-- Writes that differ only away from `k` leave the same in `k`. -/
theorem run_forall₂ (h : List.Forall₂ (fun w w' => w.1 = w'.1 ∧ (w.1 = k → w.2 = w'.2)) ws ws') :
    run s ws k = run s ws' k := by
  induction h generalizing s with
  | nil => rfl
  | @cons w w' ws ws' hw _ ih =>
    rw [run_cons, run_cons, ih]
    apply run_congr
    refine .inr ?_
    by_cases hk : k = w.1
    · subst hk
      rw [update_self, ← hw.1, update_self, hw.2 rfl]
    · rw [update_of_ne hk, update_of_ne (hw.1 ▸ hk)]

/-! ## Keeping the last write of each key -/

variable {β : Type*} (key : β → κ)

/-- The last element of each key, in order. -/
def dedupLast : List β → List β
  | [] => []
  | b :: bs => if key b ∈ bs.map key then dedupLast bs else b :: dedupLast bs

theorem dedupLast_sublist (bs : List β) : (dedupLast key bs).Sublist bs := by
  induction bs with
  | nil => exact .refl _
  | cons b bs ih =>
    rw [dedupLast]
    split
    · exact ih.cons b
    · exact ih.cons_cons b

theorem mem_map_dedupLast (bs : List β) :
    k ∈ (dedupLast key bs).map key ↔ k ∈ bs.map key := by
  induction bs with
  | nil => rfl
  | cons b bs ih =>
    rw [dedupLast]
    split
    · rename_i hmem
      rw [ih, map_cons, mem_cons]
      exact ⟨.inr, fun h => h.elim (fun h => h ▸ hmem) id⟩
    · rw [map_cons, mem_cons, ih, map_cons, mem_cons]

theorem nodup_dedupLast (bs : List β) : ((dedupLast key bs).map key).Nodup := by
  induction bs with
  | nil => exact nodup_nil
  | cons b bs ih =>
    rw [dedupLast]
    split
    · exact ih
    · rename_i hmem
      rw [map_cons, nodup_cons]
      exact ⟨fun h => hmem ((mem_map_dedupLast key bs).mp h), ih⟩

/-- Only the last write of each key counts. -/
theorem run_dedupLast (content : β → Option α) (bs : List β) :
    run s ((dedupLast key bs).map fun b => (key b, content b)) =
      run s (bs.map fun b => (key b, content b)) := by
  induction bs generalizing s with
  | nil => rfl
  | cons b bs ih =>
    rw [dedupLast]
    split
    · rename_i hmem
      rw [ih, map_cons, run_cons]
      funext k
      apply run_congr
      by_cases hk : k = key b
      · subst hk
        refine .inl ?_
        rw [map_map]
        exact hmem
      · exact .inr (by rw [update_of_ne hk])
    · rw [map_cons, map_cons, run_cons, run_cons, ih]

end LastWrite
