import Mathlib.Data.Finset.Card
import Mathlib.Data.List.AList
import Mathlib.Order.Lattice

/-!
# Tallies

A tally counts how often each key of a list occurs.  `Counts m ks` says that the map `m` is the tally
of `ks`: it holds the keys of `ks` and no others, each with its number of occurrences.  `top` folds a
tally to its largest count and the least key that has it, in whatever order the map is walked;
`IsTop` is what the fold computes (`Counts.isTop_top`), it determines the pair (`IsTop.unique`), and
one more key moves it by one comparison (`IsTop.cons`).
-/

namespace Tally

open List Function

variable {κ : Type*} [LinearOrder κ]

/-- A map from keys to counts. -/
abbrev Map (κ : Type*) := AList fun _ : κ => ℕ

/-- The count of a key, 0 when the map does not hold it. -/
def get (m : Map κ) (k : κ) : ℕ := (m.lookup k).getD 0

/-- Count one more key. -/
def bump (m : Map κ) (k : κ) : Map κ := m.insert k (get m k + 1)

/-- `m` is the tally of `ks`. -/
def Counts (m : Map κ) (ks : List κ) : Prop :=
  ∀ k, m.lookup k = if k ∈ ks then some (ks.count k) else none

variable {m : Map κ} {ks ks' : List κ} {k : κ}

theorem counts_empty : Counts (∅ : Map κ) [] := fun _ => rfl

/-- The tally of a list. -/
def tally (ks : List κ) : Map κ := ks.foldr (fun k m => bump m k) ∅

theorem Counts.get_eq (h : Counts m ks) (k : κ) : get m k = ks.count k := by
  rw [get, h k]
  split
  · rfl
  · rename_i hk
    exact (count_eq_zero_of_not_mem hk).symm

theorem Counts.bump (h : Counts m ks) (k : κ) : Counts (bump m k) (k :: ks) := by
  intro j
  rw [Tally.bump, h.get_eq]
  by_cases hj : j = k
  · subst hj
    simp
  · rw [AList.lookup_insert_ne hj, h j]
    simp [hj, Ne.symm hj]

theorem counts_tally (ks : List κ) : Counts (tally ks) ks := by
  induction ks with
  | nil => exact counts_empty
  | cons k ks ih => exact ih.bump k

theorem Counts.perm (h : Counts m ks) (hperm : ks.Perm ks') : Counts m ks' := by
  intro k
  rw [h k]
  simp only [hperm.mem_iff, hperm.count_eq]

/-- The tally holds each key once. -/
theorem Counts.length_keys (h : Counts m ks) : m.keys.length = ks.toFinset.card := by
  have hkeys : m.keys.toFinset = ks.toFinset := by
    ext k
    rw [mem_toFinset, mem_toFinset, ← AList.mem_keys, ← AList.lookup_isSome, h k]
    split <;> simp [*]
  rw [← hkeys, toFinset_card_of_nodup m.keys_nodup]

/-! ## The largest count -/

variable [Inhabited κ]

/-- One entry of the fold. -/
def topStep (p : ℕ × κ) (e : (_ : κ) × ℕ) : ℕ × κ :=
  if p.1 < e.2 ∨ (e.2 = p.1 ∧ e.1 < p.2) then (e.2, e.1) else p

/-- The largest count and the least key that has it. -/
def top (m : Map κ) : ℕ × κ := m.entries.foldl topStep (0, default)

/-- The largest value of `f` and the least key that has it, when `f` is not 0 everywhere. -/
def IsTop (f : κ → ℕ) (p : ℕ × κ) : Prop :=
  (p = (0, default) ∧ ∀ k, f k = 0) ∨
    (0 < p.1 ∧ f p.2 = p.1 ∧ ∀ k, f k ≤ p.1 ∧ (f k = p.1 → p.2 ≤ k))

variable {f : κ → ℕ} {p : ℕ × κ} {es : List ((_ : κ) × ℕ)}

theorem IsTop.unique {q : ℕ × κ} (hp : IsTop f p) (hq : IsTop f q) : p = q := by
  rcases hp with ⟨rfl, hp⟩ | ⟨hpos, hpv, hp⟩
  · rcases hq with ⟨rfl, -⟩ | ⟨hpos, hqv, -⟩
    · rfl
    · rw [hp] at hqv
      omega
  · rcases hq with ⟨rfl, hq⟩ | ⟨-, hqv, hq⟩
    · rw [hq] at hpv
      omega
    · have hle := (hq p.2).1
      have hge := (hp q.2).1
      have heq : p.1 = q.1 := by omega
      exact Prod.ext heq (le_antisymm ((hp q.2).2 (by omega)) ((hq p.2).2 (by omega)))

/-- One key goes up to `n`, the count of no other key moves. -/
theorem IsTop.update (h : IsTop f p) {k : κ} {n : ℕ} (hn : f k < n) :
    IsTop (Function.update f k n) (topStep p ⟨k, n⟩) := by
  have hne : ∀ j, j ≠ k → Function.update f k n j = f j := fun j hj => update_of_ne hj ..
  unfold topStep
  rcases h with ⟨rfl, hzero⟩ | ⟨hpos, hval, hmax⟩
  · rw [if_pos (.inl (by simp only; omega))]
    refine .inr ⟨by simp only; omega, update_self .., fun j => ?_⟩
    by_cases hj : j = k
    · subst hj
      exact ⟨(Function.update_self ..).le, fun _ => le_rfl⟩
    · simp only [hne j hj, hzero j]
      exact ⟨by omega, fun h0 => by omega⟩
  · -- the key that had the largest count may be the one that moves
    split
    · rename_i hbeats
      refine .inr ⟨by simp only at hbeats ⊢; omega, update_self .., fun j => ?_⟩
      by_cases hj : j = k
      · subst hj
        exact ⟨(Function.update_self ..).le, fun _ => le_rfl⟩
      · obtain ⟨hle, hleast⟩ := hmax j
        simp only [hne j hj] at hbeats ⊢
        refine ⟨by omega, fun heq => ?_⟩
        rcases hbeats with hlt | ⟨heq', hlt⟩
        · omega
        · exact hlt.le.trans (hleast (by omega))
    · rename_i hnot
      simp only [not_or, not_lt, not_and] at hnot
      have hk : p.2 ≠ k := by
        rintro rfl
        omega
      refine .inr ⟨hpos, (hne _ hk).trans hval, fun j => ?_⟩
      by_cases hj : j = k
      · subst hj
        rw [update_self]
        exact ⟨hnot.1, hnot.2⟩
      · rw [hne j hj]
        exact hmax j

/-- One more key of a list. -/
theorem IsTop.cons (h : IsTop (fun j => ks.count j) p) (k : κ) :
    IsTop (fun j => (k :: ks).count j) (topStep p ⟨k, ks.count k + 1⟩) := by
  have heq : (fun j => (k :: ks).count j) =
      Function.update (fun j => ks.count j) k (ks.count k + 1) := by
    funext j
    by_cases hj : j = k
    · subst hj
      simp
    · simp [Function.update_of_ne hj, Ne.symm hj]
  rw [heq]
  exact h.update (Nat.lt_succ_self _)

/-- The fold over entries of different keys with positive counts, none of them counted before. -/
theorem isTop_foldl (h : IsTop f p) (hnodup : (es.map Sigma.fst).Nodup)
    (hnew : ∀ e ∈ es, f e.1 < e.2) :
    IsTop (es.foldl (fun f e => Function.update f e.1 e.2) f) (es.foldl topStep p) := by
  induction es generalizing f p with
  | nil => exact h
  | cons e es ih =>
    rw [map_cons, nodup_cons] at hnodup
    refine ih (h.update (hnew e mem_cons_self)) hnodup.2 fun e' he' => ?_
    have hne : e'.1 ≠ e.1 := fun heq => hnodup.1 (heq ▸ mem_map_of_mem he')
    change update f e.1 e.2 e'.1 < e'.2
    rw [update_of_ne hne]
    exact hnew e' (mem_cons_of_mem _ he')

omit [Inhabited κ] in
/-- A key the entries do not name keeps its value, and one they name has theirs. -/
theorem foldl_update_eq (hnodup : (es.map Sigma.fst).Nodup) (f : κ → ℕ) (k : κ) :
    es.foldl (fun f e => Function.update f e.1 e.2) f k =
      (es.dlookup k).getD (f k) := by
  induction es generalizing f with
  | nil => rfl
  | cons e es ih =>
    rw [map_cons, nodup_cons] at hnodup
    rw [foldl_cons, ih hnodup.2]
    obtain ⟨j, n⟩ := e
    by_cases hk : k = j
    · subst hk
      have hnone : es.dlookup k = none := dlookup_eq_none.mpr hnodup.1
      rw [hnone, dlookup_cons_eq, Option.getD_none, Option.getD_some, update_self]
    · rw [dlookup_cons_ne es (⟨j, n⟩ : (_ : κ) × ℕ) hk, update_of_ne hk]

/-- `top` of a tally. -/
theorem Counts.isTop_top (h : Counts m ks) : IsTop (fun k => ks.count k) (top m) := by
  have hpos : ∀ e ∈ m.entries, (fun _ : κ => 0) e.1 < e.2 := by
    intro e he
    have hlookup : m.lookup e.1 = some e.2 := AList.mem_lookup_iff.mpr he
    rw [h e.1] at hlookup
    split at hlookup
    · rename_i hmem
      rw [← Option.some.inj hlookup]
      exact count_pos_iff.mpr hmem
    · cases hlookup
  have htop := isTop_foldl (f := fun _ => 0) (p := (0, default)) (.inl ⟨rfl, fun _ => rfl⟩)
    m.nodupKeys hpos
  have hfold : m.entries.foldl (fun f e => update f e.1 e.2) (fun _ => 0) =
      fun k => ks.count k := by
    funext k
    rw [foldl_update_eq m.nodupKeys]
    exact h.get_eq k
  rw [hfold] at htop
  exact htop

/-- The largest count of a tally does not depend on the map. -/
theorem Counts.top_eq {m' : Map κ} (h : Counts m ks) (h' : Counts m' ks) : top m = top m' :=
  h.isTop_top.unique h'.isTop_top

end Tally
