import Mathlib.Data.List.Basic
import Mathlib.Logic.Function.Basic
import Mathlib.Order.MinMax
import Mathlib.Data.Int.Order.Basic

/-!
# Stabbing queries over an implicit tree

A list is read as the in-order traversal of a balanced tree: the root of the stretch `[lo, hi)` is its
midpoint.  `fill` stores at every root the greatest `stop` of its stretch, and `stab` collects the entries
that satisfy `visit` and stop after `start`, leaving out the stretches whose greatest `stop` is not after
`start` and, once an entry fails `visit`, everything to its right.

`stab_eq` says that nothing is lost: on a list along which `visit` does not come back, `stab` over the
values `fill` leaves is the plain `filter`.  Both recurse on a fuel that bounds the length of the stretch.
-/

namespace Stabbing

open List

variable {α : Type} (stop : α → Int) (xs : List α)

/-- Store the greatest `stop` of every stretch below `[lo, hi)` at its root, and return that of
`[lo, hi)`. -/
def fill : Nat → Nat → Nat → (Nat → Int) → Int × (Nat → Int)
  | 0, _, _, sub => (0, sub)
  | fuel + 1, lo, hi, sub =>
    if hi ≤ lo then (0, sub)
    else
      match xs[(lo + hi) / 2]? with
      | none => (0, sub)
      | some x =>
        let left := fill fuel lo ((lo + hi) / 2) sub
        let right := fill fuel ((lo + hi) / 2 + 1) hi left.2
        let m := max (max (stop x) left.1) right.1
        (m, Function.update right.2 ((lo + hi) / 2) m)

/-- The entries of `[lo, hi)` that satisfy `visit` and stop after `start`. -/
def stab (visit : α → Bool) (sub : Nat → Int) (start : Int) : Nat → Nat → Nat → List α
  | 0, _, _ => []
  | fuel + 1, lo, hi =>
    if hi ≤ lo then []
    else if sub ((lo + hi) / 2) ≤ start then []
    else
      match xs[(lo + hi) / 2]? with
      | none => []
      | some x =>
        stab visit sub start fuel lo ((lo + hi) / 2) ++
          if visit x then
            (if start < stop x then [x] else []) ++ stab visit sub start fuel ((lo + hi) / 2 + 1) hi
          else []

/-- No entry of a stretch stops after the value at its root. -/
def Bounds (sub : Nat → Int) : Nat → Nat → Nat → Prop
  | 0, _, _ => True
  | fuel + 1, lo, hi => lo < hi →
    (∀ k x, lo ≤ k → k < hi → xs[k]? = some x → stop x ≤ sub ((lo + hi) / 2)) ∧
      Bounds sub fuel lo ((lo + hi) / 2) ∧ Bounds sub fuel ((lo + hi) / 2 + 1) hi

variable {stop xs}

theorem Bounds.congr {sub sub' : Nat → Int} {fuel lo hi : Nat}
    (hsame : ∀ k, lo ≤ k → k < hi → sub' k = sub k) (h : Bounds stop xs sub fuel lo hi) :
    Bounds stop xs sub' fuel lo hi := by
  induction fuel generalizing lo hi with
  | zero => trivial
  | succ fuel ih =>
    intro hlt
    obtain ⟨hroot, hleft, hright⟩ := h hlt
    refine ⟨?_, ih (fun k hk hk' => hsame k hk (by omega)) hleft,
      ih (fun k hk hk' => hsame k (by omega) hk') hright⟩
    rw [hsame _ (by omega) (by omega)]
    exact hroot

theorem fill_spec {fuel lo hi : Nat} (sub : Nat → Int) (hhi : hi ≤ xs.length) (hfuel : hi - lo ≤ fuel) :
    (∀ k, k < lo ∨ hi ≤ k → (fill stop xs fuel lo hi sub).2 k = sub k) ∧
      (∀ k x, lo ≤ k → k < hi → xs[k]? = some x → stop x ≤ (fill stop xs fuel lo hi sub).1) ∧
      Bounds stop xs (fill stop xs fuel lo hi sub).2 fuel lo hi := by
  induction fuel generalizing lo hi sub with
  | zero => exact ⟨fun _ _ => rfl, fun k x hk hk' => by omega, trivial⟩
  | succ fuel ih =>
    rw [fill]
    split
    · exact ⟨fun _ _ => rfl, fun k x hk hk' => by omega, fun hlt => by omega⟩
    have hmid : (lo + hi) / 2 < xs.length := by omega
    rw [getElem?_eq_getElem hmid]
    dsimp only
    obtain ⟨hframe, hmax, hbounds⟩ := @ih lo ((lo + hi) / 2) sub (by omega) (by omega)
    generalize fill stop xs fuel lo ((lo + hi) / 2) sub = left at hframe hmax hbounds ⊢
    obtain ⟨hframe', hmax', hbounds'⟩ := @ih ((lo + hi) / 2 + 1) hi left.2 hhi (by omega)
    generalize fill stop xs fuel ((lo + hi) / 2 + 1) hi left.2 = right at hframe' hmax' hbounds' ⊢
    -- the root is the midpoint, or the entry lies on one of its sides
    have hall : ∀ k x, lo ≤ k → k < hi → xs[k]? = some x →
        stop x ≤ max (max (stop xs[(lo + hi) / 2]) left.1) right.1 := by
      intro k x hk hk' hx
      rcases lt_trichotomy k ((lo + hi) / 2) with hside | rfl | hside
      · exact le_max_of_le_left (le_max_of_le_right (hmax k x hk hside hx))
      · rw [getElem?_eq_getElem hmid] at hx
        cases hx
        exact le_max_of_le_left (le_max_left _ _)
      · exact le_max_of_le_right (hmax' k x hside hk' hx)
    refine ⟨fun k hk => ?_, hall, fun _ => ⟨?_, ?_, ?_⟩⟩
    · rw [Function.update_of_ne (by omega), hframe' k (by omega), hframe k (by omega)]
    · rw [Function.update_self]
      exact hall
    · refine hbounds.congr fun k hk hk' => ?_
      rw [Function.update_of_ne (by omega), hframe' k (by omega)]
    · exact hbounds'.congr fun k hk hk' => Function.update_of_ne (by omega) ..

/-- A stretch around its midpoint. -/
theorem slice_split {lo mid hi : Nat} (hlo : lo ≤ mid) (hmid : mid < hi) (hhi : hi ≤ xs.length) :
    (xs.take hi).drop lo =
      (xs.take mid).drop lo ++ xs[mid] :: (xs.take hi).drop (mid + 1) := by
  have hlen : mid < (xs.take hi).length := by rw [length_take]; omega
  have hcut : xs.take hi = xs.take mid ++ xs[mid] :: (xs.take hi).drop (mid + 1) := by
    have hdrop : (xs.take hi).drop mid = xs[mid] :: (xs.take hi).drop (mid + 1) := by
      rw [drop_eq_getElem_cons hlen, getElem_take]
    rw [← hdrop]
    nth_rewrite 1 [← take_append_drop mid (xs.take hi)]
    rw [take_take, min_eq_left hmid.le]
  conv_lhs => rw [hcut]
  rw [drop_append_of_le_length (by rw [length_take]; omega)]

theorem mem_slice {lo hi : Nat} {x : α} (h : x ∈ (xs.take hi).drop lo) :
    ∃ k, lo ≤ k ∧ k < hi ∧ xs[k]? = some x := by
  obtain ⟨k, hk⟩ := mem_iff_getElem?.mp h
  rw [getElem?_drop, getElem?_take] at hk
  split at hk
  · exact ⟨lo + k, by omega, by assumption, hk⟩
  · cases hk

/-- **A stabbing query is a filter.** -/
theorem stab_eq {visit : α → Bool} {sub : Nat → Int} {start : Int} {fuel lo hi : Nat}
    (hvisit : xs.Pairwise fun a b => visit b = true → visit a = true) (hhi : hi ≤ xs.length)
    (hfuel : hi - lo ≤ fuel) (hbounds : Bounds stop xs sub fuel lo hi) :
    stab stop xs visit sub start fuel lo hi =
      ((xs.take hi).drop lo).filter fun x => visit x && decide (start < stop x) := by
  induction fuel generalizing lo hi with
  | zero => rw [drop_eq_nil_of_le (by rw [length_take]; omega)]; rfl
  | succ fuel ih =>
    rw [stab]
    split
    · rw [drop_eq_nil_of_le (by rw [length_take]; omega)]
      rfl
    rename_i hlt
    rw [not_le] at hlt
    obtain ⟨hroot, hleft, hright⟩ := hbounds hlt
    split
    · refine (filter_eq_nil_iff.mpr fun x hx => ?_).symm
      obtain ⟨k, hk, hk', hx⟩ := mem_slice hx
      have := hroot k x hk hk' hx
      simp only [Bool.and_eq_true, decide_eq_true_eq, not_and]
      omega
    have hmid : (lo + hi) / 2 < xs.length := by omega
    rw [getElem?_eq_getElem hmid]
    dsimp only
    rw [slice_split (show lo ≤ (lo + hi) / 2 by omega) (by omega) hhi, filter_append,
      ih (by omega) (by omega) hleft]
    refine congrArg _ ?_
    rw [filter_cons]
    by_cases hx : visit xs[(lo + hi) / 2] = true
    · rw [if_pos hx, ih hhi (by omega) hright, hx]
      split <;> simp_all
    · -- nothing to the right of an entry that fails `visit` satisfies it
      have hnone : ((xs.take hi).drop ((lo + hi) / 2 + 1)).filter
          (fun x => visit x && decide (start < stop x)) = [] := by
        refine filter_eq_nil_iff.mpr fun y hy => ?_
        obtain ⟨k, hk, -, hy⟩ := mem_slice hy
        obtain ⟨hklen, rfl⟩ := List.getElem?_eq_some_iff.mp hy
        have hback := pairwise_iff_getElem.mp hvisit _ k hmid hklen hk
        simp [mt hback hx]
      rw [hnone]
      simp [hx]

end Stabbing
