import Mathlib.Data.Nat.Basic
import Mathlib.Tactic.Common

/-!
# Searching a monotone predicate

`bisect` is the halving loop of a binary search for the first index at which a predicate holds;
`gallop` first walks down from a known bound in doubling steps and then bisects the last step.  A
predicate is *monotone below* `n` when it stays true once it is true; both searches then return the
`IsFirst` index, the border between false and true.

The loops are written with a fuel argument that bounds the number of rounds, so that they compute
by structural recursion; the callers pass the size of the window, which is always enough.
-/

namespace Search

/-- `p` stays true once it is true, below `n`. -/
def MonoBelow (p : Nat → Bool) (n : Nat) : Prop := ∀ i j, i ≤ j → j < n → p i = true → p j = true

/-- `k` is the border: `p` is false before `k` and true from `k` to `n`. -/
structure IsFirst (p : Nat → Bool) (n k : Nat) : Prop where
  le : k ≤ n
  before : ∀ j, j < k → p j = false
  after : ∀ j, k ≤ j → j < n → p j = true

/-- The halving loop on the window `[lo, hi)`. -/
def bisect (p : Nat → Bool) : Nat → Nat → Nat → Nat
  | 0, lo, _ => lo
  | fuel + 1, lo, hi =>
    if lo < hi then
      if p ((lo + hi) / 2) then bisect p fuel lo ((lo + hi) / 2)
      else bisect p fuel ((lo + hi) / 2 + 1) hi
    else lo

variable {n : Nat} {p : Nat → Bool}

theorem bisect_isFirst (hp : MonoBelow p n) :
    ∀ (fuel lo hi : Nat), hi - lo ≤ fuel → lo ≤ hi → hi ≤ n → (∀ j, j < lo → p j = false) →
      (∀ j, hi ≤ j → j < n → p j = true) → IsFirst p n (bisect p fuel lo hi) := by
  intro fuel
  induction fuel with
  | zero =>
    intro lo hi hfuel hle hn hbefore hafter
    obtain rfl : lo = hi := by omega
    exact ⟨hn, hbefore, hafter⟩
  | succ fuel ih =>
    intro lo hi hfuel hle hn hbefore hafter
    rw [bisect]
    split
    · have hmid : lo ≤ (lo + hi) / 2 ∧ (lo + hi) / 2 < hi := by omega
      split
      · rename_i htrue
        refine ih lo _ (by omega) hmid.1 (by omega) hbefore fun j hj hjn => ?_
        exact hp _ j hj hjn htrue
      · rename_i hfalse
        refine ih _ hi (by omega) (by omega) hn (fun j hj => ?_) hafter
        -- were `p` true at `j`, monotonicity would make it true at the midpoint
        by_contra htrue
        exact hfalse (hp j _ (by omega) (by omega) (by simpa using htrue))
    · obtain rfl : lo = hi := by omega
      exact ⟨hn, hbefore, hafter⟩

/-- The first of `n` indices at which `p` holds, `n` when it holds at none. -/
def search (n : Nat) (p : Nat → Bool) : Nat := bisect p n 0 n

theorem search_isFirst (hp : MonoBelow p n) : IsFirst p n (search n p) :=
  bisect_isFirst hp n 0 n (by omega) (Nat.zero_le n) le_rfl (by omega) (by omega)

/-- Walking down from `k` in doubling steps while `p` holds: the last position reached and the
step that was not taken. -/
def gallopDown (p : Nat → Bool) : Nat → Nat → Nat → Nat × Nat
  | 0, k, step => (k, step)
  | fuel + 1, k, step =>
    if step ≤ k ∧ p (k - step) = true then gallopDown p fuel (k - step) (step * 2) else (k, step)

/-- Galloping stops inside the true run, and the step it did not take leaves the run. -/
theorem gallopDown_spec (hp : MonoBelow p n) :
    ∀ (fuel k step : Nat), k ≤ fuel → 0 < step → k ≤ n → (∀ j, k ≤ j → j < n → p j = true) →
      (gallopDown p fuel k step).1 ≤ k ∧ 0 < (gallopDown p fuel k step).2 ∧
      (∀ j, (gallopDown p fuel k step).1 ≤ j → j < n → p j = true) ∧
      ((gallopDown p fuel k step).2 ≤ (gallopDown p fuel k step).1 →
        p ((gallopDown p fuel k step).1 - (gallopDown p fuel k step).2) = false) := by
  intro fuel
  induction fuel with
  | zero =>
    intro k step hk hstep _ hafter
    exact ⟨le_rfl, hstep, hafter, fun hle => by simp only [gallopDown] at hle; omega⟩
  | succ fuel ih =>
    intro k step hk hstep hkn hafter
    rw [gallopDown]
    split
    · rename_i hcond
      have hrun : ∀ j, k - step ≤ j → j < n → p j = true := fun j hj hjn => hp _ j hj hjn hcond.2
      obtain ⟨hle, hpos, hrest, hstop⟩ :=
        ih (k - step) (step * 2) (by omega) (by omega) (by omega) hrun
      exact ⟨le_trans hle (Nat.sub_le _ _), hpos, hrest, hstop⟩
    · rename_i hcond
      refine ⟨le_rfl, hstep, hafter, fun hle => ?_⟩
      by_contra htrue
      exact hcond ⟨hle, by simpa using htrue⟩

/-- The border of a monotone predicate, searched from a bound `hi` at which it is known to hold on:
gallop down, then bisect the step that was too far. -/
def gallop (p : Nat → Bool) (hi : Nat) : Nat :=
  bisect p (gallopDown p hi hi 1).1 ((gallopDown p hi hi 1).1 + 1 - (gallopDown p hi hi 1).2)
    (gallopDown p hi hi 1).1

theorem gallop_isFirst {hi : Nat} (hp : MonoBelow p n) (hn : hi ≤ n)
    (hafter : ∀ j, hi ≤ j → j < n → p j = true) : IsFirst p n (gallop p hi) := by
  obtain ⟨hle, hpos, hrun, hstop⟩ := gallopDown_spec hp hi hi 1 le_rfl Nat.one_pos hn hafter
  refine bisect_isFirst hp _ _ _ (by omega) (by omega) (le_trans hle hn) (fun j hj => ?_) hrun
  by_contra htrue
  have hstep : (gallopDown p hi hi 1).2 ≤ (gallopDown p hi hi 1).1 := by omega
  have hback := hp j ((gallopDown p hi hi 1).1 - (gallopDown p hi hi 1).2) (by omega) (by omega)
    (by simpa using htrue)
  rw [hstop hstep] at hback
  cases hback

end Search
