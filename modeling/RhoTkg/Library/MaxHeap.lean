import Mathlib.Data.List.Perm.Basic
import Mathlib.Data.Nat.Basic
import Mathlib.Data.List.GetD
import Mathlib.Tactic.Common

/-!
# A binary max-heap in a list

The heap is stored in a list; the children of position `i` are `2 * i + 1` and `2 * i + 2`, and the
priority of a parent is at least that of its children.  `push` appends and sifts up, `pop` moves the
last entry to the root and sifts down, both by swaps.

`push` and `pop` keep the order (`ordered_push`, `ordered_pop`), change the contents as their names
say (`push_perm`, `pop_perm`), and the root has the greatest priority (`Ordered.le_root`).
-/

namespace MaxHeap

open List

variable {α : Type*} (prio : α → Nat)

/-- Exchange two positions; a position outside the list leaves it as it is. -/
def swap (a : List α) (i j : Nat) : List α :=
  match a[i]?, a[j]? with
  | some x, some y => (a.set i y).set j x
  | _, _ => a

/-- The priority at a position. -/
def prioAt (a : List α) (i : Nat) : Nat := (a[i]?.map prio).getD 0

/-- Move the entry at `i` up while its parent has a smaller priority. -/
def siftUp : Nat → List α → Nat → List α
  | 0, a, _ => a
  | fuel + 1, a, i =>
    if i = 0 then a
    else if prioAt prio a i ≤ prioAt prio a ((i - 1) / 2) then a
    else siftUp fuel (swap a ((i - 1) / 2) i) ((i - 1) / 2)

/-- Insert an entry. -/
def push (a : List α) (x : α) : List α := siftUp prio a.length (a ++ [x]) a.length

/-- The child of `i` with the larger priority when it exceeds that of `i`, else `i`. -/
def largest (a : List α) (i : Nat) : Nat :=
  let l := 2 * i + 1
  let r := 2 * i + 2
  let m := if l < a.length ∧ prioAt prio a i < prioAt prio a l then l else i
  if r < a.length ∧ prioAt prio a m < prioAt prio a r then r else m

/-- Move the entry at `i` down while a child has a larger priority. -/
def siftDown : Nat → List α → Nat → List α
  | 0, a, _ => a
  | fuel + 1, a, i =>
    if largest prio a i = i then a
    else siftDown fuel (swap a i (largest prio a i)) (largest prio a i)

/-- Remove the root. -/
def pop (a : List α) : List α :=
  match a.getLast? with
  | none => []
  | some x => siftDown prio a.length ((a.set 0 x).dropLast) 0

/-! ## Swaps -/

theorem swap_perm (a : List α) (i j : Nat) : (swap a i j).Perm a := by
  unfold swap
  split
  · rename_i x y hx hy
    obtain ⟨hi, rfl⟩ := List.getElem?_eq_some_iff.mp hx
    obtain ⟨hj, rfl⟩ := List.getElem?_eq_some_iff.mp hy
    exact set_set_perm hi hj
  · exact .refl _

@[simp] theorem length_swap (a : List α) (i j : Nat) : (swap a i j).length = a.length :=
  (swap_perm a i j).length_eq

variable {a : List α} {i : Nat}

theorem prioAt_swap {j : Nat} (hi : i < a.length) (hj : j < a.length) (k : Nat) :
    prioAt prio (swap a i j) k =
      if k = j then prioAt prio a i else if k = i then prioAt prio a j else prioAt prio a k := by
  have hswap : swap a i j = (a.set i a[j]).set j a[i] := by
    simp [swap, getElem?_eq_getElem hi, getElem?_eq_getElem hj]
  rw [hswap]
  unfold prioAt
  by_cases hkj : k = j
  · subst hkj
    rw [if_pos rfl, getElem?_set_self (by simpa using hj), getElem?_eq_getElem hi]
  · rw [if_neg hkj, getElem?_set_ne (Ne.symm hkj)]
    by_cases hki : k = i
    · subst hki
      rw [if_pos rfl, getElem?_set_self hi, getElem?_eq_getElem hj]
    · rw [if_neg hki, getElem?_set_ne (Ne.symm hki)]

/-! ## The order -/

/-- The heap order. -/
def Ordered (a : List α) : Prop :=
  ∀ i, 0 < i → i < a.length → prioAt prio a i ≤ prioAt prio a ((i - 1) / 2)

variable {prio}

theorem ordered_nil : Ordered prio ([] : List α) := fun i _ h => absurd h (Nat.not_lt_zero i)

/-- The root has the greatest priority. -/
theorem Ordered.le_root (h : Ordered prio a) :
    ∀ i, i < a.length → prioAt prio a i ≤ prioAt prio a 0 := by
  intro i
  induction i using Nat.strong_induction_on with
  | _ i ih =>
    intro hi
    rcases Nat.eq_zero_or_pos i with rfl | hpos
    · exact le_rfl
    · exact le_trans (h i hpos hi) (ih ((i - 1) / 2) (by omega) (by omega))

/-- What `siftUp` needs at `i`: only `i` may exceed its parent, and the children of `i` are at most
the parent of `i`. -/
structure UpOrder (prio : α → Nat) (a : List α) (i : Nat) : Prop where
  other : ∀ k, 0 < k → k < a.length → k ≠ i → prioAt prio a k ≤ prioAt prio a ((k - 1) / 2)
  grand : 0 < i → ∀ k, 0 < k → k < a.length → (k - 1) / 2 = i →
    prioAt prio a k ≤ prioAt prio a ((i - 1) / 2)

theorem UpOrder.swap (h : UpOrder prio a i) (hi : 0 < i) (hlen : i < a.length)
    (hlt : prioAt prio a ((i - 1) / 2) < prioAt prio a i) :
    UpOrder prio (swap a ((i - 1) / 2) i) ((i - 1) / 2) := by
  have hp : (i - 1) / 2 < a.length := by omega
  constructor
  · intro k hk hkl hkp
    rw [length_swap] at hkl
    rw [prioAt_swap prio hp hlen, prioAt_swap prio hp hlen]
    by_cases hki : k = i
    · subst hki
      rw [if_pos rfl, if_neg (by omega), if_pos rfl]
      exact le_of_lt hlt
    · rw [if_neg hki, if_neg hkp]
      have hother := h.other k hk hkl hki
      by_cases hpi : (k - 1) / 2 = i
      · rw [if_pos hpi]
        exact h.grand hi k hk hkl hpi
      · rw [if_neg hpi]
        split
        · rename_i hpp
          rw [hpp] at hother
          omega
        · exact hother
  · intro hp0 k hk hkl hkp
    rw [length_swap] at hkl
    rw [prioAt_swap prio hp hlen, prioAt_swap prio hp hlen, 
      if_neg (show ((i - 1) / 2 - 1) / 2 ≠ i by omega),
      if_neg (show ((i - 1) / 2 - 1) / 2 ≠ (i - 1) / 2 by omega)]
    have hup := h.other ((i - 1) / 2) hp0 hp (by omega)
    by_cases hki : k = i
    · rw [if_pos hki]
      exact hup
    · rw [if_neg hki, if_neg (show k ≠ (i - 1) / 2 by omega)]
      have hother := h.other k hk hkl hki
      rw [hkp] at hother
      omega

theorem ordered_siftUp : ∀ (fuel : Nat) (a : List α) (i : Nat), i ≤ fuel → i < a.length →
    UpOrder prio a i → Ordered prio (siftUp prio fuel a i)
  | 0, a, i, hfuel, _, h => fun k hk hkl => h.other k hk hkl (by omega)
  | fuel + 1, a, i, hfuel, hlen, h => by
    rw [siftUp]
    split
    · rename_i hi
      exact fun k hk hkl => h.other k hk hkl (by omega)
    · rename_i hi
      split
      · rename_i hle
        intro k hk hkl
        by_cases hki : k = i
        · exact hki ▸ hle
        · exact h.other k hk hkl hki
      · rename_i hlt
        exact ordered_siftUp fuel _ _ (by omega) (by rw [length_swap]; omega)
          (h.swap (by omega) hlen (by omega))

theorem siftUp_perm : ∀ (fuel : Nat) (a : List α) (i : Nat), (siftUp prio fuel a i).Perm a
  | 0, _, _ => List.Perm.refl _
  | fuel + 1, a, i => by
    rw [siftUp]
    split
    · exact List.Perm.refl _
    · split
      · exact List.Perm.refl _
      · exact (siftUp_perm fuel _ _).trans (swap_perm _ _ _)

theorem push_perm (a : List α) (x : α) : (push prio a x).Perm (x :: a) :=
  (siftUp_perm _ _ _).trans perm_append_comm

theorem ordered_push (h : Ordered prio a) (x : α) : Ordered prio (push prio a x) := by
  refine ordered_siftUp _ _ _ le_rfl (by simp) ⟨fun k hk hkl hne => ?_, fun _ k _ hkl hkp => ?_⟩
  · rw [length_append, length_singleton] at hkl
    have hka : k < a.length := by omega
    have hold := h k hk hka
    simp only [prioAt, getElem?_append_left hka,
      getElem?_append_left (show (k - 1) / 2 < a.length by omega)]
    exact hold
  · rw [length_append, length_singleton] at hkl
    omega

/-! ## Removing the root -/

/-- What `siftDown` needs at `i`: only the children of `i` may exceed their parent, and they are at
most the parent of `i`. -/
structure DownOrder (prio : α → Nat) (a : List α) (i : Nat) : Prop where
  other : ∀ k, 0 < k → k < a.length → (k - 1) / 2 ≠ i →
    prioAt prio a k ≤ prioAt prio a ((k - 1) / 2)
  grand : 0 < i → ∀ k, 0 < k → k < a.length → (k - 1) / 2 = i →
    prioAt prio a k ≤ prioAt prio a ((i - 1) / 2)

/-- `largest` is `i` when no child exceeds it, else a child that neither child exceeds. -/
theorem largest_spec (prio : α → Nat) (a : List α) (i : Nat) :
    (largest prio a i = i ∧ ∀ k, 0 < k → k < a.length → (k - 1) / 2 = i →
      prioAt prio a k ≤ prioAt prio a i) ∨
    (0 < largest prio a i ∧ (largest prio a i - 1) / 2 = i ∧ largest prio a i < a.length ∧
      i < largest prio a i ∧ prioAt prio a i < prioAt prio a (largest prio a i) ∧
      ∀ k, 0 < k → k < a.length → (k - 1) / 2 = i →
        prioAt prio a k ≤ prioAt prio a (largest prio a i)) := by
  have hchild : ∀ k, 0 < k → (k - 1) / 2 = i → k = 2 * i + 1 ∨ k = 2 * i + 2 := by omega
  unfold largest
  simp only
  by_cases hl : 2 * i + 1 < a.length ∧ prioAt prio a i < prioAt prio a (2 * i + 1)
  · rw [if_pos hl]
    right
    by_cases hr : 2 * i + 2 < a.length ∧ prioAt prio a (2 * i + 1) < prioAt prio a (2 * i + 2)
    · rw [if_pos hr]
      refine ⟨by omega, by omega, hr.1, by omega, by omega, fun k hk hkl hkp => ?_⟩
      rcases hchild k hk hkp with rfl | rfl <;> omega
    · rw [if_neg hr]
      refine ⟨by omega, by omega, hl.1, by omega, hl.2, fun k hk hkl hkp => ?_⟩
      rcases hchild k hk hkp with rfl | rfl
      · exact le_rfl
      · by_contra hlt
        exact hr ⟨hkl, by omega⟩
  · rw [if_neg hl]
    by_cases hr : 2 * i + 2 < a.length ∧ prioAt prio a i < prioAt prio a (2 * i + 2)
    · rw [if_pos hr]
      refine .inr ⟨by omega, by omega, hr.1, by omega, hr.2, fun k hk hkl hkp => ?_⟩
      rcases hchild k hk hkp with rfl | rfl
      · by_contra hlt
        exact hl ⟨hkl, by omega⟩
      · exact le_rfl
    · rw [if_neg hr]
      refine .inl ⟨rfl, fun k hk hkl hkp => ?_⟩
      rcases hchild k hk hkp with rfl | rfl
      · by_contra hlt
        exact hl ⟨hkl, by omega⟩
      · by_contra hlt
        exact hr ⟨hkl, by omega⟩

theorem DownOrder.swap {m : Nat} (h : DownOrder prio a i) (hm : 0 < m) (hmi : (m - 1) / 2 = i)
    (hlen : m < a.length) (hlt : prioAt prio a i < prioAt prio a m)
    (hmax : ∀ k, 0 < k → k < a.length → (k - 1) / 2 = i → prioAt prio a k ≤ prioAt prio a m) :
    DownOrder prio (swap a i m) m := by
  have hi : i < a.length := by omega
  constructor
  · intro k hk hkl hkp
    rw [length_swap] at hkl
    rw [prioAt_swap prio hi hlen, prioAt_swap prio hi hlen, if_neg hkp]
    by_cases hpi : (k - 1) / 2 = i
    · -- `k` is a child of the old position: the largest child now sits above it
      rw [if_pos hpi]
      by_cases hkm : k = m
      · rw [if_pos hkm]
        exact le_of_lt hlt
      · rw [if_neg hkm, if_neg (show k ≠ i by omega)]
        exact hmax k hk hkl hpi
    · rw [if_neg hpi]
      by_cases hki : k = i
      · rw [if_neg (show k ≠ m by omega), if_pos hki, hki]
        exact h.grand (by omega) m hm hlen hmi
      · rw [if_neg (show k ≠ m by rintro rfl; exact hpi hmi), if_neg hki]
        exact h.other k hk hkl hpi
  · intro _ k hk hkl hkp
    rw [length_swap] at hkl
    rw [prioAt_swap prio hi hlen, prioAt_swap prio hi hlen, if_neg (show k ≠ m by omega),
      if_neg (show k ≠ i by omega), hmi, if_neg (show i ≠ m by omega), if_pos rfl, ← hkp]
    exact h.other k hk hkl (by omega)

theorem ordered_siftDown : ∀ (fuel : Nat) (a : List α) (i : Nat), a.length ≤ fuel + i →
    DownOrder prio a i → Ordered prio (siftDown prio fuel a i)
  | 0, a, i, hfuel, h => fun k hk hkl => h.other k hk hkl (by rw [siftDown] at hkl; omega)
  | fuel + 1, a, i, hfuel, h => by
    rw [siftDown]
    rcases largest_spec prio a i with ⟨heq, hmax⟩ | ⟨hm, hmi, hlen, hlt, hprio, hmax⟩
    · rw [if_pos heq]
      intro k hk hkl
      by_cases hkp : (k - 1) / 2 = i
      · exact hkp ▸ hmax k hk hkl hkp
      · exact h.other k hk hkl hkp
    · rw [if_neg (show largest prio a i ≠ i by omega)]
      exact ordered_siftDown fuel _ _ (by rw [length_swap]; omega)
        (h.swap hm hmi hlen hprio hmax)

theorem siftDown_perm : ∀ (fuel : Nat) (a : List α) (i : Nat), (siftDown prio fuel a i).Perm a
  | 0, _, _ => List.Perm.refl _
  | fuel + 1, a, i => by
    rw [siftDown]
    split
    · exact List.Perm.refl _
    · exact (siftDown_perm fuel _ _).trans (swap_perm _ _ _)

/-- The list `pop` sifts: the last entry in the root's place. -/
theorem pop_cons (prio : α → Nat) (x : α) (a : List α) :
    ∃ b : List α, b.Perm a ∧ pop prio (x :: a) = siftDown prio (a.length + 1) b 0 ∧
      ∀ k, 0 < k → k < b.length → b[k]? = (x :: a)[k]? := by
  rcases eq_nil_or_concat a with rfl | ⟨a, y, rfl⟩
  · exact ⟨[], .refl _, rfl, fun k _ h => absurd h (Nat.not_lt_zero k)⟩
  · refine ⟨y :: a, ?_, ?_, fun k hk hkl => ?_⟩
    · rw [concat_eq_append]
      exact (perm_append_singleton y a).symm
    · simp [pop, getLast?_cons, dropLast_cons_of_ne_nil]
    · obtain ⟨k, rfl⟩ := Nat.exists_eq_succ_of_ne_zero (Nat.pos_iff_ne_zero.mp hk)
      rw [concat_eq_append, getElem?_cons_succ, getElem?_cons_succ,
        getElem?_append_left (by simpa using hkl)]

theorem pop_perm (x : α) (a : List α) : (pop prio (x :: a)).Perm a := by
  obtain ⟨b, hb, hpop, -⟩ := pop_cons prio x a
  rw [hpop]
  exact (siftDown_perm _ _ _).trans hb

theorem ordered_pop {x : α} (h : Ordered prio (x :: a)) : Ordered prio (pop prio (x :: a)) := by
  obtain ⟨b, hb, hpop, hget⟩ := pop_cons prio x a
  have hlen : b.length = a.length := hb.length_eq
  rw [hpop]
  refine ordered_siftDown _ _ _ (by omega) ⟨fun k hk hkl hkp => ?_, fun h0 => absurd h0 (by omega)⟩
  have hold := h k hk (by simp only [length_cons]; omega)
  rw [prioAt, prioAt, hget k hk hkl, hget ((k - 1) / 2) (by omega) (by omega)]
  exact hold

end MaxHeap
