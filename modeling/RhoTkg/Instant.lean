import Mathlib.Data.Int.Order.Basic
import Mathlib.Tactic.Common

/-!
# Instants

`types.Instant` is an `int64` of Unix milliseconds.  The model carries instants as integers and
writes the machine's wrap-around out where the source adds to one: `wrap64` is the value an
`int64` register holds after the addition.  Values that enter from outside the program --- wall
clock readings, stamps of stored rows --- are `Int64`, so that they are in range by construction.
-/

namespace RhoTkg

/-- `math.MaxInt64`. -/
def maxInt64 : Int := 9223372036854775807

/-- `math.MinInt64`. -/
def minInt64 : Int := -9223372036854775808

/-- The value an `int64` register holds after storing `n`. -/
def wrap64 (n : Int) : Int := n.bmod 18446744073709551616

/-- `i` fits an `int64`. -/
def InRange (i : Int) : Prop := minInt64 ≤ i ∧ i ≤ maxInt64

instance (i : Int) : Decidable (InRange i) := inferInstanceAs (Decidable (_ ∧ _))

theorem wrap64_of_inRange {n : Int} (h : InRange n) : wrap64 n = n := by
  obtain ⟨hlo, hhi⟩ := h
  simp only [minInt64, maxInt64] at hlo hhi
  exact Int.bmod_eq_of_le (by omega) (by omega)

theorem inRange_wrap64 (n : Int) : InRange (wrap64 n) := by
  have hlo := Int.le_bmod (x := n) (m := 18446744073709551616) (by decide)
  have hhi := Int.bmod_lt (x := n) (m := 18446744073709551616) (by decide)
  constructor
  · simp only [minInt64, wrap64]; omega
  · simp only [maxInt64, wrap64]; omega

theorem wrap64_succ_of_lt_max {n : Int} (h : InRange n) (hlt : n < maxInt64) :
    wrap64 (n + 1) = n + 1 := by
  have hlo := h.1
  exact wrap64_of_inRange ⟨by omega, by omega⟩

theorem inRange_toInt (x : Int64) : InRange x.toInt := by
  have hlo := x.le_toInt
  have hhi := x.toInt_lt
  constructor
  · simp only [minInt64]; omega
  · simp only [maxInt64]; omega

end RhoTkg
