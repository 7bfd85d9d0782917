import Mathlib.Data.Int.Order.Basic
import Mathlib.Tactic.Common

/-!
# The proleptic Gregorian calendar

Days are counted from the first of January of the year 1, which is a Monday.  `civil` is the date of a
day, `ofDate` the day of a date whose day of the month may lie outside the month, as date arithmetic
needs it.
-/

namespace Gregorian

/-- The days before the first of January of the year `y`. -/
def yearStart (y : Int) : Int :=
  365 * (y - 1) + (y - 1) / 4 - (y - 1) / 100 + (y - 1) / 400

def isLeap (y : Int) : Bool := y % 4 == 0 && (y % 100 != 0 || y % 400 == 0)

/-- The days of a year before the first of its month `m`; January is 1. -/
def daysBefore (leap : Bool) (m : Nat) : Int :=
  [0, 31, 59, 90, 120, 151, 181, 212, 243, 273, 304, 334].getD (m - 1) 0 +
    if leap && decide (3 ≤ m) then 1 else 0

/-- The year of a day.  By the mean length of a year, 146097 / 400 days, it is missed by at most
one. -/
def yearOf (n : Int) : Int :=
  let y := 400 * n / 146097 + 1
  if n < yearStart y then y - 1 else if yearStart (y + 1) ≤ n then y + 1 else y

structure Date where
  year : Int
  month : Nat
  day : Int
deriving DecidableEq, Repr

/-- The date of a day. -/
def civil (n : Int) : Date :=
  let year := yearOf n
  let yday := n - yearStart year
  let month := (List.range' 1 12).countP fun m => decide (daysBefore (isLeap year) m ≤ yday)
  ⟨year, month, yday - daysBefore (isLeap year) month + 1⟩

/-- The day of a date. -/
def ofDate (d : Date) : Int :=
  yearStart d.year + daysBefore (isLeap d.year) d.month + (d.day - 1)

/-- The day of the week, Sunday being 0. -/
def weekday (n : Int) : Int := (n + 1) % 7

/-- The ISO 8601 year and week of a day: those of the Thursday of its week. -/
def isoWeek (n : Int) : Int × Int :=
  let thursday := n + 3 - (weekday n + 6) % 7
  (yearOf thursday, (thursday - yearStart (yearOf thursday)) / 7 + 1)

theorem ofDate_civil_add (n k : Int) :
    ofDate ⟨(civil n).year, (civil n).month, (civil n).day + k⟩ = n + k := by
  unfold ofDate civil
  dsimp only
  omega

theorem ofDate_civil (n : Int) : ofDate (civil n) = n := by
  have h := ofDate_civil_add n 0
  rwa [Int.add_zero, Int.add_zero] at h

/-- Counting the weeks of an ISO year from the Monday of the week that holds the fourth of January
leads back to the Monday of the day's own week. -/
theorem monday_of_isoWeek (n : Int) :
    ofDate ⟨(isoWeek n).1, 1, 4⟩ - (ofDate ⟨(isoWeek n).1, 1, 4⟩) % 7 + ((isoWeek n).2 - 1) * 7 =
      n - n % 7 := by
  have hjan : ofDate ⟨(isoWeek n).1, 1, 4⟩ = yearStart (isoWeek n).1 + 3 := by
    simp [ofDate, daysBefore]
  rw [hjan]
  unfold isoWeek weekday
  dsimp only
  omega

/-- The ISO week depends on the Monday of the week only. -/
theorem isoWeek_congr {m n : Int} (h : m - m % 7 = n - n % 7) : isoWeek m = isoWeek n := by
  have hthursday : m + 3 - (weekday m + 6) % 7 = n + 3 - (weekday n + 6) % 7 := by
    unfold weekday
    omega
  unfold isoWeek
  rw [hthursday]

end Gregorian
