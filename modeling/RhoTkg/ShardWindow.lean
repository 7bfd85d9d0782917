import RhoTkg.Library.Gregorian

/-!
# Shard windows

An event shard of a tiered store holds a window of time.  `shardWindowStart` aligns the window of an
instant by the size of `Config.ShardWindow`: from a week on at the Monday of the ISO week, from a day on
at midnight, below a day at a multiple of the duration.  `shardWindowEnd` adds the configured duration to
the start, as calendar days and a remainder.

With the zone UTC both are plain arithmetic: the start rounds down to a multiple of `alignment`, a week, a
day or the window itself, and the end is one window after it (`shardWindowStart_eq`,
`shardWindowEnd_eq`).  So the windows partition time exactly for the window sizes that are their own
alignment, those up to a day and the week (`windowsPartition_iff`).  A window of 36 hours starts every
midnight and reaches to the noon of the next day (`longDay_overlaps`).

Instants are nanoseconds from the first of January of the year 1, which is also what `Truncate` counts
from.
-/

namespace RhoTkg.ShardWindow

def millisecond : Int := 1000000
def minute : Int := 60000 * millisecond
def hour : Int := 60 * minute
def day : Int := 24 * hour

/-! ## The configured window -/

/-- `defaultShardWindow`: one week. -/
def defaultShardWindow : Int := 7 * 24 * hour

/-- What `New` refuses: "Config.ShardWindow must be >= 1 minute" and "Config.ShardWindow must be a whole
millisecond", each with the window. -/
inductive WindowError where
  | belowMinute (got : Int)
  | notWholeMillisecond (got : Int)
deriving DecidableEq, Repr

/-- The window `New` takes from `Config.ShardWindow`. -/
def newShardWindow (configured : Int) : Except WindowError Int :=
  let window := if configured = 0 then defaultShardWindow else configured
  if window < minute then .error (.belowMinute window)
  else if window % millisecond ≠ 0 then .error (.notWholeMillisecond window)
  else .ok window

/-! ## Times in UTC -/

/-- `Time.Date`: the calendar date of an instant. -/
def dateOf (t : Int) : Gregorian.Date := Gregorian.civil (t / day)

/-- `time.Date` at a full hour. -/
def timeDate (date : Gregorian.Date) (hours : Int) : Int :=
  Gregorian.ofDate date * day + hours * hour

/-- `Time.AddDate` of `days` days. -/
def addDays (t days : Int) : Int :=
  Gregorian.ofDate { dateOf t with day := (dateOf t).day + days } * day + t % day

/-- `dayStart`: the first instant of a calendar day. -/
def dayStart (date : Gregorian.Date) : Int :=
  let noon := timeDate date 12
  let midnight := timeDate (dateOf noon) 0
  -- UTC has no transition: `ZoneBounds` answers the zero time
  if (dateOf midnight).day ≠ (dateOf noon).day then 0 else midnight

/-- `shardWindowStart`. -/
def shardWindowStart (t window : Int) : Int :=
  if 7 * 24 * hour ≤ window then
    let (year, week) := Gregorian.isoWeek (t / day)
    let jan4 := timeDate ⟨year, 1, 4⟩ 0
    let jan4Weekday :=
      if Gregorian.weekday (jan4 / day) = 0 then 7 else Gregorian.weekday (jan4 / day)
    let daysToMonday := 1 - jan4Weekday
    let monday := addDays jan4 (daysToMonday + (week - 1) * 7)
    dayStart (dateOf monday)
  else if 24 * hour ≤ window then dayStart (dateOf t)
  else t - t % window

/-- `shardWindowEnd`. -/
def shardWindowEnd (t window : Int) : Int :=
  let start := shardWindowStart t window
  if window < day then start + window
  else dayStart { dateOf start with day := (dateOf start).day + window / day } + window % day

/-! ## Names -/

/-- The digits of `n`, with zeros in front up to `width`. -/
def padded (width n : Nat) : String := "".pushn '0' (width - (toString n).length) ++ toString n

/-- A number as `%0wd` prints it: the sign counts to the width. -/
def sprintfZero (width : Nat) (x : Int) : String :=
  if x < 0 then "-" ++ padded (width - 1) x.natAbs else padded width x.natAbs

/-- A number as `Time.Format` prints it: the sign comes before the padding. -/
def appendInt (width : Nat) (x : Int) : String :=
  if x < 0 then "-" ++ padded width x.natAbs else padded width x.natAbs

/-- `Time.Format` of a date with the separator `sep`. -/
def formatDate (sep : String) (date : Gregorian.Date) : String :=
  appendInt 4 date.year ++ sep ++ appendInt 2 date.month ++ sep ++ appendInt 2 date.day

/-- `Time.Format("20060102T150405.000Z")`. -/
def formatMillis (t : Int) : String :=
  formatDate "" (dateOf t) ++ "T" ++ appendInt 2 (t % day / hour) ++ appendInt 2 (t % hour / minute) ++
    appendInt 2 (t % minute / (1000 * millisecond)) ++ "." ++
    appendInt 3 (t % (1000 * millisecond) / millisecond) ++ "Z"

/-- `shardWindowName`. -/
def shardWindowName (t window : Int) : String :=
  if 7 * 24 * hour ≤ window then
    let (year, week) := Gregorian.isoWeek (t / day)
    sprintfZero 4 year ++ "-W" ++ sprintfZero 2 week
  else if 24 * hour ≤ window then formatDate "-" (dateOf t)
  else formatMillis (shardWindowStart t window)

/-! ## The windows as arithmetic -/

/-- What the starts of the windows are multiples of. -/
def alignment (window : Int) : Int :=
  if 7 * day ≤ window then 7 * day else if day ≤ window then day else window

theorem dayStart_eq (date : Gregorian.Date) : dayStart date = Gregorian.ofDate date * day := by
  have hnoon : timeDate date 12 / day = Gregorian.ofDate date := by
    unfold timeDate day hour minute millisecond
    omega
  have hmidnight : timeDate (dateOf (timeDate date 12)) 0 = Gregorian.ofDate date * day := by
    rw [timeDate, dateOf, hnoon, Gregorian.ofDate_civil, Int.zero_mul, Int.add_zero]
  have hday : Gregorian.ofDate date * day / day = Gregorian.ofDate date :=
    Int.mul_ediv_cancel _ (by decide)
  unfold dayStart
  dsimp only
  rw [hmidnight]
  refine if_neg (not_not_intro ?_)
  rw [dateOf, dateOf, hnoon, hday]

theorem dayStart_dateOf_add (t k : Int) :
    dayStart { dateOf t with day := (dateOf t).day + k } = t - t % day + k * day := by
  rw [dayStart_eq]
  unfold dateOf
  rw [Gregorian.ofDate_civil_add]
  unfold day hour minute millisecond
  omega

theorem dayStart_dateOf (t : Int) : dayStart (dateOf t) = t - t % day := by
  rw [dayStart_eq, dateOf, Gregorian.ofDate_civil]
  unfold day hour minute millisecond
  omega

theorem addDays_eq (t k : Int) : addDays t k = t + k * day := by
  unfold addDays dateOf
  rw [Gregorian.ofDate_civil_add]
  unfold day hour minute millisecond
  omega

/-- **The start of a window** rounds down to a multiple of the alignment. -/
theorem shardWindowStart_eq (t window : Int) :
    shardWindowStart t window = t - t % alignment window := by
  have hmonday := Gregorian.monday_of_isoWeek (t / day)
  unfold shardWindowStart alignment
  rcases hweek : Gregorian.isoWeek (t / day) with ⟨year, week⟩
  rw [hweek] at hmonday
  dsimp only at hmonday ⊢
  rw [addDays_eq, dayStart_dateOf, dayStart_dateOf]
  generalize hjan : Gregorian.ofDate ⟨year, 1, 4⟩ = jan4 at hmonday
  have hdate : timeDate ⟨year, 1, 4⟩ 0 = jan4 * day := by
    rw [timeDate, hjan, Int.zero_mul, Int.add_zero]
  unfold Gregorian.weekday
  unfold day hour minute millisecond at *
  split_ifs <;> omega

/-- **The end of a window** is one window after its start. -/
theorem shardWindowEnd_eq (t window : Int) :
    shardWindowEnd t window = shardWindowStart t window + window := by
  unfold shardWindowEnd
  dsimp only
  rw [dayStart_dateOf_add, shardWindowStart_eq]
  unfold alignment day hour minute millisecond
  split_ifs <;> omega

/-- The instants of one window of a window size that is its own alignment have one name. -/
theorem shardWindowName_congr {t u window : Int}
    (hsame : t - t % alignment window = u - u % alignment window) :
    shardWindowName t window = shardWindowName u window := by
  unfold shardWindowName
  rw [shardWindowStart_eq, shardWindowStart_eq, hsame]
  unfold alignment at hsame
  have hday : day = 24 * hour := rfl
  split_ifs with hweekly hdaily
  · rw [if_pos (by omega)] at hsame
    rw [Gregorian.isoWeek_congr (m := t / day) (n := u / day) (by
      unfold day hour minute millisecond at hsame ⊢
      omega)]
  · rw [if_neg (by omega), if_pos (by omega)] at hsame
    have hdate : t / day = u / day := by
      unfold day hour minute millisecond at hsame ⊢
      omega
    rw [dateOf, dateOf, hdate]
  · rfl

/-! ## The windows as a partition -/

/-- The windows of one size partition time: the window of an instant contains it and is the window of
every instant in it, under one name; so two windows are equal or disjoint. -/
structure WindowsPartition (window : Int) : Prop where
  contains : ∀ t, shardWindowStart t window ≤ t ∧ t < shardWindowEnd t window
  same : ∀ t u, shardWindowStart t window ≤ u → u < shardWindowEnd t window →
    shardWindowStart u window = shardWindowStart t window ∧
      shardWindowEnd u window = shardWindowEnd t window ∧
      shardWindowName u window = shardWindowName t window
  disjoint : ∀ t u,
    (shardWindowStart u window = shardWindowStart t window ∧
      shardWindowEnd u window = shardWindowEnd t window) ∨
    shardWindowEnd t window ≤ shardWindowStart u window ∨
    shardWindowEnd u window ≤ shardWindowStart t window

/-- An instant of a stretch between two multiples rounds down to its start. -/
theorem start_unique {p t u : Int} (hle : t - t % p ≤ u) (hlt : u < t - t % p + p) :
    u - u % p = t - t % p := by
  have hstart : p * (t / p) = t - t % p := by
    have := Int.mul_ediv_add_emod t p
    omega
  have hshift : (u - p * (t / p)) % p = u % p := Int.sub_mul_emod_self_left ..
  rw [hstart, Int.emod_eq_of_lt (by omega) (by omega)] at hshift
  omega

/-- **Shard windows partition time** exactly for the window sizes up to a day and the week, among those
`New` accepts. -/
theorem windowsPartition_iff {configured window : Int} (h : newShardWindow configured = .ok window) :
    WindowsPartition window ↔ window ≤ day ∨ window = 7 * day := by
  have hpos : 0 < window := by
    unfold newShardWindow minute millisecond at h
    dsimp only at h
    split_ifs at h <;> cases h <;> omega
  have halign : 0 < alignment window ∧ alignment window ≤ window ∧
      (alignment window = window ↔ window ≤ day ∨ window = 7 * day) := by
    unfold alignment day hour minute millisecond
    split_ifs <;> omega
  obtain ⟨hapos, hale, hiff⟩ := halign
  constructor
  · intro hpart
    -- in a longer window lies the start of the next aligned stretch
    by_contra hne
    have hzero : shardWindowStart 0 window = 0 := by
      rw [shardWindowStart_eq, Int.zero_emod, Int.sub_zero]
    have hsame := (hpart.same 0 (alignment window) (by omega)
      (by rw [shardWindowEnd_eq]; omega)).1
    rw [hzero, shardWindowStart_eq, Int.emod_self] at hsame
    omega
  · intro hown
    have hcontains : ∀ t, shardWindowStart t window ≤ t ∧ t < shardWindowStart t window + window := by
      intro t
      rw [shardWindowStart_eq]
      have := Int.emod_nonneg t (show alignment window ≠ 0 by omega)
      have := Int.emod_lt_of_pos t hapos
      omega
    have hsame : ∀ t u, shardWindowStart t window ≤ u → u < shardWindowStart t window + window →
        shardWindowStart u window = shardWindowStart t window := by
      intro t u hle hlt
      rw [shardWindowStart_eq] at hle hlt
      rw [shardWindowStart_eq, shardWindowStart_eq]
      exact start_unique hle (by omega)
    refine ⟨fun t => ?_, fun t u hle hlt => ?_, fun t u => ?_⟩
    · rw [shardWindowEnd_eq]
      exact hcontains t
    · rw [shardWindowEnd_eq] at hlt
      have hstart := hsame t u hle hlt
      rw [shardWindowEnd_eq, shardWindowEnd_eq, hstart]
      rw [shardWindowStart_eq, shardWindowStart_eq] at hstart
      exact ⟨rfl, rfl, shardWindowName_congr hstart⟩
    · rw [shardWindowEnd_eq, shardWindowEnd_eq]
      by_cases hdisjoint : shardWindowStart t window + window ≤ shardWindowStart u window ∨
          shardWindowStart u window + window ≤ shardWindowStart t window
      · exact .inr hdisjoint
      · -- the later of the two starts lies in both windows
        have hstart : shardWindowStart u window = shardWindowStart t window := by
          rcases le_total (shardWindowStart t window) (shardWindowStart u window) with hle | hle
          · rw [← hsame t _ hle (by omega), hsame u _ le_rfl (by omega)]
          · rw [← hsame u _ hle (by omega), hsame t _ le_rfl (by omega)]
        exact .inl ⟨hstart, by rw [hstart]⟩

/-- The accepted window of one day. -/
theorem windowsPartition_day : WindowsPartition day :=
  (windowsPartition_iff (show newShardWindow day = .ok day from rfl)).mpr (.inl le_rfl)

/-- A window of 36 hours is accepted, and the window of the first midnight contains the second, whose
own window starts there. -/
theorem longDay_overlaps :
    newShardWindow (36 * hour) = .ok (36 * hour) ∧ ¬ WindowsPartition (36 * hour) := by
  refine ⟨rfl, fun h => ?_⟩
  have hsame := (h.same 0 day (by decide +kernel) (by decide +kernel)).1
  exact absurd hsame (by decide +kernel)

end RhoTkg.ShardWindow
