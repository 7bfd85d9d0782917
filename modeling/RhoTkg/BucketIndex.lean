import RhoTkg.Instant
import Mathlib.Data.List.AList
import Mathlib.Order.Lattice

/-!
# Buckets of the high-frequency index

`HighFrequencyIndex` keeps the IDs of nodes in buckets of valid time, bucket 0 starting at `origin`.  The
bucket of a start is the floored quotient of its distance from the origin, a difference that may not fit
an `int64`.  `BucketFor` therefore subtracts the floored quotients, sees by their signs that the
subtraction wrapped, and borrows from the remainders.  `bucketFor_eq` says that what comes out is the exact
quotient, clamped.  So a bucket never starts after a later start's, and a query that reads every bucket up
to that of an instant misses no start before it (`bucketFor_candidates`).
-/

namespace RhoTkg.HighFrequency

/-- `floorDivMod`: floored division on the machine's truncated one. -/
def floorDivMod (a b : Int) : Int × Int :=
  let q := a.tdiv b
  let r := a.tmod b
  if r < 0 then (wrap64 (q - 1), wrap64 (r + b)) else (q, r)

/-- `BucketFor` of an index with the bucket size `size`. -/
def bucketOf (size origin validFrom : Int) : Int :=
  if size ≤ 0 then 0
  else
    let (qv, rv) := floorDivMod validFrom size
    let (qo, ro) := floorDivMod origin size
    let q := wrap64 (qv - qo)
    -- the subtraction wrapped
    if (qo < 0 ∧ q < qv) ∨ (0 < qo ∧ qv < q) then
      if qo < 0 then maxInt64 else minInt64
    else if rv < ro then
      if q = minInt64 then q else wrap64 (q - 1)
    else q

/-- The value of an `int64` nearest to `n`. -/
def clamp64 (n : Int) : Int := max minInt64 (min maxInt64 n)

theorem inRange_ediv {a b : Int} (ha : InRange a) (hb : 0 < b) : InRange (a / b) := by
  obtain ⟨hlo, hhi⟩ := ha
  constructor
  · refine Int.le_ediv_of_mul_le hb (le_trans ?_ hlo)
    simp only [minInt64]
    omega
  · refine Int.ediv_le_of_le_mul hb (hhi.trans ?_)
    simp only [maxInt64]
    omega

theorem floorDivMod_eq {a b : Int} (ha : InRange a) (hb : 0 < b) (hmax : b ≤ maxInt64) :
    floorDivMod a b = (a / b, a % b) := by
  have hsum := Int.mul_tdiv_add_tmod a b
  have hlt := Int.tmod_lt_of_pos a hb
  have hgt := Int.lt_tmod_of_pos a hb
  have hrange := inRange_ediv ha hb
  unfold floorDivMod
  dsimp only
  split
  · obtain ⟨hq, hr⟩ := (Int.ediv_emod_unique (a := a) (q := a.tdiv b - 1) (r := a.tmod b + b)
      hb).mpr ⟨by rw [Int.mul_sub]; omega, by omega, by omega⟩
    rw [← hq, ← hr, wrap64_of_inRange hrange, wrap64_of_inRange]
    have hmod := Int.emod_lt_of_pos a hb
    have hnonneg := Int.emod_nonneg a hb.ne'
    simp only [InRange, minInt64]
    omega
  · obtain ⟨hq, hr⟩ := (Int.ediv_emod_unique (a := a) (q := a.tdiv b) (r := a.tmod b) hb).mpr
      ⟨by omega, by omega, hlt⟩
    rw [hq, hr]

/-- The quotient of a difference: the quotients' difference, and a borrow from the remainders. -/
theorem sub_ediv {v o b : Int} (hb : 0 < b) :
    (v - o) / b = v / b - o / b - if v % b < o % b then 1 else 0 := by
  have hv := Int.mul_ediv_add_emod v b
  have ho := Int.mul_ediv_add_emod o b
  have hvlt := Int.emod_lt_of_pos v hb
  have holt := Int.emod_lt_of_pos o hb
  have hvpos := Int.emod_nonneg v hb.ne'
  have hopos := Int.emod_nonneg o hb.ne'
  split
  · refine ((Int.ediv_emod_unique (r := v % b - o % b + b) hb).mpr ⟨?_, by omega, by omega⟩).1
    rw [Int.mul_sub, Int.mul_sub]
    omega
  · refine ((Int.ediv_emod_unique (r := v % b - o % b) hb).mpr ⟨?_, by omega, by omega⟩).1
    rw [Int.mul_sub, Int.mul_sub]
    omega

/-- **The bucket is the exact quotient, clamped.** -/
theorem bucketOf_eq {size o v : Int} (hpos : 0 < size) (hmax : size ≤ maxInt64) (ho : InRange o)
    (hv : InRange v) : bucketOf size o v = clamp64 ((v - o) / size) := by
  obtain ⟨hvlo, hvhi⟩ := inRange_ediv hv hpos
  obtain ⟨holo, hohi⟩ := inRange_ediv ho hpos
  rw [bucketOf, if_neg (not_le.mpr hpos), floorDivMod_eq hv hpos hmax, floorDivMod_eq ho hpos hmax,
    sub_ediv hpos]
  generalize v / size = qv at *
  generalize o / size = qo at *
  simp only [wrap64, Int.bmod, clamp64, minInt64, maxInt64] at *
  generalize v % size = rv
  generalize o % size = ro
  omega

/-- `HighFrequencyIndex`; its callers have validated the bucket size. -/
structure HighFrequencyIndex where
  bucketSize : Int64
  origin : Int64
  buckets : AList fun _ : Int => List Nat
  positive : 0 < bucketSize.toInt

namespace HighFrequencyIndex

variable (s : HighFrequencyIndex)

def bucketFor (validFrom : Int64) : Int :=
  bucketOf s.bucketSize.toInt s.origin.toInt validFrom.toInt

/-- The IDs of a bucket, none for a bucket that is not there. -/
def ids (b : Int) : List Nat := (s.buckets.lookup b).getD []

/-- `Add`. -/
def add (id : Nat) (validFrom : Int64) : HighFrequencyIndex :=
  let b := s.bucketFor validFrom
  { s with buckets := s.buckets.insert b (s.ids b ++ [id]) }

/-- `Remove`: the ID leaves the bucket, a bucket left empty the map. -/
def remove (id : Nat) (validFrom : Int64) : HighFrequencyIndex :=
  let b := s.bucketFor validFrom
  let out := (s.ids b).filter (· ≠ id)
  { s with buckets := if out = [] then s.buckets.erase b else s.buckets.insert b out }

/-- `CandidatesUpTo`. -/
def candidatesUpTo (t : Int64) : List Nat :=
  s.buckets.entries.flatMap fun e => if e.1 ≤ s.bucketFor t then e.2 else []

/-- A call that changes the index. -/
inductive Call where
  | add (id : Nat) (validFrom : Int64)
  | remove (id : Nat) (validFrom : Int64)

def step (s : HighFrequencyIndex) : Call → HighFrequencyIndex
  | .add id validFrom => s.add id validFrom
  | .remove id validFrom => s.remove id validFrom

theorem bucketFor_eq (v : Int64) :
    s.bucketFor v = clamp64 ((v.toInt - s.origin.toInt).fdiv s.bucketSize.toInt) := by
  rw [Int.fdiv_eq_ediv_of_nonneg _ s.positive.le]
  exact bucketOf_eq s.positive (inRange_toInt _).2 (inRange_toInt _) (inRange_toInt v)

theorem bucketFor_mono {v w : Int64} (hvw : v ≤ w) : s.bucketFor v ≤ s.bucketFor w := by
  have hle := Int64.le_iff_toInt_le.mp hvw
  have hdiv : (v.toInt - s.origin.toInt).fdiv s.bucketSize.toInt ≤
      (w.toInt - s.origin.toInt).fdiv s.bucketSize.toInt := by
    rw [Int.fdiv_eq_ediv_of_nonneg _ s.positive.le, Int.fdiv_eq_ediv_of_nonneg _ s.positive.le]
    exact Int.ediv_le_ediv s.positive (by omega)
  rw [bucketFor_eq, bucketFor_eq, clamp64, clamp64]
  omega

variable {s} {id : Nat} {b : Int}

@[simp] theorem bucketFor_step (c : Call) : (s.step c).bucketFor = s.bucketFor := by
  cases c <;> rfl

@[simp] theorem bucketFor_run (calls : List Call) :
    (calls.foldl step s).bucketFor = s.bucketFor := by
  induction calls generalizing s with
  | nil => rfl
  | cons c calls ih => rw [List.foldl_cons, ih, bucketFor_step]

/-- A bucket after an `Add`. -/
theorem mem_ids_add {j : Nat} {w : Int64} :
    id ∈ (s.add j w).ids b ↔ id ∈ s.ids b ∨ (id = j ∧ s.bucketFor w = b) := by
  simp only [add, ids]
  by_cases hb : s.bucketFor w = b
  · subst hb
    simp
  · rw [AList.lookup_insert_ne (Ne.symm hb)]
    simp [hb]

/-- A bucket after a `Remove`. -/
theorem mem_ids_remove {j : Nat} {w : Int64} :
    id ∈ (s.remove j w).ids b ↔ id ∈ s.ids b ∧ ¬ (id = j ∧ s.bucketFor w = b) := by
  by_cases hb : s.bucketFor w = b
  · subst hb
    have hout : (s.remove j w).ids (s.bucketFor w) = (s.ids (s.bucketFor w)).filter (· ≠ j) := by
      rw [ids, remove]
      dsimp only
      by_cases hnil : (s.ids (s.bucketFor w)).filter (· ≠ j) = []
      · rw [if_pos hnil, hnil, AList.lookup_erase]
        rfl
      · rw [if_neg hnil, AList.lookup_insert]
        rfl
    rw [hout]
    simp
  · have hout : (s.remove j w).ids b = s.ids b := by
      rw [ids, remove]
      dsimp only
      split
      · rw [AList.lookup_erase_ne (Ne.symm hb), ids]
      · rw [AList.lookup_insert_ne (Ne.symm hb), ids]
    rw [hout]
    simp [hb]

theorem mem_candidatesUpTo {t : Int64} :
    id ∈ s.candidatesUpTo t ↔ ∃ b ≤ s.bucketFor t, id ∈ s.ids b := by
  simp only [candidatesUpTo, List.mem_flatMap]
  constructor
  · rintro ⟨⟨b, l⟩, he, hid⟩
    split at hid
    · rename_i hle
      exact ⟨b, hle, by rw [ids, AList.mem_lookup_iff.mpr he]; exact hid⟩
    · cases hid
  · rintro ⟨b, hle, hid⟩
    unfold ids at hid
    cases hb : s.buckets.lookup b with
    | none =>
      rw [hb] at hid
      cases hid
    | some l =>
      rw [hb] at hid
      exact ⟨⟨b, l⟩, AList.mem_lookup_iff.mp hb, by rw [if_pos hle]; exact hid⟩

/-- An ID stays in its bucket while no call removes it there. -/
theorem mem_ids_run (h : id ∈ s.ids b) (calls : List Call)
    (hkept : ∀ w, .remove id w ∈ calls → s.bucketFor w ≠ b) : id ∈ (calls.foldl step s).ids b := by
  induction calls generalizing s with
  | nil => exact h
  | cons c calls ih =>
    refine ih ?_ fun w hw => ?_
    · cases c with
      | add j w => exact mem_ids_add.mpr (.inl h)
      | remove j w =>
        refine mem_ids_remove.mpr ⟨h, ?_⟩
        rintro ⟨rfl, hb⟩
        exact hkept w List.mem_cons_self hb
    · rw [bucketFor_step]
      exact hkept w (List.mem_cons_of_mem _ hw)

/-- **The buckets are exact and the candidates complete**: a bucket is the floored quotient, clamped to
the machine's range, and later starts have no earlier bucket; and whatever calls were made, an ID that was
added with a start up to `t` and not removed from its bucket since is among the candidates. -/
theorem bucketFor_candidates (s : HighFrequencyIndex) :
    (∀ v, s.bucketFor v = clamp64 ((v.toInt - s.origin.toInt).fdiv s.bucketSize.toInt)) ∧
    (∀ v w, v ≤ w → s.bucketFor v ≤ s.bucketFor w) ∧
    ∀ (before after : List Call) (id : Nat) (validFrom t : Int64), validFrom ≤ t →
      (∀ w, .remove id w ∈ after → s.bucketFor w ≠ s.bucketFor validFrom) →
      id ∈ ((before ++ .add id validFrom :: after).foldl step s).candidatesUpTo t := by
  refine ⟨s.bucketFor_eq, fun _ _ => s.bucketFor_mono, fun before after id v t hle hkept => ?_⟩
  rw [List.foldl_append, List.foldl_cons, mem_candidatesUpTo]
  simp only [bucketFor_run, bucketFor_step]
  refine ⟨_, s.bucketFor_mono hle, mem_ids_run ?_ after ?_⟩
  · exact mem_ids_add.mpr (.inr ⟨rfl, by rw [bucketFor_run]⟩)
  · simpa only [bucketFor_step, bucketFor_run] using hkept

end HighFrequencyIndex

end RhoTkg.HighFrequency
