import RhoTkg.Instant
import Mathlib

/-!
# Allen's relations and their composition table

The table is filled at start-up from the intervals of a line of seven points.  Three intervals have
at most six endpoints, and `relate` only compares endpoints, so replacing every endpoint by its rank
among them (`rank`) moves any three intervals onto that line without changing a relation.
`composition_exact` draws the table's exactness from this.
-/

namespace RhoTkg
namespace Allen

inductive AllenRelation where
  | before | after | meets | metBy | overlaps | overlappedBy | starts | startedBy | during
  | contains | finishes | finishedBy | equals
  deriving Repr, DecidableEq

namespace AllenRelation

/-- The constants count from one; this is the bit of the relation in a set. -/
def bit (r : AllenRelation) : ℕ := r.ctorIdx

/-- The loops from `1` to `allenRelationCount`. -/
def all : List AllenRelation :=
  [before, after, meets, metBy, overlaps, overlappedBy, starts, startedBy, during, contains,
    finishes, finishedBy, equals]

def inverse : AllenRelation → AllenRelation
  | before => after
  | after => before
  | meets => metBy
  | metBy => meets
  | overlaps => overlappedBy
  | overlappedBy => overlaps
  | starts => startedBy
  | startedBy => starts
  | during => contains
  | contains => during
  | finishes => finishedBy
  | finishedBy => finishes
  | equals => equals

end AllenRelation

/-- `relate`, without the checks of `Relate`. -/
def relate (aStart aEnd bStart bEnd : Int) : AllenRelation :=
  if aEnd < bStart then .before
  else if bEnd < aStart then .after
  else if aEnd = bStart then .meets
  else if bEnd = aStart then .metBy
  else if aStart = bStart ∧ aEnd = bEnd then .equals
  else if aStart = bStart ∧ aEnd < bEnd then .starts
  else if aStart = bStart ∧ aEnd > bEnd then .startedBy
  else if aEnd = bEnd ∧ aStart > bStart then .finishes
  else if aEnd = bEnd ∧ aStart < bStart then .finishedBy
  else if aStart > bStart ∧ aEnd < bEnd then .during
  else if aStart < bStart ∧ aEnd > bEnd then .contains
  else if aStart < bStart then .overlaps
  else .overlappedBy

/-! ## Sets of relations -/

/-- A `uint16` of which thirteen bits are used. -/
abbrev AllenRelationSet := BitVec 16

namespace AllenRelationSet

def allenRelationMask : AllenRelationSet := 0x1FFF#16

/-- `AllenRelation.Set`. -/
def single (r : AllenRelation) : AllenRelationSet := 1#16 <<< r.bit

def contains (s : AllenRelationSet) (r : AllenRelation) : Bool := s &&& single r != 0#16

def add (s : AllenRelationSet) (r : AllenRelation) : AllenRelationSet :=
  (s ||| single r) &&& allenRelationMask

def union (s other : AllenRelationSet) : AllenRelationSet := (s ||| other) &&& allenRelationMask

variable (s t : AllenRelationSet) (r r' : AllenRelation)

theorem contains_eq_getLsbD : s.contains r = s.getLsbD r.bit := by
  rw [contains, single, ← BitVec.twoPow_eq, BitVec.and_twoPow]
  have hne : BitVec.twoPow 16 r.bit ≠ 0#16 := by cases r <;> decide
  cases s.getLsbD r.bit <;> simp [hne]

theorem getLsbD_mask : allenRelationMask.getLsbD r.bit = true := by
  cases r <;> decide

theorem contains_union : (union s t).contains r = (s.contains r || t.contains r) := by
  simp only [contains_eq_getLsbD, union, BitVec.getLsbD_and, BitVec.getLsbD_or, getLsbD_mask,
    Bool.and_true]

theorem contains_add : (add s r).contains r' = (s.contains r' || decide (r' = r)) := by
  have hsingle : (single r).getLsbD r'.bit = decide (r' = r) := by
    cases r <;> cases r' <;> decide
  simp only [contains_eq_getLsbD, add, BitVec.getLsbD_and, BitVec.getLsbD_or, getLsbD_mask,
    Bool.and_true, hsingle]

theorem not_contains_empty : contains 0#16 r = false := by
  cases r <;> decide

end AllenRelationSet

open AllenRelationSet (contains_union contains_add not_contains_empty)

/-! ## The composition table -/

/-- `interval` of the initialisation: a start and an end. -/
abbrev Span := Int × Int

def Span.relate (a b : Span) : AllenRelation := Allen.relate a.1 a.2 b.1 b.2

/-- The intervals of the line of seven points. -/
def intervals : List Span :=
  (List.range' 1 7).flatMap fun s : ℕ =>
    (List.range' (s + 1) (7 - s)).map fun e : ℕ => ((s : Int), (e : Int))

/-- The three nested loops over `intervals`. -/
def triples : List (Span × Span × Span) := intervals ×ˢ intervals ×ˢ intervals

abbrev CompositionTable := AllenRelation → AllenRelation → AllenRelationSet

/-- The body of the loops. -/
def record (table : CompositionTable) : Span × Span × Span → CompositionTable
  | (a, b, c) =>
    let ab := a.relate b
    let bc := b.relate c
    Function.update table ab (Function.update (table ab) bc ((table ab bc).add (a.relate c)))

def compositionTable : CompositionTable := triples.foldl record fun _ _ => 0#16

def compose (r₁ r₂ : AllenRelation) : AllenRelationSet := compositionTable r₁ r₂

def composeSets (a b : AllenRelationSet) : AllenRelationSet :=
  AllenRelation.all.foldl (fun result r₁ =>
    if a.contains r₁ then
      AllenRelation.all.foldl (fun result r₂ =>
        if b.contains r₂ then result.union (compose r₁ r₂) else result) result
    else result) 0#16

/-! ## Three intervals on seven points -/

/-- A non-empty interval of instants. -/
def Interval : Type := { a : Span // InRange a.1 ∧ InRange a.2 ∧ a.1 < a.2 }

def Interval.relate (a b : Interval) : AllenRelation := a.1.relate b.1

theorem mem_intervals {a : Span} : a ∈ intervals ↔ 1 ≤ a.1 ∧ a.1 < a.2 ∧ a.2 ≤ 7 := by
  obtain ⟨s, e⟩ := a
  simp only [intervals, List.mem_flatMap, List.mem_range'_1, List.mem_map, Prod.mk.injEq]
  constructor
  · rintro ⟨m, hm, n, hn, rfl, rfl⟩
    omega
  · rintro ⟨hs, hlt, he⟩
    exact ⟨s.toNat, by omega, e.toNat, by omega, by omega, by omega⟩

/-- `relate` only compares. -/
theorem relate_map {f : Int → Int} {points : Finset Int} (hf : StrictMonoOn f points)
    {a b : Span} (ha : a.1 ∈ points ∧ a.2 ∈ points) (hb : b.1 ∈ points ∧ b.2 ∈ points) :
    Span.relate (f a.1, f a.2) (f b.1, f b.2) = a.relate b := by
  have hlt : ∀ {x y}, x ∈ points → y ∈ points → (f x < f y ↔ x < y) := hf.lt_iff_lt
  have heq : ∀ {x y}, x ∈ points → y ∈ points → (f x = f y ↔ x = y) := hf.injOn.eq_iff
  simp only [Span.relate, relate, gt_iff_lt, hlt ha.1 hb.1, hlt ha.2 hb.1, hlt ha.2 hb.2,
    hlt hb.1 ha.1, hlt hb.2 ha.1, hlt hb.2 ha.2, heq ha.1 hb.1, heq ha.2 hb.1, heq ha.2 hb.2,
    heq hb.2 ha.1]

/-- The place of a point among some points, from one on. -/
def rank (points : Finset Int) (x : Int) : Int := (points.filter (· < x)).card + 1

theorem rank_strictMonoOn (points : Finset Int) : StrictMonoOn (rank points) points := by
  intro x hx y _ hlt
  have hsub : points.filter (· < x) ⊂ points.filter (· < y) := by
    rw [Finset.ssubset_iff_of_subset (Finset.monotone_filter_right _ fun z _ hz => hz.trans hlt)]
    exact ⟨x, Finset.mem_filter.mpr ⟨hx, hlt⟩,
      fun hself => lt_irrefl x (Finset.mem_filter.mp hself).2⟩
  have hcard := Finset.card_lt_card hsub
  unfold rank
  omega

/-- An interval whose endpoints are among six points, on the line of seven. -/
theorem rank_mem_intervals {points : Finset Int} (hcard : points.card ≤ 6) {a : Interval}
    (ha : a.1.1 ∈ points ∧ a.1.2 ∈ points) :
    (rank points a.1.1, rank points a.1.2) ∈ intervals := by
  have hlt := rank_strictMonoOn points ha.1 ha.2 a.2.2.2
  have hle := Finset.card_filter_le points (· < a.1.2)
  refine mem_intervals.mpr ⟨?_, hlt, ?_⟩ <;> simp only [rank] <;> omega

/-- **Any three intervals have copies on the line of seven points.** -/
theorem exists_triple (a b c : Interval) : ∃ t ∈ triples, t.1.relate t.2.1 = a.relate b ∧
    t.2.1.relate t.2.2 = b.relate c ∧ t.1.relate t.2.2 = a.relate c := by
  let points : Finset Int := {a.1.1, a.1.2, b.1.1, b.1.2, c.1.1, c.1.2}
  have hmono := rank_strictMonoOn points
  have hcard : points.card ≤ 6 := Finset.card_le_six
  have ha : a.1.1 ∈ points ∧ a.1.2 ∈ points := by simp [points]
  have hb : b.1.1 ∈ points ∧ b.1.2 ∈ points := by simp [points]
  have hc : c.1.1 ∈ points ∧ c.1.2 ∈ points := by simp [points]
  refine ⟨((rank points a.1.1, rank points a.1.2), (rank points b.1.1, rank points b.1.2),
    rank points c.1.1, rank points c.1.2), ?_, relate_map hmono ha hb, relate_map hmono hb hc,
    relate_map hmono ha hc⟩
  exact List.pair_mem_product.mpr ⟨rank_mem_intervals hcard ha,
    List.pair_mem_product.mpr ⟨rank_mem_intervals hcard hb, rank_mem_intervals hcard hc⟩⟩

/-! ## Exactness -/

variable {r r₁ r₂ : AllenRelation}

/-- What the loops have recorded. -/
theorem contains_foldl_record (ts : List (Span × Span × Span)) (table : CompositionTable) :
    (ts.foldl record table r₁ r₂).contains r = true ↔ (table r₁ r₂).contains r = true ∨
      ∃ t ∈ ts, t.1.relate t.2.1 = r₁ ∧ t.2.1.relate t.2.2 = r₂ ∧ t.1.relate t.2.2 = r := by
  induction ts generalizing table with
  | nil => simp
  | cons t ts ih =>
    obtain ⟨a, b, c⟩ := t
    have hrecord : (record table (a, b, c) r₁ r₂).contains r = true ↔
        (table r₁ r₂).contains r = true ∨
          a.relate b = r₁ ∧ b.relate c = r₂ ∧ a.relate c = r := by
      by_cases hab : a.relate b = r₁
      · subst hab
        by_cases hbc : b.relate c = r₂
        · subst hbc
          simp only [record, Function.update_self, contains_add, Bool.or_eq_true, decide_eq_true_eq,
            true_and, eq_comm (a := r)]
        · simp [record, Ne.symm hbc, hbc]
      · simp [record, Ne.symm hab, hab]
    rw [List.foldl_cons, ih, hrecord, or_assoc]
    simp only [List.mem_cons, exists_eq_or_imp]

/-- The table holds what three intervals show. -/
theorem contains_compose : (compose r₁ r₂).contains r = true ↔
    ∃ a b c : Interval, a.relate b = r₁ ∧ b.relate c = r₂ ∧ a.relate c = r := by
  unfold compose compositionTable
  rw [contains_foldl_record, not_contains_empty]
  constructor
  · rintro (h | ⟨⟨a, b, c⟩, hmem, hrelations⟩)
    · cases h
    · obtain ⟨ha, hmem⟩ := List.pair_mem_product.mp hmem
      obtain ⟨hb, hc⟩ := List.pair_mem_product.mp hmem
      have hinterval : ∀ p ∈ intervals, InRange p.1 ∧ InRange p.2 ∧ p.1 < p.2 := by
        intro p hp
        have hline := mem_intervals.mp hp
        simp only [InRange, minInt64, maxInt64]
        omega
      exact ⟨⟨a, hinterval a ha⟩, ⟨b, hinterval b hb⟩, ⟨c, hinterval c hc⟩, hrelations⟩
  · rintro ⟨a, b, c, rfl, rfl, rfl⟩
    exact .inr (exists_triple a b c)

/-- A loop over the relations of a set that joins what `f` has for each. -/
theorem contains_foldl (s : AllenRelationSet) {P : AllenRelation → Prop}
    {f : AllenRelationSet → AllenRelation → AllenRelationSet}
    (hf : ∀ result r', (f result r').contains r = true ↔ result.contains r = true ∨ P r')
    (result : AllenRelationSet) :
    (AllenRelation.all.foldl (fun result r' => if s.contains r' then f result r' else result)
      result).contains r = true ↔
      result.contains r = true ∨ ∃ r', s.contains r' = true ∧ P r' := by
  have hloop : ∀ (rs : List AllenRelation) (result : AllenRelationSet),
      (rs.foldl (fun result r' => if s.contains r' then f result r' else result)
        result).contains r = true ↔
      result.contains r = true ∨ ∃ r' ∈ rs, s.contains r' = true ∧ P r' := by
    intro rs
    induction rs with
    | nil => simp
    | cons r' rs ih =>
      intro result
      rw [List.foldl_cons, ih]
      cases hr : s.contains r' <;> simp [hr, hf, or_assoc]
  have hall : ∀ r', r' ∈ AllenRelation.all := fun r' => by cases r' <;> decide
  simp [hloop, hall]

/-- The converse, by its copy on the line. -/
theorem inverse_relate (a b : Interval) : b.relate a = (a.relate b).inverse := by
  have hline : ∀ a ∈ intervals, ∀ b ∈ intervals, b.relate a = (a.relate b).inverse := by
    decide +kernel
  let points : Finset Int := {a.1.1, a.1.2, b.1.1, b.1.2}
  have hmono := rank_strictMonoOn points
  have hcard : points.card ≤ 6 := Finset.card_le_four.trans (by decide)
  have ha : a.1.1 ∈ points ∧ a.1.2 ∈ points := by simp [points]
  have hb : b.1.1 ∈ points ∧ b.1.2 ∈ points := by simp [points]
  unfold Interval.relate
  rw [← relate_map hmono hb ha, ← relate_map hmono ha hb]
  exact hline _ (rank_mem_intervals hcard ha) _ (rank_mem_intervals hcard hb)

/-- **The composition table is exact.**  `Compose` and `ComposeSets` hold exactly the relations that
three intervals show, and the converse of a relation is its inverse. -/
theorem composition_exact :
    (∀ a b c : Interval, (compose (a.relate b) (b.relate c)).contains (a.relate c) = true) ∧
    (∀ r₁ r₂ r, (compose r₁ r₂).contains r = true ↔
      ∃ a b c : Interval, a.relate b = r₁ ∧ b.relate c = r₂ ∧ a.relate c = r) ∧
    (∀ a b : Interval, b.relate a = (a.relate b).inverse) ∧
    ∀ (s t : AllenRelationSet) (r : AllenRelation), (composeSets s t).contains r = true ↔
      ∃ a b c : Interval, s.contains (a.relate b) = true ∧ t.contains (b.relate c) = true ∧
        a.relate c = r := by
  refine ⟨fun a b c => contains_compose.mpr ⟨a, b, c, rfl, rfl, rfl⟩, fun _ _ _ => contains_compose,
    inverse_relate, fun s t r => ?_⟩
  unfold composeSets
  rw [contains_foldl s
    (P := fun r₁ => ∃ r₂, t.contains r₂ = true ∧ (compose r₁ r₂).contains r = true)
    fun result r₁ => contains_foldl t
      (fun result r₂ => by rw [contains_union, Bool.or_eq_true]) result]
  simp only [not_contains_empty, Bool.false_eq_true, false_or, contains_compose]
  constructor
  · rintro ⟨_, hs, _, ht, a, b, c, rfl, rfl, hr⟩
    exact ⟨a, b, c, hs, ht, hr⟩
  · rintro ⟨a, b, c, hs, ht, hr⟩
    exact ⟨_, hs, _, ht, a, b, c, rfl, rfl, hr⟩

theorem relate_eq_inverse {a b : Interval} {r : AllenRelation} :
    a.relate b = r.inverse ↔ b.relate a = r := by
  rw [inverse_relate b a]
  cases b.relate a <;> cases r <;> decide

/-- **The composition table is a relation algebra's**: the three relations of a triangle may be read
from any corner and in either direction. -/
theorem compose_triangle (r₁ r₂ r : AllenRelation) :
    ((compose r₁ r₂).contains r = true ↔ (compose r r₂.inverse).contains r₁ = true) ∧
      ((compose r₁ r₂).contains r = true ↔
        (compose r₂.inverse r₁.inverse).contains r.inverse = true) := by
  simp only [contains_compose, relate_eq_inverse]
  refine ⟨⟨?_, ?_⟩, ?_, ?_⟩
  all_goals rintro ⟨a, b, c, h₁, h₂, h₃⟩
  · exact ⟨a, c, b, h₃, h₂, h₁⟩
  · exact ⟨a, c, b, h₃, h₂, h₁⟩
  · exact ⟨c, b, a, h₂, h₁, h₃⟩
  · exact ⟨c, b, a, h₂, h₁, h₃⟩

end Allen
end RhoTkg
