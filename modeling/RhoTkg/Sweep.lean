import RhoTkg.Winner

/-!
# The sweep computes the top interval

`sweepLoop` walks the cut points of a list of intervals.  Between two cuts no interval starts or
ends, so the interval of greatest priority that covers one instant between them covers all
(`covers_iff_of_between`).  At each cut the heap holds every interval that has started and not
ended, perhaps with some that have; the root, once ended roots are popped, is the top interval
(`HeapInv.top`).  The pieces written so far answer every instant before the cut (`OutInv`), and
`sweepLoop_spec` carries both invariants through the walk.
-/

namespace RhoTkg

open List Option

variable {V : Type}

variable {a : ValidAxis} {ivs h rest : List EffInterval} {t x : Int} {iv top : EffInterval}

theorem coversNothing_eq_false_iff {s e : Int} :
    coversNothing a s e = false ↔ e = a.openEnd ∨ s < e := by
  simp [coversNothing, or_iff_not_imp_left]

/-- The interval holds at `t`. -/
def EffInterval.Covers (a : ValidAxis) (iv : EffInterval) (t : Int) : Prop :=
  intervalCovers a iv.s iv.e t = true

/-- The piece holds at `t`. -/
def EffPiece.Covers (a : ValidAxis) (p : EffPiece V) (t : Int) : Prop :=
  intervalCovers a p.vFrom p.vTo t = true

/-- What the sweep is given: intervals that cover something and do not start at the axis's open
end, told apart by their positions and by their priorities. -/
structure SweepInput (a : ValidAxis) (arr : List (Row V)) (ivs : List EffInterval) : Prop where
  nonempty : ∀ iv ∈ ivs, coversNothing a iv.s iv.e = false
  start_ne : ∀ iv ∈ ivs, iv.s ≠ a.openEnd
  row : ∀ iv ∈ ivs, ∃ r, arr[iv.pos]? = some r
  pos_inj : ∀ x ∈ ivs, ∀ y ∈ ivs, x.pos = y.pos → x = y
  prio_inj : ∀ x ∈ ivs, ∀ y ∈ ivs, x.prio = y.prio → x = y

/-- `iv` covers `t` with the greatest priority. -/
def IsTop (a : ValidAxis) (ivs : List EffInterval) (t : Int) (iv : EffInterval) : Prop :=
  iv ∈ ivs ∧ iv.Covers a t ∧ ∀ x ∈ ivs, x.Covers a t → x.prio ≤ iv.prio

theorem IsTop.eq {arr : List (Row V)} (hin : SweepInput a arr ivs) {x y : EffInterval}
    (hx : IsTop a ivs t x) (hy : IsTop a ivs t y) : x = y :=
  hin.prio_inj x hx.1 y hy.1 (le_antisymm (hy.2.2 x hx.1 hx.2.1) (hx.2.2 y hy.1 hy.2.1))

/-! ## Cut points -/

theorem mem_sweepCuts :
    x ∈ sweepCuts a ivs ↔ ∃ iv ∈ ivs, x = iv.s ∨ (iv.e ≠ a.openEnd ∧ x = iv.e) := by
  simp only [sweepCuts, mem_dedup, mem_insertionSort, mem_flatMap]
  constructor
  · rintro ⟨iv, hiv, hx⟩
    refine ⟨iv, hiv, ?_⟩
    split at hx
    · exact .inl (mem_singleton.mp hx)
    · rename_i hopen
      rw [Bool.not_eq_true, ValidAxis.isOpen_eq_false] at hopen
      rcases mem_cons.mp hx with hx | hx
      · exact .inl hx
      · exact .inr ⟨hopen, mem_singleton.mp hx⟩
  · rintro ⟨iv, hiv, hx | ⟨hopen, hx⟩⟩
    · refine ⟨iv, hiv, ?_⟩
      split <;> simp [hx]
    · refine ⟨iv, hiv, ?_⟩
      rw [if_neg (by simpa using hopen)]
      simp [hx]

theorem sweepCuts_pairwise (a : ValidAxis) (ivs : List EffInterval) :
    (sweepCuts a ivs).Pairwise (· < ·) := by
  have hle : (sweepCuts a ivs).Pairwise (· ≤ ·) :=
    (pairwise_insertionSort (· ≤ ·) _).sublist (dedup_sublist _)
  have hne : (sweepCuts a ivs).Nodup := nodup_dedup _
  exact (hle.and hne).imp fun h => lt_of_le_of_ne h.1 h.2

/-- No interval starts or ends between an instant and a later one with no cut in between. -/
theorem covers_iff_of_between (hxt : x ≤ t) (hcuts : ∀ y ∈ sweepCuts a ivs, y ≤ x ∨ t < y)
    (hiv : iv ∈ ivs) : iv.Covers a t ↔ iv.Covers a x := by
  have hs := hcuts iv.s (mem_sweepCuts.mpr ⟨iv, hiv, .inl rfl⟩)
  have he : iv.e = a.openEnd ∨ iv.e ≤ x ∨ t < iv.e := by
    by_cases hopen : iv.e = a.openEnd
    · exact .inl hopen
    · exact .inr (hcuts iv.e (mem_sweepCuts.mpr ⟨iv, hiv, .inr ⟨hopen, rfl⟩⟩))
  simp only [EffInterval.Covers, intervalCovers_iff]
  omega

theorem isTop_iff_of_between (hxt : x ≤ t) (hcuts : ∀ y ∈ sweepCuts a ivs, y ≤ x ∨ t < y) :
    IsTop a ivs t iv ↔ IsTop a ivs x iv := by
  constructor
  · rintro ⟨hiv, hcov, hmax⟩
    exact ⟨hiv, (covers_iff_of_between hxt hcuts hiv).mp hcov, fun y hy hcovy =>
      hmax y hy ((covers_iff_of_between hxt hcuts hy).mpr hcovy)⟩
  · rintro ⟨hiv, hcov, hmax⟩
    exact ⟨hiv, (covers_iff_of_between hxt hcuts hiv).mpr hcov, fun y hy hcovy =>
      hmax y hy ((covers_iff_of_between hxt hcuts hy).mp hcovy)⟩

/-! ## The heap -/

/-- The interval is bounded and has ended by `x`. -/
def EffInterval.EndedBy (a : ValidAxis) (iv : EffInterval) (x : Int) : Prop :=
  iv.e ≠ a.openEnd ∧ iv.e ≤ x

theorem pushStarted_spec (x : Int) : ∀ (rest h : List EffInterval),
    MaxHeap.Ordered EffInterval.prio h → rest.Pairwise (·.s ≤ ·.s) →
    MaxHeap.Ordered EffInterval.prio (pushStarted x h rest).1 ∧
      (∀ iv, iv ∈ (pushStarted x h rest).1 ↔ iv ∈ h ∨ (iv ∈ rest ∧ iv.s ≤ x)) ∧
      (∀ iv, iv ∈ (pushStarted x h rest).2 ↔ iv ∈ rest ∧ x < iv.s) ∧
      (pushStarted x h rest).2 <:+ rest
  | [], h, hord, _ => by simpa [pushStarted] using hord
  | iv :: rest, h, hord, hsort => by
    rw [List.pairwise_cons] at hsort
    rw [pushStarted]
    split
    · rename_i hle
      obtain ⟨hord', hmem, hrest, hsuf⟩ :=
        pushStarted_spec x rest _ (MaxHeap.ordered_push hord iv) hsort.2
      refine ⟨hord', fun y => ?_, fun y => ?_, hsuf.trans (suffix_cons _ _)⟩
      · have hperm : (MaxHeap.push EffInterval.prio h iv).Perm (iv :: h) := MaxHeap.push_perm h iv
        rw [hmem, hperm.mem_iff, mem_cons, mem_cons]
        constructor
        · rintro ((rfl | hy) | hy)
          · exact .inr ⟨.inl rfl, hle⟩
          · exact .inl hy
          · exact .inr ⟨.inr hy.1, hy.2⟩
        · rintro (hy | ⟨rfl | hy, hyx⟩)
          · exact .inl (.inr hy)
          · exact .inl (.inl rfl)
          · exact .inr ⟨hy, hyx⟩
      · rw [hrest, mem_cons]
        constructor
        · exact fun hy => ⟨.inr hy.1, hy.2⟩
        · rintro ⟨rfl | hy, hyx⟩
          · exact absurd hle (not_le.mpr hyx)
          · exact ⟨hy, hyx⟩
    · rename_i hgt
      -- the rest is sorted, so nothing after `iv` has started either
      have hlate : ∀ y ∈ iv :: rest, x < y.s := by
        intro y hy
        rcases mem_cons.mp hy with rfl | hy
        · exact not_le.mp hgt
        · exact lt_of_lt_of_le (not_le.mp hgt) (hsort.1 y hy)
      refine ⟨hord, fun y => ⟨.inl, ?_⟩, fun y => ⟨fun hy => ⟨hy, hlate y hy⟩, And.left⟩,
        suffix_refl _⟩
      rintro (hy | ⟨hy, hyx⟩)
      · exact hy
      · exact absurd hyx (not_le.mpr (hlate y hy))

theorem popEnded_spec (a : ValidAxis) (x : Int) : ∀ (fuel : Nat) (h : List EffInterval),
    h.length ≤ fuel → MaxHeap.Ordered EffInterval.prio h →
    MaxHeap.Ordered EffInterval.prio (popEnded a x fuel h) ∧
      (∀ iv ∈ popEnded a x fuel h, iv ∈ h) ∧
      (∀ iv ∈ h, iv ∈ popEnded a x fuel h ∨ iv.EndedBy a x) ∧
      ∀ top ∈ (popEnded a x fuel h).head?, ¬ top.EndedBy a x
  | 0, h, hlen, hord => by
    obtain rfl := length_eq_zero_iff.mp (Nat.le_zero.mp hlen)
    exact ⟨hord, by simp [popEnded], by simp, by simp [popEnded]⟩
  | fuel + 1, [], _, hord => ⟨hord, by simp [popEnded], by simp, by simp [popEnded]⟩
  | fuel + 1, iv :: h, hlen, hord => by
    have hended : (!a.isOpen iv.e && decide (iv.e ≤ x)) = true ↔ iv.EndedBy a x := by
      simp [EffInterval.EndedBy]
    rw [popEnded]
    split
    · rename_i hcond
      have hperm : (MaxHeap.pop EffInterval.prio (iv :: h)).Perm h := MaxHeap.pop_perm iv h
      obtain ⟨hord', hsub, hkeep, htop⟩ := popEnded_spec a x fuel _
        (by rw [hperm.length_eq]; exact Nat.le_of_succ_le_succ hlen) (MaxHeap.ordered_pop hord)
      refine ⟨hord', fun y hy => mem_cons_of_mem _ (hperm.mem_iff.mp (hsub y hy)),
        fun y hy => ?_, htop⟩
      rcases mem_cons.mp hy with rfl | hy
      · exact .inr (hended.mp hcond)
      · exact hkeep y (hperm.mem_iff.mpr hy)
    · rename_i hcond
      refine ⟨hord, fun y hy => hy, fun y hy => .inl hy, fun top htop => ?_⟩
      rw [head?_cons, mem_some_iff] at htop
      exact htop ▸ fun he => hcond (hended.mpr he)

/-- The root of an ordered heap has the greatest priority of its entries. -/
theorem prio_le_root (hord : MaxHeap.Ordered EffInterval.prio (top :: h)) {x : EffInterval}
    (hx : x ∈ top :: h) : x.prio ≤ top.prio := by
  obtain ⟨i, hi, rfl⟩ := getElem_of_mem hx
  have hle := hord.le_root i hi
  simpa [MaxHeap.prioAt, getElem?_eq_getElem hi] using hle

/-- The heap and the intervals still to push, before the cut `x` is visited: every interval is in
one of them or has ended. -/
structure HeapInv (a : ValidAxis) (ivs h rest : List EffInterval) (x : Int) : Prop where
  ordered : MaxHeap.Ordered EffInterval.prio h
  mem : ∀ iv ∈ h, iv ∈ ivs ∧ iv.s ≤ x
  rest_mem : ∀ iv ∈ rest, iv ∈ ivs
  rest_sorted : rest.Pairwise (·.s ≤ ·.s)
  cover : ∀ iv ∈ ivs, iv ∈ h ∨ iv ∈ rest ∨ iv.EndedBy a x

/-- The heap after the cut `x` is visited. -/
def heapAt (a : ValidAxis) (h rest : List EffInterval) (x : Int) : List EffInterval :=
  popEnded a x (pushStarted x h rest).1.length (pushStarted x h rest).1

theorem HeapInv.visit (hinv : HeapInv a ivs h rest x) :
    HeapInv a ivs (heapAt a h rest x) (pushStarted x h rest).2 x ∧
      ∀ top ∈ (heapAt a h rest x).head?, ¬ top.EndedBy a x := by
  obtain ⟨hord, hmem, hrest, hsuf⟩ := pushStarted_spec x rest h hinv.ordered hinv.rest_sorted
  obtain ⟨hord', hsub, hkeep, htop⟩ := popEnded_spec a x _ _ le_rfl hord
  -- an interval that has started is in the heap unless it has ended
  have hstay : ∀ iv ∈ (pushStarted x h rest).1, iv ∈ heapAt a h rest x ∨
      iv ∈ (pushStarted x h rest).2 ∨ iv.EndedBy a x := by
    intro iv hiv
    rcases hkeep iv hiv with hiv | hiv
    · exact .inl hiv
    · exact .inr (.inr hiv)
  refine ⟨⟨hord', fun iv hiv => ?_, fun iv hiv => hinv.rest_mem iv ((hrest iv).mp hiv).1,
    hinv.rest_sorted.sublist hsuf.sublist, fun iv hiv => ?_⟩, htop⟩
  · rcases (hmem iv).mp (hsub iv hiv) with hin | ⟨hin, hs⟩
    · exact hinv.mem iv hin
    · exact ⟨hinv.rest_mem iv hin, hs⟩
  · rcases hinv.cover iv hiv with hin | hin | hended
    · exact hstay iv ((hmem iv).mpr (.inl hin))
    · by_cases hs : iv.s ≤ x
      · exact hstay iv ((hmem iv).mpr (.inr ⟨hin, hs⟩))
      · exact .inr (.inl ((hrest iv).mpr ⟨hin, not_le.mp hs⟩))
    · exact .inr (.inr hended)

/-- The invariant carries over to a later cut. -/
theorem HeapInv.advance {y : Int} (hinv : HeapInv a ivs h rest x) (hxy : x ≤ y) :
    HeapInv a ivs h rest y :=
  { hinv with
    mem := fun iv hiv => ⟨(hinv.mem iv hiv).1, (hinv.mem iv hiv).2.trans hxy⟩
    cover := fun iv hiv => (hinv.cover iv hiv).imp_right fun hin =>
      hin.imp_right fun he => ⟨he.1, he.2.trans hxy⟩ }

/-- Once the cut is visited, an interval that covers it is in the heap. -/
theorem HeapInv.mem_of_covers (hinv : HeapInv a ivs h rest x) (hlate : ∀ iv ∈ rest, x < iv.s)
    (hiv : iv ∈ ivs) (hcov : iv.Covers a x) : iv ∈ h := by
  rw [EffInterval.Covers, intervalCovers_iff] at hcov
  rcases hinv.cover iv hiv with hin | hin | hended
  · exact hin
  · exact absurd hcov.1 (not_le.mpr (hlate iv hin))
  · rcases hcov.2 with hopen | hlt
    · exact absurd hopen hended.1
    · exact absurd hended.2 (not_le.mpr hlt)

/-- **The root of the visited heap is the top interval** at the cut. -/
theorem HeapInv.isTop (hinv : HeapInv a ivs (top :: h) rest x) (hlate : ∀ iv ∈ rest, x < iv.s)
    (hlive : ¬ top.EndedBy a x) : IsTop a ivs x top := by
  obtain ⟨hin, hs⟩ := hinv.mem top mem_cons_self
  refine ⟨hin, ?_, fun y hy hcov => prio_le_root hinv.ordered (hinv.mem_of_covers hlate hy hcov)⟩
  rw [EffInterval.Covers, intervalCovers_iff]
  refine ⟨hs, ?_⟩
  by_contra hno
  rw [not_or, not_lt] at hno
  exact hlive ⟨hno.1, hno.2⟩

/-! ## The pieces -/

/-- The row `w` that the interval answers with: void rows answer only when they are kept. -/
def Shown (arr : List (Row V)) (keepVoid : Bool) (iv : EffInterval) (w : Row V) : Prop :=
  arr[iv.pos]? = some w ∧ (w.isVoid && !keepVoid) = false

/-- Some piece holds the row `r` of position `n` at `t`. -/
def HoldsAt (a : ValidAxis) (ps : List (EffPiece V)) (t : Int) (r : Row V) (n : Nat) : Prop :=
  ∃ p ∈ ps, p.Covers a t ∧ p.row = r ∧ p.pos = n

/-- The pieces answer at `t` as the top interval does. -/
def AnswersTop (a : ValidAxis) (arr : List (Row V)) (keepVoid : Bool) (ivs : List EffInterval)
    (ps : List (EffPiece V)) (t : Int) : Prop :=
  ∀ r n, HoldsAt a ps t r n ↔ ∃ iv, IsTop a ivs t iv ∧ Shown arr keepVoid iv r ∧ iv.pos = n

/-- Pieces in order of time: none is empty, each ends before the next one starts, and where two
touch they hold different rows. -/
structure CanonicalPieces (a : ValidAxis) (ps : List (EffPiece V)) : Prop where
  nonempty : ∀ p ∈ ps, coversNothing a p.vFrom p.vTo = false
  ordered : ps.Pairwise fun p q => p.vTo ≠ a.openEnd ∧ p.vTo ≤ q.vFrom
  maximal : ps.IsChain fun p q => p.vTo = q.vFrom → p.pos ≠ q.pos

/-- The pieces `out` written so far, newest first, are final for the instants before `bound`, the
next cut; `none` stands for the end of the axis. -/
structure OutInv (a : ValidAxis) (arr : List (Row V)) (keepVoid : Bool) (ivs : List EffInterval)
    (out : List (EffPiece V)) (bound : Option Int) : Prop where
  canonical : CanonicalPieces a out.reverse
  before : ∀ x ∈ bound, ∀ p ∈ out, p.vTo ≠ a.openEnd ∧ p.vTo ≤ x
  answers : ∀ t, (∀ x ∈ bound, t < x) → AnswersTop a arr keepVoid ivs out t

/-- What the sweep knows of a cut `x` and the next one: nothing changes in between. -/
structure NextCut (a : ValidAxis) (ivs : List EffInterval) (x : Int) (bound : Option Int) :
    Prop where
  lt : ∀ y ∈ bound, x < y
  ne_openEnd : ∀ y ∈ bound, y ≠ a.openEnd
  steady : ∀ t, x ≤ t → (∀ y ∈ bound, t < y) → ∀ iv, IsTop a ivs t iv ↔ IsTop a ivs x iv

section Pieces

variable {a : ValidAxis} {arr : List (Row V)} {keepVoid : Bool} {ivs : List EffInterval}
  {out : List (EffPiece V)} {x : Int} {bound : Option Int}

variable {p q : EffPiece V} {t : Int} {w : Row V}

/-- A finished piece does not reach the cut. -/
theorem OutInv.lt_of_covers (hinv : OutInv a arr keepVoid ivs out (some x)) (hp : p ∈ out)
    (hcov : p.Covers a t) : t < x := by
  obtain ⟨hbd, hle⟩ := hinv.before x rfl p hp
  rw [EffPiece.Covers, intervalCovers_iff] at hcov
  rcases hcov.2 with hopen | hlt
  · exact absurd hopen hbd
  · omega

theorem OutInv.skip (hinv : OutInv a arr keepVoid ivs out (some x)) (hnext : NextCut a ivs x bound)
    (hno : ∀ iv w, IsTop a ivs x iv → ¬ Shown arr keepVoid iv w) :
    OutInv a arr keepVoid ivs out bound := by
  refine ⟨hinv.canonical, fun y hy p hp => ?_, fun t ht => ?_⟩
  · obtain ⟨hbd, hle⟩ := hinv.before x rfl p hp
    have hxy := hnext.lt y hy
    exact ⟨hbd, by omega⟩
  · by_cases htx : t < x
    · exact hinv.answers t fun y hy => by rwa [← mem_some_iff.mp hy]
    · intro r n
      constructor
      · rintro ⟨p, hp, hcov, -⟩
        exact absurd (hinv.lt_of_covers hp hcov) htx
      · rintro ⟨iv, htop, hr, -⟩
        exact absurd hr (hno iv r ((hnext.steady t (not_lt.mp htx) ht iv).mp htop))

/-- The piece the sweep writes at the cut. -/
def cutPiece (a : ValidAxis) (x : Int) (bound : Option Int) (w : Row V) (pos : Nat) : EffPiece V :=
  ⟨x, bound.getD a.openEnd, w, pos⟩

theorem cutPiece_covers_iff (hnext : NextCut a ivs x bound) {pos : Nat} :
    (cutPiece a x bound w pos).Covers a t ↔ x ≤ t ∧ ∀ y ∈ bound, t < y := by
  rw [EffPiece.Covers, intervalCovers_iff]
  cases bound with
  | none => simp [cutPiece]
  | some y =>
    have hne := hnext.ne_openEnd y rfl
    simp [cutPiece, hne]

theorem canonicalPieces_snoc_iff {ps : List (EffPiece V)} :
    CanonicalPieces a (ps ++ [q]) ↔
      CanonicalPieces a ps ∧ coversNothing a q.vFrom q.vTo = false ∧
        (∀ p ∈ ps, p.vTo ≠ a.openEnd ∧ p.vTo ≤ q.vFrom) ∧
        ∀ p ∈ ps.getLast?, p.vTo = q.vFrom → p.pos ≠ q.pos := by
  constructor
  · rintro ⟨hne, hord, hmax⟩
    rw [pairwise_append] at hord
    rw [isChain_append] at hmax
    exact ⟨⟨fun p hp => hne p (mem_append_left _ hp), hord.1, hmax.1⟩,
      hne q (mem_append_right _ (mem_singleton_self q)),
      fun p hp => hord.2.2 p hp q (mem_singleton_self q),
      fun p hp => hmax.2.2 p hp q rfl⟩
  · rintro ⟨⟨hne, hord, hmax⟩, hq, hbefore, htouch⟩
    refine ⟨fun p hp => ?_, ?_, ?_⟩
    · rcases mem_append.mp hp with hp | hp
      · exact hne p hp
      · rwa [mem_singleton.mp hp]
    · refine pairwise_append.mpr ⟨hord, pairwise_singleton _ _, fun p hp r hr => ?_⟩
      rw [mem_singleton.mp hr]
      exact hbefore p hp
    · refine isChain_append.mpr ⟨hmax, isChain_singleton _, fun p hp r hr => ?_⟩
      rw [head?_cons, mem_some_iff] at hr
      exact hr ▸ htouch p hp

theorem mem_appendPiece (hp : p ∈ appendPiece out q) : p ∈ out ∨ p.vTo = q.vTo := by
  cases out with
  | nil => exact .inr (mem_singleton.mp hp ▸ rfl)
  | cons last rest =>
    rw [appendPiece] at hp
    split at hp
    · rcases mem_cons.mp hp with rfl | hp
      · exact .inr rfl
      · exact .inl (mem_cons_of_mem _ hp)
    · rcases mem_cons.mp hp with rfl | hp
      · exact .inr rfl
      · exact .inl hp

/-- What holds after a piece is appended: what held before, and the new piece. -/
theorem holdsAt_appendPiece (hq : coversNothing a q.vFrom q.vTo = false)
    (hne : ∀ p ∈ out, coversNothing a p.vFrom p.vTo = false)
    (hbefore : ∀ p ∈ out, p.vTo ≠ a.openEnd ∧ p.vTo ≤ q.vFrom)
    (hrow : ∀ p ∈ out, p.pos = q.pos → p.row = q.row) (t : Int) (r : Row V) (n : Nat) :
    HoldsAt a (appendPiece out q) t r n ↔
      HoldsAt a out t r n ∨ (q.Covers a t ∧ q.row = r ∧ q.pos = n) := by
  have hcons : HoldsAt a (q :: out) t r n ↔
      HoldsAt a out t r n ∨ (q.Covers a t ∧ q.row = r ∧ q.pos = n) := by
    simp only [HoldsAt, exists_mem_cons_iff]
    exact or_comm
  cases out with
  | nil => exact hcons
  | cons last rest =>
    rw [appendPiece]
    split
    · rename_i hmerge
      have hlast := hne last mem_cons_self
      have hbd := (hbefore last mem_cons_self).1
      have hsame := hrow last mem_cons_self hmerge.1
      -- the extended piece covers what the last piece and the new one cover
      have hcov : EffPiece.Covers a { last with vTo := q.vTo } t ↔
          last.Covers a t ∨ q.Covers a t := by
        rw [coversNothing_eq_false_iff] at hq hlast
        simp only [EffPiece.Covers, intervalCovers_iff]
        omega
      simp only [HoldsAt, exists_mem_cons_iff, hcov, ← hsame, ← hmerge.1]
      rw [or_and_right, or_right_comm]
    · exact hcons

/-- A piece of the finished ones holds the row of its position. -/
theorem OutInv.row_eq (hinv : OutInv a arr keepVoid ivs out (some x)) (hp : p ∈ out) :
    arr[p.pos]? = some p.row := by
  have hne := hinv.canonical.nonempty p (mem_reverse.mpr hp)
  have hcov : p.Covers a p.vFrom := by
    rw [EffPiece.Covers, intervalCovers_iff]
    exact ⟨le_rfl, coversNothing_eq_false_iff.mp hne⟩
  have hlt := hinv.lt_of_covers hp hcov
  obtain ⟨iv, -, hrow, hpos⟩ := (hinv.answers p.vFrom (fun y hy => by
    rwa [← mem_some_iff.mp hy]) p.row p.pos).mp ⟨p, hp, hcov, rfl, rfl⟩
  rw [← hpos]
  exact hrow.1

/-- Appending keeps the pieces canonical. -/
theorem canonicalPieces_appendPiece (hcan : CanonicalPieces a out.reverse)
    (hq : coversNothing a q.vFrom q.vTo = false)
    (hbefore : ∀ p ∈ out, p.vTo ≠ a.openEnd ∧ p.vTo ≤ q.vFrom) :
    CanonicalPieces a (appendPiece out q).reverse := by
  have hbefore' : ∀ p ∈ out.reverse, p.vTo ≠ a.openEnd ∧ p.vTo ≤ q.vFrom := fun p hp =>
    hbefore p (mem_reverse.mp hp)
  cases out with
  | nil =>
    exact canonicalPieces_snoc_iff.mpr ⟨hcan, hq, hbefore', by simp⟩
  | cons last rest =>
    rw [appendPiece]
    split
    · rw [reverse_cons] at hcan ⊢
      obtain ⟨hrest, hlast, hord, htouch⟩ := canonicalPieces_snoc_iff.mp hcan
      have hbd := (hbefore last mem_cons_self).1
      refine canonicalPieces_snoc_iff.mpr ⟨hrest, ?_, hord, htouch⟩
      rw [coversNothing_eq_false_iff] at hq hlast ⊢
      show q.vTo = a.openEnd ∨ last.vFrom < q.vTo
      omega
    · rename_i hmerge
      rw [reverse_cons]
      refine canonicalPieces_snoc_iff.mpr ⟨hcan, hq, hbefore', fun p hp htouch hpos => ?_⟩
      rw [getLast?_reverse, head?_cons, mem_some_iff] at hp
      subst hp
      exact hmerge ⟨hpos, htouch⟩

/-- Writing the piece of the top interval carries the pieces to the next cut. -/
theorem OutInv.append (hinv : OutInv a arr keepVoid ivs out (some x))
    (hnext : NextCut a ivs x bound) {top : EffInterval} (huniq : ∀ iv, IsTop a ivs x iv → iv = top)
    (htop : IsTop a ivs x top) (hw : Shown arr keepVoid top w) :
    OutInv a arr keepVoid ivs (appendPiece out (cutPiece a x bound w top.pos)) bound := by
  have hqcov : ∀ t, (cutPiece a x bound w top.pos).Covers a t ↔ x ≤ t ∧ ∀ y ∈ bound, t < y :=
    fun t => cutPiece_covers_iff hnext
  have hqne : coversNothing a x (bound.getD a.openEnd) = false := by
    have hcov := (hqcov x).mpr ⟨le_rfl, hnext.lt⟩
    rw [EffPiece.Covers, intervalCovers_iff] at hcov
    exact coversNothing_eq_false_iff.mpr hcov.2
  have hbefore := hinv.before x rfl
  have hne : ∀ p ∈ out, coversNothing a p.vFrom p.vTo = false := fun p hp =>
    hinv.canonical.nonempty p (mem_reverse.mpr hp)
  have hrow : ∀ p ∈ out, p.pos = top.pos → p.row = w := by
    intro p hp hpos
    have hp' := hinv.row_eq hp
    rw [hpos, hw.1, some.injEq] at hp'
    exact hp'.symm
  have hcan := canonicalPieces_appendPiece (q := cutPiece a x bound w top.pos) hinv.canonical hqne hbefore
  refine ⟨hcan, fun y hy p hp => ?_, fun t ht r n => ?_⟩
  · have hxy := hnext.lt y hy
    rcases mem_appendPiece hp with hp | hend
    · obtain ⟨hbd, hle⟩ := hbefore p hp
      exact ⟨hbd, by omega⟩
    · rw [hend, cutPiece, hy]
      exact ⟨hnext.ne_openEnd y hy, le_rfl⟩
  · rw [holdsAt_appendPiece hqne hne hbefore hrow, hqcov]
    by_cases htx : t < x
    · rw [hinv.answers t (fun y hy => by rwa [← mem_some_iff.mp hy]) r n]
      exact or_iff_left fun h => absurd h.1.1 (not_le.mpr htx)
    · have hnot : ¬ HoldsAt a out t r n := fun ⟨p, hp, hcov, _⟩ => htx (hinv.lt_of_covers hp hcov)
      rw [or_iff_right hnot]
      constructor
      · rintro ⟨-, hr, hn⟩
        exact ⟨top, (hnext.steady t (not_lt.mp htx) ht top).mpr htop, hr ▸ hw, hn⟩
      · rintro ⟨iv, hiv, hr, hn⟩
        obtain rfl := huniq iv ((hnext.steady t (not_lt.mp htx) ht iv).mp hiv)
        have hwr := hr.1
        rw [hw.1, some.injEq] at hwr
        exact ⟨⟨not_lt.mp htx, ht⟩, hwr, hn⟩

end Pieces

/-! ## The walk -/

variable {a : ValidAxis} {arr : List (Row V)} {ivs : List EffInterval}

variable {x : Int}

theorem SweepInput.cut_ne_openEnd (hin : SweepInput a arr ivs) (hx : x ∈ sweepCuts a ivs) :
    x ≠ a.openEnd := by
  obtain ⟨iv, hiv, rfl | ⟨hbd, rfl⟩⟩ := mem_sweepCuts.mp hx
  · exact hin.start_ne iv hiv
  · exact hbd

/-- The cuts before and after a cut of the walk bound what can change. -/
theorem SweepInput.nextCut (hin : SweepInput a arr ivs) {done cuts : List Int}
    (hcuts : sweepCuts a ivs = done ++ x :: cuts) : NextCut a ivs x cuts.head? := by
  have hsort := sweepCuts_pairwise a ivs
  rw [hcuts, pairwise_append, pairwise_cons] at hsort
  obtain ⟨-, ⟨hafter, hsorted⟩, hdone⟩ := hsort
  have hmem : ∀ y ∈ cuts.head?, y ∈ cuts := fun y hy => mem_of_mem_head? hy
  refine ⟨fun y hy => hafter y (hmem y hy), fun y hy => ?_, fun t hxt ht iv => ?_⟩
  · refine hin.cut_ne_openEnd ?_
    rw [hcuts]
    exact mem_append_right _ (mem_cons_of_mem _ (hmem y hy))
  · refine isTop_iff_of_between hxt fun y hy => ?_
    rw [hcuts, mem_append, mem_cons] at hy
    rcases hy with hy | rfl | hy
    · exact .inl ((hdone y hy x mem_cons_self).le)
    · exact .inl le_rfl
    · refine .inr ?_
      cases cuts with
      | nil => cases hy
      | cons z cuts =>
        have hz := ht z rfl
        rcases mem_cons.mp hy with rfl | hy
        · exact hz
        · exact hz.trans ((pairwise_cons.mp hsorted).1 y hy)

/-- The pieces after the cut `x` is visited with the heap `h`. -/
def cutOut (a : ValidAxis) (arr : List (Row V)) (keepVoid : Bool) (x : Int) (bound : Option Int)
    (h : List EffInterval) (out : List (EffPiece V)) : List (EffPiece V) :=
  match h with
  | [] => out
  | top :: _ =>
    match arr[top.pos]? with
    | none => out
    | some w =>
      if w.isVoid && !keepVoid then out else appendPiece out (cutPiece a x bound w top.pos)

theorem sweepLoop_cons (keepVoid : Bool) (x : Int) (cuts : List Int) (h rest : List EffInterval)
    (out : List (EffPiece V)) :
    sweepLoop a arr keepVoid (x :: cuts) h rest out =
      sweepLoop a arr keepVoid cuts (heapAt a h rest x) (pushStarted x h rest).2
        (cutOut a arr keepVoid x cuts.head? (heapAt a h rest x) out) := by
  rw [sweepLoop]
  unfold cutOut heapAt
  split
  · rename_i hheap
    rw [hheap]
  · rename_i top tail hheap
    rw [hheap]
    cases hrow : arr[top.pos]? with
    | none => simp only [hrow]
    | some w =>
      simp only [hrow]
      split <;> rfl

/-- Visiting a cut carries the pieces to the next one. -/
theorem OutInv.visit (hin : SweepInput a arr ivs) {keepVoid : Bool} {bound : Option Int}
    {h rest : List EffInterval} {out : List (EffPiece V)} (hnext : NextCut a ivs x bound)
    (hheap : HeapInv a ivs h rest x) (hlate : ∀ iv ∈ rest, x < iv.s)
    (hlive : ∀ top ∈ h.head?, ¬ top.EndedBy a x) (hout : OutInv a arr keepVoid ivs out (some x)) :
    OutInv a arr keepVoid ivs (cutOut a arr keepVoid x bound h out) bound := by
  unfold cutOut
  cases h with
  | nil =>
    refine hout.skip hnext fun iv w htop _ => ?_
    exact absurd (hheap.mem_of_covers hlate htop.1 htop.2.1) not_mem_nil
  | cons top h =>
    have htop := hheap.isTop hlate (hlive top rfl)
    have huniq : ∀ iv, IsTop a ivs x iv → iv = top := fun iv hiv => hiv.eq hin htop
    obtain ⟨w, hw⟩ := hin.row top htop.1
    simp only [hw]
    split
    · rename_i hvoid
      refine hout.skip hnext fun iv w' hiv hw' => ?_
      rw [huniq iv hiv, Shown, hw, some.injEq] at hw'
      rw [← hw'.1, hvoid] at hw'
      cases hw'.2
    · rename_i hvoid
      exact hout.append hnext huniq htop ⟨hw, Bool.not_eq_true _ ▸ hvoid⟩

/-- **The walk over the cuts** keeps both invariants, so its pieces are canonical and answer every
instant as the top interval does. -/
theorem sweepLoop_spec (hin : SweepInput a arr ivs) (keepVoid : Bool) : ∀ (cuts done : List Int)
    (h rest : List EffInterval) (out : List (EffPiece V)), sweepCuts a ivs = done ++ cuts →
    (∀ x ∈ cuts.head?, HeapInv a ivs h rest x) → OutInv a arr keepVoid ivs out cuts.head? →
    CanonicalPieces a (sweepLoop a arr keepVoid cuts h rest out) ∧
      ∀ t, AnswersTop a arr keepVoid ivs (sweepLoop a arr keepVoid cuts h rest out) t
  | [], _, _, _, out, _, _, hout => by
    refine ⟨hout.canonical, fun t r n => ?_⟩
    rw [← hout.answers t (by simp) r n]
    simp [sweepLoop, HoldsAt]
  | x :: cuts, done, h, rest, out, hcuts, hheap, hout => by
    have hnext := hin.nextCut hcuts
    obtain ⟨hvisit, hlive⟩ := (hheap x rfl).visit
    have hlate : ∀ iv ∈ (pushStarted x h rest).2, x < iv.s := fun iv hiv =>
      ((pushStarted_spec x rest h (hheap x rfl).ordered (hheap x rfl).rest_sorted).2.2.1 iv
        |>.mp hiv).2
    rw [sweepLoop_cons]
    refine sweepLoop_spec hin keepVoid cuts (done ++ [x]) _ _ _ (by simp [hcuts]) ?_
      (hout.visit hin hnext hvisit hlate hlive)
    exact fun y hy => hvisit.advance ((hnext.lt y hy).le)

/-- The whole sweep over intervals that have their priorities. -/
theorem sweepLoop_start_spec (hin : SweepInput a arr ivs) (keepVoid : Bool) :
    CanonicalPieces a (sweepLoop a arr keepVoid (sweepCuts a ivs) []
        (ivs.insertionSort (·.s ≤ ·.s)) []) ∧
      ∀ t, AnswersTop a arr keepVoid ivs (sweepLoop a arr keepVoid (sweepCuts a ivs) []
        (ivs.insertionSort (·.s ≤ ·.s)) []) t := by
  refine sweepLoop_spec hin keepVoid (sweepCuts a ivs) [] _ _ _ rfl (fun x hx => ?_) ?_
  · refine ⟨MaxHeap.ordered_nil, by simp, fun iv hiv => (mem_insertionSort _).mp hiv, ?_,
      fun iv hiv => .inr (.inl ((mem_insertionSort _).mpr hiv))⟩
    exact pairwise_insertionSort _ _
  · refine ⟨⟨by simp, by simp, by simp⟩, by simp, fun t ht r n => ⟨by simp [HoldsAt], ?_⟩⟩
    -- before the first cut nothing has started
    rintro ⟨iv, ⟨hiv, hcov, -⟩, -⟩
    have hmem : iv.s ∈ sweepCuts a ivs := mem_sweepCuts.mpr ⟨iv, hiv, .inl rfl⟩
    have hsort := sweepCuts_pairwise a ivs
    rw [EffInterval.Covers, intervalCovers_iff] at hcov
    cases hcuts : sweepCuts a ivs with
    | nil =>
      rw [hcuts] at hmem
      cases hmem
    | cons x cuts =>
      rw [hcuts] at hmem hsort ht
      have htx := ht x rfl
      rcases mem_cons.mp hmem with hs | hs
      · omega
      · have hlt := (pairwise_cons.mp hsort).1 _ hs
        omega

end RhoTkg
