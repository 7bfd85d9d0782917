import RhoTkg.Sweep

/-!
# The effective timeline is the point resolver

The intervals the sweep walks are the covering intervals of the resolver's arm
(`mem_sweepInput_iff`), and their priorities order them as `Beats` does (`prio_le_iff`), so the top
interval at an instant is the resolver's winner there (`isTop_iff_isWinner`).  The pieces of
`effectivePieces` therefore answer every valid instant as `resolveNodeChain` does.

The one exception is a row whose start is the axis's open end: the sweep writes a piece whose stored
end reads as open.
-/

namespace RhoTkg

open List Option

variable {V : Type} {c : Core}

/-- No reading of the row's start is the axis's open end. -/
def Core.StartsInside (c : Core) (r : Row V) : Prop :=
  c.nodeValidFrom r ≠ c.axis.openEnd ∧
    (c.bitemporalMigrated = false → c.untimedValidFrom r ≠ c.axis.openEnd)

instance (r : Row V) : Decidable (c.StartsInside r) := inferInstanceAs (Decidable (_ ∧ _))

/-- The intervals the sweep walks, with their priorities. -/
def Core.sweepInput (c : Core) (filtered : List (Row V)) (caps : List Int) : List EffInterval :=
  let ivs := (c.sweepIntervals filtered caps).2.1
  if (c.sortNodeChainForResolve filtered).2 then
    rankBeliefs (c.sortNodeChainForResolve filtered).1 ivs
  else ivs

theorem Core.effectiveSweep_eq (filtered : List (Row V)) (caps : List Int) (keepVoid : Bool) :
    c.effectiveSweep filtered caps keepVoid =
      sweepLoop c.axis (c.sortNodeChainForResolve filtered).1 keepVoid
        (sweepCuts c.axis (c.sweepInput filtered caps)) []
        ((c.sweepInput filtered caps).insertionSort (·.s ≤ ·.s)) [] := rfl

/-! ## The intervals -/

section Intervals

variable {filtered arr : List (Row V)} {caps : List Int} {cascade : Bool}

/-- Position `i` of the sorted rows has the interval `b`, which covers something. -/
def Core.HasInterval (c : Core) (arr : List (Row V)) (caps : List Int) (cascade : Bool) (i : Nat)
    (b : Int × Int) : Prop :=
  ∃ r, arr[i]? = some r ∧ c.rowInterval arr (c.supersessionCaps arr) caps cascade i r = some b ∧
    coversNothing c.axis b.1 b.2 = false

variable {b : Int × Int} {i : Nat} {iv x y : EffInterval} {r : Row V} {t : Int}

theorem Core.HasInterval.eq {b' : Int × Int} (h : c.HasInterval arr caps cascade i b)
    (h' : c.HasInterval arr caps cascade i b') : b = b' := by
  obtain ⟨r, hr, hb, -⟩ := h
  obtain ⟨r', hr', hb', -⟩ := h'
  rw [hr, some.injEq] at hr'
  subst hr'
  rw [hb, some.injEq] at hb'
  exact hb'

theorem Core.mem_sweepIntervals_iff (hsort : c.sortNodeChainForResolve filtered = (arr, cascade)) :
    iv ∈ (c.sweepIntervals filtered caps).2.1 ↔
      c.HasInterval arr caps cascade iv.pos (iv.s, iv.e) ∧ iv.prio = iv.pos := by
  -- the positional arm does not read the supersession caps
  have hcaps : ∀ i r, c.rowInterval arr (if cascade then c.supersessionCaps arr else []) caps
      cascade i r = c.rowInterval arr (c.supersessionCaps arr) caps cascade i r := by
    intro i r
    cases cascade <;> simp [rowInterval]
  simp only [sweepIntervals, hsort, mem_filterMap, Prod.exists, mem_zipIdx_iff_getElem?,
    hcaps, HasInterval]
  constructor
  · rintro ⟨r, i, hr, hiv⟩
    split at hiv
    · rename_i s e hb
      split at hiv
      · cases hiv
      · rename_i hcov
        rw [some.injEq] at hiv
        subst hiv
        exact ⟨⟨r, hr, hb, Bool.not_eq_true _ ▸ hcov⟩, rfl⟩
    · cases hiv
  · rintro ⟨⟨r, hr, hb, hcov⟩, hprio⟩
    refine ⟨r, iv.pos, hr, ?_⟩
    obtain ⟨s, e, pos, prio⟩ := iv
    simp only at hprio hb hcov hr
    simp [hb, hcov, hprio]

/-- In a sorted list the element found first precedes the other one in the order. -/
theorem rel_of_idxOf_lt {α : Type} [BEq α] [LawfulBEq α] {R : α → α → Prop} {l : List α}
    (hl : l.Pairwise R) {x y : α} (hx : x ∈ l) (hy : y ∈ l) (hlt : l.idxOf x < l.idxOf y) :
    R x y := by
  have hrel := pairwise_iff_getElem.mp hl _ _ (idxOf_lt_length_of_mem hx)
    (idxOf_lt_length_of_mem hy) hlt
  rwa [getElem_idxOf, getElem_idxOf] at hrel

instance : Std.Total (beliefOrder arr) := ⟨fun x y => by unfold beliefOrder; simp only; omega⟩

instance : IsTrans EffInterval (beliefOrder arr) :=
  ⟨fun x y z => by unfold beliefOrder; simp only; omega⟩

theorem beliefOrder_iff_beats {r' : Row V} (hx : arr[x.pos]? = some r)
    (hy : arr[y.pos]? = some r') :
    beliefOrder arr x y ↔ x.pos = y.pos ∨ Beats arr true y.pos x.pos := by
  rw [beats_own_iff hy hx]
  have hsame : x.pos = y.pos → r = r' := by
    intro h
    rw [h, hy, some.injEq] at hx
    exact hx.symm
  simp only [beliefOrder, hx, hy, map_some, getD_some]
  constructor
  · intro h
    omega
  · rintro (h | h)
    · rw [hsame h]
      omega
    · omega

theorem Core.mem_sweepInput (hsort : c.sortNodeChainForResolve filtered = (arr, cascade))
    (hiv : iv ∈ c.sweepInput filtered caps) :
    c.HasInterval arr caps cascade iv.pos (iv.s, iv.e) := by
  unfold sweepInput at hiv
  split at hiv
  · obtain ⟨iv', hiv', rfl⟩ := mem_map.mp hiv
    exact ((mem_sweepIntervals_iff hsort).mp hiv').1
  · exact ((mem_sweepIntervals_iff hsort).mp hiv).1

theorem Core.exists_mem_sweepInput (hsort : c.sortNodeChainForResolve filtered = (arr, cascade))
    (hb : c.HasInterval arr caps cascade i b) :
    ∃ iv ∈ c.sweepInput filtered caps, iv.pos = i ∧ iv.s = b.1 ∧ iv.e = b.2 := by
  have hmem : (⟨b.1, b.2, i, i⟩ : EffInterval) ∈ (c.sweepIntervals filtered caps).2.1 :=
    (mem_sweepIntervals_iff hsort).mpr ⟨hb, rfl⟩
  unfold sweepInput
  split
  · exact ⟨_, mem_map.mpr ⟨_, hmem, rfl⟩, rfl, rfl, rfl⟩
  · exact ⟨_, hmem, rfl, rfl, rfl⟩

/-- **Priorities order the intervals as the arm does.** -/
theorem Core.prio_le_iff (hsort : c.sortNodeChainForResolve filtered = (arr, cascade))
    (hx : x ∈ c.sweepInput filtered caps) (hy : y ∈ c.sweepInput filtered caps) :
    x.prio ≤ y.prio ↔ x.pos = y.pos ∨ Beats arr cascade y.pos x.pos := by
  unfold sweepInput at hx hy
  simp only [hsort] at hx hy
  cases cascade with
  | false =>
    rw [((mem_sweepIntervals_iff hsort).mp hx).2, ((mem_sweepIntervals_iff hsort).mp hy).2]
    simp only [Beats, Bool.false_eq_true, if_false]
    omega
  | true =>
    obtain ⟨x, hxm, rfl⟩ := mem_map.mp hx
    obtain ⟨y, hym, rfl⟩ := mem_map.mp hy
    obtain ⟨hxb, hxp⟩ := (mem_sweepIntervals_iff hsort).mp hxm
    obtain ⟨hyb, hyp⟩ := (mem_sweepIntervals_iff hsort).mp hym
    have heq : x.pos = y.pos → x = y := by
      intro hpos
      have hbounds := hxb.eq (hpos ▸ hyb)
      rw [Prod.mk.injEq] at hbounds
      exact EffInterval.ext hbounds.1 hbounds.2 hpos (by rw [hxp, hyp, hpos])
    obtain ⟨r, hr, -⟩ := hxb
    obtain ⟨r', hr', -⟩ := hyb
    have hsorted := pairwise_insertionSort (beliefOrder arr) (c.sweepIntervals filtered caps).2.1
    have hx' := (mem_insertionSort (beliefOrder arr)).mpr hxm
    have hy' := (mem_insertionSort (beliefOrder arr)).mpr hym
    rw [← beliefOrder_iff_beats hr hr']
    constructor
    · intro hle
      rcases Nat.eq_or_lt_of_le hle with hidx | hlt
      · rw [(idxOf_inj hx').mp hidx]
        exact (beliefOrder_iff_beats hr' hr').mpr (.inl rfl)
      · exact rel_of_idxOf_lt hsorted hx' hy' hlt
    · intro hrel
      by_contra hgt
      have hrel' := rel_of_idxOf_lt hsorted hy' hx' (not_le.mp hgt)
      rw [beliefOrder_iff_beats hr hr'] at hrel
      rw [beliefOrder_iff_beats hr' hr] at hrel'
      have hpos : x.pos = y.pos := by
        rcases hrel with h | h
        · exact h
        · rcases hrel' with h' | h'
          · exact h'.symm
          · cases h.asymm h'
      rw [heq hpos] at hgt
      exact hgt le_rfl

theorem Core.coversAt_iff_mem (hsort : c.sortNodeChainForResolve filtered = (arr, cascade)) :
    c.CoversAt arr caps cascade t i ↔
      ∃ iv ∈ c.sweepInput filtered caps, iv.pos = i ∧ iv.Covers c.axis t := by
  constructor
  · rintro ⟨r, b, hr, hb, hcov⟩
    have hne : coversNothing c.axis b.1 b.2 = false := by
      rw [intervalCovers_iff] at hcov
      rw [coversNothing_eq_false_iff]
      omega
    obtain ⟨iv, hiv, hpos, hs, he⟩ := exists_mem_sweepInput hsort ⟨r, hr, hb, hne⟩
    exact ⟨iv, hiv, hpos, by rwa [EffInterval.Covers, hs, he]⟩
  · rintro ⟨iv, hiv, rfl, hcov⟩
    obtain ⟨r, hr, hb, -⟩ := mem_sweepInput hsort hiv
    exact ⟨r, _, hr, hb, hcov⟩

/-- **The top interval is the winner.** -/
theorem Core.isTop_iff_isWinner (hsort : c.sortNodeChainForResolve filtered = (arr, cascade)) :
    (∃ iv, IsTop c.axis (c.sweepInput filtered caps) t iv ∧ iv.pos = i) ↔
      c.IsWinner arr caps cascade t i := by
  constructor
  · rintro ⟨iv, ⟨hiv, hcov, hmax⟩, rfl⟩
    refine ⟨(coversAt_iff_mem hsort).mpr ⟨iv, hiv, rfl, hcov⟩, fun j hj hne => ?_⟩
    obtain ⟨y, hy, rfl, hcovy⟩ := (coversAt_iff_mem hsort).mp hj
    rcases (prio_le_iff hsort hy hiv).mp (hmax y hy hcovy) with hpos | hbeats
    · exact absurd hpos hne
    · exact hbeats
  · rintro ⟨hcov, hmax⟩
    obtain ⟨iv, hiv, rfl, hcov'⟩ := (coversAt_iff_mem hsort).mp hcov
    refine ⟨iv, ⟨hiv, hcov', fun y hy hcovy => (prio_le_iff hsort hy hiv).mpr ?_⟩, rfl⟩
    by_cases hpos : y.pos = iv.pos
    · exact .inl hpos
    · exact .inr (hmax y.pos ((coversAt_iff_mem hsort).mpr ⟨y, hy, rfl, hcovy⟩) hpos)

theorem Core.StartsInside.versionStart_ne (h : c.StartsInside r) (prev : Option (Row V)) :
    c.versionStart prev r ≠ c.axis.openEnd := by
  by_cases hmig : c.bitemporalMigrated = true
  · rw [versionStart_eq_nodeValidFrom hmig]
    exact h.1
  · have huntimed := h.2 (Bool.not_eq_true _ ▸ hmig)
    unfold versionStart
    split
    · rename_i tm htm
      split
      · rename_i hclaim
        rw [Bool.and_eq_true, ValidAxis.claimed_eq_true] at hclaim
        simpa [nodeValidFrom, ValidAxis.start, htm, hclaim.1] using h.1
      · exact huntimed
    · exact huntimed

/-- The start of a row's interval is one of the row's two starts. -/
theorem Core.HasInterval.start_ne (hr : arr[i]? = some r) (h : c.HasInterval arr caps cascade i b)
    (hstart : c.StartsInside r) : b.1 ≠ c.axis.openEnd := by
  obtain ⟨r', hr', hb, -⟩ := h
  rw [hr, some.injEq] at hr'
  subst hr'
  cases cascade with
  | true =>
    simp only [rowInterval, if_true, ownInterval, map_eq_some_iff] at hb
    obtain ⟨vEnd, -, rfl⟩ := hb
    exact hstart.1
  | false =>
    simp only [rowInterval, Bool.false_eq_true, if_false, some.injEq] at hb
    rw [← hb]
    simp only [nodeVersionBounds, hr]
    exact hstart.versionStart_ne _

theorem Core.sweepInput_ok (caps : List Int)
    (hsort : c.sortNodeChainForResolve filtered = (arr, cascade))
    (hstart : ∀ r ∈ filtered, c.StartsInside r) :
    SweepInput c.axis arr (c.sweepInput filtered caps) := by
  have hrows : ∀ r ∈ arr, c.StartsInside r := by
    intro r hr
    have hperm := (sortNodeChainForResolve_sorted (c := c) filtered).2
    rw [hsort] at hperm
    exact hstart r (hperm.mem_iff.mp hr)
  have hpos : ∀ x ∈ c.sweepInput filtered caps, ∀ y ∈ c.sweepInput filtered caps,
      x.pos = y.pos → x = y := by
    intro x hx y hy hpos
    have hbounds := (mem_sweepInput hsort hx).eq (hpos ▸ mem_sweepInput hsort hy)
    have hprio : x.prio = y.prio := le_antisymm ((prio_le_iff hsort hx hy).mpr (.inl hpos))
      ((prio_le_iff hsort hy hx).mpr (.inl hpos.symm))
    rw [Prod.mk.injEq] at hbounds
    exact EffInterval.ext hbounds.1 hbounds.2 hpos hprio
  refine ⟨fun iv hiv => ?_, fun iv hiv => ?_, fun iv hiv => ?_, hpos, fun x hx y hy hprio => ?_⟩
  · obtain ⟨r, -, -, hne⟩ := mem_sweepInput hsort hiv
    exact hne
  · obtain ⟨r, hr, hb⟩ := mem_sweepInput hsort hiv
    exact HasInterval.start_ne hr ⟨r, hr, hb⟩ (hrows r (mem_of_getElem? hr))
  · obtain ⟨r, hr, -⟩ := mem_sweepInput hsort hiv
    exact ⟨r, hr⟩
  · -- of two positions with one priority neither beats the other
    refine hpos x hx y hy ?_
    rcases (prio_le_iff hsort hx hy).mp (le_of_eq hprio) with h | h
    · exact h
    · rcases (prio_le_iff hsort hy hx).mp (le_of_eq hprio.symm) with h' | h'
      · exact h'.symm
      · cases h.asymm h'

end Intervals

/-! ## The pieces -/

/-- The pieces of a sweep are canonical and hold the winner's row where it is shown. -/
theorem Core.effectiveSweep_spec {filtered : List (Row V)} (caps : List Int) (keepVoid : Bool)
    (hstart : ∀ r ∈ filtered, c.StartsInside r) :
    CanonicalPieces c.axis (c.effectiveSweep filtered caps keepVoid) ∧
      ∀ t r i, HoldsAt c.axis (c.effectiveSweep filtered caps keepVoid) t r i ↔
        c.IsWinner (c.sortNodeChainForResolve filtered).1 caps
            (c.sortNodeChainForResolve filtered).2 t i ∧
          (c.sortNodeChainForResolve filtered).1[i]? = some r ∧
          (r.isVoid && !keepVoid) = false := by
  rw [effectiveSweep_eq]
  rcases hsort : c.sortNodeChainForResolve filtered with ⟨arr, cascade⟩
  obtain ⟨hcan, hans⟩ := sweepLoop_start_spec (sweepInput_ok caps hsort hstart) keepVoid
  refine ⟨hcan, fun t r i => ?_⟩
  rw [hans t r i, ← isTop_iff_isWinner hsort]
  constructor
  · rintro ⟨iv, htop, hshown, rfl⟩
    exact ⟨⟨iv, htop, rfl⟩, hshown⟩
  · rintro ⟨⟨iv, htop, rfl⟩, hshown⟩
    exact ⟨iv, htop, hshown, rfl⟩

variable {ps : List (EffPiece V)} {t pin : Int} {a : ValidAxis} {r r' : Row V}
  {chain : List (Row V)}

/-- Pieces over the rows `arr` that hold the winner's row where it is not void answer as the
resolver does. -/
theorem Core.holdsAt_iff_answer {arr : List (Row V)} {caps : List Int} {cascade : Bool}
    {answer : Option (Row V)} (hans : c.AnswersWinner arr caps cascade t answer)
    (hps : ∀ r i, HoldsAt c.axis ps t r i ↔ c.IsWinner arr caps cascade t i ∧ arr[i]? = some r ∧
      r.isVoid = false) :
    (∀ p ∈ ps, p.Covers c.axis t → answer = some p.row) ∧
      (answer ≠ none → ∃ p ∈ ps, p.Covers c.axis t) := by
  have hshown : ∀ r : Row V, r.isVoid = false → r.answer = some r := by
    intro r hr
    simp [Row.answer, hr]
  constructor
  · intro p hp hcov
    obtain ⟨hwin, hrow, hvoid⟩ := (hps p.row p.pos).mp ⟨p, hp, hcov, rfl, rfl⟩
    rcases hans with ⟨i, r, hi, hr, rfl⟩ | ⟨hno, -⟩
    · rw [hi.eq hwin, hrow, some.injEq] at hr
      rw [← hr]
      exact hshown _ hvoid
    · exact absurd hwin.1 (hno p.pos)
  · intro hsome
    rcases hans with ⟨i, r, hi, hr, rfl⟩ | ⟨-, hnone⟩
    · have hvoid : r.isVoid = false := by
        by_contra hv
        exact hsome (by simp [Row.answer, Bool.not_eq_false _ ▸ hv])
      obtain ⟨p, hp, hcov, -⟩ := (hps r i).mpr ⟨hi, hr, hvoid⟩
      exact ⟨p, hp, hcov⟩
    · exact absurd hnone hsome

/-! ## The row as believed at the pin -/

theorem nodeRowAtTx_eq_some (h : nodeRowAtTx a r pin = some r') :
    r' = r ∨ ∃ tm, r.temporal = some tm ∧ pin < tm.deletedAt ∧
      r' = { r with temporal := some (normalizeTemporalVisibleAtTxTime a tm pin) } := by
  unfold nodeRowAtTx at h
  split at h
  · split at h
    · exact .inl (some.inj h).symm
    · rename_i tm htm
      split at h
      · rename_i hlt
        exact .inr ⟨tm, htm, hlt, (some.inj h).symm⟩
      · exact .inl (some.inj h).symm
  · cases h

theorem normalize_of_lt {tm : TemporalMetadata} (h : pin < tm.deletedAt) :
    let tm' := normalizeTemporalVisibleAtTxTime a tm pin
    tm'.validFrom = tm.validFrom ∧ tm'.txFrom = tm.txFrom ∧ tm'.updatedAt = tm.updatedAt ∧
      tm'.void = tm.void ∧ tm'.deletedAt = 0 := by
  unfold normalizeTemporalVisibleAtTxTime
  split <;> simp [h]

/-- What the pin's normalisation keeps of a row, and that it only removes deletes. -/
theorem nodeRowAtTx_keeps (h : nodeRowAtTx c.axis r pin = some r') :
    c.nodeValidFrom r' = c.nodeValidFrom r ∧ c.untimedValidFrom r' = c.untimedValidFrom r ∧
      r'.beliefTx = r.beliefTx ∧ r'.isVoid = r.isVoid ∧
      (r'.deletedAt = 0 ∨ r'.deletedAt = r.deletedAt) := by
  rcases nodeRowAtTx_eq_some h with rfl | ⟨tm, htm, hlt, rfl⟩
  · exact ⟨rfl, rfl, rfl, rfl, .inr rfl⟩
  · obtain ⟨hvf, htx, hup, hvoid, hdel⟩ := normalize_of_lt (a := c.axis) hlt
    simp [Core.nodeValidFrom, Core.untimedValidFrom, ValidAxis.start, Row.beliefTx, Row.isVoid,
      Row.deletedAt, TemporalMetadata.untimedValidFrom, htm, hvf, htx, hup, hvoid, hdel]

theorem Core.StartsInside.nodeRowAtTx (hr : c.StartsInside r)
    (h : nodeRowAtTx c.axis r pin = some r') : c.StartsInside r' := by
  obtain ⟨hvf, huntimed, -⟩ := nodeRowAtTx_keeps h
  rw [StartsInside, hvf, huntimed]
  exact hr

theorem dropRetractedLives_sublist (chain : List (Row V)) :
    (dropRetractedLives chain).Sublist chain := by
  unfold dropRetractedLives
  simp only
  split
  · exact filter_sublist
  · exact Sublist.refl _

theorem Core.mem_visibleChain (hpin : pin ≠ 0) (hr : r ∈ c.visibleChain chain pin) :
    ∃ r₀ ∈ chain, nodeRowAtTx c.axis r₀ pin = some r := by
  have hmem := (dropRetractedLives_sublist _).mem hr
  rw [filterNodeChainByTxAt, if_neg hpin, mem_filterMap] at hmem
  obtain ⟨r₀, hr₀, h⟩ := hmem
  exact ⟨r₀, (versionOrdered_perm chain).mem_iff.mp hr₀, h⟩

/-! ## The timeline -/

theorem Core.effectivePieces_eq_of_two_le (hpin : pin ≠ 0) (hone : ∀ r, chain ≠ [r]) :
    c.effectivePieces chain pin =
      c.effectiveSweep (c.visibleChain chain pin) (chainLifeEnds (c.visibleChain chain pin))
        false := by
  have hvis : dropRetractedLives ((chain.insertionSort (chainWriteOrder (chainDeaths chain))).filterMap
      (nodeRowAtTx c.axis · pin)) = c.visibleChain chain pin := by
    rw [visibleChain, filterNodeChainByTxAt, if_neg hpin, versionOrdered_eq_insertionSort]
  unfold effectivePieces
  split
  · rename_i r
    exact absurd rfl (hone r)
  · simp only [hvis]
    split
    · rename_i hnil
      rw [hnil]
      rfl
    · rfl

/-- A row's delete comes no earlier than its own belief. -/
def DeletedAfterBelief (r : Row V) : Prop := r.deletedAt = 0 ∨ r.beliefTx ≤ r.deletedAt

instance (r : Row V) : Decidable (DeletedAfterBelief r) := inferInstanceAs (Decidable (_ ∨ _))

theorem dropRetractedLives_singleton (h : DeletedAfterBelief r) :
    dropRetractedLives [r] = if r.deletedAt ≠ 0 ∧ r.retracted = true then [] else [r] := by
  unfold dropRetractedLives chainDeathMarks inRetractedLife
  by_cases hdel : r.deletedAt = 0
  · simp [hdel]
  · have hle : r.beliefTx ≤ r.deletedAt := h.resolve_left hdel
    cases hret : r.retracted <;> simp [hdel, hret, hle]

/-- The pieces of the one-row shortcut over the row `r` as believed at the pin. -/
theorem Core.holdsAt_single (hvoid : r.isVoid = false)
    (hps : ps = if coversNothing c.axis (c.nodeVersionBounds [r] 0).1 (lifeEndsEnd c.axis
      (chainLifeEnds [r]) r (c.nodeVersionBounds [r] 0).2) then [] else [⟨(c.nodeVersionBounds [r]
      0).1, lifeEndsEnd c.axis (chainLifeEnds [r]) r (c.nodeVersionBounds [r] 0).2, r, 0⟩])
    (r' : Row V) (i : Nat) : HoldsAt c.axis ps t r' i ↔
      c.IsWinner [r] (chainLifeEnds [r]) false t i ∧ [r][i]? = some r' ∧ r'.isVoid = false := by
  have hcov : ∀ i, c.CoversAt [r] (chainLifeEnds [r]) false t i ↔ i = 0 ∧
      intervalCovers c.axis (c.nodeVersionBounds [r] 0).1
        (lifeEndsEnd c.axis (chainLifeEnds [r]) r (c.nodeVersionBounds [r] 0).2) t = true := by
    intro i
    constructor
    · intro h
      have hlt := h.lt
      obtain rfl : i = 0 := by simpa using hlt
      rw [c.coversAt_iff (r := r) _ _ _ rfl] at h
      simpa [rowInterval] using h
    · rintro ⟨rfl, h⟩
      rw [c.coversAt_iff (r := r) _ _ _ rfl]
      simpa [rowInterval] using h
  have hwin : c.IsWinner [r] (chainLifeEnds [r]) false t i ↔
      c.CoversAt [r] (chainLifeEnds [r]) false t i := by
    refine ⟨And.left, fun h => ⟨h, fun j hj hne => ?_⟩⟩
    exact absurd (((hcov j).mp hj).1.trans ((hcov i).mp h).1.symm) hne
  rw [hwin, hcov, hps]
  split
  · rename_i hnothing
    simp only [HoldsAt, not_mem_nil, false_and, exists_false, false_iff]
    rintro ⟨⟨-, h⟩, -⟩
    rw [intervalCovers_iff] at h
    rw [← Bool.not_eq_false, coversNothing_eq_false_iff] at hnothing
    omega
  · simp only [HoldsAt, exists_mem_cons_iff, not_mem_nil, false_and, exists_false,
      or_false, EffPiece.Covers]
    constructor
    · rintro ⟨h, rfl, rfl⟩
      exact ⟨⟨rfl, h⟩, rfl, hvoid⟩
    · rintro ⟨⟨rfl, h⟩, hr, -⟩
      exact ⟨h, some.inj hr, rfl⟩

/-- The resolver answers the winner among the rows it reads at the pin. -/
theorem Core.resolveNodeChain_spec (chain : List (Row V)) (t pin : Int) :
    c.AnswersWinner (c.sortNodeChainForResolve (c.visibleChain chain pin)).1
      (chainLifeEnds (c.visibleChain chain pin))
      (c.sortNodeChainForResolve (c.visibleChain chain pin)).2 t
      (c.resolveNodeChain chain t pin) := by
  unfold resolveNodeChain
  split
  · rename_i hnil
    rw [hnil]
    exact .inr ⟨fun i h => absurd h.lt (Nat.not_lt_zero i), rfl⟩
  · exact resolveNodeVersionAtCapped_spec _ t _

/-- The one-row shortcut reads the row the resolver reads. -/
theorem Core.effectivePiece_cases {row : Row V} (hpin : pin ≠ 0) (hdel : DeletedAfterBelief row)
    (hvoid : row.isVoid = false) :
    (c.visibleChain [row] pin = [] ∧ c.effectivePiece row pin = []) ∨
      ∃ r, r.isVoid = false ∧ c.visibleChain [row] pin = [r] ∧ c.effectivePiece row pin =
        if coversNothing c.axis (c.nodeVersionBounds [r] 0).1
          (lifeEndsEnd c.axis (chainLifeEnds [r]) r (c.nodeVersionBounds [r] 0).2) then []
        else [⟨(c.nodeVersionBounds [r] 0).1,
          lifeEndsEnd c.axis (chainLifeEnds [r]) r (c.nodeVersionBounds [r] 0).2, r, 0⟩] := by
  have hvis : c.visibleChain [row] pin =
      dropRetractedLives (nodeRowAtTx c.axis row pin).toList := by
    rw [visibleChain, filterNodeChainByTxAt, if_neg hpin, versionOrdered_eq_insertionSort,
      insertionSort_cons, insertionSort_nil, orderedInsert_nil, filterMap_cons,
      filterMap_nil]
    cases nodeRowAtTx c.axis row pin <;> rfl
  rw [hvis, effectivePiece]
  cases hr : nodeRowAtTx c.axis row pin with
  | none =>
    exact .inl ⟨rfl, rfl⟩
  | some r =>
    obtain ⟨-, -, hbelief, hvoid', hdel'⟩ := nodeRowAtTx_keeps hr
    have hafter : DeletedAfterBelief r := by
      unfold DeletedAfterBelief at hdel ⊢
      omega
    rw [toList_some, dropRetractedLives_singleton hafter]
    by_cases hret : r.deletedAt ≠ 0 ∧ r.retracted = true
    · exact .inl ⟨if_pos hret, if_pos hret⟩
    · exact .inr ⟨r, hvoid'.trans hvoid, if_neg hret, if_neg hret⟩

/-- **The effective timeline is the point resolver.**  When no row starts at the axis's open end, the
pieces of a chain at a pin are ascending, non-empty and disjoint, no two touching ones hold the same
row, and they hold at each valid instant the row the point resolver answers there. -/
theorem Core.effectivePieces_agree (c : Core) (chain : List (Row V)) (pin : Int) (hpin : 0 < pin)
    (hdel : ∀ r ∈ chain, DeletedAfterBelief r) (hone : ∀ r, chain = [r] → r.isVoid = false)
    (hstart : ∀ r ∈ chain, c.StartsInside r) :
    CanonicalPieces c.axis (c.effectivePieces chain pin) ∧
      ∀ t, (∀ p ∈ c.effectivePieces chain pin, p.Covers c.axis t →
          c.resolveNodeChain chain t pin = some p.row) ∧
        (c.resolveNodeChain chain t pin ≠ none →
          ∃ p ∈ c.effectivePieces chain pin, p.Covers c.axis t) := by
  have hpin' : pin ≠ 0 := ne_of_gt hpin
  have hans := fun t => c.resolveNodeChain_spec chain t pin
  by_cases hsingle : ∃ row, chain = [row]
  · obtain ⟨row, rfl⟩ := hsingle
    have hrow := mem_singleton_self row
    rw [effectivePieces]
    rcases effectivePiece_cases (c := c) hpin' (hdel row hrow) (hone row rfl) with
      ⟨hvis, hps⟩ | ⟨r, hvoid, hvis, hps⟩
    · rw [hps]
      refine ⟨⟨by simp, by simp, by simp⟩, fun t => ⟨by simp, fun hsome => ?_⟩⟩
      refine absurd ?_ hsome
      rw [resolveNodeChain, hvis]
    · have hsort : c.sortNodeChainForResolve [r] = ([r], false) := rfl
      refine ⟨?_, fun t => ?_⟩
      · rw [hps]
        split
        · exact ⟨by simp, by simp, by simp⟩
        · rename_i hcov
          exact ⟨by simpa using hcov, by simp, by simp⟩
      · have hwin := hans t
        rw [hvis, hsort] at hwin
        exact holdsAt_iff_answer hwin (holdsAt_single hvoid hps)
  · rw [effectivePieces_eq_of_two_le hpin' fun r h => hsingle ⟨r, h⟩]
    have hvis : ∀ r ∈ c.visibleChain chain pin, c.StartsInside r := by
      intro r hr
      obtain ⟨r₀, hr₀, h⟩ := mem_visibleChain hpin' hr
      exact (hstart r₀ hr₀).nodeRowAtTx h
    obtain ⟨hcan, hholds⟩ := effectiveSweep_spec (chainLifeEnds (c.visibleChain chain pin)) false hvis
    refine ⟨hcan, fun t => holdsAt_iff_answer (hans t) fun r i => ?_⟩
    rw [hholds t r i, Bool.not_false, Bool.and_true]

/-- A version recorded at `tx` that claims `[vFrom, vTo)`. -/
def claimRow (version : Nat) (vFrom vTo tx : Int) : Row Nat :=
  ⟨version, some { validFrom := vFrom, validTo := vTo, txFrom := tx }, [], [(0, version)]⟩

/-- A correction inside an open version, read at one of its instants. -/
theorem Core.effectivePieces_agree_correction :
    (⟨.legacy, true, 5⟩ : Core).resolveNodeChain [claimRow 0 10 0 5, claimRow 1 20 30 6] 25 9 =
        some (claimRow 1 20 30 6) ∧
      ∃ p ∈ (⟨.legacy, true, 5⟩ : Core).effectivePieces [claimRow 0 10 0 5, claimRow 1 20 30 6] 9,
        p.Covers .legacy 25 :=
  ⟨by decide, ((Core.effectivePieces_agree ⟨.legacy, true, 5⟩
    [claimRow 0 10 0 5, claimRow 1 20 30 6] 9 (by decide) (by decide) (by simp) (by decide)).2 25).2
    (by decide)⟩

/-- With a row that starts at the open end of the literal axis, the piece before it reads as open and
holds where the resolver answers that row. -/
theorem Core.effectivePieces_overlap :
    (⟨.literal, true, 5⟩ : Core).effectivePieces
        [claimRow 0 10 maxInt64 5, claimRow 1 maxInt64 maxInt64 maxInt64] maxInt64 =
      [⟨10, maxInt64, claimRow 0 10 maxInt64 5, 0⟩,
        ⟨maxInt64, maxInt64, claimRow 1 maxInt64 maxInt64 maxInt64, 1⟩] ∧
    intervalCovers .literal 10 maxInt64 maxInt64 = true ∧
    (⟨.literal, true, 5⟩ : Core).resolveNodeChain
        [claimRow 0 10 maxInt64 5, claimRow 1 maxInt64 maxInt64 maxInt64] maxInt64 maxInt64 =
      some (claimRow 1 maxInt64 maxInt64 maxInt64) := by
  decide +kernel

end RhoTkg
