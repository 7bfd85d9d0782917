import RhoTkg.Timeline

/-!
# Which position wins

Both arms of the resolver answer by the same rule: among the positions whose interval covers the
instant, one beats all others --- the last one in the positional arm, the newest belief in the
own-bounds arm.  `IsWinner` states the rule, and `resolveNodeVersionAtCapped_spec` says that the
resolver's scans compute it.  The sweep is held to the same rule.
-/

namespace RhoTkg

open List

variable {V : Type} (c : Core)

/-- Position `i` of the resolver-ordered rows `arr` covers `t` in the arm `cascade`. -/
def Core.CoversAt (arr : List (Row V)) (caps : List Int) (cascade : Bool) (t : Int) (i : Nat) :
    Prop :=
  ∃ r b, arr[i]? = some r ∧
    c.rowInterval arr (c.supersessionCaps arr) caps cascade i r = some b ∧
    intervalCovers c.axis b.1 b.2 t = true

/-- Position `i` beats position `j`: the later position in the positional arm; in the own-bounds arm
the newer belief, and among equal beliefs the earlier position. -/
def Beats (arr : List (Row V)) (cascade : Bool) (i j : Nat) : Prop :=
  if cascade then
    ∃ x y, arr[i]? = some x ∧ arr[j]? = some y ∧
      (nodeBeliefNewerThan x y = true ∨ (nodeBeliefNewerThan y x = false ∧ i < j))
  else j < i

/-- Position `i` covers `t` and beats every other position that does. -/
def Core.IsWinner (arr : List (Row V)) (caps : List Int) (cascade : Bool) (t : Int) (i : Nat) :
    Prop :=
  c.CoversAt arr caps cascade t i ∧
    ∀ j, c.CoversAt arr caps cascade t j → j ≠ i → Beats arr cascade i j

/-- What an arm answers: the winner's row, and nothing where no position covers. -/
def Core.AnswersWinner (arr : List (Row V)) (caps : List Int) (cascade : Bool) (t : Int)
    (answer : Option (Row V)) : Prop :=
  (∃ i r, c.IsWinner arr caps cascade t i ∧ arr[i]? = some r ∧ answer = r.answer) ∨
    ((∀ i, ¬ c.CoversAt arr caps cascade t i) ∧ answer = none)

variable {c}

variable {arr chain : List (Row V)} {caps : List Int} {cascade : Bool} {i j : Nat} {t : Int}
  {r x y : Row V}

theorem Core.CoversAt.lt (h : c.CoversAt arr caps cascade t i) : i < arr.length := by
  obtain ⟨r, -, hr, -⟩ := h
  exact (List.getElem?_eq_some_iff.mp hr).1

theorem Core.coversAt_iff (c : Core) (caps : List Int) (cascade : Bool) (t : Int)
    (hr : arr[i]? = some r) :
    c.CoversAt arr caps cascade t i ↔
      ∃ b, c.rowInterval arr (c.supersessionCaps arr) caps cascade i r = some b ∧
        intervalCovers c.axis b.1 b.2 t = true := by
  constructor
  · rintro ⟨r', b, hr', hb⟩
    rw [hr, Option.some.injEq] at hr'
    exact ⟨b, hr' ▸ hb⟩
  · rintro ⟨b, hb⟩
    exact ⟨r, b, hr, hb⟩

/-! ## Belief order -/

theorem nodeBeliefNewerThan_iff : nodeBeliefNewerThan x y = true ↔
    y.beliefTx < x.beliefTx ∨ (y.beliefTx = x.beliefTx ∧ y.version < x.version) := by
  unfold nodeBeliefNewerThan
  split <;> simp only [decide_eq_true_eq] <;> omega

theorem nodeBeliefNewerThan_eq_false_iff : nodeBeliefNewerThan x y = false ↔
    x.beliefTx < y.beliefTx ∨ (x.beliefTx = y.beliefTx ∧ x.version ≤ y.version) := by
  rw [← Bool.not_eq_true, nodeBeliefNewerThan_iff]
  omega

theorem beats_own_iff (hx : arr[i]? = some x) (hy : arr[j]? = some y) : Beats arr true i j ↔
      y.beliefTx < x.beliefTx ∨ (y.beliefTx = x.beliefTx ∧
        (y.version < x.version ∨ (y.version = x.version ∧ i < j))) := by
  have hcases : Beats arr true i j ↔
      nodeBeliefNewerThan x y = true ∨ (nodeBeliefNewerThan y x = false ∧ i < j) := by
    constructor
    · rintro ⟨x', y', hx', hy', h⟩
      rw [hx, Option.some.injEq] at hx'
      rw [hy, Option.some.injEq] at hy'
      exact hx' ▸ hy' ▸ h
    · exact fun h => ⟨x, y, hx, hy, h⟩
  rw [hcases, nodeBeliefNewerThan_iff, nodeBeliefNewerThan_eq_false_iff]
  omega

theorem Beats.asymm (hij : Beats arr cascade i j) (hji : Beats arr cascade j i) : False := by
  cases cascade with
  | false =>
    simp only [Beats, Bool.false_eq_true, if_false] at hij hji
    omega
  | true =>
    have hx : ∃ x y, arr[i]? = some x ∧ arr[j]? = some y := by
      obtain ⟨x, y, hx, hy, -⟩ := hij
      exact ⟨x, y, hx, hy⟩
    obtain ⟨x, y, hx, hy⟩ := hx
    rw [beats_own_iff hx hy] at hij
    rw [beats_own_iff hy hx] at hji
    omega

/-- There is at most one winner. -/
theorem Core.IsWinner.eq (hi : c.IsWinner arr caps cascade t i)
    (hj : c.IsWinner arr caps cascade t j) : i = j := by
  by_contra hne
  exact (hi.2 j hj.1 (Ne.symm hne)).asymm (hj.2 i hi.1 hne)

/-! ## The positional arm -/

theorem Core.positionalScan_spec (arr : List (Row V)) (t : Int) (caps : List Int) : ∀ n : Nat,
    (∃ i r, i < n ∧ c.CoversAt arr caps false t i ∧
      (∀ j, j < n → c.CoversAt arr caps false t j → j ≤ i) ∧ arr[i]? = some r ∧
      c.positionalScan arr t caps n = r.answer) ∨
    ((∀ i, i < n → ¬ c.CoversAt arr caps false t i) ∧ c.positionalScan arr t caps n = none)
  | 0 => .inr ⟨fun i hi => absurd hi (Nat.not_lt_zero i), rfl⟩
  | n + 1 => by
    rw [positionalScan]
    cases hr : arr[n]? with
    | none =>
      have hnot : ¬ c.CoversAt arr caps false t n := by
        rintro ⟨r, b, hr', -⟩
        cases hr.symm.trans hr'
      rcases positionalScan_spec arr t caps n with ⟨i, r, hi, hcov, hmax, hget, hans⟩ | ⟨hno, hans⟩
      · refine .inl ⟨i, r, by omega, hcov, fun j hj hcovj => ?_, hget, hans⟩
        rcases Nat.eq_or_lt_of_le (Nat.le_of_lt_succ hj) with rfl | hlt
        · exact absurd hcovj hnot
        · exact hmax j hlt hcovj
      · refine .inr ⟨fun i hi hcov => ?_, hans⟩
        rcases Nat.eq_or_lt_of_le (Nat.le_of_lt_succ hi) with rfl | hlt
        · exact hnot hcov
        · exact hno i hlt hcov
    | some entry =>
      have hiff : c.CoversAt arr caps false t n ↔
          intervalCovers c.axis (c.nodeVersionBounds arr n).1
            (lifeEndsEnd c.axis caps entry (c.nodeVersionBounds arr n).2) t = true := by
        rw [c.coversAt_iff caps false t hr]
        simp [rowInterval]
      simp only
      split
      · rename_i hcov
        exact .inl ⟨n, entry, Nat.lt_succ_self n, hiff.mpr hcov, fun j hj _ => by omega, hr, rfl⟩
      · rename_i hcov
        rcases positionalScan_spec arr t caps n with
          ⟨i, r, hi, hcovi, hmax, hget, hans⟩ | ⟨hno, hans⟩
        · refine .inl ⟨i, r, by omega, hcovi, fun j hj hcovj => ?_, hget, hans⟩
          rcases Nat.eq_or_lt_of_le (Nat.le_of_lt_succ hj) with rfl | hlt
          · exact absurd (hiff.mp hcovj) hcov
          · exact hmax j hlt hcovj
        · refine .inr ⟨fun i hi hcovi => ?_, hans⟩
          rcases Nat.eq_or_lt_of_le (Nat.le_of_lt_succ hi) with rfl | hlt
          · exact hcov (hiff.mp hcovi)
          · exact hno i hlt hcovi

/-! ## The classification -/

theorem Core.tilesScan_eq_none_iff : ∀ (chain : List (Row V)) (tiles : Bool),
    c.tilesScan chain tiles = none ↔ ¬ chain.IsChain c.resolveOrder
  | [], _ => by simp [tilesScan]
  | [_], _ => by simp [tilesScan]
  | x :: y :: rest, tiles => by
    rw [tilesScan, List.isChain_cons_cons]
    split
    · rename_i hxy
      rw [tilesScan_eq_none_iff (y :: rest)]
      simp [hxy]
    · rename_i hxy
      simp [hxy]

instance : Std.Total (c.resolveOrder (V := V)) :=
  ⟨fun a b => by unfold Core.resolveOrder; omega⟩

instance : IsTrans (Row V) c.resolveOrder :=
  ⟨fun a b d => by unfold Core.resolveOrder; omega⟩

/-- The rows the arms read are sorted by start, then version, and are the rows of the chain. -/
theorem Core.sortNodeChainForResolve_sorted (chain : List (Row V)) :
    (c.sortNodeChainForResolve chain).1.Pairwise c.resolveOrder ∧
      (c.sortNodeChainForResolve chain).1.Perm chain := by
  unfold sortNodeChainForResolve
  split
  · rename_i tiles htiles
    have hsome : c.tilesScan chain true ≠ none := by simp [htiles]
    rw [ne_eq, tilesScan_eq_none_iff, not_not] at hsome
    exact ⟨isChain_iff_pairwise.mp hsome, .refl _⟩
  · exact ⟨pairwise_insertionSort _ _, perm_insertionSort _ _⟩

/-! ## The arms answer the winner -/

theorem Core.versionStart_eq_nodeValidFrom (hmig : c.bitemporalMigrated = true)
    (prev : Option (Row V)) (entry : Row V) : c.versionStart prev entry = c.nodeValidFrom entry := by
  unfold versionStart nodeValidFrom ValidAxis.start
  cases htm : entry.temporal with
  | none => simp [untimedValidFrom, htm]
  | some tm =>
    by_cases hcl : tm.validFrom = c.axis.unclaimed
    · simp [untimedValidFrom, htm, hcl, ValidAxis.claimed]
    · simp [hmig, hcl, ValidAxis.claimed]

theorem Core.nodeVersionBounds_fst (hmig : c.bitemporalMigrated = true) (hr : chain[i]? = some r) :
    (c.nodeVersionBounds chain i).1 = c.nodeValidFrom r := by
  simp only [nodeVersionBounds, hr]
  exact versionStart_eq_nodeValidFrom hmig _ r

/-- In a sorted chain of a migrated store the binary search skips only rows that start after
`t`. -/
theorem Core.resolveNodePositional_spec (hsort : arr.Pairwise c.resolveOrder) (t : Int)
    (caps : List Int) : c.AnswersWinner arr caps false t (c.resolveNodePositional arr t caps) := by
  have hscan : ∃ n, n ≤ arr.length ∧ (∀ i, n ≤ i → ¬ c.CoversAt arr caps false t i) ∧
      c.resolveNodePositional arr t caps = c.positionalScan arr t caps n := by
    unfold resolveNodePositional
    by_cases hmig : c.bitemporalMigrated = true
    · rw [if_pos hmig]
      have hfirst : Search.IsFirst (fun i => decide (t < (c.nodeVersionBounds arr i).1)) arr.length
          (Search.search arr.length fun i => decide (t < (c.nodeVersionBounds arr i).1)) := by
        refine Search.search_isFirst fun i j hij hj hi => ?_
        rw [decide_eq_true_eq] at hi ⊢
        rcases Nat.eq_or_lt_of_le hij with rfl | hlt
        · exact hi
        · rw [nodeVersionBounds_fst hmig (getElem?_eq_getElem hj)]
          rw [nodeVersionBounds_fst hmig (getElem?_eq_getElem (by omega))] at hi
          have hord := pairwise_iff_getElem.mp hsort i j (by omega) hj hlt
          unfold resolveOrder at hord
          omega
      refine ⟨_, hfirst.le, fun i hi hcov => ?_, rfl⟩
      have hlt := hfirst.after i hi hcov.lt
      rw [decide_eq_true_eq] at hlt
      obtain ⟨r, b, -, hb, hcov⟩ := hcov
      simp only [rowInterval, Bool.false_eq_true, if_false, Option.some.injEq] at hb
      rw [intervalCovers_iff, ← hb] at hcov
      exact absurd hcov.1 (not_le.mpr hlt)
    · rw [if_neg hmig]
      exact ⟨_, le_rfl, fun i hi hcov => absurd hcov.lt (not_lt.mpr hi), rfl⟩
  obtain ⟨n, -, hbeyond, heq⟩ := hscan
  rw [heq]
  rcases positionalScan_spec (c := c) arr t caps n with
    ⟨i, r, -, hcov, hmax, hget, hans⟩ | ⟨hno, hans⟩
  · refine .inl ⟨i, r, ⟨hcov, fun j hcovj hne => ?_⟩, hget, hans⟩
    have hjn : j < n := by
      by_contra hge
      exact hbeyond j (not_lt.mp hge) hcovj
    have hle := hmax j hjn hcovj
    show Beats arr false i j
    simp only [Beats, Bool.false_eq_true, if_false]
    omega
  · refine .inr ⟨fun i hcov => ?_, hans⟩
    by_cases hin : i < n
    · exact hno i hin hcov
    · exact hbeyond i (not_lt.mp hin) hcov

/-- What the own-bounds scan holds after the first `k` rows: the best of those that cover. -/
def Core.BestBelow (c : Core) (arr : List (Row V)) (caps : List Int) (t : Int) (k : Nat) :
    Option (Row V) → Prop
  | none => ∀ j, j < k → ¬ c.CoversAt arr caps true t j
  | some x => ∃ i, i < k ∧ arr[i]? = some x ∧ c.CoversAt arr caps true t i ∧
      ∀ j, j < k → c.CoversAt arr caps true t j → j ≠ i → Beats arr true i j

theorem Core.BestBelow.step {k : Nat} {best : Option (Row V)} (h : c.BestBelow arr caps t k best)
    (hr : arr[k]? = some r) :
    c.BestBelow arr caps t (k + 1)
      (c.ownBoundsStep (c.supersessionCaps arr) caps t best (r, k)) := by
  have hiff := c.coversAt_iff caps true t hr
  -- the step keeps the best row when position `k` does not cover
  have hkeep : ¬ c.CoversAt arr caps true t k → c.BestBelow arr caps t (k + 1) best := by
    intro hnot
    cases best with
    | none =>
      intro j hj hcov
      rcases Nat.eq_or_lt_of_le (Nat.le_of_lt_succ hj) with rfl | hlt
      · exact hnot hcov
      · exact h j hlt hcov
    | some x =>
      obtain ⟨i, hi, hx, hcovi, hmax⟩ := h
      refine ⟨i, by omega, hx, hcovi, fun j hj hcov hne => ?_⟩
      rcases Nat.eq_or_lt_of_le (Nat.le_of_lt_succ hj) with rfl | hlt
      · exact absurd hcov hnot
      · exact hmax j hlt hcov hne
  unfold ownBoundsStep
  simp only [rowInterval, if_true] at hiff
  split
  · rename_i hnone
    refine hkeep fun hcov => ?_
    obtain ⟨b, hb, -⟩ := hiff.mp hcov
    cases hnone.symm.trans hb
  · rename_i b hb
    split
    · rename_i hcov
      have hcovk := hiff.mpr ⟨b, hb, hcov⟩
      cases best with
      | none =>
        refine ⟨k, Nat.lt_succ_self k, hr, hcovk, fun j hj hcovj hne => ?_⟩
        exact absurd hcovj (h j (by omega))
      | some x =>
        obtain ⟨i, hi, hx, hcovi, hmax⟩ := h
        simp only
        split
        · rename_i hnewer
          refine ⟨k, Nat.lt_succ_self k, hr, hcovk, fun j hj hcovj hne => ?_⟩
          have hjk : j < k := by omega
          rw [nodeBeliefNewerThan_iff] at hnewer
          have hy := getElem?_eq_getElem hcovj.lt
          rw [beats_own_iff hr hy]
          by_cases hji : j = i
          · subst hji
            rw [hx, Option.some.injEq] at hy
            rw [← hy]
            omega
          · have hbeat := hmax j hjk hcovj hji
            rw [beats_own_iff hx hy] at hbeat
            omega
        · rename_i hnewer
          rw [Bool.not_eq_true, nodeBeliefNewerThan_eq_false_iff] at hnewer
          refine ⟨i, by omega, hx, hcovi, fun j hj hcovj hne => ?_⟩
          rcases Nat.eq_or_lt_of_le (Nat.le_of_lt_succ hj) with rfl | hlt
          · rw [beats_own_iff hx hr]
            omega
          · exact hmax j hlt hcovj hne
    · rename_i hcov
      refine hkeep fun hcovk => ?_
      obtain ⟨b', hb', hcov'⟩ := hiff.mp hcovk
      rw [hb, Option.some.injEq] at hb'
      exact hcov (hb' ▸ hcov')

theorem Core.bestBelow_foldl (c : Core) (arr : List (Row V)) (caps : List Int) (t : Int) :
    ∀ (rest : List (Row V)) (k : Nat) (best : Option (Row V)), arr.drop k = rest →
      c.BestBelow arr caps t k best → k ≤ arr.length →
      c.BestBelow arr caps t arr.length
        ((rest.zipIdx k).foldl (c.ownBoundsStep (c.supersessionCaps arr) caps t) best)
  | [], k, best, hdrop, h, hk => by
    have hlen := drop_eq_nil_iff.mp hdrop
    obtain rfl : k = arr.length := by omega
    exact h
  | r :: rest, k, best, hdrop, h, hk => by
    have hr : arr[k]? = some r := by
      rw [← List.head?_drop, hdrop, head?_cons]
    have hlt := (List.getElem?_eq_some_iff.mp hr).1
    rw [zipIdx_cons, foldl_cons]
    refine c.bestBelow_foldl arr caps t rest (k + 1) _ ?_ (h.step hr) (by omega)
    rw [← tail_drop, hdrop, tail_cons]

theorem Core.resolveNodeOwnBounds_spec (arr : List (Row V)) (t : Int) (caps : List Int) :
    c.AnswersWinner arr caps true t (c.resolveNodeOwnBounds arr t caps) := by
  have hbest := c.bestBelow_foldl arr caps t arr 0 none rfl
    (fun j hj => absurd hj (Nat.not_lt_zero j)) (Nat.zero_le _)
  unfold resolveNodeOwnBounds
  cases hfold : arr.zipIdx.foldl (c.ownBoundsStep (c.supersessionCaps arr) caps t) none with
  | none =>
    rw [hfold] at hbest
    exact .inr ⟨fun i hcov => hbest i hcov.lt hcov, rfl⟩
  | some x =>
    rw [hfold] at hbest
    obtain ⟨i, -, hx, hcov, hmax⟩ := hbest
    exact .inl ⟨i, x, ⟨hcov, fun j hcovj => hmax j hcovj.lt hcovj⟩, hx, rfl⟩

/-- **The resolver answers the winner** of the arm it takes. -/
theorem Core.resolveNodeVersionAtCapped_spec (chain : List (Row V)) (t : Int) (caps : List Int) :
    c.AnswersWinner (c.sortNodeChainForResolve chain).1 caps (c.sortNodeChainForResolve chain).2 t
      (c.resolveNodeVersionAtCapped chain t caps) := by
  have hsort := (sortNodeChainForResolve_sorted (c := c) chain).1
  unfold resolveNodeVersionAtCapped
  split
  · rename_i sorted heq
    rw [heq]
    exact resolveNodeOwnBounds_spec sorted t caps
  · rename_i sorted heq
    rw [heq] at hsort ⊢
    exact resolveNodePositional_spec hsort t caps

end RhoTkg
