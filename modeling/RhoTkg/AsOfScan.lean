import RhoTkg.AsOf

/-!
# The badger scan runs the canonical as-of rule

The scan decides from the rows as they come and stops when nothing below can change the answer; the
rule sorts the chain, drops the void rows and looks at the list.  Both read the rows newest first.
The history arm's scan finds the newest row, then keeps the run of its write and the first row below
that held the current slot (`scanHistory_considerHistory`).  The current arm's scan sees the rows
above the current version (`scanHistory_eq_foldl`).

A void row breaks the history arm's run when it was recorded apart from it.  The rows of one write are
adjacent in version order, so such a row has no row of the run below it.
-/

namespace RhoTkg

open List

variable {V : Type}

/-- Strictly newest version first. -/
def Descending (rows : List (Row V)) : Prop := rows.Pairwise fun x y => y.version < x.version

/-- The rows recorded at one instant are adjacent. -/
def WritesAdjacent (rows : List (Row V)) : Prop :=
  ∀ x ∈ rows, ∀ y ∈ rows, ∀ z ∈ rows, x.version < y.version → y.version < z.version →
    x.beliefTx ≠ 0 → x.beliefTx = z.beliefTx → y.beliefTx = x.beliefTx

/-- The stamps of the stored history rows: a tombstone carries `DeletedAt = TxTo`, a void row
carries neither. -/
structure HistoryStamps (rows : List (Row V)) : Prop where
  tombstone : ∀ r ∈ rows, r.deletedAt ≠ 0 → r.deletedAt = r.txTo
  void : ∀ r ∈ rows, r.isVoid = true → r.txTo = 0 ∧ r.deletedAt = 0

variable {r h : Row V} {rows : List (Row V)}

theorem HistoryStamps.tail (h : HistoryStamps (r :: rows)) : HistoryStamps rows :=
  ⟨(forall_mem_cons.mp h.tombstone).2, (forall_mem_cons.mp h.void).2⟩

theorem HistoryStamps.scanVoid (h : HistoryStamps rows) (hr : r ∈ rows) :
    scanVoid r = r.isVoid := by
  unfold RhoTkg.scanVoid
  cases hv : r.isVoid with
  | false => simp
  | true => simp [(h.void r hr hv).1]

theorem Row.beliefTx_of_none (h : r.temporal = none) : r.beliefTx = 0 := by
  simp [Row.beliefTx, h]

theorem Row.temporal_isSome_of_beliefTx (h : r.beliefTx ≠ 0) : r.temporal.isSome = true := by
  cases htm : r.temporal with
  | none => exact absurd (Row.beliefTx_of_none htm) h
  | some tm => rfl

/-! ## The run of a write -/

/-- The answer of a write's run. -/
theorem openScan_eq_find? (a : ValidAxis) (pin : Int) {tx : Int} (htx : tx ≠ 0) (rows : List (Row V)) :
    openScan a pin tx rows =
      (rows.takeWhile fun r => r.beliefTx == tx).find? fun r =>
        r.temporal.isSome && ownOpenAtTxTime a pin r := by
  induction rows with
  | nil => rfl
  | cons r rest ih =>
    by_cases heq : r.beliefTx = tx
    · have hsome := Row.temporal_isSome_of_beliefTx (heq.symm ▸ htx : r.beliefTx ≠ 0)
      rw [openScan, takeWhile_cons_of_pos (by simpa using heq), find?_cons]
      simp only [hsome, heq, beq_self_eq_true, Bool.and_self, if_true, Bool.true_and, ih]
      cases ownOpenAtTxTime a pin r <;> rfl
    · rw [openScan, takeWhile_cons_of_neg (by simpa using heq), find?_nil, if_neg]
      simp [heq]

/-- Dropping rows keeps the run when the rows of the run come first. -/
theorem takeWhile_filter_of_adjacent {α : Type} {p : α → Bool} {l : List α} (keep : α → Bool)
    (hrun : ∀ x ∈ l.dropWhile p, p x = false) :
    (l.filter keep).takeWhile p = (l.takeWhile p).filter keep := by
  induction l with
  | nil => rfl
  | cons x l ih =>
    by_cases hx : p x = true
    · rw [dropWhile_cons_of_pos hx] at hrun
      rw [takeWhile_cons_of_pos hx]
      by_cases hk : keep x = true
      · rw [filter_cons_of_pos hk, filter_cons_of_pos hk, takeWhile_cons_of_pos hx,
          ih hrun]
      · rw [filter_cons_of_neg hk, filter_cons_of_neg hk, ih hrun]
    · rw [dropWhile_cons_of_neg hx] at hrun
      rw [takeWhile_cons_of_neg hx, filter_nil]
      cases hf : (x :: l).filter keep with
      | nil => rfl
      | cons y m =>
        have hy : y ∈ x :: l := (mem_filter.mp (by rw [hf]; exact mem_cons_self)).1
        rw [takeWhile_cons_of_neg]
        simpa using hrun y hy

/-- Below the newest row of a write the rest of the write comes first. -/
theorem WritesAdjacent.dropWhile (hadj : WritesAdjacent rows) {rest : List (Row V)}
    (hsub : ∀ r ∈ h :: rest, r ∈ rows) (hdesc : Descending (h :: rest)) (hpos : h.beliefTx ≠ 0) :
    ∀ x ∈ rest.dropWhile (fun r => r.beliefTx == h.beliefTx), (x.beliefTx == h.beliefTx) = false := by
  obtain ⟨hh, hrest⟩ := pairwise_cons.mp hdesc
  intro x hx
  cases hdrop : rest.dropWhile fun r => r.beliefTx == h.beliefTx with
  | nil =>
    rw [hdrop] at hx
    exact absurd hx not_mem_nil
  | cons y tail =>
    -- `y` ends the run; a row of the write below it would not be adjacent
    have hy : (y.beliefTx == h.beliefTx) = false := by
      have := head_dropWhile_not (fun r : Row V => r.beliefTx == h.beliefTx) (l := rest)
        (by rw [hdrop]; exact cons_ne_nil _ _)
      simpa [hdrop] using this
    rw [hdrop] at hx
    have hsuffix := dropWhile_suffix (l := rest) fun r : Row V => r.beliefTx == h.beliefTx
    rw [hdrop] at hsuffix
    rcases mem_cons.mp hx with rfl | hx
    · exact hy
    · by_contra hcon
      rw [Bool.not_eq_false, beq_iff_eq] at hcon
      have hyrest : y ∈ rest := hsuffix.mem mem_cons_self
      have hxrest : x ∈ rest := hsuffix.mem (mem_cons_of_mem _ hx)
      have hxy : x.version < y.version :=
        (pairwise_cons.mp (hrest.sublist hsuffix.sublist)).1 x hx
      have := hadj x (hsub x (mem_cons_of_mem _ hxrest)) y
        (hsub y (mem_cons_of_mem _ hyrest)) h (hsub h mem_cons_self) hxy (hh y hyrest)
        (hcon ▸ hpos) hcon
      rw [beq_eq_false_iff_ne] at hy
      exact hy (this.trans hcon)

/-- A row that is not void among the rest of a run, and the answer of the run. -/
theorem openInWrite_eq_run (a : ValidAxis) (pin : Int) (rest : List (Row V))
    (hpos : h.beliefTx ≠ 0) :
    openInWrite a pin h rest =
      ((h :: rest.takeWhile fun r => r.beliefTx == h.beliefTx).find? fun r =>
        r.temporal.isSome && ownOpenAtTxTime a pin r).getD h := by
  unfold openInWrite
  rw [openScan_eq_find? a pin hpos,
    takeWhile_cons_of_pos (p := fun r : Row V => r.beliefTx == h.beliefTx) (beq_self_eq_true _)]

/-! ## The history arm -/

section History

variable {p : Int}

variable {r : Row V} {s : HistoryScan V} {rest : List (Row V)}

theorem considerSlot_spec (pin : Int) (s : HistoryScan V)
    (htomb : r.deletedAt ≠ 0 → r.deletedAt = r.txTo) :
    considerSlot pin s r =
      ({ s with
          slotDecided := s.slotDecided || heldSlot r
          lifeEnded := s.lifeEnded || (!s.slotDecided && (heldSlot r && (r.deletedAt != 0 &&
            decide (s.newestTxFrom < r.deletedAt) && decide (r.deletedAt ≤ pin)))) },
        (s.slotDecided || heldSlot r) && !s.inRun) := by
  obtain ⟨run, inRun, slotDecided, lifeEnded, newest⟩ := s
  unfold considerSlot
  cases slotDecided with
  | true => simp
  | false =>
    cases hh : heldSlot r with
    | false => simp
    | true =>
      simp only [if_true, Bool.false_or, Bool.not_false, Bool.true_and, and_self]
      by_cases hdel : r.deletedAt = 0
      · simp [hdel]
      · rw [← htomb hdel]
        have hdup : ∀ x y z : Bool, (x && y && z && x && y) = (z && x && y) := by decide
        rw [hdup]

/-- The callback once the newest row is found. -/
theorem considerHistory_of_run (pin : Int) (hrun : s.run ≠ []) (r : Row V) :
    considerHistory pin s r =
      if s.inRun = true ∧ r.beliefTx = s.newestTxFrom then
        if scanVoid r then (s, false) else considerSlot pin { s with run := s.run ++ [r] } r
      else considerSlot pin { s with inRun := false } r := by
  have hempty : s.run.isEmpty = false := by simpa using hrun
  unfold considerHistory
  rw [hempty, if_neg (by decide)]

theorem heldSlot_of_txTo_zero (h : r.txTo = 0) : heldSlot r = false := by
  simp [heldSlot, h]

/-- **The history arm's scan below the newest row**: it keeps the rest of the write, and whether the
row that held the slot was deleted in the window. -/
theorem scanHistory_considerHistory (hrun : s.run ≠ []) (hst : HistoryStamps rest) :
    (scanHistory (considerHistory p) s rest).run =
        (if s.inRun then
          s.run ++ (rest.takeWhile fun r => r.beliefTx == s.newestTxFrom).filter (!·.isVoid)
        else s.run) ∧
      (scanHistory (considerHistory p) s rest).lifeEnded =
        (s.lifeEnded || (!s.slotDecided && lifeEndedAtTxTime p s.newestTxFrom rest)) := by
  induction rest generalizing s with
  | nil => simp [scanHistory, lifeEndedAtTxTime]
  | cons r rest ih =>
    have hvoid := hst.scanVoid mem_cons_self
    have hslot := fun s' : HistoryScan V => considerSlot_spec p s'
      (hst.tombstone r mem_cons_self)
    obtain ⟨run, inRun, slotDecided, lifeEnded, newest⟩ := s
    have hcons := considerHistory_of_run p hrun r
    rw [hvoid] at hcons
    rw [scanHistory, lifeEndedAtTxTime]
    by_cases hin : inRun = true ∧ r.beliefTx = newest
    · obtain ⟨rfl, htx⟩ := hin
      rw [if_pos ⟨rfl, htx⟩] at hcons
      rw [hcons, takeWhile_cons_of_pos (by simpa using htx)]
      cases hv : r.isVoid with
      | true =>
        -- a void row of the write is passed over
        obtain ⟨hr, hl⟩ := ih (s := ⟨run, true, slotDecided, lifeEnded, newest⟩) hrun hst.tail
        simp only [if_true, Bool.false_eq_true, if_false]
        rw [hr, hl, heldSlot_of_txTo_zero (hst.void r mem_cons_self hv).1]
        simp [hv]
      | false =>
        simp only [Bool.false_eq_true, if_false, hslot, Bool.not_true, Bool.and_false, if_true]
        obtain ⟨hr, hl⟩ := ih (s := ⟨run ++ [r], true, slotDecided || heldSlot r,
          lifeEnded || (!slotDecided && (heldSlot r && (r.deletedAt != 0 &&
            decide (newest < r.deletedAt) && decide (r.deletedAt ≤ p)))), newest⟩) (by simp) hst.tail
        rw [hr, hl]
        refine ⟨by simp [hv], ?_⟩
        cases heldSlot r <;> cases slotDecided <;> simp
    · rw [if_neg hin, hslot] at hcons
      rw [hcons]
      simp only [Bool.not_false, Bool.and_true]
      have hrun' : (if inRun then run ++
          ((r :: rest).takeWhile fun x => x.beliefTx == newest).filter (!·.isVoid)
          else run) = run := by
        split
        · rename_i h
          rw [takeWhile_cons_of_neg (by simpa using fun heq => hin ⟨h, heq⟩), filter_nil,
            append_nil]
        · rfl
      rw [hrun']
      split
      · -- the slot is decided and the run is over: the scan stops
        rename_i hstop
        refine ⟨rfl, ?_⟩
        cases slotDecided with
        | true => simp
        | false =>
          rw [Bool.false_or] at hstop
          simp [hstop]
      · rename_i hgo
        rw [Bool.not_eq_true, Bool.or_eq_false_iff] at hgo
        obtain ⟨hr, hl⟩ := ih (s := ⟨run, false, slotDecided || heldSlot r,
          lifeEnded || (!slotDecided && (heldSlot r && (r.deletedAt != 0 &&
            decide (newest < r.deletedAt) && decide (r.deletedAt ≤ p)))), newest⟩) hrun hst.tail
        refine ⟨by rw [hr]; simp, ?_⟩
        rw [hl]
        simp [hgo.1, hgo.2]

theorem lifeEndedAtTxTime_filter (hst : HistoryStamps rest) (pin newest : Int) :
    lifeEndedAtTxTime pin newest (rest.filter (!·.isVoid)) = lifeEndedAtTxTime pin newest rest := by
  induction rest with
  | nil => rfl
  | cons r rest ih =>
    have ih := ih hst.tail
    cases hv : r.isVoid with
    | true =>
      rw [filter_cons_of_neg (by simp [hv]), ih, lifeEndedAtTxTime,
        heldSlot_of_txTo_zero (hst.void r mem_cons_self hv).1]
      rfl
    | false => rw [filter_cons_of_pos (by simp [hv]), lifeEndedAtTxTime, lifeEndedAtTxTime, ih]

/-- The pick of a run that starts with `h`, the current row included when `withCur`. -/
theorem pick_run (a : ValidAxis) (pin : Int) (cur current : Option (Row V)) (h : Row V)
    (run : List (Row V)) (withCur : Bool) (hcur : withCur = true → current = cur ∧ cur.isSome = true)
    (hsome : ∀ c ∈ cur, c.temporal.isSome = true) :
    (pickUnlessRetracted pin (runAnswer a pin cur (h :: run) withCur)).row current =
      let ans := ((h :: run ++ if withCur then cur.toList else []).find? fun r =>
        r.temporal.isSome && ownOpenAtTxTime a pin r).getD h
      if rowRetractedAtTxTime pin ans then none else some ans := by
  unfold runAnswer pickUnlessRetracted
  rw [find?_append]
  cases (h :: run).find? fun r => r.temporal.isSome && ownOpenAtTxTime a pin r with
  | some x =>
    change AsOfPick.row current (if rowRetractedAtTxTime pin x then .absent else .fromHistory x) =
      if rowRetractedAtTxTime pin x then none else some x
    split <;> rfl
  | none =>
    cases withCur with
    | false =>
      simp only [Bool.false_and, Bool.false_eq_true, if_false, head?_cons, Option.any_some,
        find?_nil, Option.or_none, Option.getD_none]
      split <;> rfl
    | true =>
      obtain ⟨rfl, hc⟩ := hcur rfl
      obtain ⟨c, rfl⟩ := Option.isSome_iff_exists.mp hc
      simp only [Bool.true_and, if_true, Option.toList_some, find?_cons, find?_nil,
        hsome c rfl, Option.all_some, Option.none_or, head?_cons]
      cases ownOpenAtTxTime a pin c with
      | true =>
        simp only [if_true, Option.any_some, Option.getD_some]
        split <;> rfl
      | false =>
        simp only [Bool.false_eq_true, if_false, Option.any_some, Option.getD_none]
        split <;> rfl

/-- **The history arm.** -/
theorem historyArm_eq (a : ValidAxis) (pin : Int) (current : Option (Row V)) {visited : List (Row V)}
    (hst : HistoryStamps visited) (hdesc : Descending visited) (hadj : WritesAdjacent visited) :
    (let s := scanHistory (considerHistory pin) ⟨[], true, false, false, 0⟩ visited
      if s.run.isEmpty || s.lifeEnded then AsOfPick.absent
      else pickUnlessRetracted pin (runAnswer a pin none s.run false)).row current =
      historyScan a pin (visited.filter (!·.isVoid)) := by
  induction visited with
  | nil => rfl
  | cons r rest ih =>
    have ih := ih hst.tail (pairwise_cons.mp hdesc).2 fun x hx y hy z hz =>
      hadj x (mem_cons_of_mem _ hx) y (mem_cons_of_mem _ hy) z (mem_cons_of_mem _ hz)
    have hskip : considerHistory pin ⟨[], true, false, false, 0⟩ r =
        if r.beliefTx = 0 ∨ pin < r.beliefTx then (⟨[], true, false, false, 0⟩, false)
        else if r.isVoid then (⟨[], true, false, false, 0⟩, false)
        else (⟨[r], true, false, false, r.beliefTx⟩, false) := by
      unfold considerHistory
      rw [hst.scanVoid mem_cons_self]
      rfl
    rw [scanHistory, hskip]
    cases hv : r.isVoid with
    | true =>
      rw [filter_cons_of_neg (by simp [hv])]
      simp only [if_true, ite_self, Bool.false_eq_true, if_false]
      exact ih
    | false =>
      rw [filter_cons_of_pos (by simp [hv])]
      by_cases hcand : r.beliefTx = 0 ∨ pin < r.beliefTx
      · rw [historyScan, if_pos (Or.inr hcand), if_pos hcand]
        exact ih
      · have hpos : r.beliefTx ≠ 0 := fun h => hcand (.inl h)
        have hscan : ¬ (r.temporal.isSome = false ∨ r.beliefTx = 0 ∨ pin < r.beliefTx) := by
          rw [Row.temporal_isSome_of_beliefTx hpos]
          simpa using hcand
        obtain ⟨hrun, hlife⟩ := scanHistory_considerHistory (p := pin)
          (s := ⟨[r], true, false, false, r.beliefTx⟩) (cons_ne_nil _ _) hst.tail
        have hrun' := takeWhile_filter_of_adjacent (fun x : Row V => !x.isVoid)
          (hadj.dropWhile (fun _ hx => hx) hdesc hpos)
        rw [if_pos rfl, ← hrun', singleton_append] at hrun
        rw [Bool.false_or, Bool.not_false, Bool.true_and,
          ← lifeEndedAtTxTime_filter hst.tail pin] at hlife
        rw [if_neg hcand]
        simp only [Bool.false_eq_true, if_false]
        rw [hrun, hlife, historyScan, if_neg hscan, openInWrite_eq_run a pin _ hpos]
        simp only [isEmpty_cons, Bool.false_or]
        cases lifeEndedAtTxTime pin r.beliefTx (rest.filter (!·.isVoid)) with
        | true =>
          simp only [if_true, Bool.or_true]
          rfl
        | false =>
          simp only [Bool.false_eq_true, if_false, Bool.or_false]
          have hpick := pick_run a pin none current r
            ((rest.filter (!·.isVoid)).takeWhile fun x => x.beliefTx == r.beliefTx) false
            (fun h => by cases h) (fun c hc => by cases hc)
          simpa only [Bool.false_eq_true, if_false, append_nil] using hpick

end History

/-! ## The current arm -/

section Above

variable {p : Int} {cur : Row V}

/-- The rows above the current version. -/
def aboveRows (cur : Row V) (rows : List (Row V)) : List (Row V) :=
  rows.filter fun h => decide (cur.version < h.version)

variable {r : Row V} {rest visited : List (Row V)}

theorem aboveRows_of_le (hdesc : Descending (r :: rest)) (hle : r.version ≤ cur.version) :
    aboveRows cur (r :: rest) = [] := by
  unfold aboveRows
  rw [filter_eq_nil_iff]
  intro x hx
  have hxr : x.version ≤ r.version := by
    rcases mem_cons.mp hx with rfl | hx
    · exact le_rfl
    · exact ((pairwise_cons.mp hdesc).1 x hx).le
  simp only [decide_eq_true_eq]
  omega

/-- The callback on a row above the current version that is not void and did not hold the slot. -/
def considerShown (pin : Int) (cur : Row V) (s : AboveScan V) (r : Row V) : AboveScan V :=
  match s.run.head? with
  | none => if cur.beliefTx ≤ r.beliefTx ∧ r.beliefTx ≤ pin then { s with run := [r] } else s
  | some newest =>
    if s.broken = false ∧ r.beliefTx = newest.beliefTx then { s with run := s.run ++ [r] }
    else { s with broken := true }

theorem considerAbove_of_live (hle : ¬ r.version ≤ cur.version) (hheld : heldSlot r = false)
    (s : AboveScan V) : considerAbove p cur s r =
      (if scanVoid r then s else considerShown p cur s r, false) := by
  unfold considerAbove considerShown
  rw [if_neg hle, hheld, if_neg (by decide)]
  split
  · rfl
  cases s.run.head? <;> dsimp only <;> split <;> rfl

/-- The scan sees whether a row above the current version held the slot. -/
theorem scanHistory_earlierLife (hdesc : Descending visited) (s : AboveScan V)
    (hheld : (aboveRows cur visited).any heldSlot = true) :
    (scanHistory (considerAbove p cur) s visited).earlierLife = true := by
  induction visited generalizing s with
  | nil => cases hheld
  | cons r rest ih =>
    by_cases hle : r.version ≤ cur.version
    · rw [aboveRows_of_le hdesc hle] at hheld
      cases hheld
    have habove : aboveRows cur (r :: rest) = r :: aboveRows cur rest :=
      filter_cons_of_pos (by simpa using hle)
    rw [habove, any_cons, Bool.or_eq_true] at hheld
    rw [scanHistory]
    cases hh : heldSlot r with
    | true =>
      have hc : considerAbove p cur s r = ({ s with earlierLife := true }, true) := by
        unfold considerAbove
        rw [if_neg hle, hh, if_pos rfl]
      rw [hc]
      rfl
    | false =>
      rw [considerAbove_of_live hle hh]
      exact ih (pairwise_cons.mp hdesc).2 _ (hheld.resolve_left (by simp [hh]))

/-- The rows above the current version that are not void. -/
def aboveShown (cur : Row V) (rows : List (Row V)) : List (Row V) :=
  aboveRows cur (rows.filter (!·.isVoid))

theorem aboveShown_cons_of_void (rest : List (Row V)) (hv : r.isVoid = true) :
    aboveShown cur (r :: rest) = aboveShown cur rest := by
  unfold aboveShown
  rw [filter_cons_of_neg (by simp [hv])]

theorem aboveShown_cons (rest : List (Row V)) (hv : r.isVoid = false)
    (hlt : cur.version < r.version) : aboveShown cur (r :: rest) = r :: aboveShown cur rest := by
  unfold aboveShown aboveRows
  rw [filter_cons_of_pos (by simp [hv]), filter_cons_of_pos (by simpa using hlt)]

theorem aboveShown_of_le (hdesc : Descending (r :: rest)) (hle : r.version ≤ cur.version) :
    aboveShown cur (r :: rest) = [] := by
  unfold aboveShown aboveRows
  rw [filter_filter, filter_eq_nil_iff]
  intro x hx
  have := filter_eq_nil_iff.mp (aboveRows_of_le hdesc hle) x hx
  simp [this]

/-- **The current arm's scan** sees the rows above the current version that are not void. -/
theorem scanHistory_eq_foldl (hst : HistoryStamps visited) (hdesc : Descending visited)
    (hlive : ∀ r ∈ aboveRows cur visited, heldSlot r = false) (s : AboveScan V) :
    scanHistory (considerAbove p cur) s visited =
      (aboveShown cur visited).foldl (considerShown p cur) s := by
  induction visited generalizing s with
  | nil => rfl
  | cons r rest ih =>
    rw [scanHistory]
    by_cases hle : r.version ≤ cur.version
    · have hc : considerAbove p cur s r = (s, true) := if_pos hle
      rw [hc, aboveShown_of_le hdesc hle]
      rfl
    have habove : aboveRows cur (r :: rest) = r :: aboveRows cur rest :=
      filter_cons_of_pos (by simpa using hle)
    rw [habove, forall_mem_cons] at hlive
    have ih := ih hst.tail (pairwise_cons.mp hdesc).2 hlive.2
    rw [considerAbove_of_live hle hlive.1, hst.scanVoid mem_cons_self]
    cases hv : r.isVoid with
    | true =>
      rw [aboveShown_cons_of_void rest hv]
      exact ih s
    | false =>
      rw [aboveShown_cons rest hv (not_le.mp hle), foldl_cons, ← ih]
      rfl

/-- Below the newest row the scan keeps the rest of the write, and whether another write comes
before the current row. -/
theorem foldl_considerShown {h : Row V} {s : AboveScan V} (hhead : s.run.head? = some h) :
    rows.foldl (considerShown p cur) s =
      ⟨if s.broken then s.run else s.run ++ rows.takeWhile fun r => r.beliefTx == h.beliefTx,
        s.broken || rows.any fun r => r.beliefTx != h.beliefTx, s.earlierLife⟩ := by
  induction rows generalizing s with
  | nil => simp
  | cons r rows ih =>
    obtain ⟨run, broken, earlierLife⟩ := s
    dsimp only at hhead ⊢
    rw [foldl_cons, considerShown, hhead]
    dsimp only
    by_cases hin : broken = false ∧ r.beliefTx = h.beliefTx
    · obtain ⟨rfl, htx⟩ := hin
      rw [if_pos ⟨rfl, htx⟩, ih (by rw [head?_append, hhead]; rfl)]
      simp [htx]
    · rw [if_neg hin, ih hhead]
      cases broken with
      | true => simp
      | false =>
        have hne : r.beliefTx ≠ h.beliefTx := fun h => hin ⟨rfl, h⟩
        simp [hne]

end Above

variable {visited history : List (Row V)}

theorem any_heldSlot_aboveShown (hst : HistoryStamps visited) (cur : Row V) :
    (aboveShown cur visited).any heldSlot = (aboveRows cur visited).any heldSlot := by
  unfold aboveShown aboveRows
  rw [filter_filter, Bool.eq_iff_iff, any_eq_true, any_eq_true]
  constructor
  · rintro ⟨r, hr, hheld⟩
    rw [mem_filter, Bool.and_eq_true] at hr
    exact ⟨r, mem_filter.mpr ⟨hr.1, hr.2.1⟩, hheld⟩
  · rintro ⟨r, hr, hheld⟩
    rw [mem_filter] at hr
    refine ⟨r, mem_filter.mpr ⟨hr.1, ?_⟩, hheld⟩
    cases hv : r.isVoid with
    | false => simp [hr.2]
    | true =>
      rw [heldSlot_of_txTo_zero (hst.void r hr.1 hv).1] at hheld
      cases hheld

/-- The rows of a write that a current row follows: the current row is one of them when no other
write comes between. -/
theorem takeWhile_append_current {α : Type} (p : α → Bool) (l : List α) (c : α) :
    (l ++ [c]).takeWhile p = l.takeWhile p ++ if !l.any (!p ·) && p c then [c] else [] := by
  induction l with
  | nil => cases hc : p c <;> simp [takeWhile, hc]
  | cons x l ih =>
    cases hx : p x with
    | true => simp [takeWhile, hx, ih]
    | false => simp [takeWhile, hx]

/-- The answer of the current arm's scan. -/
def aboveAnswer (a : ValidAxis) (pin : Int) (cur : Row V) (s : AboveScan V) : AsOfPick V :=
  match s.run.head? with
  | none => .fromCurrent
  | some newest =>
    if s.earlierLife then .fromCurrent
    else pickUnlessRetracted pin
      (runAnswer a pin (some cur) s.run (!s.broken && cur.beliefTx == newest.beliefTx))

/-- **The current arm, when no row above held the slot.** -/
theorem aboveAnswer_eq (a : ValidAxis) (pin : Int) {cur : Row V} (hcur : 0 < cur.beliefTx) :
    (aboveAnswer a pin cur (rows.foldl (considerShown pin cur) ⟨[], false, false⟩)).row (some cur) =
      aboveScan a pin cur rows := by
  induction rows with
  | nil => rfl
  | cons r rows ih =>
    rw [foldl_cons, aboveScan]
    by_cases hcand : cur.beliefTx ≤ r.beliefTx ∧ r.beliefTx ≤ pin
    · have hpos : r.beliefTx ≠ 0 := by omega
      have hscan : ¬ (r.temporal.isSome = false ∨ r.beliefTx < cur.beliefTx ∨ pin < r.beliefTx) := by
        simp [Row.temporal_isSome_of_beliefTx hpos]
        omega
      have hc : considerShown pin cur ⟨[], false, false⟩ r = ⟨[r], false, false⟩ := if_pos hcand
      rw [if_neg hscan, hc, foldl_considerShown (h := r) rfl, openInWrite_eq_run a pin _ hpos,
        takeWhile_append_current]
      simp only [Bool.false_eq_true, if_false, Bool.false_or, singleton_append]
      unfold aboveAnswer
      simp only [head?_cons, Bool.false_eq_true, if_false]
      rw [pick_run a pin (some cur) (some cur) r _ _ (fun _ => ⟨rfl, rfl⟩)
        (fun c hc => by
          cases hc
          exact Row.temporal_isSome_of_beliefTx hcur.ne')]
      rfl
    · have hc : considerShown pin cur ⟨[], false, false⟩ r = ⟨[], false, false⟩ := if_neg hcand
      rw [hc, if_pos (by omega)]
      exact ih

/-! ## The two selections -/

/-- Dropping rows commutes with the sort. -/
theorem filter_insertionSort (hnodup : (history.map Row.version).Nodup) (keep : Row V → Bool) :
    (history.filter keep).insertionSort newestFirst =
      (history.insertionSort newestFirst).filter keep := by
  have hperm : ((history.filter keep).insertionSort newestFirst).Perm
      ((history.insertionSort newestFirst).filter keep) :=
    (perm_insertionSort newestFirst (history.filter keep)).trans
      ((perm_insertionSort newestFirst history).symm.filter keep)
  refine hperm.eq_of_pairwise ?_ (pairwise_insertionSort _ _)
    ((pairwise_insertionSort _ _).filter keep)
  intro x y hx hy hxy hyx
  have hx' := mem_of_mem_filter ((mem_insertionSort newestFirst).mp hx)
  have hy' := (mem_insertionSort newestFirst).mp (mem_of_mem_filter hy)
  exact inj_on_of_nodup_map hnodup hx' hy' (le_antisymm hyx hxy)

theorem descending_insertionSort (hnodup : (history.map Row.version).Nodup) :
    Descending (history.insertionSort newestFirst) := by
  have hperm := (perm_insertionSort newestFirst history).symm.map Row.version
  have hne := pairwise_map.mp (hperm.nodup_iff.mp hnodup)
  refine (pairwise_insertionSort newestFirst history).imp₂ ?_ hne
  intro x y hle hne
  exact lt_of_le_of_ne hle hne.symm

/-- **The badger scan picks what the canonical as-of rule selects**, for a probe that never denies a
row above the current version. -/
theorem selectAsOfScan_eq_selectAsOfWithCurrent (a : ValidAxis) (history : List (Row V))
    (current : Option (Row V)) (pin : Int) (above : Nat → Bool)
    (hnodup : (history.map Row.version).Nodup) (hadj : WritesAdjacent history)
    (hst : HistoryStamps history) (hversion : ∀ r ∈ history, r.version ≤ maxUint32)
    (habove : ∀ cur ∈ current, (∃ r ∈ history, cur.version < r.version) →
      above cur.version = true) :
    (selectAsOfScan a (history.insertionSort newestFirst) current pin above).row current =
      selectAsOfWithCurrent a history current pin := by
  have hmem : ∀ {r : Row V}, r ∈ history.insertionSort newestFirst ↔ r ∈ history :=
    mem_insertionSort newestFirst
  have hdesc := descending_insertionSort hnodup
  have hst' : HistoryStamps (history.insertionSort newestFirst) :=
    ⟨fun r hr => hst.tombstone r (hmem.mp hr), fun r hr => hst.void r (hmem.mp hr)⟩
  unfold selectAsOfScan selectAsOfWithCurrent
  rw [filter_insertionSort hnodup]
  cases hcand : current.filter (currentCandidate pin) with
  | none =>
    exact historyArm_eq a pin current hst' hdesc fun x hx y hy z hz =>
      hadj x (hmem.mp hx) y (hmem.mp hy) z (hmem.mp hz)
  | some cur =>
    obtain ⟨rfl, hcur⟩ := Option.filter_eq_some_iff.mp hcand
    have hpos : 0 < cur.beliefTx := by
      unfold currentCandidate at hcur
      simp only [Bool.and_eq_true, decide_eq_true_eq] at hcur
      exact hcur.1.1.2
    change _ = if (aboveShown cur (history.insertionSort newestFirst)).any heldSlot then some cur
      else aboveScan a pin cur (aboveShown cur (history.insertionSort newestFirst))
    -- the two shortcuts say that no row lies above the current version
    have hnone : (∀ r ∈ history, r.version ≤ cur.version) →
        aboveShown cur (history.insertionSort newestFirst) = [] := by
      intro h
      unfold aboveShown aboveRows
      rw [filter_filter, filter_eq_nil_iff]
      intro r hr
      have := h r (hmem.mp hr)
      simp only [Bool.and_eq_true, decide_eq_true_eq, not_and]
      omega
    simp only
    split
    · rename_i hmax
      rw [hnone fun r hr => hmax ▸ hversion r hr]
      rfl
    split
    · rename_i hprobe
      rw [hnone fun r hr => ?_]
      · rfl
      · by_contra hlt
        rw [habove cur rfl ⟨r, hr, not_le.mp hlt⟩] at hprobe
        cases hprobe
    change (aboveAnswer a pin cur (scanHistory (considerAbove pin cur) ⟨[], false, false⟩
      (history.insertionSort newestFirst))).row (some cur) = _
    rw [any_heldSlot_aboveShown hst']
    cases hheld : (aboveRows cur (history.insertionSort newestFirst)).any heldSlot with
    | true =>
      unfold aboveAnswer
      rw [scanHistory_earlierLife hdesc _ hheld]
      cases (scanHistory (considerAbove pin cur) ⟨[], false, false⟩
        (history.insertionSort newestFirst)).run.head? <;> rfl
    | false =>
      rw [any_eq_false] at hheld
      rw [scanHistory_eq_foldl hst' hdesc (fun r hr => by simpa using hheld r hr),
        aboveAnswer_eq a pin hpos]
      simp

/-- A chain with a tombstone, a correction of three rows and a void row, read by both selections at
a pin after the correction. -/
theorem selectAsOfScan_correctionAboveCurrent :
    let row := fun (version : Nat) (tm : TemporalMetadata) => (⟨version, some tm, [], []⟩ : Row Unit)
    let history : List (Row Unit) :=
      [row 0 { validFrom := 1, validTo := 4, txFrom := 1, txTo := 4, deletedAt := 4 },
       row 2 { validFrom := 10, validTo := 20, txFrom := 7 },
       row 3 { validFrom := 20, validTo := 30, txFrom := 7 },
       row 4 { validFrom := 30, validTo := 40, txFrom := 8, void := true }]
    let current := some (row 1 { validFrom := 5, validTo := 0, txFrom := 7 })
    (selectAsOfScan .legacy (history.insertionSort newestFirst) current 9 fun _ => true).row current =
      selectAsOfWithCurrent .legacy history current 9 :=
  selectAsOfScan_eq_selectAsOfWithCurrent .legacy _ _ 9 _ (by decide)
    (by unfold WritesAdjacent; decide) ⟨by decide, by decide⟩ (by decide) (fun _ _ _ => rfl)

end RhoTkg
