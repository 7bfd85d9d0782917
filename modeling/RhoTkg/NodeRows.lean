import RhoTkg.NodeSteps

/-!
# The rows of a node

Every write appends its rows above the chain's top version, so the rows in version order are the
rows in the order they were written: `NodeState.rows` after a write is what it was before, with the
current row restamped, and then the new rows (`rows_created`, `rows_superseded`, `rows_appended`,
`rows_cascaded`, `rows_ended`).  `NodeState.WroteAt` is the common form of the writes that add rows.
-/

namespace RhoTkg

open List

variable {V : Type}

/-! ## Versions -/

variable {v : Nat} {current r : Row V} {history : List (Row V)}

theorem nextEntityVersion_eq_ok {w : Nat} (h : nextEntityVersion v = .ok w) : w = v + 1 := by
  unfold nextEntityVersion at h
  split at h
  · cases h
  · cases h
    rfl

theorem le_foldl_max (l : List Nat) (m : Nat) : m ≤ l.foldl max m ∧ ∀ x ∈ l, x ≤ l.foldl max m := by
  rw [foldl_max]
  exact ⟨le_max_left _ _, fun x hx => (le_max?_getD_of_mem hx).trans (le_max_right _ _)⟩

theorem version_le_topVersion (h : r = current ∨ r ∈ history) :
    r.version ≤ topVersion history current := by
  have hmax := le_foldl_max (history.map Row.version) current.version
  rcases h with rfl | h
  · exact hmax.1
  · exact hmax.2 _ (mem_map_of_mem h)

/-- The next version of a superseding write is above the chain, as long as the source looks for rows
above the current one. -/
theorem version_lt_of_nextNodeVersion (h : nextNodeVersion history current = .ok v)
    (hroom : current.version < maxUint32 - 1 ∨ ∀ r ∈ history, r.version ≤ current.version)
    (hr : r = current ∨ r ∈ history) : r.version < v := by
  have hv := nextEntityVersion_eq_ok h
  split at hv
  · have := version_le_topVersion hr
    omega
  · rename_i habove
    simp only [nodeHasHistoryAbove, Bool.and_eq_true, decide_eq_true_eq, any_eq_true,
      not_and, not_exists] at habove
    suffices r.version ≤ current.version by omega
    rcases hr with rfl | hr
    · exact le_rfl
    · rcases hroom with hroom | hroom
      · exact not_lt.mp fun hlt => habove hroom r hr hlt
      · exact hroom r hr

theorem version_lt_of_lifeStartOf {life : LifeStart} (h : lifeStartOf history = .ok life)
    (hr : r ∈ history) : r.version < life.version := by
  cases history with
  | nil => exact absurd hr not_mem_nil
  | cons top rest =>
    obtain ⟨v, hnext, hlife⟩ := Runs.bind_eq_ok.mp h
    cases hlife
    have hv := nextEntityVersion_eq_ok hnext
    have := version_le_topVersion (mem_cons.mp hr)
    show r.version < v
    omega

/-! ## The rows of a sound state -/

/-- The stored versions are distinct: the history is sorted by version and the current row is not in
it. -/
structure NodeState.Distinct (st : NodeState V) : Prop where
  sorted : Keyed.Sorted Row.version st.history
  fresh : ∀ cur ∈ st.current, ∀ r ∈ st.history, r.version ≠ cur.version

/-- The row stored under the version of `current` becomes `new`. -/
def exchange (current new : Row V) (r : Row V) : Row V :=
  if r.version = current.version then new else r

theorem exchange_version {new : Row V} (h : new.version = current.version) (r : Row V) :
    (exchange current new r).version = r.version := by
  unfold exchange
  split
  · rename_i heq
    rw [h, heq]
  · rfl

section Rows

variable {st : NodeState V}

variable {cur r demoted current template : Row V} {first : Nat} {rows : List (Appended V)}
  {cfg : DoorConfig} {lop : Option LabelOp} {mode : CascadeMode} {now : Int}
  {sup : WholeAxisSupersession} {new : List (Row V)} {e : Appended V} {patch : Patch V}
  {seg : CorrectionSegment V} {out : List (Appended V) × WholeAxisSupersession} {prov : Bool}

theorem NodeState.rows_of_current (h : st.current = some cur) :
    st.rows = putVersion st.history cur := by
  unfold rows
  rw [h]

theorem NodeState.rows_of_none (h : st.current = none) : st.rows = st.history := by
  unfold rows
  rw [h]

theorem NodeState.Distinct.rows_sorted (h : st.Distinct) : Keyed.Sorted Row.version st.rows := by
  unfold NodeState.rows
  split
  · exact h.sorted
  · exact Keyed.sorted_put h.sorted _

theorem NodeState.Distinct.rows_perm (h : st.Distinct) : st.rows.Perm st.chain := by
  unfold NodeState.rows NodeState.chain chainOf
  split
  · rename_i hcur
    simp [hcur]
  · rename_i cur hcur
    rw [hcur]
    exact (Keyed.perm_put (h.fresh cur hcur)).trans
      (perm_append_singleton cur st.history).symm

theorem NodeState.mem_rows_of_current (h : st.Distinct) (hcur : st.current = some cur) :
    r ∈ st.rows ↔ r = cur ∨ r ∈ st.history := by
  rw [rows_of_current hcur, putVersion, Keyed.mem_put h.sorted]
  refine or_congr_right ⟨And.left, fun hr => ⟨hr, h.fresh cur hcur r hr⟩⟩

/-- Storing another row under the current row's version. -/
theorem NodeState.Distinct.put_current (h : st.Distinct) {new : Row V}
    (hcur : st.current = some cur) (hver : new.version = cur.version) :
    putVersion st.history new = st.rows.map (exchange cur new) := by
  rw [rows_of_current hcur]
  exact Keyed.put_exchange h.sorted hver

theorem NodeState.Distinct.sorted_put (h : st.Distinct) (r : Row V) :
    Keyed.Sorted Row.version (putVersion st.history r) :=
  Keyed.sorted_put h.sorted r

/-- A create appends its row. -/
theorem NodeState.rows_created (h : st.Distinct) (hcur : st.current = none) {row : Row V}
    (habove : ∀ r ∈ st.history, r.version < row.version) (clock : Clock) :
    let st' : NodeState V := ⟨clock, st.history, some row⟩
    st'.Distinct ∧ st'.rows = st.rows ++ [row] := by
  refine ⟨⟨h.sorted, fun cur hmem r hr => ?_⟩, ?_⟩
  · cases hmem
    exact (habove r hr).ne
  · rw [rows_of_none hcur]
    exact Keyed.put_eq_append habove

/-- A superseding write restamps the current row and appends its row. -/
theorem NodeState.rows_superseded (h : st.Distinct) {new : Row V} (hcur : st.current = some cur)
    (hver : demoted.version = cur.version)
    (habove : ∀ r, r = cur ∨ r ∈ st.history → r.version < new.version) (clock : Clock) :
    let st' : NodeState V := ⟨clock, putVersion st.history demoted, some new⟩
    st'.Distinct ∧ st'.rows = st.rows.map (exchange cur demoted) ++ [new] := by
  have hlt : ∀ r ∈ putVersion st.history demoted, r.version < new.version := by
    intro r hr
    rcases (Keyed.mem_put h.sorted).mp hr with rfl | ⟨hr, -⟩
    · rw [hver]
      exact habove cur (.inl rfl)
    · exact habove r (.inr hr)
  refine ⟨⟨h.sorted_put demoted, fun cur' hmem r hr => ?_⟩, ?_⟩
  · cases hmem
    exact (hlt r hr).ne
  · rw [← h.put_current hcur hver]
    exact Keyed.put_eq_append hlt

/-- A delete restamps the current row. -/
theorem NodeState.rows_ended (h : st.Distinct) {tombstone : Row V} (hcur : st.current = some cur)
    (hver : tombstone.version = cur.version) (clock : Clock) :
    let st' : NodeState V := ⟨clock, putVersion st.history tombstone, none⟩
    st'.Distinct ∧ st'.rows = st.rows.map (exchange cur tombstone) := by
  refine ⟨⟨h.sorted_put tombstone, fun cur' hmem => ?_⟩, ?_⟩
  · cases hmem
  · exact h.put_current hcur hver

/-! ## The rows a cascade writes -/

theorem demotedRow_version (current : Row V) (sup : WholeAxisSupersession) (mode : CascadeMode)
    (now : Int) : (demotedRow current sup mode now).version = current.version := by
  unfold demotedRow
  split <;> rfl

theorem moveToEnd_perm (rows : List (Appended V)) (slot : Option Nat) :
    (moveToEnd rows slot).Perm rows := by
  cases slot with
  | none => exact .refl _
  | some i =>
    show (rows.eraseIdx i ++ rows[i]?.toList).Perm rows
    by_cases hi : i < rows.length
    · rw [getElem?_eq_getElem hi, Option.toList_some]
      exact (perm_append_singleton _ _).trans (getElem_cons_eraseIdx_perm hi)
    · rw [getElem?_eq_none (not_lt.mp hi), eraseIdx_of_length_le (not_lt.mp hi)]
      simp

/-- The rows as written are the built rows with versions from `first` on. -/
theorem getElem?_finalRows (first : Nat) (rows : List (Appended V)) (slot : Option Nat) (i : Nat) :
    (finalRows first rows slot)[i]? =
      (moveToEnd rows slot)[i]?.map fun e => { e.1 with version := first + i } := by
  unfold finalRows numberRows
  simp only [getElem?_map, getElem?_zipIdx, Nat.zero_add, Option.map_map]
  rfl

theorem length_finalRows (first : Nat) (rows : List (Appended V)) (slot : Option Nat) :
    (finalRows first rows slot).length = rows.length := by
  unfold finalRows numberRows
  simp [(moveToEnd_perm rows slot).length_eq]

theorem finalRows_sorted (first : Nat) (rows : List (Appended V)) (slot : Option Nat) :
    Keyed.Sorted Row.version (finalRows first rows slot) := by
  refine pairwise_iff_getElem.mpr fun i j hi hj hij => ?_
  have hi' := getElem?_eq_getElem hi
  have hj' := getElem?_eq_getElem hj
  rw [getElem?_finalRows, Option.map_eq_some_iff] at hi' hj'
  obtain ⟨x, -, hx⟩ := hi'
  obtain ⟨y, -, hy⟩ := hj'
  rw [← hx, ← hy]
  exact Nat.add_lt_add_left hij first

theorem mem_finalRows {slot : Option Nat} (h : r ∈ finalRows first rows slot) :
    first ≤ r.version ∧ ∃ e ∈ rows, r = { e.1 with version := r.version } := by
  obtain ⟨i, hi, rfl⟩ := getElem_of_mem h
  have hi' := getElem?_eq_getElem hi
  rw [getElem?_finalRows, Option.map_eq_some_iff] at hi'
  obtain ⟨e, he, heq⟩ := hi'
  refine ⟨?_, e, (moveToEnd_perm rows slot).mem_iff.mp (mem_of_getElem? he), ?_⟩
  · rw [← heq]
    exact Nat.le_add_right _ _
  · rw [← heq]

/-- What `writeCascade` stores, by the slot it picked. -/
theorem writeCascade_eq_ok {st' : NodeState V}
    (h : writeCascade cfg st current rows sup first mode lop now = .ok st') (hne : rows ≠ []) :
    ∃ slot, slot = cascadeNewCurrent cfg.core.axis (preCorrectionChain st.history current)
        (numberRows first rows) current (mode == .existing) ∧
      (∀ r ∈ finalRows first rows slot, storable r = true) ∧
      ((slot = none ∧
          st' = { st with history := (finalRows first rows slot).foldl putVersion st.history }) ∨
        ∃ new, (∃ i, slot = some i) ∧ (finalRows first rows slot).getLast? = some new ∧
          slotLabelsOk lop current new = true ∧
          st' = { st with
            history := putVersion ((finalRows first rows slot).dropLast.foldl putVersion st.history)
              (demotedRow current sup mode now)
            current := some new }) := by
  unfold writeCascade at h
  refine ⟨_, rfl, ?_⟩
  generalize cascadeNewCurrent cfg.core.axis (preCorrectionChain st.history current)
    (numberRows first rows) current (mode == .existing) = slot at h ⊢
  have hlen := length_finalRows first rows slot
  dsimp only at h
  split at h
  · cases h
  split at h
  · cases h
  rename_i hok
  refine ⟨all_eq_true.mp (by simpa using hok), ?_⟩
  split at h
  · rename_i i new hlast
    split at h
    · rename_i hlabels
      cases h
      exact .inr ⟨new, ⟨i, rfl⟩, hlast, hlabels, rfl⟩
    · cases h
  · rename_i hslot
    cases h
    refine .inl ⟨Option.eq_none_iff_forall_ne_some.mpr fun i hi => ?_, rfl⟩
    have hlast := getLast?_eq_none_iff.mp
      (Option.eq_none_iff_forall_ne_some.mpr fun new hnew => hslot i new hi hnew)
    rw [hlast, length_nil] at hlen
    exact hne (length_eq_zero_iff.mp hlen.symm)

/-- Rows above a chain go behind its history. -/
theorem NodeState.Distinct.foldl_put (h : st.Distinct) (hsort : Keyed.Sorted Row.version new)
    (habove : ∀ r ∈ st.history, ∀ n ∈ new, r.version < n.version) :
    new.foldl putVersion st.history = st.history ++ new ∧
      Keyed.Sorted Row.version (st.history ++ new) :=
  ⟨Keyed.foldl_put_eq_append hsort habove, pairwise_append.mpr ⟨h.sorted, hsort, habove⟩⟩

/-- A cascade that leaves the current row in its slot appends its rows. -/
theorem NodeState.rows_appended (h : st.Distinct) (hcur : st.current = some cur)
    (hsort : Keyed.Sorted Row.version new)
    (habove : ∀ r, r = cur ∨ r ∈ st.history → ∀ n ∈ new, r.version < n.version) (clock : Clock) :
    let st' : NodeState V := ⟨clock, new.foldl putVersion st.history, some cur⟩
    st'.Distinct ∧ st'.rows = st.rows ++ new := by
  obtain ⟨hput, hsorted⟩ := h.foldl_put hsort fun r hr => habove r (.inr hr)
  refine ⟨⟨?_, fun cur' hmem r hr => ?_⟩, ?_⟩
  · rw [hput]
    exact hsorted
  · cases hmem
    rw [hput] at hr
    rcases mem_append.mp hr with hr | hr
    · exact h.fresh cur hcur r hr
    · exact (habove cur (.inl rfl) r hr).ne'
  · rw [rows_of_current rfl, hput, rows_of_current hcur]
    exact Keyed.put_append fun n hn => habove cur (.inl rfl) n hn

/-- A cascade whose last row takes the slot restamps the current row and appends its rows. -/
theorem NodeState.rows_cascaded (h : st.Distinct) {last : Row V} (hcur : st.current = some cur)
    (hver : demoted.version = cur.version) (hsort : Keyed.Sorted Row.version new)
    (habove : ∀ r, r = cur ∨ r ∈ st.history → ∀ n ∈ new, r.version < n.version)
    (hlast : new.getLast? = some last) (clock : Clock) :
    let st' : NodeState V := ⟨clock,
      putVersion (new.dropLast.foldl putVersion st.history) demoted, some last⟩
    st'.Distinct ∧ st'.rows = st.rows.map (exchange cur demoted) ++ new := by
  obtain ⟨init, rfl⟩ : ∃ init, new = init ++ [last] :=
    ⟨new.dropLast, (dropLast_append_getLast? last hlast).symm⟩
  rw [dropLast_concat]
  have hsub : ∀ n ∈ init, n ∈ init ++ [last] := fun n hn => mem_append_left _ hn
  have hmem : last ∈ init ++ [last] := mem_append_right _ (mem_singleton.mpr rfl)
  obtain ⟨hinit, -, hlt⟩ := pairwise_append.mp hsort
  obtain ⟨hput, hsorted⟩ := h.foldl_put hinit fun r hr n hn => habove r (.inr hr) n (hsub n hn)
  have hdemoted : putVersion (init.foldl putVersion st.history) demoted =
      putVersion st.history demoted ++ init := by
    rw [hput]
    refine Keyed.put_append fun n hn => ?_
    rw [hver]
    exact habove cur (.inl rfl) n (hsub n hn)
  have hbelow : ∀ r ∈ putVersion (init.foldl putVersion st.history) demoted,
      r.version < last.version := by
    intro r hr
    rw [hdemoted] at hr
    rcases mem_append.mp hr with hr | hr
    · rcases (Keyed.mem_put h.sorted).mp hr with rfl | ⟨hr, -⟩
      · rw [hver]
        exact habove cur (.inl rfl) last hmem
      · exact habove r (.inr hr) last hmem
    · exact hlt r hr last (mem_singleton.mpr rfl)
  refine ⟨⟨?_, fun cur' hmem r hr => ?_⟩, ?_⟩
  · refine Keyed.sorted_put ?_ _
    rw [hput]
    exact hsorted
  · cases hmem
    exact (hbelow r hr).ne
  · refine (Keyed.put_eq_append hbelow).trans ?_
    rw [hdemoted, h.put_current hcur hver, append_assoc]

theorem buildSegmentRow_recorded (h : buildSegmentRow cfg mode template now patch lop seg = .ok e) :
    e.1.RecordedAt now := by
  obtain ⟨row, hrow, h⟩ := Runs.bind_eq_ok.mp h
  obtain ⟨labels, -, h⟩ := Runs.bind_eq_ok.mp h
  cases h
  unfold buildNodeCorrectionRow at hrow
  dsimp only at hrow
  split at hrow
  · cases hrow
  · cases hrow
    split <;> exact ⟨_, rfl, rfl, rfl, rfl⟩

theorem buildSegments_recorded [DecidableEq V] {segs : List (CorrectionSegment V)}
    (h : buildSegments cfg mode template now patch prov lop segs sup = .ok out) :
    ∀ e ∈ out.1, e.1.RecordedAt now := by
  induction segs generalizing sup out with
  | nil =>
    cases h
    exact fun e he => absurd he not_mem_nil
  | cons seg segs ih =>
    rw [buildSegments] at h
    split at h
    · exact ih h
    split at h
    · exact ih h
    obtain ⟨row, hrow, h⟩ := Runs.bind_eq_ok.mp h
    obtain ⟨rest, hrest, h⟩ := Runs.bind_eq_ok.mp h
    cases h
    exact forall_mem_cons.mpr ⟨buildSegmentRow_recorded hrow, ih hrest⟩

theorem cascadeRows_recorded [DecidableEq V] {plan : HeadChain V} {newVT : Int}
    (h : cascadeRows cfg plan current newVT patch mode prov lop now = .ok out) :
    ∀ e ∈ out.1, e.1.RecordedAt now := by
  unfold cascadeRows at h
  split at h
  · cases h
  obtain ⟨pieces, hseg, h⟩ := Runs.bind_eq_ok.mp h
  cases h
  intro e he
  rcases mem_append.mp he with he | he
  · rw [Option.mem_toList, Option.map_eq_some_iff] at he
    obtain ⟨src, -, rfl⟩ := he
    exact ⟨_, rfl, rfl, rfl, rfl⟩
  · exact buildSegments_recorded hseg e he

end Rows

/-! ## A write -/

/-- The write of `st'` over `st` at the instant `q`: the stored rows as `stamped` leaves them, then
the rows `new`. -/
structure NodeState.WroteAt (st st' : NodeState V) (q : Int) (stamped : Row V → Row V)
    (new : List (Row V)) : Prop where
  distinct : st'.Distinct
  rows : st'.rows = st.rows.map stamped ++ new
  stamped_eq : ∀ r ∈ st.rows,
    stamped r = r ∨ (st.current = some r ∧ stamped r = r.superseded q)
  above : ∀ r ∈ st.rows, ∀ n ∈ new, r.version < n.version
  sorted : Keyed.Sorted Row.version new
  recorded : ∀ n ∈ new, n.RecordedAt q
  stored : ∀ n ∈ new, storable n = true
  current : (st'.current = st.current ∧ ∀ r ∈ st.rows, stamped r = r) ∨
    ∃ last, new.getLast? = some last ∧ st'.current = some last

section Wrote

variable {st : NodeState V}

variable {cur r : Row V} {q : Int} {clock : Clock}

/-- The current row is the only one of its version. -/
theorem NodeState.Distinct.eq_current (h : st.Distinct) (hcur : st.current = some cur)
    (hr : r ∈ st.rows) (hver : r.version = cur.version) : r = cur :=
  h.rows_sorted.eq_of_key_eq hr ((mem_rows_of_current h hcur).mpr (.inl rfl)) hver

theorem NodeState.Distinct.exchange_eq (h : st.Distinct) {demoted : Row V}
    (hcur : st.current = some cur) (hdem : demoted = cur ∨ demoted = cur.superseded q)
    (hr : r ∈ st.rows) :
    exchange cur demoted r = r ∨ (st.current = some r ∧ exchange cur demoted r = r.superseded q) := by
  unfold exchange
  split
  · rename_i hver
    obtain rfl := h.eq_current hcur hr hver
    exact hdem.imp id fun hdem => ⟨hcur, hdem⟩
  · exact .inl rfl

/-- A create is a write. -/
theorem NodeState.WroteAt.created (h : st.Distinct) (hcur : st.current = none) {row : Row V}
    (hlife : lifeStartOf st.history = .ok ⟨row.version, maxStampOf st.history⟩)
    (hrow : row.RecordedAt q) (hok : storable row = true) :
    st.WroteAt ⟨clock, st.history, some row⟩ q id [row] := by
  have habove : ∀ r ∈ st.history, r.version < row.version := fun r hr =>
    version_lt_of_lifeStartOf hlife hr
  have hrows := rows_created h hcur habove clock
  refine ⟨hrows.1, by rw [hrows.2, map_id], fun _ _ => .inl rfl, ?_, pairwise_singleton _ _,
    ?_, ?_, .inr ⟨row, rfl, rfl⟩⟩
  · intro r hr n hn
    rw [rows_of_none hcur] at hr
    rw [mem_singleton.mp hn]
    exact habove r hr
  · intro n hn
    rwa [mem_singleton.mp hn]
  · intro n hn
    rwa [mem_singleton.mp hn]

/-- A superseding write. -/
theorem NodeState.WroteAt.superseded (h : st.Distinct) {new : Row V} (hcur : st.current = some cur)
    (hver : nextNodeVersion st.history cur = .ok new.version)
    (hroom : cur.version < maxUint32 - 1 ∨ ∀ r ∈ st.history, r.version ≤ cur.version)
    (hnew : new.RecordedAt q) (hok : storable new = true) :
    st.WroteAt ⟨clock, putVersion st.history (cur.superseded q), some new⟩ q
      (exchange cur (cur.superseded q)) [new] := by
  have habove : ∀ r, r = cur ∨ r ∈ st.history → r.version < new.version := fun r hr =>
    version_lt_of_nextNodeVersion hver hroom hr
  have hrows := rows_superseded h hcur (rfl : (cur.superseded q).version = cur.version) habove clock
  refine ⟨hrows.1, hrows.2, fun r hr => h.exchange_eq hcur (.inr rfl) hr, ?_,
    pairwise_singleton _ _, ?_, ?_, .inr ⟨new, rfl, rfl⟩⟩
  · intro r hr n hn
    rw [mem_singleton.mp hn]
    exact habove r ((mem_rows_of_current h hcur).mp hr)
  · intro n hn
    rwa [mem_singleton.mp hn]
  · intro n hn
    rwa [mem_singleton.mp hn]

theorem Row.RecordedAt.of_version (h : r.RecordedAt q) (v : Nat) :
    ({ r with version := v } : Row V).RecordedAt q := h

/-- The slot a cascade picks. -/
def NodeState.cascadeSlot (cfg : DoorConfig) (st : NodeState V) (cur : Row V)
    (rows : List (Appended V)) (first : Nat) (mode : CascadeMode) : Option Nat :=
  cascadeNewCurrent cfg.core.axis (preCorrectionChain st.history cur) (numberRows first rows) cur
    (mode == .existing)

/-- **A cascade is a write at the clock's instant**: its rows are appended, and the row at the slot,
if it picks one, is the last of them and becomes the current row. -/
theorem NodeState.IsCascade.wroteAt [DecidableEq V] {cfg : DoorConfig} {wall newVF newVT : Int}
    {patch : Patch V} {mode : CascadeMode} {prov : Bool} {lop : Option LabelOp}
    {rows : List (Appended V)} {sup : WholeAxisSupersession} {first : Nat} {st' : NodeState V}
    (hc : st.IsCascade cfg wall newVF newVT patch mode prov lop cur rows sup first st')
    (h : st.Distinct) :
    st'.clock = (st.clock.now wall).1 ∧
      ∃ stamped, st.WroteAt st' (st.clock.now wall).2 stamped
          (finalRows first rows (st.cascadeSlot cfg cur rows first mode)) ∧
        ((st.cascadeSlot cfg cur rows first mode = none ∧ st'.current = some cur ∧ stamped = id) ∨
          ∃ i last, st.cascadeSlot cfg cur rows first mode = some i ∧
            (finalRows first rows (some i)).getLast? = some last ∧ st'.current = some last ∧
            stamped = exchange cur (demotedRow cur sup mode (st.clock.now wall).2)) := by
  obtain ⟨slot, hslot, hok, hst⟩ := writeCascade_eq_ok hc.written hc.nonempty
  have hslot : st.cascadeSlot cfg cur rows first mode = slot := hslot.symm
  rw [hslot]
  have hfirst := nextEntityVersion_eq_ok hc.version
  have habove : ∀ r, r = cur ∨ r ∈ st.history → ∀ n ∈ finalRows first rows slot,
      r.version < n.version := by
    intro r hr n hn
    have := version_le_topVersion hr
    have := (mem_finalRows hn).1
    omega
  have hrec : ∀ n ∈ finalRows first rows slot, n.RecordedAt (st.clock.now wall).2 := by
    intro n hn
    obtain ⟨-, e, he, heq⟩ := mem_finalRows hn
    rw [heq]
    exact (cascadeRows_recorded hc.built e he).of_version _
  have hsorted := finalRows_sorted first rows slot
  have habove' : ∀ r ∈ st.rows, ∀ n ∈ finalRows first rows slot, r.version < n.version :=
    fun r hr => habove r ((mem_rows_of_current h hc.live).mp hr)
  rcases hst with ⟨hnone, rfl⟩ | ⟨last, ⟨i, hi⟩, hlast, -, rfl⟩
  · have hrows := rows_appended h hc.live hsorted habove (st.clock.now wall).1
    rw [← hc.live] at hrows
    refine ⟨rfl, id, ⟨hrows.1, by rw [map_id]; exact hrows.2, fun _ _ => .inl rfl, habove',
      hsorted, hrec, hok, .inl ⟨rfl, fun _ _ => rfl⟩⟩, .inl ⟨hnone, hc.live, rfl⟩⟩
  · have hrows := rows_cascaded h hc.live (demotedRow_version cur sup mode (st.clock.now wall).2)
      hsorted habove hlast (st.clock.now wall).1
    have hdem : demotedRow cur sup mode (st.clock.now wall).2 = cur ∨
        demotedRow cur sup mode (st.clock.now wall).2 = cur.superseded (st.clock.now wall).2 := by
      unfold demotedRow
      split
      · exact .inr rfl
      · exact .inl rfl
    refine ⟨rfl, _, ⟨hrows.1, hrows.2, fun r hr => h.exchange_eq hc.live hdem hr, habove', hsorted,
      hrec, hok, .inr ⟨last, hlast, rfl⟩⟩, .inr ⟨i, last, hi, hi ▸ hlast, rfl, rfl⟩⟩

end Wrote

end RhoTkg
