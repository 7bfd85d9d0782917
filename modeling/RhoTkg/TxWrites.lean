import RhoTkg.Adjacency
import RhoTkg.NodeOrder
import RhoTkg.Primary

/-!
# The versions a chain door writes

A door on a chain appends: it writes history rows above every row of the chain, moves the current row
into history at the current row's own version, and gives the slot to a row above the chain.  So every
row of the chain below, between and above the current row stays as it is (`Store.Wrote`).

At the version ceiling this has an exception.  `nodeHasHistoryAbove` does not look for a row above
version `math.MaxUint32 - 1`, so a superseding write can give the slot to the version
`math.MaxUint32` that a history row has; no history row is written there before the entity is deleted.
-/

namespace RhoTkg

open List Function Store Option

variable {V : Type}

/-! ## Rows of a chain -/

/-- The row is in the chain of the entity. -/
def Store.InChain (s : Store V) (e : EntityId) (r : Stored V) : Prop :=
  r ∈ s.history e ∨ s.current e = some r

/-- The version is above the chain. -/
def Store.Above (s : Store V) (e : EntityId) (v : Nat) : Prop :=
  ∀ r, s.InChain e r → r.version < v

/-- The versions of the chain are `uint32`. -/
def Store.VersionsOk (s : Store V) (e : EntityId) : Prop :=
  ∀ r, s.InChain e r → r.version ≤ maxUint32

/-- The versions at which a door writes a history row. -/
def Store.Writable (s : Store V) (e : EntityId) (v : Nat) : Prop :=
  v ≤ maxUint32 ∧
    (s.Above e v ∨ ∃ cur, s.current e = some cur ∧ v = cur.version ∧ v < maxUint32)

/-- What calls that write at these versions have made of the chain of `e`. -/
structure Store.Wrote (s : Store V) (e : EntityId) (t : Store V) : Prop where
  sorted : Keyed.Sorted Stored.version (t.history e)
  mem_history : ∀ r ∈ t.history e, r ∈ s.history e ∨ s.Writable e r.version
  kept : ∀ r ∈ s.history e, ¬ s.Writable e r.version → r ∈ t.history e
  reaches : ∀ r, s.InChain e r → ∃ r', t.InChain e r' ∧ r.version ≤ r'.version
  current : t.current e = s.current e ∨
    ∃ y, t.current e = some y ∧ y.version ≤ maxUint32 ∧
      (s.Above e y.version ∨ s.current e ≠ none ∧ y.version = maxUint32)
  others : ∀ e', e' ≠ e → t.current e' = s.current e' ∧ t.history e' = s.history e'

namespace Store

section Wrote

variable {s t t' : Store V} {e : EntityId}

theorem Wrote.refl (hsort : Keyed.Sorted Stored.version (s.history e)) : s.Wrote e s :=
  ⟨hsort, fun _ h => .inl h, fun _ h _ => h, fun r h => ⟨r, h, le_rfl⟩, .inl rfl,
    fun _ _ => ⟨rfl, rfl⟩⟩

/-- A history row is written. -/
theorem Wrote.putHistoryRow (h : s.Wrote e t) {x : Stored V} (hx : s.Writable e x.version) :
    s.Wrote e (t.putHistoryRow e x) := by
  have hhist : (t.putHistoryRow e x).history e = Keyed.put Stored.version (t.history e) x := by
    rw [history_putHistoryRow, update_self]
  refine ⟨?_, fun r hr => ?_, fun r hr hnot => ?_, fun r hr => ?_, h.current, fun e' he => ?_⟩
  · rw [hhist]
    exact Keyed.sorted_put h.sorted x
  · rw [hhist, Keyed.mem_put h.sorted] at hr
    rcases hr with rfl | ⟨hr, -⟩
    · exact .inr hx
    · exact h.mem_history r hr
  · rw [hhist, Keyed.mem_put h.sorted]
    refine .inr ⟨h.kept r hr hnot, fun heq => hnot ?_⟩
    rwa [heq]
  · obtain ⟨r', hr', hle⟩ := h.reaches r hr
    rcases hr' with hr' | hr'
    · by_cases heq : r'.version = x.version
      · refine ⟨x, .inl ?_, by omega⟩
        rw [hhist, Keyed.mem_put h.sorted]
        exact .inl rfl
      · refine ⟨r', .inl ?_, hle⟩
        rw [hhist, Keyed.mem_put h.sorted]
        exact .inr ⟨hr', heq⟩
    · exact ⟨r', .inr hr', hle⟩
  · rw [history_putHistoryRow, update_of_ne he]
    exact h.others e' he

/-- The slot goes to a row of a new version; the row that had it is in history. -/
theorem Wrote.setSlot (h : s.Wrote e t) {y : Stored V}
    (hcur : ∀ cur, t.current e = some cur → ∃ r ∈ t.history e, r.version = cur.version)
    (hmax : y.version ≤ maxUint32)
    (hnew : s.Above e y.version ∨ s.current e ≠ none ∧ y.version = maxUint32)
    (hset : t'.current = Function.update t.current e (some y)) (hhist : t'.history = t.history) :
    s.Wrote e t' := by
  refine ⟨by rw [hhist]; exact h.sorted, by rw [hhist]; exact h.mem_history,
    by rw [hhist]; exact h.kept, fun r hr => ?_,
    .inr ⟨y, by rw [hset, update_self], hmax, hnew⟩, fun e' he => ?_⟩
  · obtain ⟨r', hr' | hr', hle⟩ := h.reaches r hr
    · exact ⟨r', .inl (by rwa [hhist]), hle⟩
    · obtain ⟨d, hd, heq⟩ := hcur r' hr'
      exact ⟨d, .inl (by rwa [hhist]), by omega⟩
  · rw [hset, hhist, update_of_ne he]
    exact h.others e' he

/-- A door that is no delete leaves a live entity live. -/
theorem Wrote.live (h : s.Wrote e t) (hs : s.current e ≠ none) : t.current e ≠ none := by
  rcases h.current with hsame | ⟨y, hy, -⟩
  · rwa [hsame]
  · rw [hy]
    exact some_ne_none y

end Wrote

/-- `I` holds after every prefix of the calls that is accepted. -/
def Leads (I : Store V → Prop) : Store V → List (RoutedCall V) → Prop
  | s, [] => I s
  | s, c :: cs => I s ∧ ∀ s' r, s.call c.call = .ok (s', r) → Leads I s' cs

variable {p : Primary V}

theorem Leads.runCalls {I : Store V → Prop} {cs : List (RoutedCall V)} (h : Leads I p.store cs)
    (token : Nat) : I (p.runCalls token cs).store := by
  induction cs generalizing p with
  | nil => exact h
  | cons c cs ih =>
    rw [Primary.runCalls]
    split
    · exact h.1
    · rename_i hrun
      obtain ⟨r, hcall⟩ := Primary.call_of_runCall hrun
      exact ih (h.2 _ _ hcall)

theorem adjacent_runCalls (h : p.store.Adjacent) (token : Nat) (cs : List (RoutedCall V)) :
    (p.runCalls token cs).store.Adjacent := by
  refine Leads.runCalls ?_ token
  generalize p.store = s at h
  induction cs generalizing s with
  | nil => exact h
  | cons c cs ih => exact ⟨h, fun s' r hcall => ih s' (h.call hcall)⟩

end Store

/-! ## The versions of a step -/

/-- The versions of a step of a chain: history rows are `uint32`, and a row that takes the slot is
new. -/
structure NodeState.Fits (st st' : NodeState V) : Prop where
  history : ∀ r ∈ st'.history, r ∈ st.history ∨ r.version ≤ maxUint32
  current : ∀ new, st'.current = some new → st.current = some new ∨
    new.version ≤ maxUint32 ∧ (∀ cur, st.current = some cur → cur.version < maxUint32) ∧
      ((∀ r, r ∈ st.history ∨ st.current = some r → r.version < new.version) ∨
        st.current ≠ none ∧ new.version = maxUint32)

section Fits

variable {first v : Nat} {rows : List (Appended V)} {current : Row V} {history : List (Row V)}

theorem version_lt_of_mem_finalRows {slot : Option Nat} {r : Row V}
    (h : r ∈ finalRows first rows slot) : r.version < first + rows.length := by
  obtain ⟨i, hi, rfl⟩ := getElem_of_mem h
  have hlen := length_finalRows first rows slot
  have hi' := getElem?_eq_getElem hi
  rw [getElem?_finalRows, map_eq_some_iff] at hi'
  obtain ⟨e, -, heq⟩ := hi'
  rw [← heq]
  show first + i < first + rows.length
  omega

theorem writeCascade_le_max {cfg : DoorConfig} {st st' : NodeState V} {sup : WholeAxisSupersession}
    {mode : CascadeMode} {lop : Option LabelOp} {now : Int}
    (h : writeCascade cfg st current rows sup first mode lop now = .ok st') :
    first + rows.length - 1 ≤ maxUint32 := by
  unfold writeCascade at h
  split at h
  · cases h
  · omega

variable {st st' : NodeState V}

theorem NodeState.Fits.idle (hhist : st'.history = st.history) (hcur : st'.current = st.current) :
    st.Fits st' :=
  ⟨fun _ hr => .inl (hhist ▸ hr), fun _ hnew => .inl (hcur ▸ hnew)⟩

/-- The top version is that of a row. -/
theorem exists_version_eq_topVersion (history : List (Row V)) (current : Row V) :
    ∃ r, (r = current ∨ r ∈ history) ∧ r.version = topVersion history current := by
  unfold topVersion
  induction history generalizing current with
  | nil => exact ⟨current, .inl rfl, rfl⟩
  | cons a l ih =>
    rw [map_cons, foldl_cons]
    rcases max_choice current.version a.version with hm | hm
    · obtain ⟨r, hr, heq⟩ := ih current
      exact ⟨r, hr.imp_right (mem_cons_of_mem _), by rw [heq, hm]⟩
    · obtain ⟨r, hr, heq⟩ := ih a
      exact ⟨r, .inr (mem_cons.mpr hr), by rw [heq, hm]⟩

theorem topVersion_le {m : Nat} (h : ∀ r, r ∈ history ∨ some current = some r → r.version ≤ m) :
    topVersion history current ≤ m := by
  obtain ⟨r, hr, heq⟩ := exists_version_eq_topVersion history current
  rw [← heq]
  exact h r (hr.symm.imp_right fun h => congrArg some h.symm)

theorem nextEntityVersion_ne_max {w : Nat} (h : nextEntityVersion v = .ok w) : v ≠ maxUint32 := by
  rintro rfl
  cases h

/-- The version of a superseding write. -/
theorem fits_nextNodeVersion
    (hmax : ∀ r, r ∈ history ∨ some current = some r → r.version ≤ maxUint32)
    (h : nextNodeVersion history current = .ok v) :
    v ≤ maxUint32 ∧ current.version < maxUint32 ∧
      ((∀ r, r ∈ history ∨ some current = some r → r.version < v) ∨ v = maxUint32) := by
  have hv := nextEntityVersion_eq_ok h
  have hne := nextEntityVersion_ne_max h
  have hcur := hmax current (.inr rfl)
  by_cases hroom : current.version < maxUint32 - 1
  · have hlt : ∀ r, r ∈ history ∨ some current = some r → r.version < v := fun r hr =>
      version_lt_of_nextNodeVersion h (.inl hroom) (hr.symm.imp (fun h => (some.inj h).symm) id)
    have htop := topVersion_le hmax
    refine ⟨?_, by omega, .inl hlt⟩
    have hle : (if nodeHasHistoryAbove history current.version = true then
        topVersion history current else current.version) ≤ maxUint32 := by
      split
      · exact htop
      · exact hcur
    omega
  · have hnot : nodeHasHistoryAbove history current.version = false := by
      simp [nodeHasHistoryAbove, hroom]
    rw [hnot] at hv hne
    simp only [Bool.false_eq_true, if_false] at hv hne
    exact ⟨by omega, by omega, .inr (by omega)⟩

/-- The version a create starts at. -/
theorem fits_lifeStartOf {life : LifeStart} (hmax : ∀ r ∈ history, r.version ≤ maxUint32)
    (h : lifeStartOf history = .ok life) :
    life.version ≤ maxUint32 ∧ ∀ w < life.version, ∃ r ∈ history, w ≤ r.version := by
  cases history with
  | nil =>
    cases h
    exact ⟨Nat.zero_le _, fun w hw => absurd hw (Nat.not_lt_zero w)⟩
  | cons top rest =>
    obtain ⟨v, hnext, hlife⟩ := Runs.bind_eq_ok.mp h
    cases hlife
    have hv := nextEntityVersion_eq_ok hnext
    have hne := nextEntityVersion_ne_max hnext
    have htop : topVersion rest top ≤ maxUint32 := topVersion_le fun r hr =>
      hmax r (mem_cons.mpr (hr.symm.imp (fun h => (some.inj h).symm) id))
    obtain ⟨r, hr, heq⟩ := exists_version_eq_topVersion rest top
    refine ⟨by show v ≤ maxUint32; omega, fun w hw => ⟨r, mem_cons.mpr hr, ?_⟩⟩
    have hw : w < v := hw
    omega

variable [DecidableEq V] {cfg : DoorConfig} {ev : NodeEvent V}

/-- **The versions of every step.** -/
theorem NodeState.Effect.fits (h : st.Effect cfg ev st')
    (hmax : ∀ r, r ∈ st.history ∨ st.current = some r → r.version ≤ maxUint32) : st.Fits st' := by
  have hhist : ∀ r ∈ st.history, r ∈ st.history ∨ r.version ≤ maxUint32 := fun r hr => .inl hr
  cases h with
  | idle => exact .idle rfl rfl
  | @created _ _ row _ _ hcur hlife =>
    refine ⟨hhist, fun new hnew => .inr ?_⟩
    cases hnew
    have hfits := fits_lifeStartOf (fun r hr => hmax r (.inl hr)) hlife
    refine ⟨hfits.1, fun cur hc => ?_, .inl fun r hr => ?_⟩
    · cases hcur.symm.trans hc
    · rcases hr with hr | hr
      · exact version_lt_of_lifeStartOf hlife hr
      · cases hcur.symm.trans hr
  | @superseded _ _ current new _ _ hcur hver =>
    rw [hcur] at hmax
    obtain ⟨hle, hlt, hnew⟩ := fits_nextNodeVersion hmax hver
    refine ⟨fun r hr => ?_, fun new' hnew' => .inr ?_⟩
    · rcases Keyed.mem_of_mem_put hr with rfl | hr
      · exact .inr hlt.le
      · exact .inl hr
    · cases hnew'
      rw [hcur]
      exact ⟨hle, fun cur hc => by cases hc; exact hlt,
        hnew.imp_right fun h => ⟨some_ne_none _, h⟩⟩
  | @cascaded _ wall newVF newVT patch mode prov lop current rows sup first _ _ _ hc =>
    have hcur := hc.live
    have hfirst := nextEntityVersion_eq_ok hc.version
    have hne := nextEntityVersion_ne_max hc.version
    have hcurrent : current.version ≤ topVersion st.history current :=
      version_le_topVersion (.inl rfl)
    have hroom := writeCascade_le_max hc.written
    obtain ⟨slot, -, -, hcases⟩ := writeCascade_eq_ok hc.written hc.nonempty
    have hfinal : ∀ r ∈ finalRows first rows slot, r.version ≤ maxUint32 := fun r hr => by
      have := version_lt_of_mem_finalRows hr
      omega
    rcases hcases with ⟨-, rfl⟩ | ⟨new, -, hlast, -, rfl⟩
    · refine ⟨fun r hr => ?_, fun new hnew => .inl hnew⟩
      rcases Keyed.mem_of_mem_foldl_put hr with hr | hr
      · exact .inr (hfinal r hr)
      · exact .inl hr
    · refine ⟨fun r hr => ?_, fun new' hnew' => .inr ?_⟩
      · rcases Keyed.mem_of_mem_put hr with rfl | hr
        · rw [demotedRow_version]
          exact .inr (by omega)
        · rcases Keyed.mem_of_mem_foldl_put hr with hr | hr
          · exact .inr (hfinal r (mem_of_mem_dropLast hr))
          · exact .inl hr
      · cases hnew'
        have hmem := mem_of_getLast? hlast
        have hge := (mem_finalRows hmem).1
        rw [hcur]
        refine ⟨hfinal _ hmem, fun cur hcur' => by cases hcur'; omega, .inl fun r hr => ?_⟩
        have := version_le_topVersion (hr.symm.imp (fun h => (some.inj h).symm) id)
        omega
  | @ended _ _ _ current _ _ _ hcur =>
    refine ⟨fun r hr => ?_, fun new hnew => nomatch hnew⟩
    rcases Keyed.mem_of_mem_put hr with rfl | hr
    · exact .inr (hmax current (.inr hcur))
    · exact .inl hr

end Fits

/-! ## The store calls of a chain door -/

section StoreCalls

variable {s : Store V} {clock : Clock} {e : EntityId} {ends : Option (Nat × Nat)} {ev : NodeEvent V}
  {st' : NodeState V}

theorem historyRowAt_version (history : List (Row V)) (r : Row V) :
    (historyRowAt history r).version = r.version := by
  unfold historyRowAt
  cases h : history.find? fun x => x.version == r.version with
  | none => rfl
  | some x =>
    have hx := find?_some h
    exact beq_iff_eq.mp hx

theorem Store.inChain_row {r : Stored V} (h : s.InChain e r) :
    r.row ∈ (s.chainState clock e).history ∨ (s.chainState clock e).current = some r.row := by
  rcases h with h | h
  · exact .inl (mem_map_of_mem h)
  · exact .inr (by simp [chainState, h])

theorem Store.above_of_rows {v : Nat}
    (h : ∀ r, r ∈ (s.chainState clock e).history ∨ (s.chainState clock e).current = some r →
      r.version < v) : s.Above e v := fun r hr => h r.row (inChain_row hr)

variable {new prev : Row V} {old : Stored V} {t : Store V}

/-- A row takes the slot of the chain. -/
theorem Store.slot_of_fits (hfits : (s.chainState clock e).Fits st') (hcur : s.current e = some old)
    (hnew : st'.current = some new) (hne : new.version ≠ old.row.version) :
    s.Writable e old.version ∧ new.version ≤ maxUint32 ∧
      (s.Above e new.version ∨ s.current e ≠ none ∧ new.version = maxUint32) := by
  have hst : (s.chainState clock e).current = some old.row := by simp [chainState, hcur]
  rcases hfits.current new hnew with h | ⟨hle, hlt, habove⟩
  · rw [hst] at h
    exact absurd (congrArg Row.version (some.inj h).symm) hne
  · have hold := hlt old.row hst
    refine ⟨⟨hold.le, .inr ⟨old, hcur, rfl, hold⟩⟩, hle, habove.imp above_of_rows fun h => ?_⟩
    exact ⟨by simp [hcur], h.2⟩

/-- The slot call of a cascade, once the demoted row is in history. -/
theorem Store.Wrote.leads_slotCall (h : s.Wrote e t) {current : Row V}
    (hcur : ∀ cur, t.current e = some cur → ∃ r ∈ t.history e, r.version = cur.version)
    (hmax : new.version ≤ maxUint32)
    (hnew : s.Above e new.version ∨ s.current e ≠ none ∧ new.version = maxUint32) :
    Leads (s.Wrote e) t [slotCall e ends ev current new] := by
  have hreplace : ∀ routed, Leads (s.Wrote e) t [⟨.replace e ⟨ends, new⟩, routed⟩] := by
    refine fun routed => ⟨h, fun t' r hcall => ?_⟩
    cases call_effect hcall with
    | replaced => exact h.setSlot (y := ⟨ends, new⟩) hcur hmax hnew rfl rfl
  unfold slotCall
  split
  · split
    · exact hreplace true
    · refine ⟨h, fun t' r hcall => ?_⟩
      cases call_effect hcall with
      | labelled => exact h.setSlot (y := ⟨ends, new⟩) hcur hmax hnew rfl rfl
  · exact hreplace true

/-- History rows come before the other calls. -/
theorem Store.Wrote.leads_putVersions {rows : List (Row V)} {rest : List (RoutedCall V)}
    (hrows : ∀ r ∈ rows, s.Writable e r.version)
    (hrest : ∀ t : Store V, s.Wrote e t → t.current e = s.current e → Leads (s.Wrote e) t rest)
    (h : s.Wrote e t) (hcur : t.current e = s.current e) :
    Leads (s.Wrote e) t (rows.map (fun r => ⟨.putVersion e r.version ⟨ends, r⟩, true⟩) ++ rest) := by
  induction rows generalizing t with
  | nil => exact hrest t h hcur
  | cons x rows ih =>
    refine ⟨h, fun t' r hcall => ?_⟩
    cases call_effect hcall with
    | versionPut =>
      exact ih (fun r hr => hrows r (mem_cons_of_mem _ hr))
        (h.putHistoryRow (hrows x mem_cons_self)) hcur

/-- The calls of a cascade. -/
theorem Store.leads_cascadeCalls (hsort : Keyed.Sorted Stored.version (s.history e))
    (hfits : (s.chainState clock e).Fits st') (hcur : s.current e = some old)
    (hnew : st'.current = some new) (hprev : prev.version = old.row.version) :
    Leads (s.Wrote e) s
      (cascadeCalls e ends ev (s.chainState clock e) st' old.row new prev) := by
  have hrows : ∀ r ∈ st'.history.filter
      (fun r => decide (topVersion (s.chainState clock e).history old.row < r.version)),
      s.Writable e r.version := by
    intro r hr
    obtain ⟨hmem, hlt⟩ := mem_filter.mp hr
    rw [decide_eq_true_eq] at hlt
    have habove : s.Above e r.version := above_of_rows fun r' hr' => by
      have hst : (s.chainState clock e).current = some old.row := by simp [chainState, hcur]
      rw [hst] at hr'
      have := version_le_topVersion (hr'.symm.imp (fun h => (some.inj h).symm) id)
      omega
    refine ⟨?_, .inl habove⟩
    rcases hfits.history r hmem with h | h
    · have hle : r.version ≤ topVersion (s.chainState clock e).history old.row :=
        version_le_topVersion (.inr h)
      omega
    · exact h
  refine Wrote.leads_putVersions hrows (fun t ht htcur => ?_) (.refl hsort) rfl
  split
  · exact ht
  · rename_i hne
    obtain ⟨hold, hmax, hslot⟩ := slot_of_fits hfits hcur hnew hne
    refine ⟨ht, fun t' r hcall => ?_⟩
    cases call_effect hcall with
    | versionPut =>
      have hx : s.Writable e (⟨ends, prev⟩ : Stored V).version := by
        show s.Writable e prev.version
        rw [hprev]
        exact hold
      refine (ht.putHistoryRow hx).leads_slotCall (fun cur hcur' => ?_) hmax hslot
      rw [current_putHistoryRow, htcur, hcur] at hcur'
      cases hcur'
      refine ⟨⟨ends, prev⟩, ?_, hprev⟩
      rw [history_putHistoryRow, update_self, Keyed.mem_put ht.sorted]
      exact .inl rfl

/-- The call of a superseding door. -/
theorem Store.leads_supersedingCall (hsort : Keyed.Sorted Stored.version (s.history e))
    (hfits : (s.chainState clock e).Fits st') (hcur : s.current e = some old)
    (hnew : st'.current = some new) (hne : new.version ≠ old.row.version)
    (hprev : prev.version = old.row.version) :
    Leads (s.Wrote e) s [supersedingCall e ends ev old.row new prev] := by
  obtain ⟨hold, hmax, hslot⟩ := slot_of_fits hfits hcur hnew hne
  have hx : s.Writable e (⟨ends, prev⟩ : Stored V).version := by
    show s.Writable e prev.version
    rw [hprev]
    exact hold
  have hput := (Wrote.refl hsort).putHistoryRow hx
  have hslotted : s.Wrote e ((s.putHistoryRow e ⟨ends, prev⟩).setCurrent e (some ⟨ends, new⟩)) := by
    refine hput.setSlot (y := ⟨ends, new⟩) (fun cur hcur' => ?_) hmax hslot rfl rfl
    rw [current_putHistoryRow, hcur] at hcur'
    cases hcur'
    refine ⟨⟨ends, prev⟩, ?_, hprev⟩
    rw [history_putHistoryRow, update_self, Keyed.mem_put hsort]
    exact .inl rfl
  have hreplace : ∀ routed, Leads (s.Wrote e) s
      [⟨.replaceWithHistory e ⟨ends, new⟩ old.row.version ⟨ends, prev⟩, routed⟩] := by
    refine fun routed => ⟨.refl hsort, fun t' r hcall => ?_⟩
    generalize old.row.version = v at hcall
    cases call_effect hcall with
    | superseded => exact hslotted
  unfold supersedingCall
  split
  · refine ⟨.refl hsort, fun t' r hcall => ?_⟩
    generalize old.row.version = v at hcall
    cases call_effect hcall with
    | labelSuperseded => exact hslotted
  · exact hreplace false
  · exact hreplace true

variable [DecidableEq V] {cfg : DoorConfig}

omit [DecidableEq V] in
/-- **The calls of a chain door** write above the chain and at the current row's version. -/
theorem Store.leads_storeCalls (hsort : Keyed.Sorted Stored.version (s.history e))
    (hfits : (s.chainState clock e).Fits st') :
    Leads (s.Wrote e) s ((s.chainState clock e).storeCalls e ends ev cfg st') := by
  unfold NodeState.storeCalls
  split
  · rename_i new hnone hnew
    have hcur : s.current e = none := by simpa [chainState] using hnone
    refine ⟨.refl hsort, fun s' r hcall => ?_⟩
    rcases hfits.current new hnew with h | ⟨hmax, -, habove⟩
    · cases hnone.symm.trans h
    · have habove := (habove.resolve_right fun h => h.1 hnone)
      have hslot : ∀ {t' : Store V},
          t'.current = update s.current e (some ⟨ends, new⟩) → t'.history = s.history →
          s.Wrote e t' := fun hset hhist =>
        (Wrote.refl hsort).setSlot (y := ⟨ends, new⟩) (fun cur hc => by rw [hcur] at hc; cases hc)
          hmax (.inl (above_of_rows habove)) hset hhist
      cases call_effect hcall with
      | putNode | putRel => exact hslot rfl rfl
  · rename_i current new hcur hnew
    obtain ⟨old, hold, rfl⟩ := map_eq_some_iff.mp hcur
    split
    · exact leads_cascadeCalls hsort hfits hold hnew (historyRowAt_version _ _)
    · split
      · exact .refl hsort
      · exact leads_supersedingCall hsort hfits hold hnew ‹_› (historyRowAt_version _ _)
  · exact .refl hsort

/-- A chain door leaves every other chain, and writes its own above the chain and at the current
row's version. -/
theorem Primary.wrote_runDoor {cfg : GraphConfig} {p : Primary V} (hclock : ClockOk p.clock)
    (hsort : Keyed.Sorted Stored.version (p.store.history e)) (hver : p.store.VersionsOk e)
    (token : Nat) : p.store.Wrote e (p.runDoor cfg token (.chain e ends ev)).store := by
  have hleads : Leads (p.store.Wrote e) p.store (p.doorCalls cfg (.chain e ends ev)).2 := by
    rw [Primary.doorCalls]
    split
    · dsimp only
      split
      · have heff := (p.store.chainState p.clock e).step_effect (cfg.forEntity e) (fun _ => hclock) ev
        refine leads_storeCalls hsort (heff.fits fun r hr => ?_)
        rcases hr with hr | hr
        · obtain ⟨x, hx, rfl⟩ := mem_map.mp hr
          exact hver x (.inl hx)
        · obtain ⟨x, hx, rfl⟩ := map_eq_some_iff.mp hr
          exact hver x (.inr hx)
      · exact .refl hsort
    · exact .refl hsort
  exact Leads.runCalls (p := { p with clock := (p.doorCalls cfg (.chain e ends ev)).1 }) hleads
    token

end StoreCalls

end RhoTkg
