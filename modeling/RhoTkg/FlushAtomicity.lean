import RhoTkg.StagedRecovery

/-!
# Flush crash atomicity

`flush_crash_atomic` puts the flush and the recoveries together: whatever call fails or dies in the
flush, and however many opens die in their recovery, the first open that completes finds the state
before the flush or the state with all its entries applied, and it finds the latter exactly when
the commit point was committed.

The entries are those `flushIndexLocked` builds.  They keep off the staging keys and the marker,
they set the store format marker and never delete it, and they set the commit floor and never
delete it: the recovery writes the floor in a transaction of its own, before the rest, and sets it
whatever its entry says (`floor_delete_resurrected`).
-/

namespace RhoTkg

open List Function
namespace StagedFlush

open PrefixCode (Bytes bigEndian ofBigEndian length_bigEndian ofBigEndian_bigEndian)
open LastWrite (run run_cons run_of_notMem run_congr run_cases run_forall₂ run_dedupLast
  dedupLast_sublist nodup_dedupLast mem_map_dedupLast)

/-- Entries as a flush has them. -/
structure Flushable (es : List FlushEntry) : Prop where
  outside : ∀ e ∈ es, Outside e.key
  floor : ∀ e ∈ es, e.key = commitFloorKey → e.del = false
  format : ∀ e ∈ es, e.key = wireFormatVersionKey → e.del = false ∧ e.value.length = 2
  count_lt : es.length < 256 ^ 8

/-- The store format marker; none is 0. -/
def formatMarkerOf (kv : KV) : ℕ := (kv.get wireFormatVersionKey).elim 0 ofBigEndian

/-! ## The format marker -/

theorem setsFormatMarker_iff {e : FlushEntry} : setsFormatMarker e = true ↔
    e.key = wireFormatVersionKey ∧ e.del = false ∧ e.value.length = 2 := by
  simp only [setsFormatMarker, Bool.and_eq_true, Bool.not_eq_true', beq_iff_eq]
  tauto

theorem formatMarkerValue_inj {v : ℕ} (h : v < 65536) : ofBigEndian (formatMarkerValue v) = v :=
  ofBigEndian_bigEndian (n := 2) h

theorem formatMarkerOf_eq {kv : KV} {v : ℕ}
    (h : kv.get wireFormatVersionKey = some (formatMarkerValue v)) (hv : v < 65536) :
    formatMarkerOf kv = v := by
  rw [formatMarkerOf, h, Option.elim_some, formatMarkerValue_inj hv]

/-- A number of two bytes. -/
theorem ofBigEndian_lt_of_length {bs : Bytes} (h : bs.length = 2) : ofBigEndian bs < 65536 := by
  obtain ⟨a, b, rfl⟩ := length_eq_two.mp h
  have ha := a.toNat_lt
  have hb := b.toNat_lt
  simp only [ofBigEndian, foldl_cons, foldl_nil]
  omega

/-- What `writtenFormatMarkers` makes of an entry. -/
structure Written (tracker raised : ℕ) (e e' : FlushEntry) : Prop where
  key_eq : e'.key = e.key
  del_eq : e'.del = e.del
  value_eq : e.key ≠ wireFormatVersionKey → e'.value = e.value
  format : e.key = wireFormatVersionKey →
    ∃ v ≤ raised, ofBigEndian e.value ≤ v ∧ tracker ≤ v ∧ e'.value = formatMarkerValue v

theorem Written.mono {t t' u u' : ℕ} {e e' : FlushEntry} (h : Written t' u e e') (ht : t ≤ t')
    (hu : u ≤ u') : Written t u' e e' := by
  refine ⟨h.key_eq, h.del_eq, h.value_eq, fun hk => ?_⟩
  obtain ⟨v, hv, hown, htrack, hval⟩ := h.format hk
  exact ⟨v, hv.trans hu, hown, ht.trans htrack, hval⟩

section Format

variable {es : List FlushEntry} (hfmt : ∀ e ∈ es, e.key = wireFormatVersionKey →
  e.del = false ∧ e.value.length = 2)
include hfmt

/-- Every entry keeps its key, and a format marker is raised to the tracker. -/
theorem writtenFormatMarkers_written (tracker : ℕ) :
    tracker ≤ (writtenFormatMarkers tracker es).1 ∧
      List.Forall₂ (Written tracker (writtenFormatMarkers tracker es).1) es
        (writtenFormatMarkers tracker es).2 := by
  induction es generalizing tracker with
  | nil => exact ⟨le_rfl, .nil⟩
  | cons e es ih =>
    have hfmt' := fun e he => hfmt e (mem_cons_of_mem _ he)
    by_cases hset : setsFormatMarker e = true
    · obtain ⟨hle, hrest⟩ := ih hfmt' (max tracker (ofBigEndian e.value))
      simp only [writtenFormatMarkers, hset, if_true]
      have hkey := (setsFormatMarker_iff.mp hset).1
      refine ⟨(le_max_left _ _).trans hle, .cons ?_ (hrest.imp fun _ _ h =>
        h.mono (le_max_left _ _) le_rfl)⟩
      exact ⟨rfl, rfl, fun hne => absurd hkey hne, fun _ =>
        ⟨_, hle, le_max_right _ _, le_max_left _ _, rfl⟩⟩
    · obtain ⟨hle, hrest⟩ := ih hfmt' tracker
      simp only [writtenFormatMarkers, hset, Bool.false_eq_true, if_false]
      refine ⟨hle, .cons ⟨rfl, rfl, fun _ => rfl, fun hkey => ?_⟩ hrest⟩
      exact absurd (setsFormatMarker_iff.mpr ⟨hkey, hfmt e mem_cons_self hkey⟩) hset

/-- The tracker stays below two bytes. -/
theorem writtenFormatMarkers_lt {tracker : ℕ} (h : tracker < 65536) :
    (writtenFormatMarkers tracker es).1 < 65536 := by
  induction es generalizing tracker with
  | nil => exact h
  | cons e es ih =>
    have hfmt' := fun e he => hfmt e (mem_cons_of_mem _ he)
    by_cases hset : setsFormatMarker e = true
    · simp only [writtenFormatMarkers, hset, if_true]
      refine ih hfmt' (max_lt h (ofBigEndian_lt_of_length ?_))
      exact (setsFormatMarker_iff.mp hset).2.2
    · simp only [writtenFormatMarkers, hset, Bool.false_eq_true, if_false]
      exact ih hfmt' h

/-- The last format marker of the entries is the tracker's. -/
theorem run_writtenFormatMarkers (tracker : ℕ) (s : Bytes → Option Bytes) :
    (∀ e ∈ es, e.key ≠ wireFormatVersionKey) ∧
        (writtenFormatMarkers tracker es).1 = tracker ∧
        run s ((writtenFormatMarkers tracker es).2.map FlushEntry.write) wireFormatVersionKey =
          s wireFormatVersionKey ∨
      run s ((writtenFormatMarkers tracker es).2.map FlushEntry.write) wireFormatVersionKey =
        some (formatMarkerValue (writtenFormatMarkers tracker es).1) := by
  induction es generalizing tracker s with
  | nil => exact .inl ⟨nofun, rfl, rfl⟩
  | cons e es ih =>
    have hfmt' := fun e he => hfmt e (mem_cons_of_mem _ he)
    by_cases hset : setsFormatMarker e = true
    · obtain ⟨hkey, hdel, -⟩ := setsFormatMarker_iff.mp hset
      simp only [writtenFormatMarkers, hset, if_true, map_cons, run_cons]
      refine .inr ?_
      obtain ⟨-, htracker, hrun⟩ | hrun := ih hfmt' (max tracker (ofBigEndian e.value))
        (update s e.key (some (formatMarkerValue (max tracker (ofBigEndian e.value)))))
      · rw [htracker]
        simpa [FlushEntry.write, FlushEntry.content, hdel, hkey] using hrun
      · simpa [FlushEntry.write, FlushEntry.content, hdel] using hrun
    · have hkey : e.key ≠ wireFormatVersionKey := fun hkey =>
        hset (setsFormatMarker_iff.mpr ⟨hkey, hfmt e mem_cons_self hkey⟩)
      simp only [writtenFormatMarkers, hset, Bool.false_eq_true, if_false, map_cons, run_cons]
      refine (ih hfmt' tracker _).imp ?_ id
      rintro ⟨hnone, htracker, hrun⟩
      refine ⟨fun e' he' => ?_, htracker, hrun.trans (update_of_ne hkey.symm ..)⟩
      rcases mem_cons.mp he' with rfl | he'
      · exact hkey
      · exact hnone e' he'

/-- Away from the format marker the written entries write what the entries write. -/
theorem run_written_of_ne (tracker : ℕ) (s : Bytes → Option Bytes) {k : Bytes}
    (hk : k ≠ wireFormatVersionKey) :
    run s ((writtenFormatMarkers tracker es).2.map FlushEntry.write) k =
      run s (es.map FlushEntry.write) k := by
  refine (run_forall₂ ?_).symm
  refine forall₂_map_left_iff.mpr (forall₂_map_right_iff.mpr ?_)
  refine (writtenFormatMarkers_written hfmt tracker).2.imp fun e e' h => ?_
  refine ⟨h.key_eq.symm, fun hek => ?_⟩
  change e.key = k at hek
  simp only [FlushEntry.write, FlushEntry.content, h.del_eq, h.value_eq (hek ▸ hk)]

end Format

/-! ## The staged entries -/

theorem raiseFormatMarker_key (staged : ℕ) (e : FlushEntry) :
    (raiseFormatMarker staged e).key = e.key := by
  unfold raiseFormatMarker
  split <;> rfl

theorem raiseFormatMarker_del (staged : ℕ) (e : FlushEntry) :
    (raiseFormatMarker staged e).del = e.del := by
  unfold raiseFormatMarker
  split <;> rfl

theorem raiseFormatMarker_of_ne {staged : ℕ} {e : FlushEntry} (h : e.key ≠ wireFormatVersionKey) :
    raiseFormatMarker staged e = e := by
  have hset : setsFormatMarker e = false := by
    cases hs : setsFormatMarker e with
    | false => rfl
    | true => exact absurd (setsFormatMarker_iff.mp hs).1 h
  simp [raiseFormatMarker, hset]

/-- A format marker at or below the staged one is raised to it. -/
theorem content_raiseFormatMarker {staged v : ℕ} {e : FlushEntry}
    (hkey : e.key = wireFormatVersionKey) (hdel : e.del = false)
    (hval : e.value = formatMarkerValue v) (hv : v ≤ staged) (hlt : staged < 65536) :
    (raiseFormatMarker staged e).content = some (formatMarkerValue staged) := by
  have hset : setsFormatMarker e = true :=
    setsFormatMarker_iff.mpr ⟨hkey, hdel, by rw [hval]; exact length_bigEndian 2 v⟩
  have hown : ofBigEndian e.value = v := by
    rw [hval]
    exact formatMarkerValue_inj (lt_of_le_of_lt hv hlt)
  rcases lt_or_eq_of_le hv with hless | rfl
  · simp [raiseFormatMarker, hset, hown, hless, FlushEntry.content, hdel]
  · have hkeep : raiseFormatMarker v e = e := by simp [raiseFormatMarker, hown]
    simp [hkeep, FlushEntry.content, hdel, hval]

section Staged

variable {es : List FlushEntry} {tracker staged seq : ℕ}

theorem exists_of_mem_right {α β : Type*} {R : α → β → Prop} {as : List α} {bs : List β}
    (h : List.Forall₂ R as bs) {b : β} (hb : b ∈ bs) : ∃ a ∈ as, R a b := by
  induction h with
  | nil => cases hb
  | @cons a b' as bs hab _ ih =>
    rcases mem_cons.mp hb with rfl | hb
    · exact ⟨a, mem_cons_self, hab⟩
    · obtain ⟨a', ha', hab'⟩ := ih hb
      exact ⟨a', mem_cons_of_mem _ ha', hab'⟩

/-- An entry a flush stages comes from an entry it was given. -/
theorem exists_of_mem_staged (h : Flushable es) {d : FlushEntry}
    (hd : d ∈ stagedEntries staged (writtenFormatMarkers tracker es).2) :
    ∃ e ∈ es, ∃ e', Written tracker (writtenFormatMarkers tracker es).1 e e' ∧
      d = raiseFormatMarker staged e' := by
  obtain ⟨e', he', rfl⟩ := mem_map.mp hd
  obtain ⟨e, he, hw⟩ := exists_of_mem_right (writtenFormatMarkers_written h.format tracker).2
    ((dedupLast_sublist FlushEntry.key _).subset he')
  exact ⟨e, he, e', hw, rfl⟩

theorem Flushable.stageable (h : Flushable es) (tracker staged : ℕ) (hseq : seq < 256 ^ 8) :
    Stageable (stagedEntries staged (writtenFormatMarkers tracker es).2) seq := by
  have hof : ∀ d ∈ stagedEntries staged (writtenFormatMarkers tracker es).2,
      ∃ e ∈ es, d.key = e.key ∧ d.del = e.del := by
    intro d hd
    obtain ⟨e, he, e', hw, rfl⟩ := exists_of_mem_staged h hd
    exact ⟨e, he, (raiseFormatMarker_key ..).trans hw.key_eq,
      (raiseFormatMarker_del ..).trans hw.del_eq⟩
  refine ⟨fun d hd => ?_, ?_, fun d hd hfloor => ?_, hseq, ?_⟩
  · obtain ⟨e, he, hkey, -⟩ := hof d hd
    exact hkey ▸ h.outside e he
  · have hkeys : (stagedEntries staged (writtenFormatMarkers tracker es).2).map FlushEntry.key =
        (dedupFlushEntries (writtenFormatMarkers tracker es).2).map FlushEntry.key := by
      rw [stagedEntries, map_map]
      exact map_congr_left fun e _ => raiseFormatMarker_key staged e
    rw [hkeys]
    exact nodup_dedupLast FlushEntry.key _
  · obtain ⟨e, he, hkey, hdel⟩ := hof d hd
    exact hdel.trans (h.floor e he (hkey.symm.trans hfloor))
  · have hlength := (writtenFormatMarkers_written h.format tracker).2.length_eq
    rw [stagedEntries, length_map]
    have hsub := (dedupLast_sublist FlushEntry.key (writtenFormatMarkers tracker es).2).length_le
    exact lt_of_le_of_lt (hlength ▸ hsub) h.count_lt

/-- Away from the format marker the staged entries write what the entries write. -/
theorem run_staged_of_ne (h : Flushable es) (s : Bytes → Option Bytes) (v : Option Bytes)
    {k : Bytes} (hk : k ≠ wireFormatVersionKey) :
    run (Function.update s wireFormatVersionKey v)
        ((stagedEntries staged (writtenFormatMarkers tracker es).2).map FlushEntry.write) k =
      run s (es.map FlushEntry.write) k := by
  have hraise : ∀ t : Bytes → Option Bytes,
      run t ((stagedEntries staged (writtenFormatMarkers tracker es).2).map FlushEntry.write) k =
        run t ((dedupFlushEntries (writtenFormatMarkers tracker es).2).map FlushEntry.write) k := by
    intro t
    refine (run_forall₂ ?_).symm
    rw [stagedEntries, map_map]
    refine forall₂_map_left_iff.mpr (forall₂_map_right_iff.mpr ?_)
    refine forall₂_same.mpr fun e _ => ⟨(raiseFormatMarker_key staged e).symm, fun hek => ?_⟩
    change e.key = k at hek
    rw [comp_apply, raiseFormatMarker_of_ne (hek ▸ hk)]
  calc run (update s wireFormatVersionKey v)
        ((stagedEntries staged (writtenFormatMarkers tracker es).2).map FlushEntry.write) k
      = run s ((stagedEntries staged (writtenFormatMarkers tracker es).2).map FlushEntry.write) k :=
        run_congr (.inr (update_of_ne hk ..))
    _ = run s ((dedupFlushEntries (writtenFormatMarkers tracker es).2).map FlushEntry.write) k :=
        hraise s
    _ = run s ((writtenFormatMarkers tracker es).2.map FlushEntry.write) k :=
        congrFun (run_dedupLast FlushEntry.key FlushEntry.content _) k
    _ = run s (es.map FlushEntry.write) k := run_written_of_ne h.format tracker s hk

/-- The staged entries leave the format marker of the commit point. -/
theorem run_staged_format (h : Flushable es) (s : Bytes → Option Bytes)
    (hle : (writtenFormatMarkers tracker es).1 ≤ staged) (hlt : staged < 65536) :
    run (Function.update s wireFormatVersionKey (some (formatMarkerValue staged)))
        ((stagedEntries staged (writtenFormatMarkers tracker es).2).map FlushEntry.write)
        wireFormatVersionKey =
      some (formatMarkerValue staged) := by
  obtain ⟨-, heq⟩ | ⟨v, hv, heq⟩ := run_cases
    (update s wireFormatVersionKey (some (formatMarkerValue staged)))
    ((stagedEntries staged (writtenFormatMarkers tracker es).2).map FlushEntry.write)
    wireFormatVersionKey
  · rw [heq, update_self]
  · rw [heq]
    obtain ⟨d, hd, hwrite⟩ := mem_map.mp hv
    obtain ⟨hkey, rfl⟩ := Prod.mk.inj hwrite
    obtain ⟨e, he, e', hw, rfl⟩ := exists_of_mem_staged h hd
    rw [raiseFormatMarker_key] at hkey
    have hown := hw.key_eq.symm.trans hkey
    obtain ⟨v, hv, -, -, hval⟩ := hw.format hown
    exact content_raiseFormatMarker hkey (hw.del_eq.trans (h.format e he hown).1) hval
      (hv.trans hle) hlt

end Staged

/-! ## The flush and the opens after it -/

/-- The entries are applied: every key holds what its last entry gives it, and the format marker is
raised to its entries, and of a staged flush to `StagedFlushStoreFormatVersion`. -/
structure Applied (fits : Bool) (before : KV) (es : List FlushEntry) (after : KV) : Prop where
  rows : ∀ k, Outside k → k ≠ wireFormatVersionKey →
    after.get k = run before.get (es.map FlushEntry.write) k
  not_lowered : formatMarkerOf before ≤ formatMarkerOf after
  entries_le : ∀ e ∈ es, e.key = wireFormatVersionKey → ofBigEndian e.value ≤ formatMarkerOf after
  staged_le : fits = false → stagedFlushStoreFormatVersion ≤ formatMarkerOf after
  unnamed : fits = true → (∀ e ∈ es, e.key ≠ wireFormatVersionKey) →
    after.get wireFormatVersionKey = before.get wireFormatVersionKey

section Atomicity

variable {es : List FlushEntry} {tracker seq : ℕ} {kv : KV}

/-- An entry's format marker is at most the tracker's after it. -/
theorem ofBigEndian_le_written (h : Flushable es) {e : FlushEntry} (he : e ∈ es)
    (hkey : e.key = wireFormatVersionKey) :
    ofBigEndian e.value ≤ (writtenFormatMarkers tracker es).1 := by
  have hforall := (writtenFormatMarkers_written h.format tracker).2
  obtain ⟨e', -, hw⟩ := exists_of_mem_right hforall.flip he
  obtain ⟨v, hv, hown, -, -⟩ := hw.format hkey
  exact hown.trans hv

/-- The rows a completed flush leaves. -/
def flushedRows (tracker : ℕ) (fits : Bool) (es : List FlushEntry) (kv : KV) :
    Bytes → Option Bytes :=
  let written := writtenFormatMarkers tracker es
  let staged := max written.1 stagedFlushStoreFormatVersion
  if fits then run kv.get (written.2.map FlushEntry.write)
  else run (Function.update kv.get wireFormatVersionKey (some (formatMarkerValue staged)))
    ((stagedEntries staged written.2).map FlushEntry.write)

/-- The rows a completed flush leaves are the applied ones. -/
theorem applied_of_settled (h : Flushable es) (htracker : tracker < 65536)
    (hle : formatMarkerOf kv ≤ tracker) (fits : Bool) {kv' : KV}
    (hs : Settled (flushedRows tracker fits es kv) kv') : Applied fits kv es kv' := by
  have hmono := (writtenFormatMarkers_written h.format tracker).1
  have hlt := writtenFormatMarkers_lt h.format htracker
  have hreads := hs.reads
  have hfmt := hreads wireFormatVersionKey outside_wireFormatVersionKey
  cases fits with
  | false =>
    have hstaged : max (writtenFormatMarkers tracker es).1 stagedFlushStoreFormatVersion < 65536 :=
      max_lt hlt (by decide)
    have hmarker : formatMarkerOf kv' =
        max (writtenFormatMarkers tracker es).1 stagedFlushStoreFormatVersion := by
      exact formatMarkerOf_eq (hfmt.trans (run_staged_format h _ (le_max_left _ _) hstaged)) hstaged
    refine ⟨fun k hk hne => ?_, ?_, fun e he hkey => ?_, fun _ => ?_, nofun⟩
    · rw [hreads k hk]
      exact run_staged_of_ne h _ _ hne
    · rw [hmarker]
      exact (hle.trans hmono).trans (le_max_left _ _)
    · rw [hmarker]
      exact (ofBigEndian_le_written h he hkey).trans (le_max_left _ _)
    · rw [hmarker]
      exact le_max_right _ _
  | true =>
    have hrows : ∀ k, Outside k → k ≠ wireFormatVersionKey →
        kv'.get k = run kv.get (es.map FlushEntry.write) k := fun k hk hne =>
      (hreads k hk).trans (run_written_of_ne h.format tracker _ hne)
    obtain ⟨hnone, htrack, hrun⟩ | hrun := run_writtenFormatMarkers h.format tracker kv.get
    · have hsame : kv'.get wireFormatVersionKey = kv.get wireFormatVersionKey := hfmt.trans hrun
      refine ⟨hrows, ?_, fun e he hkey => absurd hkey (hnone e he), nofun, fun _ _ => hsame⟩
      exact le_of_eq (by rw [formatMarkerOf, formatMarkerOf, hsame])
    · have hmarker := formatMarkerOf_eq (hfmt.trans hrun) hlt
      refine ⟨hrows, hmarker ▸ hle.trans hmono, fun e he hkey => ?_, nofun, fun _ hnone => ?_⟩
      · rw [hmarker]
        exact ofBigEndian_le_written h he hkey
      · rw [hfmt]
        refine run_of_notMem fun hmem => ?_
        rw [map_map] at hmem
        obtain ⟨e', he', hkey⟩ := mem_map.mp hmem
        obtain ⟨e, he, hw⟩ :=
          exists_of_mem_right (writtenFormatMarkers_written h.format tracker).2 he'
        exact hnone e he (hw.key_eq.symm.trans hkey)

/-- A flush in one transaction leaves its rows. -/
theorem settled_putAll_written (tracker : ℕ) (h : Flushable es)
    (hmarker : kv.get flushStageMarkerKey = none) :
    Settled (flushedRows tracker true es kv) (kv.putAll (writtenFormatMarkers tracker es).2) := by
  refine ⟨?_, fun k _ => congrFun (kv.get_putAll _) k⟩
  rw [kv.get_putAll_of_notMem, hmarker]
  intro hmem
  obtain ⟨e', he', hkey⟩ := mem_map.mp hmem
  obtain ⟨e, he, hw⟩ := exists_of_mem_right (writtenFormatMarkers_written h.format tracker).2 he'
  exact (h.outside e he).2 (hw.key_eq.symm.trans hkey)

/-- A flush leaves the state before it, or itself pending or completed. -/
theorem commitFlushEntries_flushed (tracker : ℕ) (h : Flushable es) (hseq : seq < 256 ^ 8)
    (hmarker : kv.get flushStageMarkerKey = none)
    (hfresh : ∀ k, kv.get (stageKey seq k) = none) (syncWrites fits : Bool) (io : FlushIo) :
    ∃ ds, Stageable ds seq ∧ Flushed kv.get (flushedRows tracker fits es kv) ds seq
      (commitFlushEntries tracker seq syncWrites fits es io kv) := by
  refine ⟨_, h.stageable tracker (max (writtenFormatMarkers tracker es).1
    stagedFlushStoreFormatVersion) hseq, ?_⟩
  cases fits with
  | false =>
    have hflushed := commitStaged_flushed (writtenFormatMarkers tracker es).1 syncWrites
      (h.stageable tracker _ hseq) hmarker hfresh io
    simpa only [commitFlushEntries, flushedRows, Bool.false_eq_true, if_false] using hflushed
  | true =>
    have hbefore : Settled kv.get kv := ⟨hmarker, fun _ _ => rfl⟩
    have hafter := settled_putAll_written tracker h hmarker
    simp only [commitFlushEntries, if_true]
    cases hio : io.single with
    | ok => exact .inr ⟨rfl, .inr hafter, by rintro ⟨⟩⟩
    | fail n => exact .inl ⟨rfl, hbefore, .inr rfl⟩
    | crash n =>
      cases n with
      | zero => exact .inl ⟨rfl, hbefore, .inl rfl⟩
      | succ n => exact .inr ⟨rfl, .inr hafter, by rintro ⟨⟩⟩

/-- The opens after a flush, each ending as it may. -/
def opensAfter (kv : KV) (opens : List RecoverIo) : KV :=
  opens.foldl (fun kv io => (recoverStagedFlush io kv).1) kv

/-- Opens leave a flush pending or settled. -/
theorem opensAfter_recovered {rows : Bytes → Option Bytes} {ds : List FlushEntry}
    (hds : Stageable ds seq) (opens : List RecoverIo)
    (h : Pending rows ds seq kv ∨ Settled rows kv) :
    Pending rows ds seq (opensAfter kv opens) ∨ Settled rows (opensAfter kv opens) := by
  induction opens generalizing kv with
  | nil => exact h
  | cons io opens ih =>
    refine ih ?_
    rcases h with h | h
    · exact (recovered_of_pending h hds io).1
    · exact (recovered_of_settled h io).1

/-- Whatever fails or dies in a flush and in the opens after it, the first open that completes finds
the rows before the flush or the flush applied, and no staging; it finds the flush applied exactly
when the commit point was committed, which the state the flush returned agrees with. -/
theorem flush_crash_atomic (h : Flushable es) (hseq : seq < 256 ^ 8)
    (hmarker : kv.get flushStageMarkerKey = none)
    (hfresh : ∀ k, kv.get (stageKey seq k) = none)
    (htracker : tracker < 65536) (hle : formatMarkerOf kv ≤ tracker)
    (syncWrites fits : Bool) (io : FlushIo) (opens : List RecoverIo) (last : RecoverIo)
    {flushed : FlushRun} (hflush : commitFlushEntries tracker seq syncWrites fits es io kv = flushed)
    {final : KV} (hfinal : recoverStagedFlush last (opensAfter flushed.kv opens) = (final, .opened)) :
    final.get flushStageMarkerKey = none ∧ Clean final ∧
      ((flushed.committed = false ∧ ∀ k, Outside k → final.get k = kv.get k) ∨
        (flushed.committed = true ∧ Applied fits kv es final)) ∧
      (flushed.result = .returned .flushApplied ∨
          flushed.result = .returned .flushCommittedNotApplied → flushed.committed = true) ∧
      (flushed.result = .returned .flushNotCommitted → flushed.committed = false) := by
  have hlast : ∀ {rows ds}, Stageable ds seq →
      Pending rows ds seq flushed.kv ∨ Settled rows flushed.kv → Settled rows final ∧ Clean final := by
    intro rows ds hds hor
    have hrec : Recovered rows ds seq (recoverStagedFlush last (opensAfter flushed.kv opens)) := by
      rcases opensAfter_recovered hds opens hor with hp | hs
      · exact recovered_of_pending hp hds last
      · exact recovered_of_settled hs last
    rw [hfinal] at hrec
    exact hrec.2 rfl
  obtain ⟨ds, hds, hcases⟩ := commitFlushEntries_flushed tracker h hseq hmarker hfresh syncWrites
    fits io
  rw [hflush] at hcases
  obtain ⟨hcommitted, hbefore, hresult⟩ | ⟨hcommitted, hor, hresult⟩ := hcases
  · obtain ⟨hsettled, hclean⟩ := hlast hds (.inr hbefore)
    refine ⟨hsettled.unmarked, hclean, .inl ⟨hcommitted, hsettled.reads⟩, ?_, fun _ => hcommitted⟩
    rcases hresult with hr | hr <;> simp [hr]
  · obtain ⟨hsettled, hclean⟩ := hlast hds hor
    exact ⟨hsettled.unmarked, hclean,
      .inr ⟨hcommitted, applied_of_settled h htracker hle fits hsettled⟩, fun _ => hcommitted,
      fun hr => absurd hr hresult⟩

end Atomicity

/-! ## Runs -/

/-- Every call of a recovery succeeds. -/
def RecoverIo.succeeds : RecoverIo := ⟨.ok, .ok, .ok, .ok, .ok⟩

/-- The process dies in the first apply of a staged flush, after `n` writes. -/
def FlushIo.diesInApply (n : ℕ) : FlushIo := ⟨.ok, .ok, .ok, fun _ => .crash n, .ok, .ok⟩

/-- Two entries of one key, and a delete. -/
def repeatedEntries : List FlushEntry := [⟨[1], [5], false⟩, ⟨[2], [], true⟩, ⟨[1], [6], false⟩]

/-- A staged flush that sets a key twice, dies in its apply, and is recovered by the second open. -/
theorem flush_crash_atomic_mid_apply :
    Applied false ∅ repeatedEntries (recoverStagedFlush .succeeds (opensAfter
      (commitFlushEntries 0 3 true false repeatedEntries (.diesInApply 1) ∅).kv
      [{ RecoverIo.succeeds with apply := .crash 1 }])).1 := by
  have hes : Flushable repeatedEntries := ⟨by decide, by decide, by decide, by decide⟩
  have hempty : ∀ k, (∅ : KV).get k = none := fun _ => rfl
  obtain ⟨flushed, hflush⟩ :
      ∃ r, commitFlushEntries 0 3 true false repeatedEntries (.diesInApply 1) ∅ = r := ⟨_, rfl⟩
  have hcommitted : flushed.committed = true := by
    rw [← hflush]
    decide +kernel
  have hopened : (recoverStagedFlush .succeeds (opensAfter flushed.kv
      [{ RecoverIo.succeeds with apply := .crash 1 }])).2 = .opened := by
    rw [← hflush]
    decide +kernel
  rw [hflush]
  obtain ⟨-, -, hor, -⟩ := flush_crash_atomic hes (by decide) (hempty _) (fun k => hempty _)
    (by decide) (le_refl 0) true false _ [{ RecoverIo.succeeds with apply := .crash 1 }] .succeeds
    hflush (Prod.ext rfl hopened)
  exact (hor.resolve_left fun h => absurd h.1 (by rw [hcommitted]; exact Bool.noConfusion)).2

/-- A staged flush that deletes the commit floor and dies in its apply: the recovery sets the floor
to nothing, where it stood before the flush and the flush deletes it. -/
theorem floor_delete_resurrected :
    let kv : KV := (∅ : KV).put ⟨commitFloorKey, [7], false⟩
    let es : List FlushEntry := [⟨commitFloorKey, [], true⟩]
    let flushed := commitFlushEntries 0 1 true false es (.diesInApply 0) kv
    let opened := recoverStagedFlush .succeeds flushed.kv
    flushed.committed = true ∧ opened.2 = .opened ∧ opened.1.get commitFloorKey = some [] ∧
      kv.get commitFloorKey = some [7] ∧
      run kv.get (es.map FlushEntry.write) commitFloorKey = none := by
  decide +kernel

end StagedFlush
end RhoTkg
