import Mathlib.Data.List.TakeWhile
import RhoTkg.ChangeLog

/-!
# What the merge hands out

While a merge with the bound `w` runs, the shards only gain records: a flush moves buffered ones to the
log, a writer adds one with a larger LSN than all before.  `Merge.Ok` says where the records above the
last one handed out are: in a cursor's buffer, above a cursor, or above `w`.  It survives such changes
(`Merge.Ok.grow`) and every step of the merge (`Merge.Ok.step`), provided an empty page means that the
shard has nothing up to `w` in its buffer either.  Each record handed out is then the next one in LSN
order over all shards (`IsNext`).
-/

namespace RhoTkg

open List

variable {P : Type}

/-! ## Shards -/

/-- An entry of a list after one entry was set. -/
theorem getElem?_set_cases {α : Type*} {l : List α} {i j : Nat} {a x : α}
    (h : (l.set i a)[j]? = some x) : (j = i ∧ x = a) ∨ (j ≠ i ∧ l[j]? = some x) := by
  rw [getElem?_set] at h
  split at h
  · rename_i hij
    split at h
    · cases h
      exact .inl ⟨hij.symm, rfl⟩
    · cases h
  · rename_i hij
    exact .inr ⟨Ne.symm hij, h⟩

/-- An entry stays unless it is the one that was set. -/
theorem eq_or_mem_set {α : Type*} {l : List α} {i : Nat} {a x : α} (a' : α) (ha : l[i]? = some a)
    (hx : x ∈ l) : x = a ∨ x ∈ l.set i a' := by
  obtain ⟨j, hj⟩ := getElem?_of_mem hx
  by_cases hij : i = j
  · exact .inl (Option.some.inj (hj.symm.trans (hij ▸ ha)))
  · exact .inr (mem_of_getElem? ((getElem?_set_ne hij).trans hj))

namespace LogShard

variable {s : LogShard P}

/-- The buffered records follow the durable ones in LSN order. -/
def Ascending (s : LogShard P) : Prop := Keyed.Sorted ChangeRecord.lsn s.records

theorem flush_pendingLog (s : LogShard P) : s.flush.pendingLog = [] := by
  unfold flush
  split
  · rename_i h
    exact isEmpty_iff.mp h
  · rfl

theorem Ascending.flush_log (h : s.Ascending) : s.flush.log = s.records := by
  have hparts := pairwise_append.mp h
  unfold flush records
  split
  · rename_i hempty
    rw [isEmpty_iff.mp hempty, append_nil]
  · have hsorted : s.pendingLog.insertionSort (fun x y => x.lsn ≤ y.lsn) = s.pendingLog :=
      Pairwise.insertionSort_eq (hparts.2.1.imp le_of_lt)
    simp only [hsorted]
    exact Keyed.foldl_put_eq_append hparts.2.1 hparts.2.2

theorem Ascending.flush_records (h : s.Ascending) : s.flush.records = s.records := by
  rw [records, h.flush_log, flush_pendingLog, append_nil]

theorem Ascending.flush (h : s.Ascending) : s.flush.Ascending := by
  unfold Ascending
  rw [h.flush_records]
  exact h

theorem lastLSN_flush_le {seq : Nat} (hlast : s.lastLSN ≤ seq) (hle : ∀ r ∈ s.pendingLog, r.lsn ≤ seq) :
    s.flush.lastLSN ≤ seq := by
  unfold LogShard.flush
  split
  · exact hlast
  · exact @foldlRecOn _ _ (· ≤ seq) _ _ _ (Nat.zero_le _) fun _ h r hr => max_le h (hle r hr)

/-- What happens to a shard while a merge with the bound `w` runs: no durable record is lost, and a
new record is above `w`. -/
structure Grows (w : Nat) (s s' : LogShard P) : Prop where
  log : ∀ r ∈ s.log, r ∈ s'.log
  records : ∀ r ∈ s'.records, r ∈ s.records ∨ w < r.lsn

theorem Grows.refl (w : Nat) (s : LogShard P) : s.Grows w s := ⟨fun _ => id, fun _ => .inl⟩

theorem Ascending.grows_flush (h : s.Ascending) (w : Nat) : s.Grows w s.flush where
  log _ hr := h.flush_log ▸ mem_append_left _ hr
  records _ hr := .inl (h.flush_records ▸ hr)

end LogShard

variable {s : LogShard P}

/-- A page of a shard: durable records after the cursor up to the bound, all of them up to the last
one. -/
theorem pageBoundedFeed_spec (h : s.Ascending) (after w : Nat) :
    (∀ r ∈ pageBoundedFeed s after w, r ∈ s.log ∧ after < r.lsn ∧ r.lsn ≤ w) ∧
      Keyed.Sorted ChangeRecord.lsn (pageBoundedFeed s after w) ∧
      (∀ last ∈ pageBoundedFeed s after w, ∀ r ∈ s.records, after < r.lsn → r.lsn ≤ last.lsn →
        r ∈ pageBoundedFeed s after w) := by
  have hparts := pairwise_append.mp h
  have hsort : Keyed.Sorted ChangeRecord.lsn (s.log.filter fun r => decide (after < r.lsn)) :=
    hparts.1.filter _
  have hpre : pageBoundedFeed s after w <+: s.log.filter fun r => decide (after < r.lsn) :=
    IsPrefix.trans ( takeWhile_prefix _) ( take_prefix _ _)
  have hmem : ∀ r ∈ pageBoundedFeed s after w, r ∈ s.log ∧ after < r.lsn := by
    intro r hr
    simpa using mem_filter.mp (hpre.subset hr)
  refine ⟨fun r hr => ⟨(hmem r hr).1, (hmem r hr).2, by simpa using mem_takeWhile_imp hr⟩,
    hsort.sublist hpre.sublist, fun last hlast r hr hafter hle => ?_⟩
  rcases mem_append.mp hr with hr | hr
  · exact hsort.mem_initial hpre hlast (mem_filter.mpr ⟨hr, by simpa using hafter⟩) hle
  · exact absurd (hparts.2.2 last (hmem last hlast).1 r hr) (not_lt.mpr hle)

/-- An empty page: the log holds nothing after the cursor up to the bound. -/
theorem lt_of_pageBoundedFeed_eq_nil (h : s.Ascending) {after w : Nat}
    (hpage : pageBoundedFeed s after w = []) {r : ChangeRecord P} (hr : r ∈ s.log)
    (hafter : after < r.lsn) : w < r.lsn := by
  have hsort : Keyed.Sorted ChangeRecord.lsn (s.log.filter fun r => decide (after < r.lsn)) :=
    (pairwise_append.mp h).1.filter _
  have hr' : r ∈ s.log.filter fun r => decide (after < r.lsn) :=
    mem_filter.mpr ⟨hr, by simpa using hafter⟩
  unfold pageBoundedFeed at hpage
  cases hl : s.log.filter fun r => decide (after < r.lsn) with
  | nil =>
    rw [hl] at hr'
    cases hr'
  | cons x l =>
    rw [hl] at hpage hsort hr'
    have hx : w < x.lsn := by
      by_contra hle
      rw [show changeFeedPageSize = 255 + 1 from rfl, take_succ_cons,
        takeWhile_cons_of_pos (by simpa using hle)] at hpage
      cases hpage
    rcases mem_cons.mp hr' with rfl | hr'
    · exact hx
    · exact hx.trans ((pairwise_cons.mp hsort).1 r hr')

/-! ## Cursors -/

/-- What a cursor of a running merge says about its shard, when the records up to `after` are
handed out. -/
structure ShardCursor.Covers (sc : ShardCursor P) (s : LogShard P) (after w : Nat) : Prop where
  sorted : Keyed.Sorted ChangeRecord.lsn sc.buf
  buf : ∀ r ∈ sc.buf, r ∈ s.log ∧ after < r.lsn ∧ r.lsn ≤ sc.cursor
  last : ∀ r ∈ sc.buf.getLast?, r.lsn = sc.cursor
  bound : sc.cursor ≤ w
  all : ∀ r ∈ s.records, after < r.lsn → r.lsn ≤ sc.cursor → r ∈ sc.buf
  exhausted : sc.done = true → ∀ r ∈ s.records, after < r.lsn → w < r.lsn

namespace ShardCursor.Covers

variable {sc : ShardCursor P} {s s' : LogShard P} {after w : Nat}

theorem grow (h : sc.Covers s after w) (hs : s.Grows w s') : sc.Covers s' after w where
  sorted := h.sorted
  buf r hr := ⟨hs.log r (h.buf r hr).1, (h.buf r hr).2⟩
  last := h.last
  bound := h.bound
  all r hr hafter hle := by
    rcases hs.records r hr with hr | hlt
    · exact h.all r hr hafter hle
    · exact absurd hle (not_le.mpr (h.bound.trans_lt hlt))
  exhausted hdone r hr hafter := by
    rcases hs.records r hr with hr | hlt
    · exact h.exhausted hdone r hr hafter
    · exact hlt

theorem buf_eq_nil (h : sc.Covers s after w) (hdone : sc.done = true) : sc.buf = [] := by
  refine eq_nil_iff_forall_not_mem.mpr fun r hr => ?_
  obtain ⟨hlog, hafter, hle⟩ := h.buf r hr
  have := h.exhausted hdone r (mem_append_left _ hlog) hafter
  have := h.bound
  omega

/-- A page of a shard whose records up to the cursor are handed out. -/
theorem page (sc : ShardCursor P) (hasc : s.Ascending) (hw : after ≤ w) (hcursor : sc.cursor = after)
    (hdone : sc.done = false) (hbuf : sc.buf = [])
    (hclear : pageBoundedFeed s after w = [] → ∀ r ∈ s.pendingLog, w < r.lsn) :
    (sc.page s w).Covers s after w ∧ ((sc.page s w).buf = [] → (sc.page s w).done = true) := by
  obtain ⟨cursor, buf, done⟩ := sc
  subst hcursor hdone hbuf
  obtain ⟨hmem, hsorted, hall⟩ := pageBoundedFeed_spec hasc cursor w
  unfold ShardCursor.page
  simp only [Bool.false_eq_true, if_false]
  cases hlast : (pageBoundedFeed s cursor w).getLast? with
  | none =>
    have hnil := getLast?_eq_none_iff.mp hlast
    refine ⟨⟨Pairwise.nil, fun r hr => (not_mem_nil hr).elim,
      fun r hr => (Option.not_mem_none r hr).elim, hw, fun r _ hafter hle => absurd hle (not_le.mpr hafter), fun _ r hr hafter => ?_⟩, fun _ => rfl⟩
    rcases mem_append.mp hr with hr | hr
    · exact lt_of_pageBoundedFeed_eq_nil hasc hnil hr hafter
    · exact hclear hnil r hr
  | some last =>
    have hlastMem := mem_of_getLast? hlast
    refine ⟨⟨hsorted, fun r hr => ⟨(hmem r hr).1, (hmem r hr).2.1, ?_⟩,
      fun r hr => ?_, (hmem last hlastMem).2.2, fun r hr => hall last hlastMem r hr, fun h => by cases h⟩, fun h => ?_⟩
    · exact hsorted.le_getLast hlast hr
    · cases hlast.symm.trans hr
      rfl
    · simp only at h
      rw [h] at hlastMem
      cases hlastMem

end ShardCursor.Covers

/-! ## The merge -/

/-- What happens to the shards while a merge with the bound `w` runs: each one grows, and a shard
added meanwhile holds records above `w` only. -/
def ShardsGrow (w : Nat) (shards shards' : List (LogShard P)) : Prop :=
  (∀ (i : Nat) (s : LogShard P), shards[i]? = some s → ∃ s', shards'[i]? = some s' ∧ s.Grows w s') ∧
    ∀ (i : Nat) (s' : LogShard P), shards'[i]? = some s' → shards[i]? = none → ∀ r ∈ s'.records, w < r.lsn

/-- No LSN is held by two shards. -/
def LSNsApart (shards : List (LogShard P)) : Prop :=
  ∀ (i j : Nat) (s t : LogShard P), shards[i]? = some s → shards[j]? = some t →
    ∀ r ∈ s.records, ∀ x ∈ t.records, r.lsn = x.lsn → i = j

/-- The shards of one allocator: every shard ascends, no LSN is held by two of them, and none is above
the allocator. -/
structure LogsOk (shards : List (LogShard P)) (seq : Nat) : Prop where
  ascending : ∀ s ∈ shards, s.Ascending
  apart : LSNsApart shards
  lastLSN_le : ∀ s ∈ shards, s.lastLSN ≤ seq
  lsn_le : ∀ s ∈ shards, ∀ r ∈ s.records, r.lsn ≤ seq

/-- The heap holds the head of every buffer that has one. -/
structure HeapOk (heap : List FeedHeapItem) (cursors : List (ShardCursor P)) : Prop where
  nodup : heap.Nodup
  mem_iff : ∀ item, item ∈ heap ↔ ∃ sc r, cursors[item.shard]? = some sc ∧ sc.buf.head? = some r ∧
    item.lsn = r.lsn

/-- Every cursor says the truth about its shard. -/
def CursorsCover (shards : List (LogShard P)) (after w : Nat) (cursors : List (ShardCursor P)) : Prop :=
  ∀ (i : Nat) (sc : ShardCursor P), cursors[i]? = some sc →
    ∃ s, shards[i]? = some s ∧ sc.Covers s after w

/-- **The merge invariant.**  The records up to `after` are handed out. -/
def Merge.Ok (shards : List (LogShard P)) (count after w : Nat) : Merge P → Prop
  | .priming cursors => cursors.length ≤ count ∧ CursorsCover shards after w cursors ∧
      ∀ sc ∈ cursors, sc.buf = [] → sc.done = true
  | .draining cursors heap => cursors.length = count ∧ CursorsCover shards after w cursors ∧
      (∀ sc ∈ cursors, sc.buf = [] → sc.done = true) ∧ HeapOk heap cursors
  | .refilling cursors heap shard => cursors.length = count ∧ CursorsCover shards after w cursors ∧
      (∀ (i : Nat) (sc : ShardCursor P), cursors[i]? = some sc → i ≠ shard → sc.buf = [] →
        sc.done = true) ∧
      HeapOk heap cursors ∧
      ∃ sc, cursors[shard]? = some sc ∧ sc.cursor = after ∧ sc.done = false ∧ sc.buf = []

/-- The record is the next one in LSN order over all shards. -/
structure IsNext (shards : List (LogShard P)) (after w : Nat) (r : ChangeRecord P) : Prop where
  durable : ∃ s ∈ shards, r ∈ s.log
  after_lt : after < r.lsn
  le_bound : r.lsn ≤ w
  least : ∀ s ∈ shards, ∀ x ∈ s.records, after < x.lsn → r.lsn ≤ x.lsn

/-- What a step of a merge in order does. -/
def MergeStep.Ok (shards : List (LogShard P)) (count after w : Nat) : MergeStep P → Prop
  | .run m => m.Ok shards count after w
  | .emit r m => IsNext shards after w r ∧ m.Ok shards count r.lsn w
  | .overrun _ => False
  | .finished => True

/-- The page the next step reads is empty only when the shard's buffer holds nothing up to the
bound. -/
def Merge.PageClear (shards : List (LogShard P)) (count after w : Nat) (m : Merge P) : Prop :=
  ∀ page ∈ m.nextPage count after, ∀ s ∈ shards[page.1]?,
    pageBoundedFeed s page.2 w = [] → ∀ r ∈ s.pendingLog, w < r.lsn

instance (shards : List (LogShard P)) (count after w : Nat) (m : Merge P) :
    Decidable (m.PageClear shards count after w) :=
  inferInstanceAs (Decidable (∀ page ∈ m.nextPage count after, ∀ s ∈ shards[page.1]?,
    pageBoundedFeed s page.2 w = [] → ∀ r ∈ s.pendingLog, w < r.lsn))

section Logs

variable {shards : List (LogShard P)} {seq w i : Nat} {s s' : LogShard P}

theorem shardsGrow_set (hs : shards[i]? = some s) (hg : s.Grows w s') :
    ShardsGrow w shards (shards.set i s') := by
  have hlen : i < shards.length := (List.getElem?_eq_some_iff.mp hs).1
  refine ⟨fun j t ht => ?_, fun j t ht hnone => ?_⟩
  · by_cases hij : i = j
    · subst hij
      cases hs.symm.trans ht
      exact ⟨s', getElem?_set_self hlen, hg⟩
    · exact ⟨t, by rw [getElem?_set_ne hij, ht], .refl w t⟩
  · have hj := (List.getElem?_eq_some_iff.mp ht).1
    rw [length_set] at hj
    rw [getElem?_eq_getElem hj] at hnone
    cases hnone

variable {r : ChangeRecord P} {seq' : Nat}

/-- The records of the shards after one shard gained the records `new`. -/
theorem exists_records_set (hs : shards[i]? = some s) {new : List (ChangeRecord P)}
    (hnew : s'.records = s.records ++ new) :
    (∃ t ∈ shards.set i s', r ∈ t.records) ↔ (∃ t ∈ shards, r ∈ t.records) ∨ r ∈ new := by
  have hlen : i < shards.length := (List.getElem?_eq_some_iff.mp hs).1
  have hself : s' ∈ shards.set i s' := mem_of_getElem? (getElem?_set_self hlen)
  constructor
  · rintro ⟨t, ht, hr⟩
    rcases mem_or_eq_of_mem_set ht with ht | rfl
    · exact .inl ⟨t, ht, hr⟩
    · rw [hnew] at hr
      exact (mem_append.mp hr).imp_left fun hr => ⟨s, mem_of_getElem? hs, hr⟩
  · rintro (⟨t, ht, hr⟩ | hr)
    · obtain rfl | ht := eq_or_mem_set s' hs ht
      · exact ⟨s', hself, hnew ▸ mem_append_left _ hr⟩
      · exact ⟨t, ht, hr⟩
    · exact ⟨s', hself, hnew ▸ mem_append_right _ hr⟩

/-- One shard is exchanged for one whose new records come after every LSN minted. -/
theorem LogsOk.set (h : LogsOk shards seq) (hseq : seq ≤ seq') (hs : shards[i]? = some s)
    (hasc : s'.Ascending) (hlast : s'.lastLSN ≤ seq') (hle : ∀ r ∈ s'.records, r.lsn ≤ seq')
    (hnew : ∀ r ∈ s'.records, r ∈ s.records ∨ seq < r.lsn) : LogsOk (shards.set i s') seq' := by
  -- a record of the exchanged shard and one of another shard
  have hcross : ∀ {j : Nat} {t : LogShard P}, j ≠ i → shards[j]? = some t →
      ∀ r ∈ s'.records, ∀ x ∈ t.records, r.lsn ≠ x.lsn := by
    intro j t hj ht r hr x hx heq
    rcases hnew r hr with hr | hlt
    · exact hj (h.apart i j s t hs ht r hr x hx heq).symm
    · have := h.lsn_le t (mem_of_getElem? ht) x hx
      omega
  refine ⟨fun t ht => ?_, fun j k t u ht hu r hr x hx heq => ?_, fun t ht => ?_, fun t ht => ?_⟩
  · rcases mem_or_eq_of_mem_set ht with ht | rfl
    · exact h.ascending t ht
    · exact hasc
  · rcases getElem?_set_cases ht with ⟨hj, rfl⟩ | ⟨hj, ht'⟩ <;>
      rcases getElem?_set_cases hu with ⟨hk, rfl⟩ | ⟨hk, hu'⟩
    · rw [hj, hk]
    · exact absurd heq (hcross hk hu' r hr x hx)
    · exact absurd heq.symm (hcross hj ht' x hx r hr)
    · exact h.apart j k t u ht' hu' r hr x hx heq
  · rcases mem_or_eq_of_mem_set ht with ht | rfl
    · exact (h.lastLSN_le t ht).trans hseq
    · exact hlast
  · rcases mem_or_eq_of_mem_set ht with ht | rfl
    · exact fun r hr => (h.lsn_le t ht r hr).trans hseq
    · exact hle

theorem logsOk_of_empty (h : ∀ s ∈ shards, s = .empty) : LogsOk shards seq := by
  have hnone : ∀ s ∈ shards, ∀ r, r ∉ s.records := fun s hs r hr => by rw [h s hs] at hr; cases hr
  refine ⟨fun s hs => ?_, fun i j s t hs ht r hr => ?_, fun s hs => ?_, fun s hs r hr => ?_⟩
  · rw [h s hs]
    exact Pairwise.nil
  · cases hnone s (mem_of_getElem? hs) r hr
  · rw [h s hs]
    exact Nat.zero_le _
  · cases hnone s hs r hr

theorem LogsOk.mono (h : LogsOk shards seq) (hseq : seq ≤ seq') : LogsOk shards seq' :=
  ⟨h.ascending, h.apart, fun s hs => (h.lastLSN_le s hs).trans hseq,
    fun s hs r hr => (h.lsn_le s hs r hr).trans hseq⟩

theorem LogsOk.flush (h : LogsOk shards seq) (hs : shards[i]? = some s) :
    LogsOk (shards.set i s.flush) seq := by
  have hmem := mem_of_getElem? hs
  have hasc := h.ascending s hmem
  refine h.set le_rfl hs hasc.flush (LogShard.lastLSN_flush_le (h.lastLSN_le s hmem) fun r hr =>
    h.lsn_le s hmem r (mem_append_right _ hr)) ?_ ?_
  · rw [hasc.flush_records]
    exact h.lsn_le s hmem
  · rw [hasc.flush_records]
    exact fun r hr => .inl hr

theorem LogShard.records_logChangeRaw (seq : Nat) (value : P) (s : LogShard P) :
    (s.logChangeRaw seq value).2.records =
      s.records ++ if s.scopeActive then [] else [⟨seq + 1, value⟩] := by
  unfold LogShard.logChangeRaw
  cases s.scopeActive with
  | true => exact (append_nil _).symm
  | false => exact (append_assoc _ _ _).symm

theorem LogShard.le_logChangeRaw (seq : Nat) (value : P) (s : LogShard P) :
    seq ≤ (s.logChangeRaw seq value).1 := by
  unfold LogShard.logChangeRaw
  cases s.scopeActive with
  | true => exact le_rfl
  | false => exact Nat.le_succ _

/-- A record a shard gains by `logChangeRaw` takes the next LSN of the allocator. -/
theorem LogShard.mem_logChangeRaw {value : P} {s : LogShard P}
    (hr : r ∈ (s.logChangeRaw seq value).2.records) :
    r ∈ s.records ∨ (r.lsn = seq + 1 ∧ (s.logChangeRaw seq value).1 = seq + 1) := by
  rw [LogShard.records_logChangeRaw] at hr
  refine (mem_append.mp hr).imp_right fun hr => ?_
  unfold LogShard.logChangeRaw
  cases hscope : s.scopeActive with
  | true => rw [hscope] at hr; cases hr
  | false =>
    rw [hscope] at hr
    exact ⟨by rw [mem_singleton.mp hr], rfl⟩

theorem LogShard.grows_logChangeRaw (hw : w ≤ seq) (value : P) (s : LogShard P) :
    s.Grows w (s.logChangeRaw seq value).2 := by
  refine ⟨fun r hr => ?_, fun r hr => (LogShard.mem_logChangeRaw hr).imp_right fun h => by omega⟩
  unfold LogShard.logChangeRaw
  cases s.scopeActive <;> exact hr

theorem LogsOk.logChangeRaw (h : LogsOk shards seq) (hs : shards[i]? = some s) (value : P) :
    LogsOk (shards.set i (s.logChangeRaw seq value).2) (s.logChangeRaw seq value).1 := by
  have hmem := mem_of_getElem? hs
  have hle := h.lsn_le s hmem
  have hseq := s.le_logChangeRaw seq value
  refine h.set hseq hs ?_ ?_ (fun r hr => ?_) fun r hr =>
    (LogShard.mem_logChangeRaw hr).imp_right fun h => by omega
  · unfold LogShard.Ascending
    rw [LogShard.records_logChangeRaw]
    refine pairwise_append.mpr ⟨h.ascending s hmem, ?_, fun r hr x hx => ?_⟩
    · cases s.scopeActive <;> simp
    · cases hscope : s.scopeActive with
      | true => rw [hscope] at hx; cases hx
      | false =>
        rw [hscope] at hx
        rw [mem_singleton.mp hx]
        exact Nat.lt_succ_of_le (hle r hr)
  · refine le_trans ?_ ((h.lastLSN_le s hmem).trans hseq)
    unfold LogShard.logChangeRaw
    cases s.scopeActive <;> exact le_rfl
  · rcases LogShard.mem_logChangeRaw hr with hr | ⟨hlsn, hnext⟩
    · exact (hle r hr).trans hseq
    · omega

end Logs

section MergeOk

variable {shards shards' : List (LogShard P)} {count after w : Nat} {cursors : List (ShardCursor P)}
  {heap : List FeedHeapItem}

theorem CursorsCover.grow (h : CursorsCover shards after w cursors) (hg : ShardsGrow w shards shards') :
    CursorsCover shards' after w cursors := by
  intro i sc hsc
  obtain ⟨s, hs, hcover⟩ := h i sc hsc
  obtain ⟨s', hs', hgrow⟩ := hg.1 i s hs
  exact ⟨s', hs', hcover.grow hgrow⟩

variable {m : Merge P} {i : Nat} {s : LogShard P} {sc old : ShardCursor P}
  {cursors : List (ShardCursor P)} {top : FeedHeapItem} {r : ChangeRecord P}
  {rest : List (ChangeRecord P)}

theorem Merge.Ok.grow (h : m.Ok shards count after w) (hg : ShardsGrow w shards shards') :
    m.Ok shards' count after w := by
  cases m with
  | priming | draining | refilling => exact ⟨h.1, h.2.1.grow hg, h.2.2⟩

theorem CursorsCover.set (h : CursorsCover shards after w cursors) (hs : shards[i]? = some s)
    (hsc : sc.Covers s after w) : CursorsCover shards after w (cursors.set i sc) := by
  intro j sc' hsc'
  obtain ⟨rfl, rfl⟩ | ⟨-, hsc'⟩ := getElem?_set_cases hsc'
  · exact ⟨s, hs, hsc⟩
  · exact h j sc' hsc'

/-- The heap of the cursors from `i` on. -/
theorem mem_feedHeapInit (hopen : ∀ sc ∈ cursors, sc.done = true → sc.buf = []) (i : Nat)
    (item : FeedHeapItem) :
    item ∈ feedHeapInit i cursors ↔
      i ≤ item.shard ∧ ∃ sc r, cursors[item.shard - i]? = some sc ∧ sc.buf.head? = some r ∧
        item.lsn = r.lsn := by
  induction cursors generalizing i with
  | nil => simp [feedHeapInit]
  | cons sc rest ih =>
    have ih := ih (fun x hx => hopen x (mem_cons_of_mem _ hx)) (i + 1)
    have hhead : item ∈ sc.pushHead i (feedHeapInit (i + 1) rest) ↔
        (item.shard = i ∧ ∃ r, sc.buf.head? = some r ∧ item.lsn = r.lsn) ∨
          item ∈ feedHeapInit (i + 1) rest := by
      obtain ⟨cursor, buf, done⟩ := sc
      obtain ⟨lsn, shard⟩ := item
      cases done <;> cases buf <;> simp_all [ShardCursor.pushHead, and_comm]
    rw [feedHeapInit, hhead, ih]
    constructor
    · rintro (⟨hi, r, hr, hlsn⟩ | ⟨hle, sc', r, hsc', hr, hlsn⟩)
      · exact ⟨hi.ge, sc, r, by simp [hi], hr, hlsn⟩
      · refine ⟨by omega, sc', r, ?_, hr, hlsn⟩
        rw [show item.shard - i = (item.shard - (i + 1)) + 1 by omega, getElem?_cons_succ]
        exact hsc'
    · rintro ⟨hle, sc', r, hsc', hr, hlsn⟩
      rcases Nat.eq_or_lt_of_le hle with hi | hlt
      · rw [← hi, Nat.sub_self, getElem?_cons_zero] at hsc'
        cases hsc'
        exact .inl ⟨hi.symm, r, hr, hlsn⟩
      · rw [show item.shard - i = (item.shard - (i + 1)) + 1 by omega,
          getElem?_cons_succ] at hsc'
        exact .inr ⟨hlt, sc', r, hsc', hr, hlsn⟩

theorem nodup_feedHeapInit (i : Nat) (hopen : ∀ sc ∈ cursors, sc.done = true → sc.buf = []) :
    (feedHeapInit i cursors).Nodup := by
  induction cursors generalizing i with
  | nil => exact nodup_nil
  | cons sc rest ih =>
    have hrest : ∀ x ∈ rest, x.done = true → x.buf = [] := fun x hx => hopen x (mem_cons_of_mem _ hx)
    have ih := ih (i + 1) hrest
    rw [feedHeapInit]
    unfold ShardCursor.pushHead
    split
    · refine nodup_cons.mpr ⟨fun hmem => ?_, ih⟩
      have := ((mem_feedHeapInit hrest (i + 1) _).mp hmem).1
      exact absurd this (Nat.not_succ_le_self i)
    · exact ih

theorem CursorsCover.buf_eq_nil (h : CursorsCover shards after w cursors) :
    ∀ sc ∈ cursors, sc.done = true → sc.buf = [] := by
  intro sc hsc hdone
  obtain ⟨i, hi⟩ := getElem?_of_mem hsc
  obtain ⟨s, -, hcover⟩ := h i sc hi
  exact hcover.buf_eq_nil hdone

theorem heapOk_feedHeapInit (h : CursorsCover shards after w cursors) :
    HeapOk (feedHeapInit 0 cursors) cursors :=
  ⟨nodup_feedHeapInit 0 h.buf_eq_nil, fun item => by
    rw [mem_feedHeapInit h.buf_eq_nil 0]
    simp⟩

/-- One cursor changes, and with it the items of its shard. -/
theorem HeapOk.set {heap' : List FeedHeapItem} (h : HeapOk heap cursors) (hold : cursors[i]? = some old)
    (hnodup : heap'.Nodup) (hother : ∀ item, item.shard ≠ i → (item ∈ heap' ↔ item ∈ heap))
    (hself : ∀ lsn, ⟨lsn, i⟩ ∈ heap' ↔ ∃ r, sc.buf.head? = some r ∧ lsn = r.lsn) :
    HeapOk heap' (cursors.set i sc) := by
  refine ⟨hnodup, fun item => ?_⟩
  by_cases hi : item.shard = i
  · obtain ⟨lsn, shard⟩ := item
    subst hi
    rw [getElem?_set_self (List.getElem?_eq_some_iff.mp hold).1, hself]
    simp
  · rw [getElem?_set_ne (Ne.symm hi), hother item hi, h.mem_iff]

/-- Pushing the head of an exhausted cursor's new buffer. -/
theorem HeapOk.push (h : HeapOk heap cursors) (sc : ShardCursor P) (hold : cursors[i]? = some old)
    (hbuf : old.buf = []) (hdone : sc.done = true → sc.buf = []) :
    HeapOk (sc.pushHead i heap) (cursors.set i sc) := by
  have hnot : ∀ lsn, ⟨lsn, i⟩ ∉ heap := by
    intro lsn hitem
    obtain ⟨sc', r, hsc', hr, -⟩ := (h.mem_iff _).mp hitem
    cases hold.symm.trans hsc'
    rw [hbuf] at hr
    cases hr
  obtain ⟨cursor, buf, done⟩ := sc
  cases buf with
  | nil =>
    have hpush : ShardCursor.pushHead i (⟨cursor, [], done⟩ : ShardCursor P) heap = heap := by
      unfold ShardCursor.pushHead
      cases done <;> rfl
    rw [hpush]
    exact h.set hold h.nodup (fun _ _ => Iff.rfl) fun lsn => by simp [hnot lsn]
  | cons r rest =>
    cases done with
    | true => exact absurd (hdone rfl) (cons_ne_nil _ _)
    | false =>
      change HeapOk (⟨r.lsn, i⟩ :: heap) _
      refine h.set hold (nodup_cons.mpr ⟨hnot _, h.nodup⟩) (fun item hi => ?_) fun lsn => ?_
      · have hne : item ≠ ⟨r.lsn, i⟩ := fun h => hi (h ▸ rfl)
        simp [hne]
      · simp [hnot lsn]

/-- Popping the head of a cursor and taking it off the buffer, before the next head is pushed. -/
theorem HeapOk.pop (h : HeapOk heap cursors) (htop : top ∈ heap) (sc : ShardCursor P)
    (hold : cursors[top.shard]? = some old) (hbuf : sc.buf = []) :
    HeapOk (heap.erase top) (cursors.set top.shard sc) := by
  refine h.set hold (h.nodup.erase top) (fun item hi => ?_) fun lsn => ?_
  · have hne : item ≠ top := fun heq => hi (heq ▸ rfl)
    rw [h.nodup.mem_erase_iff]
    simp [hne]
  · rw [h.nodup.mem_erase_iff, hbuf]
    simp only [head?_nil, reduceCtorEq, false_and, exists_false, iff_false, not_and]
    intro hne hmem
    obtain ⟨sc₁, r₁, hsc₁, hr₁, hl₁⟩ := (h.mem_iff _).mp hmem
    obtain ⟨sc₂, r₂, hsc₂, hr₂, hl₂⟩ := (h.mem_iff top).mp htop
    cases hsc₁.symm.trans hsc₂
    cases hr₂.symm.trans hr₁
    exact hne (congrArg (FeedHeapItem.mk · top.shard) (hl₁.trans hl₂.symm))

theorem feedHeapPop_eq_some {heap' : List FeedHeapItem} (h : feedHeapPop heap = some (top, heap')) :
    top ∈ heap ∧ heap' = heap.erase top ∧ ∀ item ∈ heap, top.lsn ≤ item.lsn := by
  obtain ⟨x, hx, heq⟩ := Option.map_eq_some_iff.mp h
  cases heq
  exact ⟨argmin_mem hx, rfl, fun item hitem => le_of_mem_argmin hitem hx⟩

/-- A cursor after the record `r` is handed out, when `r` comes before its buffer. -/
theorem ShardCursor.Covers.advance (h : sc.Covers s after w) (hafter : after < r.lsn)
    (hbuf : ∀ x ∈ sc.buf, r.lsn < x.lsn) :
    sc.Covers s r.lsn w where
  sorted := h.sorted
  buf x hx := ⟨(h.buf x hx).1, hbuf x hx, (h.buf x hx).2.2⟩
  last := h.last
  bound := h.bound
  all x hx hlt := h.all x hx (hafter.trans hlt)
  exhausted hdone x hx hlt := h.exhausted hdone x hx (hafter.trans hlt)

/-- A cursor after its head is handed out. -/
theorem ShardCursor.Covers.tail (h : sc.Covers s after w) (hbuf : sc.buf = r :: rest) :
    ({ sc with buf := rest } : ShardCursor P).Covers s r.lsn w := by
  have hr : r ∈ sc.buf := hbuf ▸ mem_cons_self
  have hsorted := h.sorted
  rw [hbuf] at hsorted
  have hlt := pairwise_cons.mp hsorted
  refine ⟨hlt.2, fun x hx => ⟨?_, hlt.1 x hx, ?_⟩, fun x hx => ?_, h.bound, fun x hx hxr hle => ?_,
    fun hdone x hx hxr => h.exhausted hdone x hx ((h.buf r hr).2.1.trans hxr)⟩
  · exact (h.buf x (hbuf ▸ mem_cons_of_mem _ hx)).1
  · exact (h.buf x (hbuf ▸ mem_cons_of_mem _ hx)).2.2
  · refine h.last x ?_
    rw [hbuf, getLast?_cons, show rest.getLast? = some x from hx]
    rfl
  · have hmem := h.all x hx ((h.buf r hr).2.1.trans hxr) hle
    rw [hbuf] at hmem
    rcases mem_cons.mp hmem with rfl | hmem
    · exact absurd hxr (lt_irrefl _)
    · exact hmem

/-- The least head of a draining merge is the next record. -/
theorem isNext_of_top (hcover : CursorsCover shards after w cursors)
    (hopen : ∀ sc ∈ cursors, sc.buf = [] → sc.done = true) (hlen : cursors.length = count)
    (hbeyond : ∀ (i : Nat) (s : LogShard P), count ≤ i → shards[i]? = some s → ∀ r ∈ s.records, w <
      r.lsn) (hheap : HeapOk heap cursors) (hmin : ∀ item ∈ heap, top.lsn ≤ item.lsn)
    (hsc : cursors[top.shard]? = some sc) (hbuf : sc.buf = r :: rest) (htop : top.lsn = r.lsn) :
    IsNext shards after w r := by
  obtain ⟨s, hs, hcov⟩ := hcover _ sc hsc
  have hr := hcov.buf r (hbuf ▸ mem_cons_self)
  have hrw : r.lsn ≤ w := hr.2.2.trans hcov.bound
  refine ⟨⟨s, mem_of_getElem? hs, hr.1⟩, hr.2.1, hrw, fun t ht x hx hafter => ?_⟩
  obtain ⟨i, hi⟩ := getElem?_of_mem ht
  by_cases hic : count ≤ i
  · exact (hrw.trans_lt (hbeyond i t hic hi x hx)).le
  · obtain ⟨sci, hsci⟩ : ∃ sci, cursors[i]? = some sci :=
      ⟨cursors[i], getElem?_eq_getElem (by omega)⟩
    obtain ⟨t', ht', hcovi⟩ := hcover i sci hsci
    cases hi.symm.trans ht'
    by_contra hlt
    cases hb : sci.buf with
    | nil =>
      have := hcovi.exhausted (hopen sci (mem_of_getElem? hsci) hb) x hx hafter
      omega
    | cons y ys =>
      -- the head of the shard's buffer is not below the least head, so `x` is in the buffer
      have hy : top.lsn ≤ y.lsn :=
        hmin ⟨y.lsn, i⟩ ((hheap.mem_iff _).mpr ⟨sci, y, hsci, by rw [hb]; rfl, rfl⟩)
      have hyc := (hcovi.buf y (hb ▸ mem_cons_self)).2.2
      have hmem := hcovi.all x hx hafter (by omega)
      have hsorted := hcovi.sorted
      rw [hb] at hmem hsorted
      rcases mem_cons.mp hmem with rfl | hmem
      · omega
      · have := (pairwise_cons.mp hsorted).1 x hmem
        omega

/-- The cursors after the next record, the head of `sc`, is handed out. -/
theorem CursorsCover.advance (hcover : CursorsCover shards after w cursors)
    (hapart : LSNsApart shards) (hsc : cursors[i]? = some sc) (hbuf : sc.buf = r :: rest)
    (hnext : IsNext shards after w r) :
    CursorsCover shards r.lsn w (cursors.set i { sc with buf := rest }) := by
  obtain ⟨s, hs, hcov⟩ := hcover i sc hsc
  have hr := (hcov.buf r (hbuf ▸ mem_cons_self)).1
  intro j scj hscj
  obtain ⟨rfl, rfl⟩ | ⟨hij, hscj⟩ := getElem?_set_cases hscj
  · exact ⟨s, hs, hcov.tail hbuf⟩
  · obtain ⟨t, ht, hcovj⟩ := hcover j scj hscj
    refine ⟨t, ht, hcovj.advance hnext.after_lt fun x hx => ?_⟩
    have hxt : x ∈ t.records := mem_append_left _ (hcovj.buf x hx).1
    have hle := hnext.least t (mem_of_getElem? ht) x hxt (hcovj.buf x hx).2.1
    refine lt_of_le_of_ne hle fun heq => hij ?_
    exact (hapart i j s t hs ht r (mem_append_left _ hr) x hxt heq).symm

/-- **One step of the merge**, when every empty page is clear. -/
theorem Merge.Ok.step (h : m.Ok shards count after w) (hasc : ∀ s ∈ shards, s.Ascending)
    (hapart : LSNsApart shards) (hcount : count ≤ shards.length)
    (hbeyond : ∀ (i : Nat) (s : LogShard P), count ≤ i → shards[i]? = some s → ∀ r ∈ s.records, w <
      r.lsn) (hw : after ≤ w) (hclear : m.PageClear shards count after w) :
    (m.step shards count after w).Ok shards count after w := by
  cases m with
  | priming cursors =>
    obtain ⟨hlen, hcover, hopen⟩ := h
    by_cases hlt : cursors.length < count
    · have hs : shards[cursors.length]? = some shards[cursors.length] :=
        getElem?_eq_getElem (by omega)
      have hpage := ShardCursor.Covers.page ⟨after, [], false⟩
        (hasc _ (getElem_mem (by omega))) hw rfl rfl rfl
        (hclear (cursors.length, after) (by simp [Merge.nextPage, hlt]) _ hs)
      unfold Merge.step
      simp only [hs, if_pos hlt]
      refine ⟨by rw [length_append]; exact hlt, fun i sc hsc => ?_, fun sc hsc => ?_⟩
      · rw [getElem?_append] at hsc
        split at hsc
        · exact hcover i sc hsc
        · have hi : i = cursors.length := by
            have := (List.getElem?_eq_some_iff.mp hsc).1
            simp only [length_singleton] at this
            omega
          subst hi
          simp only [Nat.sub_self, getElem?_cons_zero, Option.some.injEq] at hsc
          exact ⟨_, hs, hsc ▸ hpage.1⟩
      · rcases mem_append.mp hsc with hsc | hsc
        · exact hopen sc hsc
        · rw [mem_singleton.mp hsc]
          exact hpage.2
    · have hstep : (Merge.priming cursors).step shards count after w =
          .run (.draining cursors (feedHeapInit 0 cursors)) := by
        unfold Merge.step
        simp only
        split
        · rw [if_neg hlt]
        · rfl
      rw [hstep]
      exact ⟨by omega, hcover, hopen, heapOk_feedHeapInit hcover⟩
  | draining cursors heap =>
    obtain ⟨hlen, hcover, hopen, hheap⟩ := h
    unfold Merge.step
    simp only
    cases hpop : feedHeapPop heap with
    | none => trivial
    | some popped =>
      obtain ⟨top, heap'⟩ := popped
      obtain ⟨htop, rfl, hmin⟩ := feedHeapPop_eq_some hpop
      obtain ⟨sc, r, hsc, hhead, hlsn⟩ := (hheap.mem_iff top).mp htop
      obtain ⟨rest, hbuf⟩ := head?_eq_some_iff.mp hhead
      have hnext := isNext_of_top hcover hopen hlen hbeyond hheap hmin hsc hbuf hlsn
      have hcover' := hcover.advance hapart hsc hbuf hnext
      have hrlen : top.shard < cursors.length := (List.getElem?_eq_some_iff.mp hsc).1
      simp only [hsc, hbuf, if_neg (not_lt.mpr hnext.le_bound)]
      have hother : ∀ (i : Nat) (x : ShardCursor P),
          (cursors.set top.shard { sc with buf := rest })[i]? = some x → i ≠ top.shard →
          x.buf = [] → x.done = true := by
        intro i x hx hne
        rw [getElem?_set_ne hne.symm] at hx
        exact hopen x (mem_of_getElem? hx)
      obtain ⟨s, hs, hcov⟩ := hcover top.shard sc hsc
      have hdone : sc.done = false := by
        by_contra hd
        rw [Bool.not_eq_false] at hd
        have := hcov.buf_eq_nil hd
        cases hbuf.symm.trans this
      cases rest with
      | nil =>
        refine ⟨hnext, by simpa using hlen, hcover', hother, hheap.pop htop _ hsc rfl,
          { sc with buf := [] }, getElem?_set_self hrlen, ?_, hdone, rfl⟩
        exact (hcov.last r (by rw [hbuf]; rfl)).symm
      | cons y ys =>
        refine ⟨hnext, by simpa using hlen, hcover', fun x hx hxbuf => ?_, ?_⟩
        · obtain ⟨i, hi⟩ := getElem?_of_mem hx
          obtain ⟨-, rfl⟩ | ⟨hne, -⟩ := getElem?_set_cases hi
          · cases hxbuf
          · exact hother i x hi hne hxbuf
        · have hpop' := hheap.pop htop { sc with buf := [] } hsc rfl
          have hpush := hpop'.push { sc with buf := y :: ys }
            (getElem?_set_self hrlen) rfl (fun h => by rw [hdone] at h; cases h)
          rw [set_set] at hpush
          exact hpush
  | refilling cursors heap shard =>
    obtain ⟨hlen, hcover, hopen, hheap, sc, hsc, hcursor, hdone, hbuf⟩ := h
    obtain ⟨s, hs, hcov⟩ := hcover shard sc hsc
    have hpage := ShardCursor.Covers.page sc (hasc s (mem_of_getElem? hs)) hw hcursor hdone hbuf
      (hcursor ▸ hclear (shard, sc.cursor) (by simp [Merge.nextPage, hsc]) s hs)
    unfold Merge.step
    simp only [hs, hsc]
    refine ⟨by simpa using hlen, hcover.set hs hpage.1, fun x hx hxbuf => ?_,
      hheap.push _ hsc hbuf hpage.1.buf_eq_nil⟩
    obtain ⟨i, hi⟩ := getElem?_of_mem hx
    obtain ⟨-, rfl⟩ | ⟨hne, hi⟩ := getElem?_set_cases hi
    · exact hpage.2 hxbuf
    · exact hopen i x hi hne hxbuf

end MergeOk

/-! ## The records handed out -/

theorem lastDelivered_append (delivered : List (ChangeRecord P)) (r : ChangeRecord P) :
    lastDelivered (delivered ++ [r]) = r.lsn := by
  simp [lastDelivered]

theorem le_lastDelivered {delivered : List (ChangeRecord P)}
    (hsorted : Keyed.Sorted ChangeRecord.lsn delivered) {r : ChangeRecord P} (hr : r ∈ delivered) :
    r.lsn ≤ lastDelivered delivered := by
  unfold lastDelivered
  cases hl : delivered.getLast? with
  | none => rw [getLast?_eq_none_iff.mp hl] at hr; cases hr
  | some last => exact hsorted.le_getLast hl hr

/-- What was handed out: durable records in LSN order, and every record up to the last one. -/
structure FeedOk (shards : List (LogShard P)) (delivered : List (ChangeRecord P)) : Prop where
  sorted : Keyed.Sorted ChangeRecord.lsn delivered
  durable : ∀ r ∈ delivered, ∃ s ∈ shards, r ∈ s.log
  closed : ∀ s ∈ shards, ∀ r ∈ s.records, r.lsn ≤ lastDelivered delivered → r ∈ delivered

namespace FeedOk

variable {shards : List (LogShard P)} {delivered : List (ChangeRecord P)} {seq w i : Nat}
  {s s' : LogShard P} {r : ChangeRecord P}

theorem of_empty (h : ∀ s ∈ shards, s = .empty) : FeedOk shards [] :=
  ⟨Pairwise.nil, fun r hr => (not_mem_nil hr).elim,
    fun s hs r hr => by rw [h s hs] at hr; cases hr⟩

theorem lastDelivered_le (h : FeedOk shards delivered) (hlogs : LogsOk shards seq) :
    lastDelivered delivered ≤ seq := by
  unfold lastDelivered
  cases hl : delivered.getLast? with
  | none => exact Nat.zero_le _
  | some last =>
    obtain ⟨t, ht, hlast⟩ := h.durable last (mem_of_getLast? hl)
    exact hlogs.lsn_le t ht last (mem_append_left _ hlast)

/-- One shard is exchanged for one that keeps the log and whose new records come later. -/
theorem set (h : FeedOk shards delivered) (hs : shards[i]? = some s)
    (hnew : ∀ r ∈ s'.records, r ∈ s.records ∨ lastDelivered delivered < r.lsn)
    (hlog : ∀ r ∈ s.log, r ∈ s'.log) : FeedOk (shards.set i s') delivered := by
  refine ⟨h.sorted, fun r hr => ?_, fun t ht r hr hle => ?_⟩
  · obtain ⟨t, ht, hr⟩ := h.durable r hr
    obtain rfl | ht := eq_or_mem_set s' hs ht
    · have hlen := (List.getElem?_eq_some_iff.mp hs).1
      exact ⟨s', mem_of_getElem? (getElem?_set_self hlen), hlog r hr⟩
    · exact ⟨t, ht, hr⟩
  · rcases mem_or_eq_of_mem_set ht with ht | rfl
    · exact h.closed t ht r hr hle
    · rcases hnew r hr with hr | hlt
      · exact h.closed s (mem_of_getElem? hs) r hr hle
      · exact absurd hle (not_le.mpr hlt)

/-- Handing out the next record. -/
theorem emit (h : FeedOk shards delivered) (hlogs : LogsOk shards seq)
    (hnext : IsNext shards (lastDelivered delivered) w r) : FeedOk shards (delivered ++ [r]) := by
  obtain ⟨s, hs, hlog⟩ := hnext.durable
  refine ⟨?_, fun x hx => ?_, fun t ht x hx hle => ?_⟩
  · refine pairwise_append.mpr ⟨h.sorted, pairwise_singleton _ _, fun x hx y hy => ?_⟩
    rw [mem_singleton.mp hy]
    exact (le_lastDelivered h.sorted hx).trans_lt hnext.after_lt
  · rcases mem_append.mp hx with hx | hx
    · exact h.durable x hx
    · rw [mem_singleton.mp hx]
      exact ⟨s, hs, hlog⟩
  · rw [lastDelivered_append] at hle
    refine mem_append.mpr ?_
    by_cases hbefore : x.lsn ≤ lastDelivered delivered
    · exact .inl (h.closed t ht x hx hbefore)
    · -- nothing lies between the last record handed out and `r`, and no other record has its LSN
      have hlsn : x.lsn = r.lsn :=
        le_antisymm hle (hnext.least t ht x hx (not_le.mp hbefore))
      obtain ⟨i, hi⟩ := getElem?_of_mem hs
      obtain ⟨j, hj⟩ := getElem?_of_mem ht
      have hij := hlogs.apart i j s t hi hj r (mem_append_left _ hlog) x hx hlsn.symm
      rw [hij, hj] at hi
      cases hi
      exact .inr (mem_singleton.mpr
        ((hlogs.ascending s hs).eq_of_key_eq hx (mem_append_left _ hlog) hlsn))

/-- Every record of the shards with a smaller LSN was handed out before. -/
theorem mem_before (h : FeedOk shards delivered) {before rest : List (ChangeRecord P)}
    (heq : delivered = before ++ r :: rest) (hs : s ∈ shards) {x : ChangeRecord P}
    (hx : x ∈ s.records) (hlt : x.lsn < r.lsn) : x ∈ before := by
  have hr : r ∈ delivered := by rw [heq]; simp
  have hmem := h.closed s hs x hx (hlt.le.trans (le_lastDelivered h.sorted hr))
  have hsorted := h.sorted
  rw [heq] at hmem hsorted
  rcases mem_append.mp hmem with hmem | hmem
  · exact hmem
  · rcases mem_cons.mp hmem with rfl | hmem
    · exact absurd hlt (lt_irrefl _)
    · have := (pairwise_cons.mp (pairwise_append.mp hsorted).2.1).1 x hmem
      exact absurd (hlt.trans this) (lt_irrefl _)

end FeedOk

end RhoTkg
