import RhoTkg.StagedFlush

/-!
# A flush is whole or absent after any number of crashes

Between the calls of a flush and of the recoveries after it the database is in one of two shapes.
It is *settled* when no marker stands: what readers see is then the state before the flush, or the
state with all its entries applied, and staging keys are rubbish.  It is *pending* when the marker
stands: the staging under its sequence is exactly the flush, and performing the flush's entries once
more over what readers see gives the applied state, whatever part of them was applied before
(`Pending.putAll`, by `LastWrite.run_redo`).  Every call that fails or dies leaves one of the two,
and a recovery that completes leaves a settled database without staging.
-/

namespace RhoTkg

open List Function
namespace StagedFlush

open PrefixCode (Bytes bigEndian ofBigEndian length_bigEndian ofBigEndian_bigEndian)
open LastWrite (run run_of_notMem run_congr run_redo run_of_mem run_perm run_cases
  run_forall₂)

/-! ## Reading the database -/

namespace KV

variable (kv : KV)

theorem get_put (e : FlushEntry) : (kv.put e).get = Function.update kv.get e.key e.content := by
  funext k
  unfold get put FlushEntry.content
  by_cases hk : k = e.key
  · subst hk
    rw [update_self]
    split
    · exact AList.lookup_erase _ _
    · exact AList.lookup_insert _
  · rw [update_of_ne hk]
    split
    · exact AList.lookup_erase_ne hk
    · exact AList.lookup_insert_ne hk

theorem get_putAll (es : List FlushEntry) :
    (kv.putAll es).get = run kv.get (es.map FlushEntry.write) := by
  induction es generalizing kv with
  | nil => rfl
  | cons e es ih =>
    change ((kv.put e).putAll es).get = _
    rw [ih, get_put]
    rfl

variable {k : Bytes}

/-- A key none of the entries writes. -/
theorem get_putAll_of_notMem {es : List FlushEntry} (h : k ∉ es.map FlushEntry.key) :
    (kv.putAll es).get k = kv.get k := by
  rw [get_putAll]
  apply run_of_notMem
  rwa [map_map]

theorem putAll_append (es es' : List FlushEntry) :
    kv.putAll (es ++ es') = (kv.putAll es).putAll es' := foldl_append ..

theorem mem_keys_of_get {v : Bytes} (h : kv.get k = some v) : k ∈ kv.keys := by
  have hmem : k ∈ kv := AList.lookup_isSome.mp (by rw [show kv.lookup k = some v from h]; rfl)
  exact AList.mem_keys.mp hmem

/-- A batch leaves a part of its writes from the front, and all of them when it succeeds. -/
theorem flush_cases (es : List FlushEntry) (io : Io) :
    (∃ n, (kv.flush es io).1 = kv.putAll (es.take n)) ∧
      ((kv.flush es io).2 = .ok → (kv.flush es io).1 = kv.putAll es) := by
  cases io with
  | ok => exact ⟨⟨es.length, by rw [take_length]; rfl⟩, fun _ => rfl⟩
  | fail n | crash n => exact ⟨⟨n, rfl⟩, nofun⟩

/-- A transaction leaves all of its writes or none. -/
theorem commit_cases (es : List FlushEntry) (io : Io) :
    ((kv.commit es io).1 = kv ∨ (kv.commit es io).1 = kv.putAll es) ∧
      ((kv.commit es io).2 = .ok → (kv.commit es io).1 = kv.putAll es) ∧
      ((kv.commit es io).2 = .err → (kv.commit es io).1 = kv) := by
  cases io with
  | ok => exact ⟨.inr rfl, fun _ => rfl, nofun⟩
  | fail n => exact ⟨.inl rfl, nofun, fun _ => rfl⟩
  | crash n =>
    refine ⟨?_, nofun, nofun⟩
    by_cases hn : n = 0
    · exact .inl (if_pos hn)
    · exact .inr (if_neg hn)

end KV

/-! ## Keys -/

theorem isStaging_stageKey (seq : ℕ) (k : Bytes) : isStaging (stageKey seq k) = true := rfl

theorem outside_wireFormatVersionKey : Outside wireFormatVersionKey := by decide

variable {k : Bytes}

theorem Outside.ne_stageKey (h : Outside k) (seq : ℕ) (k' : Bytes) : k ≠ stageKey seq k' := by
  rintro rfl
  exact absurd h.1 (by rw [isStaging_stageKey]; exact Bool.noConfusion)

theorem marker_ne_stageKey (seq : ℕ) (k : Bytes) : flushStageMarkerKey ≠ stageKey seq k := by
  intro h
  exact absurd (congrArg isStaging h) (by rw [isStaging_stageKey]; decide)

theorem stageKey_injective {seq : ℕ} {k' : Bytes} (h : stageKey seq k = stageKey seq k') : k = k' :=
  append_cancel_left (cons.inj h).2

/-! ## The two shapes -/

/-- No marker stands, and readers see `rows`. -/
structure Settled (rows : Bytes → Option Bytes) (kv : KV) : Prop where
  unmarked : kv.get flushStageMarkerKey = none
  reads : ∀ k, Outside k → kv.get k = rows k

/-- The marker of the flush `es` stands, its staging is complete, and performing it gives `rows`. -/
structure Pending (rows : Bytes → Option Bytes) (es : List FlushEntry) (seq : ℕ) (kv : KV) :
    Prop where
  marked : ∃ sync, kv.get flushStageMarkerKey = some (markerValue seq es.length sync)
  staged : ∀ e ∈ es, kv.get (stageKey seq e.key) = some (stagedValue e)
  only : ∀ k v, kv.get (stageKey seq k) = some v → k ∈ es.map FlushEntry.key
  redo : ∀ k, Outside k → run kv.get (es.map FlushEntry.write) k = rows k

/-- What the protocol asks of the entries it stages. -/
structure Stageable (es : List FlushEntry) (seq : ℕ) : Prop where
  outside : ∀ e ∈ es, Outside e.key
  nodup : (es.map FlushEntry.key).Nodup
  floor : ∀ e ∈ es, e.key = commitFloorKey → e.del = false
  seq_lt : seq < 256 ^ 8
  count_lt : es.length < 256 ^ 8

section Shapes

variable {rows : Bytes → Option Bytes} {es ds : List FlushEntry} {seq : ℕ} {kv : KV}

/-- Writes to staging keys do not change what readers see. -/
theorem Settled.putAll_staging (h : Settled rows kv) (hds : ∀ d ∈ ds, isStaging d.key = true) :
    Settled rows (kv.putAll ds) := by
  have hkeep : ∀ k, isStaging k = false → (kv.putAll ds).get k = kv.get k := by
    intro k hk
    apply kv.get_putAll_of_notMem
    intro hmem
    obtain ⟨d, hd, rfl⟩ := mem_map.mp hmem
    rw [hds d hd] at hk
    cases hk
  exact ⟨(hkeep _ (by decide)).trans h.unmarked, fun k hk => (hkeep k hk.1).trans (h.reads k hk)⟩

/-- A pending flush stays pending when any of its keys are written. -/
theorem Pending.putAll (h : Pending rows es seq kv)
    (hds : ∀ d ∈ ds, Outside d.key ∧ d.key ∈ es.map FlushEntry.key) :
    Pending rows es seq (kv.putAll ds) := by
  have hkeep : ∀ k, ¬ Outside k → (kv.putAll ds).get k = kv.get k := by
    intro k hk
    apply kv.get_putAll_of_notMem
    intro hmem
    obtain ⟨d, hd, rfl⟩ := mem_map.mp hmem
    exact hk (hds d hd).1
  have hmarker := hkeep flushStageMarkerKey (by decide)
  have hstage : ∀ k, (kv.putAll ds).get (stageKey seq k) = kv.get (stageKey seq k) := fun k =>
    hkeep _ fun hout => hout.ne_stageKey seq k rfl
  refine ⟨?_, fun e he => (hstage e.key).trans (h.staged e he), fun k v hv =>
    h.only k v ((hstage k).symm.trans hv), fun k hk => ?_⟩
  · obtain ⟨sync, hsync⟩ := h.marked
    exact ⟨sync, hmarker.trans hsync⟩
  · rw [kv.get_putAll, run_redo, h.redo k hk]
    intro w hw
    obtain ⟨d, hd, rfl⟩ := mem_map.mp hw
    rw [map_map]
    exact (hds d hd).2

/-- A transaction that deletes the marker settles a database whose readers see the rows. -/
theorem settled_unmark (h : ∀ k, Outside k → kv.get k = rows k) :
    Settled rows (kv.putAll [deleteEntry flushStageMarkerKey]) := by
  have hget : (kv.putAll [deleteEntry flushStageMarkerKey]).get =
      update kv.get flushStageMarkerKey none :=
    kv.get_put (deleteEntry flushStageMarkerKey)
  refine ⟨by rw [hget, update_self], fun k hk => ?_⟩
  rw [hget, update_of_ne hk.2, h k hk]

end Shapes

/-! ## Deleting the staging -/

/-- No staging key is left. -/
def Clean (kv : KV) : Prop := ∀ k, isStaging k = true → kv.get k = none

variable {kv : KV} {rows : Bytes → Option Bytes} {seq : ℕ}

theorem isStaging_of_mem_stagingDeletes {d : FlushEntry} (h : d ∈ stagingDeletes kv) :
    isStaging d.key = true := by
  obtain ⟨k, hk, rfl⟩ := mem_map.mp h
  exact (mem_filter.mp hk).2

/-- Deleting every staging key leaves none. -/
theorem clean_putAll_stagingDeletes (kv : KV) : Clean (kv.putAll (stagingDeletes kv)) := by
  intro k hk
  rw [kv.get_putAll]
  obtain ⟨hnot, heq⟩ | ⟨v, hv, heq⟩ :=
    run_cases kv.get ((stagingDeletes kv).map FlushEntry.write) k
  · -- a key that is not deleted was not there
    rw [heq]
    cases hget : kv.get k with
    | none => rfl
    | some v =>
      refine absurd ?_ hnot
      rw [map_map]
      refine mem_map.mpr ⟨deleteEntry k, mem_map.mpr ⟨k, ?_, rfl⟩, rfl⟩
      exact mem_filter.mpr ⟨kv.mem_keys_of_get hget, hk⟩
  · obtain ⟨d, hd, hdv⟩ := mem_map.mp hv
    obtain ⟨k', -, rfl⟩ := mem_map.mp hd
    rw [heq, ← (Prod.mk.inj hdv).2]
    rfl

/-- The clean-up keeps what readers see, and completes with no staging left. -/
theorem settled_cleanStaging (h : Settled rows kv) (io : Io) : Settled rows (cleanStaging kv io).1 ∧
      ((cleanStaging kv io).2 = .opened → Clean (cleanStaging kv io).1) := by
  obtain ⟨⟨n, hn⟩, hok⟩ := kv.flush_cases (stagingDeletes kv) io
  have hsettled : Settled rows (kv.flush (stagingDeletes kv) io).1 := by
    rw [hn]
    exact h.putAll_staging fun d hd => isStaging_of_mem_stagingDeletes (mem_of_mem_take hd)
  unfold cleanStaging
  cases hflush : kv.flush (stagingDeletes kv) io with
  | mk kv' r =>
    rw [hflush] at hsettled hok
    cases r with
    | crashed | err => exact ⟨hsettled, nofun⟩
    | ok =>
      refine ⟨hsettled, fun _ => ?_⟩
      have hkv' := hok rfl
      rw [hkv']
      exact clean_putAll_stagingDeletes kv

/-! ## Reading the staging back -/

theorem length_markerValue (seq count : ℕ) (sync : Bool) :
    (markerValue seq count sync).length = 17 := by
  simp [markerValue]

theorem take_markerValue (seq count : ℕ) (sync : Bool) :
    (markerValue seq count sync).take 8 = bigEndian 8 seq :=
  take_left' (length_bigEndian 8 seq)

theorem drop_markerValue (seq count : ℕ) (sync : Bool) :
    ((markerValue seq count sync).drop 8).take 8 = bigEndian 8 count := by
  rw [markerValue, drop_left' (length_bigEndian 8 seq), take_left' (length_bigEndian 8 _)]

theorem length_stageKey_nil (seq : ℕ) : (stageKey seq []).length = 9 := by
  simp [stageKey]

theorem stageKey_eq_append (seq : ℕ) (k : Bytes) : stageKey seq k = stageKey seq [] ++ k := by
  simp [stageKey]

/-- The staging of a sequence is what stands under its keys. -/
theorem mem_stagedUnder {k v : Bytes} :
    (k, v) ∈ stagedUnder kv seq ↔ kv.get (stageKey seq k) = some v := by
  unfold stagedUnder KV.get
  rw [mem_map]
  constructor
  · rintro ⟨⟨k', v'⟩, hmem, heq⟩
    obtain ⟨hentry, hpre⟩ := mem_filter.mp hmem
    obtain ⟨rest, rfl⟩ := isPrefixOf_iff_prefix.mp hpre
    obtain ⟨rfl, rfl⟩ := Prod.mk.inj heq
    exact AList.mem_lookup_iff.mpr (by rwa [stageKey_eq_append])
  · intro h
    refine ⟨⟨stageKey seq k, v⟩, mem_filter.mpr ⟨AList.mem_lookup_iff.mp h, ?_⟩, ?_⟩
    · exact isPrefixOf_iff_prefix.mpr ⟨k, (stageKey_eq_append seq k).symm⟩
    · rw [stageKey_eq_append, drop_left' (length_stageKey_nil seq)]

theorem nodup_stagedUnder (kv : KV) (seq : ℕ) : ((stagedUnder kv seq).map Prod.fst).Nodup := by
  have hmap : (stagedUnder kv seq).map Prod.fst =
      ((kv.entries.filter fun p => (stageKey seq []).isPrefixOf p.1).map Sigma.fst).map
        (drop 9) := by
    rw [stagedUnder, map_map, map_map]
    rfl
  rw [hmap]
  refine Nodup.map_on ?_ (kv.nodupKeys.sublist filter_sublist)
  have hpre : ∀ k ∈ (kv.entries.filter fun p => (stageKey seq []).isPrefixOf p.1).map Sigma.fst,
      k = stageKey seq [] ++ k.drop 9 := by
    intro k hk
    obtain ⟨p, hp, rfl⟩ := mem_map.mp hk
    obtain ⟨rest, hrest⟩ := isPrefixOf_iff_prefix.mp (mem_filter.mp hp).2
    rw [← hrest, drop_left' (length_stageKey_nil seq)]
  intro k hk k' hk' heq
  rw [hpre k hk, heq, ← hpre k' hk']

/-- A staged value read back. -/
def unstage (p : Bytes × Bytes) : FlushEntry := ⟨p.1, p.2.tail, p.2.head? == some 2⟩

theorem mapM_readStaged {l : List (Bytes × Bytes)} (h : ∀ p ∈ l, p.2 ≠ []) :
    l.mapM readStaged = some (l.map unstage) := by
  induction l with
  | nil => rfl
  | cons p l ih =>
    have hp : readStaged p = some (unstage p) := by
      obtain ⟨k, v⟩ := p
      cases v with
      | nil => exact absurd rfl (h _ mem_cons_self)
      | cons op v => rfl
    rw [mapM_cons, hp, ih fun p hp => h p (mem_cons_of_mem _ hp)]
    rfl

/-- An entry read back from its staged value writes what the entry writes. -/
theorem write_unstage (e : FlushEntry) : (unstage (e.key, stagedValue e)).write = e.write := by
  unfold unstage stagedValue FlushEntry.write FlushEntry.content
  cases e.del <;> rfl

/-- The staging of a pending flush is the flush. -/
theorem Pending.stagedUnder_perm {es : List FlushEntry} (h : Pending rows es seq kv)
    (hes : Stageable es seq) :
    (stagedUnder kv seq).Perm (es.map fun e => (e.key, stagedValue e)) := by
  have hkeys : (es.map fun e => (e.key, stagedValue e)).map Prod.fst = es.map FlushEntry.key := by
    rw [map_map]
    rfl
  have hnodup : (es.map fun e => (e.key, stagedValue e)).Nodup :=
    Nodup.of_map Prod.fst (hkeys ▸ hes.nodup)
  refine (perm_ext_iff_of_nodup (Nodup.of_map Prod.fst (nodup_stagedUnder kv seq))
    hnodup).mpr ?_
  rintro ⟨k, v⟩
  rw [mem_stagedUnder, mem_map]
  constructor
  · intro hget
    obtain ⟨e, he, rfl⟩ := mem_map.mp (h.only k v hget)
    rw [h.staged e he] at hget
    exact ⟨e, he, by rw [Option.some.inj hget]⟩
  · rintro ⟨e, he, heq⟩
    obtain ⟨rfl, rfl⟩ := Prod.mk.inj heq
    exact h.staged e he

/-! ## The recovery -/

/-- What a call of the recovery hands on. -/
theorem afterCall_cases (r : KV × CallEnd) (next : KV → KV × OpenEnd) :
    (r.2 = .ok ∧ afterCall r next = next r.1) ∨
      ((afterCall r next).1 = r.1 ∧ (afterCall r next).2 ≠ .opened) := by
  obtain ⟨kv, _ | _ | _⟩ := r
  · exact .inl ⟨rfl, rfl⟩
  · exact .inr ⟨rfl, nofun⟩
  · exact .inr ⟨rfl, nofun⟩

section Recover

variable {rows : Bytes → Option Bytes} {es ds : List FlushEntry} {seq : ℕ} {kv : KV}

/-- What a recovery may leave: the flush pending or settled, and clean when it completed. -/
def Recovered (rows : Bytes → Option Bytes) (es : List FlushEntry) (seq : ℕ) (r : KV × OpenEnd) :
    Prop :=
  (Pending rows es seq r.1 ∨ Settled rows r.1) ∧
    (r.2 = .opened → Settled rows r.1 ∧ Clean r.1)

theorem recovered_cleanStaging (h : Settled rows kv) (io : Io) :
    Recovered rows es seq (cleanStaging kv io) := by
  obtain ⟨hsettled, hclean⟩ := settled_cleanStaging h io
  exact ⟨.inr hsettled, fun ho => ⟨hsettled, hclean ho⟩⟩

/-- A call that leaves the flush pending or settled, and after it the rest of a recovery. -/
theorem recovered_afterCall {r : KV × CallEnd} {next : KV → KV × OpenEnd}
    (hr : Pending rows es seq r.1 ∨ Settled rows r.1)
    (hnext : r.2 = .ok → Recovered rows es seq (next r.1)) :
    Recovered rows es seq (afterCall r next) := by
  obtain ⟨hok, heq⟩ | ⟨heq, hne⟩ := afterCall_cases r next
  · rw [heq]
    exact hnext hok
  · exact ⟨heq ▸ hr, fun ho => absurd ho hne⟩

/-- The marker is deleted once everything is applied. -/
theorem Pending.unmark (h : Pending rows es seq kv) (hrows : ∀ k, Outside k → kv.get k = rows k)
    (unmark clean : Io) :
    Recovered rows es seq (afterCall (kv.commit [deleteEntry flushStageMarkerKey] unmark) fun kv =>
      cleanStaging kv clean) := by
  have hsettled := settled_unmark hrows
  obtain ⟨hor, hok, -⟩ := kv.commit_cases [deleteEntry flushStageMarkerKey] unmark
  refine recovered_afterCall ?_ fun hdone => ?_
  · rcases hor with heq | heq
    · rw [heq]
      exact .inl h
    · rw [heq]
      exact .inr hsettled
  · rw [hok hdone]
    exact recovered_cleanStaging hsettled clean

/-- The floor, as the recovery sets it. -/
theorem write_of_floor {e : FlushEntry} (h : e.del = false) :
    (⟨e.key, e.value, false⟩ : FlushEntry).write = e.write := by
  simp [FlushEntry.write, FlushEntry.content, h]

/-- An entry that writes what an entry of the flush writes. -/
theorem Stageable.of_write (hes : Stageable es seq) {d : FlushEntry}
    (hd : d.write ∈ es.map FlushEntry.write) :
    (Outside d.key ∧ d.key ∈ es.map FlushEntry.key) ∧ (d.key = commitFloorKey → d.del = false) := by
  obtain ⟨e, he, heq⟩ := mem_map.mp hd
  obtain ⟨hkey, hcontent⟩ := Prod.mk.inj heq
  refine ⟨⟨hkey ▸ hes.outside e he, hkey ▸ mem_map_of_mem he⟩, fun hfloor => ?_⟩
  have hset := hes.floor e he (hkey.trans hfloor)
  simp only [FlushEntry.content, hset, Bool.false_eq_true, if_false] at hcontent
  cases hdel : d.del with
  | false => rfl
  | true => simp [hdel] at hcontent

/-- The floor entry, set. -/
def floorSet (ds : List FlushEntry) : List FlushEntry :=
  match ds.filter fun e => e.key == commitFloorKey with
  | [] => []
  | e :: _ => [⟨e.key, e.value, false⟩]

/-- The floor and the rest write what all the entries write. -/
theorem floorSet_append_perm (hnodup : (ds.map FlushEntry.key).Nodup)
    (hfloor : ∀ d ∈ ds, d.key = commitFloorKey → d.del = false) :
    ((floorSet ds ++ ds.filter fun e => e.key != commitFloorKey).map FlushEntry.write).Perm
      (ds.map FlushEntry.write) := by
  have hsplit := filter_append_perm (fun e : FlushEntry => e.key == commitFloorKey) ds
  have hmem : ∀ d ∈ ds.filter (fun e => e.key == commitFloorKey), d ∈ ds ∧ d.key = commitFloorKey :=
    fun d hd => ⟨(mem_filter.mp hd).1, by simpa using (mem_filter.mp hd).2⟩
  have hsub : ((ds.filter fun e => e.key == commitFloorKey).map FlushEntry.key).Nodup :=
    hnodup.sublist (filter_sublist.map _)
  have hset : (floorSet ds).map FlushEntry.write =
      (ds.filter fun e => e.key == commitFloorKey).map FlushEntry.write := by
    unfold floorSet
    revert hmem hsub
    cases ds.filter fun e => e.key == commitFloorKey with
    | nil => exact fun _ _ => rfl
    | cons e fs =>
      intro hmem hsub
      cases fs with
      | nil =>
        have he := hmem e mem_cons_self
        rw [map_singleton, map_singleton, write_of_floor (hfloor e he.1 he.2)]
      | cons e' fs =>
        -- two entries of one key
        have he := (hmem e mem_cons_self).2
        have he' := (hmem e' (mem_cons_of_mem _ mem_cons_self)).2
        simp [he, he'] at hsub
  rw [map_append, hset, ← map_append]
  exact hsplit.map _

/-- **The re-apply.**  Entries that write what the flush writes, performed floor first over a
pending flush. -/
theorem recovered_reapply (h : Pending rows es seq kv) (hes : Stageable es seq)
    (hds : (ds.map FlushEntry.write).Perm (es.map FlushEntry.write)) (io : RecoverIo) :
    Recovered rows es seq (reapply ds io kv) := by
  have hof : ∀ d ∈ ds, (Outside d.key ∧ d.key ∈ es.map FlushEntry.key) ∧
      (d.key = commitFloorKey → d.del = false) := fun d hd =>
    hes.of_write (hds.mem_iff.mp (mem_map_of_mem hd))
  have hkeys : ∀ l : List FlushEntry, (l.map FlushEntry.write).map Prod.fst =
      l.map FlushEntry.key := fun l => by rw [map_map]; rfl
  have hnodup : (ds.map FlushEntry.key).Nodup := by
    have := (hds.map Prod.fst).nodup_iff.mpr ((hkeys es).symm ▸ hes.nodup)
    rwa [hkeys] at this
  have hfloorKeys : ∀ d ∈ floorSet ds, Outside d.key ∧ d.key ∈ es.map FlushEntry.key := by
    intro d hd
    unfold floorSet at hd
    split at hd
    · cases hd
    · rename_i e fs hfilter
      rw [mem_singleton] at hd
      subst hd
      have he : e ∈ ds.filter fun e => e.key == commitFloorKey := by
        rw [hfilter]
        exact mem_cons_self
      exact (hof e (mem_filter.mp he).1).1
  have hrestKeys : ∀ d ∈ ds.filter (fun e => e.key != commitFloorKey),
      Outside d.key ∧ d.key ∈ es.map FlushEntry.key := fun d hd =>
    (hof d (mem_filter.mp hd).1).1
  have hall : ∀ k, Outside k →
      ((kv.putAll (floorSet ds)).putAll (ds.filter fun e => e.key != commitFloorKey)).get k =
        rows k := by
    intro k hk
    have hperm := floorSet_append_perm hnodup fun d hd => (hof d hd).2
    rw [← kv.putAll_append, kv.get_putAll, run_perm _ (hperm.trans hds), h.redo k hk]
    rw [((hperm.trans hds).map Prod.fst).nodup_iff, hkeys]
    exact hes.nodup
  have hafterFloor : ∀ r : KV × CallEnd,
      (r.1 = kv ∨ r.1 = kv.putAll (floorSet ds)) → (r.2 = .ok → r.1 = kv.putAll (floorSet ds)) →
      Recovered rows es seq (afterCall r fun kv =>
        afterCall (kv.flush (ds.filter fun e => e.key != commitFloorKey) io.apply) fun kv =>
          afterCall (kv.commit [deleteEntry flushStageMarkerKey] io.unmark) fun kv =>
            cleanStaging kv io.clean) := by
    intro r hor hok
    refine recovered_afterCall ?_ fun hdone => ?_
    · rcases hor with heq | heq
      · rw [heq]
        exact .inl h
      · rw [heq]
        exact .inl (h.putAll hfloorKeys)
    rw [hok hdone]
    have hfloor := h.putAll hfloorKeys
    obtain ⟨⟨n, hn⟩, hflush⟩ := (kv.putAll (floorSet ds)).flush_cases
      (ds.filter fun e => e.key != commitFloorKey) io.apply
    refine recovered_afterCall ?_ fun happlied => ?_
    · rw [hn]
      exact .inl (hfloor.putAll fun d hd => hrestKeys d (mem_of_mem_take hd))
    · rw [hflush happlied]
      exact (hfloor.putAll hrestKeys).unmark hall io.unmark io.clean
  unfold reapply
  cases hfilter : ds.filter fun e => e.key == commitFloorKey with
  | nil =>
    refine hafterFloor (kv, .ok) (.inl rfl) fun _ => ?_
    rw [floorSet, hfilter]
    rfl
  | cons e fs =>
    have hset : floorSet ds = [⟨e.key, e.value, false⟩] := by rw [floorSet, hfilter]
    obtain ⟨hor, hok, -⟩ := kv.commit_cases [⟨e.key, e.value, false⟩] io.floor
    exact hafterFloor _ (by rwa [hset]) (by rwa [hset])

/-- **A recovery over a pending flush.** -/
theorem recovered_of_pending (h : Pending rows es seq kv) (hes : Stageable es seq)
    (io : RecoverIo) : Recovered rows es seq (recoverStagedFlush io kv) := by
  obtain ⟨sync, hmarker⟩ := h.marked
  have hperm := h.stagedUnder_perm hes
  have hread : (stagedUnder kv seq).mapM readStaged = some ((stagedUnder kv seq).map unstage) := by
    apply mapM_readStaged
    intro p hp hempty
    obtain ⟨e, he, rfl⟩ := mem_map.mp (hperm.mem_iff.mp hp)
    cases hdel : e.del <;> simp [stagedValue, hdel] at hempty
  have hds : (((stagedUnder kv seq).map unstage).map FlushEntry.write).Perm
      (es.map FlushEntry.write) := by
    have hback : ((es.map fun e => (e.key, stagedValue e)).map unstage).map FlushEntry.write =
        es.map FlushEntry.write := by
      rw [map_map, map_map]
      exact map_congr_left fun e _ => write_unstage e
    exact hback ▸ (hperm.map unstage).map FlushEntry.write
  have hlen : ((stagedUnder kv seq).map unstage).length = es.length := by
    rw [length_map, hperm.length_eq, length_map]
  unfold recoverStagedFlush
  cases io.read with
  | crash | fail => exact ⟨.inl h, nofun⟩
  | ok =>
    simp only [hmarker, length_markerValue, take_markerValue, drop_markerValue,
      ofBigEndian_bigEndian hes.seq_lt, ofBigEndian_bigEndian hes.count_lt, hread, hlen]
    simpa using recovered_reapply h hes hds io

/-- A recovery over a settled database. -/
theorem recovered_of_settled (h : Settled rows kv) (io : RecoverIo) :
    Recovered rows es seq (recoverStagedFlush io kv) := by
  unfold recoverStagedFlush
  cases io.read with
  | crash | fail => exact ⟨.inr h, nofun⟩
  | ok =>
    simp only [h.unmarked]
    exact recovered_cleanStaging h io.clean

end Recover

/-! ## The flush -/

section Flush

variable {before after : Bytes → Option Bytes} {es : List FlushEntry} {seq : ℕ} {kv : KV}

/-- What a flush may leave: the state before, when its commit point was not committed, and else the
flush pending or settled; and what it returned agrees. -/
def Flushed (before after : Bytes → Option Bytes) (es : List FlushEntry) (seq : ℕ)
    (r : FlushRun) : Prop :=
  (r.committed = false ∧ Settled before r.kv ∧
      (r.result = .crashed ∨ r.result = .returned .flushNotCommitted)) ∨
    (r.committed = true ∧ (Pending after es seq r.kv ∨ Settled after r.kv) ∧
      r.result ≠ .returned .flushNotCommitted)

/-- Every attempt leaves the flush pending, and one that succeeds leaves it applied. -/
theorem applyAttempts_pending (hes : Stageable es seq) (ios : List Io)
    (h : Pending after es seq kv) :
    Pending after es seq (applyAttempts es ios kv).1 ∧
      ((applyAttempts es ios kv).2 = .ok →
        ∀ k, Outside k → (applyAttempts es ios kv).1.get k = after k) := by
  have hkeys : ∀ e ∈ es, Outside e.key ∧ e.key ∈ es.map FlushEntry.key := fun e he =>
    ⟨hes.outside e he, mem_map_of_mem he⟩
  induction ios generalizing kv with
  | nil => exact ⟨h, nofun⟩
  | cons io ios ih =>
    obtain ⟨⟨n, hn⟩, hok⟩ := kv.flush_cases es io
    have hpart : Pending after es seq (kv.flush es io).1 := by
      rw [hn]
      exact h.putAll fun e he => hkeys e (mem_of_mem_take he)
    unfold applyAttempts
    cases hflush : kv.flush es io with
    | mk kv' r =>
      rw [hflush] at hpart hok
      cases r with
      | err => exact ih hpart
      | crashed => exact ⟨hpart, nofun⟩
      | ok =>
        refine ⟨hpart, fun _ k hk => ?_⟩
        have hkv' : kv' = kv.putAll es := hok rfl
        rw [hkv', kv.get_putAll, h.redo k hk]

/-- Behind the commit point the flush is pending or settled, whatever happens. -/
theorem finishStaged_flushed (hes : Stageable es seq) (io : FlushIo)
    (h : Pending after es seq kv) : Flushed before after es seq (finishStaged es io kv) := by
  obtain ⟨hpending, happlied⟩ :=
    applyAttempts_pending hes [io.apply 0, io.apply 1, io.apply 2] h
  unfold finishStaged
  cases hattempts : applyAttempts es [io.apply 0, io.apply 1, io.apply 2] kv with
  | mk kv₁ r =>
    rw [hattempts] at hpending happlied
    cases r with
    | crashed | err => exact .inr ⟨rfl, .inl hpending, nofun⟩
    | ok =>
      have hsettled := settled_unmark (happlied rfl)
      obtain ⟨hor, hok, herr⟩ := kv₁.commit_cases [deleteEntry flushStageMarkerKey] io.unmark
      simp only
      cases hcommit : kv₁.commit [deleteEntry flushStageMarkerKey] io.unmark with
      | mk kv₂ r =>
        rw [hcommit] at hor hok herr
        cases r with
        | crashed =>
          have hkv₂ : kv₂ = kv₁ ∨ kv₂ = kv₁.putAll [deleteEntry flushStageMarkerKey] := hor
          refine .inr ⟨rfl, ?_, nofun⟩
          rcases hkv₂ with rfl | rfl
          · exact .inl hpending
          · exact .inr hsettled
        | err =>
          refine .inr ⟨rfl, .inl ?_, nofun⟩
          have hkv₂ : kv₂ = kv₁ := herr rfl
          exact hkv₂ ▸ hpending
        | ok =>
          have hkv₂ : kv₂ = kv₁.putAll [deleteEntry flushStageMarkerKey] := hok rfl
          obtain ⟨⟨n, hn⟩, -⟩ := kv₂.flush_cases (stagingDeletes kv₂) io.clean
          have hclean : Settled after (kv₂.flush (stagingDeletes kv₂) io.clean).1 := by
            rw [hn]
            exact (hkv₂ ▸ hsettled).putAll_staging fun d hd =>
              isStaging_of_mem_stagingDeletes (mem_of_mem_take hd)
          simp only
          cases hflush : kv₂.flush (stagingDeletes kv₂) io.clean with
          | mk kv₃ r =>
            rw [hflush] at hclean
            cases r <;> exact .inr ⟨rfl, .inr hclean, nofun⟩

/-- The staging, written over a database that has none of its sequence. -/
theorem staging_written (hes : Stageable es seq) (hfresh : ∀ k, kv.get (stageKey seq k) = none) :
    (∀ e ∈ es, (kv.putAll (es.map (stageEntry seq))).get (stageKey seq e.key) =
        some (stagedValue e)) ∧
      ∀ k v, (kv.putAll (es.map (stageEntry seq))).get (stageKey seq k) = some v →
        k ∈ es.map FlushEntry.key := by
  have hnodup : (((es.map (stageEntry seq)).map FlushEntry.write).map Prod.fst).Nodup := by
    have hmap : ((es.map (stageEntry seq)).map FlushEntry.write).map Prod.fst =
        (es.map FlushEntry.key).map (stageKey seq) := by
      simp only [map_map]
      rfl
    rw [hmap]
    exact hes.nodup.map fun _ _ => stageKey_injective
  rw [kv.get_putAll]
  constructor
  · intro e he
    refine run_of_mem hnodup ?_
    exact mem_map.mpr ⟨stageEntry seq e, mem_map_of_mem he, rfl⟩
  · intro k v hget
    obtain ⟨-, heq⟩ | ⟨v', hv', -⟩ :=
      run_cases kv.get ((es.map (stageEntry seq)).map FlushEntry.write) (stageKey seq k)
    · rw [heq, hfresh] at hget
      cases hget
    · obtain ⟨d, hd, hdv⟩ := mem_map.mp hv'
      obtain ⟨e, he, rfl⟩ := mem_map.mp hd
      rw [← stageKey_injective (Prod.mk.inj hdv).1]
      exact mem_map_of_mem he

/-- The commit point makes a complete staging pending. -/
theorem pending_of_marked (staged : ℕ) (sync : Bool) {kv₁ : KV} (h : Settled before kv₁)
    (hstaged : ∀ e ∈ es, kv₁.get (stageKey seq e.key) = some (stagedValue e))
    (honly : ∀ k v, kv₁.get (stageKey seq k) = some v → k ∈ es.map FlushEntry.key) :
    Pending (run (Function.update before wireFormatVersionKey (some (formatMarkerValue staged)))
        (es.map FlushEntry.write)) es seq
      (kv₁.putAll (markEntries seq es.length staged sync)) := by
  have hget : (kv₁.putAll (markEntries seq es.length staged sync)).get =
      update (update kv₁.get flushStageMarkerKey
        (some (markerValue seq es.length sync))) wireFormatVersionKey
        (some (formatMarkerValue staged)) := by
    rw [kv₁.get_putAll]
    rfl
  have hstage : ∀ k, (kv₁.putAll (markEntries seq es.length staged sync)).get (stageKey seq k) =
      kv₁.get (stageKey seq k) := fun k => by
    rw [hget, update_of_ne (outside_wireFormatVersionKey.ne_stageKey seq k).symm,
      update_of_ne (marker_ne_stageKey seq k).symm]
  refine ⟨⟨sync, ?_⟩, fun e he => (hstage e.key).trans (hstaged e he),
    fun k v hv => honly k v ((hstage k).symm.trans hv), fun k hk => ?_⟩
  · rw [hget, update_of_ne (by decide), update_self]
  · apply run_congr
    refine .inr ?_
    rw [hget]
    by_cases hfmt : k = wireFormatVersionKey
    · subst hfmt
      rw [update_self, update_self]
    · rw [update_of_ne hfmt, update_of_ne hk.2, update_of_ne hfmt,
        h.reads k hk]

/-- **A staged flush.** -/
theorem commitStaged_flushed (tracker : ℕ) (syncWrites : Bool) {entries : List FlushEntry}
    (hes : Stageable (stagedEntries (max tracker stagedFlushStoreFormatVersion) entries) seq)
    (hmarker : kv.get flushStageMarkerKey = none)
    (hfresh : ∀ k, kv.get (stageKey seq k) = none) (io : FlushIo) :
    Flushed kv.get
      (run (Function.update kv.get wireFormatVersionKey
        (some (formatMarkerValue (max tracker stagedFlushStoreFormatVersion))))
        ((stagedEntries (max tracker stagedFlushStoreFormatVersion) entries).map FlushEntry.write))
      (stagedEntries (max tracker stagedFlushStoreFormatVersion) entries) seq
      (commitStaged tracker seq syncWrites entries io kv) := by
  generalize hst : max tracker stagedFlushStoreFormatVersion = staged at hes
  generalize hesEq : stagedEntries staged entries = es at hes
  have hstart : Settled kv.get kv := ⟨hmarker, fun _ _ => rfl⟩
  have hstageKeys : ∀ d ∈ es.map (stageEntry seq), isStaging d.key = true := by
    intro d hd
    obtain ⟨e, -, rfl⟩ := mem_map.mp hd
    rfl
  obtain ⟨⟨n, hn⟩, hstaged⟩ := kv.flush_cases (es.map (stageEntry seq)) io.stage
  have hsettled : Settled kv.get (kv.flush (es.map (stageEntry seq)) io.stage).1 := by
    rw [hn]
    exact hstart.putAll_staging fun d hd => hstageKeys d (mem_of_mem_take hd)
  unfold commitStaged
  simp only [hst, hesEq]
  cases hflush : kv.flush (es.map (stageEntry seq)) io.stage with
  | mk kv₁ r =>
    rw [hflush] at hsettled hstaged
    cases r with
    | crashed => exact .inl ⟨rfl, hsettled, .inl rfl⟩
    | err => exact .inl ⟨rfl, hsettled, .inr rfl⟩
    | ok =>
      have hkv₁ : kv₁ = kv.putAll (es.map (stageEntry seq)) := hstaged rfl
      obtain ⟨hwritten, honly⟩ := staging_written hes hfresh
      rw [← hkv₁] at hwritten honly
      have hpending := pending_of_marked staged syncWrites hsettled hwritten honly
      cases hmark : io.mark with
      | ok => exact finishStaged_flushed hes io hpending
      | fail n => exact .inl ⟨rfl, hsettled, .inr rfl⟩
      | crash n =>
        by_cases h0 : n = 0
        · subst h0
          exact .inl ⟨rfl, hsettled, .inl rfl⟩
        · refine .inr ⟨?_, .inl ?_, by rintro ⟨⟩⟩
          · simp [KV.commit, h0]
          · simpa [KV.commit, h0] using hpending

end Flush

end StagedFlush
end RhoTkg
