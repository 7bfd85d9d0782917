import RhoTkg.FeedMerge
import RhoTkg.Library.Runs

/-!
# A consumer of the sharded store's change feed

The sharded store is a list of badger shards that mint their LSNs from one allocator.  A consumer
repeats `ForEachChange` from the last LSN it was handed: the call flushes the shards one by one, reads
their watermarks one by one, and merges the durable logs up to the greatest.  Writers and background
flushes run between any two steps of the call.

The watermarks are read after the flushes.  A writer may append to a shard the barrier has passed
while a later LSN becomes durable on another shard, and the bound then covers an LSN that is still
buffered (`ShardedFeed.skips_mintedBehindBarrier`).  When no page comes back empty over such an LSN,
the consumer is handed every record in order (`ShardedFeed.tail_complete`).
-/

namespace RhoTkg

variable {P : Type}

/-- Where the consumer's call of `ForEachChange` stands. -/
inductive FeedCall (P : Type) where
  | idle
  /-- `Flush` is at the shard `next`. -/
  | flushing (next : Nat)
  /-- `lastCommittedLSNNoFlush` is at the shard `next`, with the greatest watermark so far. -/
  | bounding (next w : Nat)
  | merging (w : Nat) (m : Merge P)
deriving DecidableEq, Repr

/-- The sharded store with one consumer. -/
structure ShardedFeed (P : Type) where
  /-- `changeLogAllocator.seq`. -/
  seq : Nat
  shards : List (LogShard P)
  call : FeedCall P
  delivered : List (ChangeRecord P)
  /-- Every record that was given an LSN.  No step reads it. -/
  minted : List (ChangeRecord P)
deriving DecidableEq, Repr

/-- What happens on the store. -/
inductive FeedEvent (P : Type) where
  | write (shard : Nat) (value : P)
  | flush (shard : Nat)
  /-- A step of the consumer; `more` is what the callback answers when it is handed a record. -/
  | consume (more : Bool)
deriving DecidableEq, Repr

namespace ShardedFeed

/-- A mutation on a shard logs its record. -/
def write (shard : Nat) (value : P) (st : ShardedFeed P) : ShardedFeed P :=
  match st.shards[shard]? with
  | none => st
  | some s =>
    let (seq, s') := s.logChangeRaw st.seq value
    { st with
      seq := seq
      shards := st.shards.set shard s'
      minted := if s.scopeActive then st.minted else st.minted ++ [⟨st.seq + 1, value⟩] }

/-- A flush of one shard. -/
def flush (shard : Nat) (st : ShardedFeed P) : ShardedFeed P :=
  match st.shards[shard]? with
  | none => st
  | some s => { st with shards := st.shards.set shard s.flush }

/-- The next step of the consumer. -/
def consume (more : Bool) (st : ShardedFeed P) : ShardedFeed P :=
  match st.call with
  | .idle => { st with call := .flushing 0 }
  | .flushing next =>
    match st.shards[next]? with
    | some _ => { st.flush next with call := .flushing (next + 1) }
    | none => { st with call := .bounding 0 0 }
  | .bounding next w =>
    match st.shards[next]? with
    | some s => { st with call := .bounding (next + 1) (if w < s.lastLSN then s.lastLSN else w) }
    | none =>
      if w ≤ lastDelivered st.delivered then { st with call := .idle }
      else { st with call := .merging w (.priming []) }
  | .merging w m =>
    match m.step st.shards st.shards.length (lastDelivered st.delivered) w with
    | .run m => { st with call := .merging w m }
    | .emit r m =>
      { st with delivered := st.delivered ++ [r], call := if more then .merging w m else .idle }
    | .overrun m => { st with call := .merging w m }
    | .finished => { st with call := .idle }

/-- One event. -/
def step (st : ShardedFeed P) : FeedEvent P → ShardedFeed P
  | .write shard value => st.write shard value
  | .flush shard => st.flush shard
  | .consume more => st.consume more

/-- A fresh store of `count` shards. -/
def fresh (count : Nat) : ShardedFeed P := ⟨0, List.replicate count .empty, .idle, [], []⟩

/-- A fresh store of any number of shards. -/
def Init (st : ShardedFeed P) : Prop := ∃ count, st = fresh count

/-- The page the consumer is about to read comes back empty only when the shard's buffer holds no
record up to the bound. -/
def PageClear (st : ShardedFeed P) : FeedEvent P → Prop
  | .consume _ =>
    match st.call with
    | .merging w m => m.PageClear st.shards st.shards.length (lastDelivered st.delivered) w
    | _ => True
  | _ => True

instance (st : ShardedFeed P) (ev : FeedEvent P) : Decidable (st.PageClear ev) :=
  match ev with
  | .write _ _ | .flush _ => inferInstanceAs (Decidable True)
  | .consume _ =>
    match hc : st.call with
    | .merging w m =>
      decidable_of_iff (m.PageClear st.shards st.shards.length (lastDelivered st.delivered) w) (by
        simp only [PageClear, hc])
    | .idle | .flushing _ | .bounding _ _ => isTrue (by simp only [PageClear, hc])

/-- What a consumer may rely on: the LSNs handed out ascend, each record handed out was minted, and
every record minted with a smaller LSN was handed out before it. -/
def Complete (st : ShardedFeed P) : Prop :=
  Keyed.Sorted ChangeRecord.lsn st.delivered ∧ (∀ r ∈ st.delivered, r ∈ st.minted) ∧
    ∀ before r rest, st.delivered = before ++ r :: rest →
      ∀ x ∈ st.minted, x.lsn < r.lsn → x ∈ before

/-! ## The invariant -/

/-- What the state of the consumer's call promises. -/
def CallOk (st : ShardedFeed P) : Prop :=
  match st.call with
  | .idle | .flushing _ => True
  | .bounding _ w => w ≤ st.seq
  | .merging w m => lastDelivered st.delivered ≤ w ∧ w ≤ st.seq ∧
      m.Ok st.shards st.shards.length (lastDelivered st.delivered) w

/-- The records of the store and those handed out. -/
structure Inv (st : ShardedFeed P) : Prop where
  logs : LogsOk st.shards st.seq
  minted : ∀ r, r ∈ st.minted ↔ ∃ s ∈ st.shards, r ∈ s.records
  feed : FeedOk st.shards st.delivered
  call : st.CallOk

section Steps

variable {st : ShardedFeed P} {shard : Nat} {s : LogShard P}

theorem Inv.init (h : st.Init) : st.Inv := by
  obtain ⟨count, rfl⟩ := h
  have hempty : ∀ s ∈ (fresh count : ShardedFeed P).shards, s = .empty :=
    fun s hs => List.eq_of_mem_replicate hs
  refine ⟨logsOk_of_empty hempty, fun r => ⟨fun hr => (List.not_mem_nil hr).elim, ?_⟩,
    .of_empty hempty, trivial⟩
  rintro ⟨s, hs, hr⟩
  rw [hempty s hs] at hr
  cases hr

/-- A call survives what happens on the shards while it runs. -/
theorem CallOk.grow {st' : ShardedFeed P} (h : st.CallOk) (hcall : st'.call = st.call)
    (hdelivered : st'.delivered = st.delivered) (hlen : st'.shards.length = st.shards.length)
    (hseq : st.seq ≤ st'.seq) (hgrow : ∀ w ≤ st.seq, ShardsGrow w st.shards st'.shards) :
    st'.CallOk := by
  unfold CallOk at h ⊢
  rw [hcall, hdelivered, hlen]
  cases hc : st.call with
  | idle | flushing => trivial
  | bounding next w =>
    rw [hc] at h
    exact h.trans hseq
  | merging w m =>
    rw [hc] at h
    exact ⟨h.1, h.2.1.trans hseq, h.2.2.grow (hgrow w h.2.1)⟩

theorem Inv.flush (h : st.Inv) (shard : Nat) : (st.flush shard).Inv := by
  unfold ShardedFeed.flush
  cases hs : st.shards[shard]? with
  | none => exact h
  | some s =>
    have hasc := h.logs.ascending s (List.mem_of_getElem? hs)
    refine ⟨h.logs.flush hs, fun r => ?_, h.feed.set hs (hasc.flush_records ▸ fun _ => .inl)
      (hasc.grows_flush 0).log, h.call.grow rfl rfl (List.length_set ..) le_rfl fun w _ =>
        shardsGrow_set hs (hasc.grows_flush w)⟩
    rw [h.minted r, exists_records_set hs (hasc.flush_records.trans (List.append_nil _).symm)]
    simp

theorem Inv.write (h : st.Inv) (shard : Nat) (value : P) : (st.write shard value).Inv := by
  unfold ShardedFeed.write
  cases hs : st.shards[shard]? with
  | none => exact h
  | some s =>
    have hminted : ∀ r, (r ∈ if s.scopeActive then st.minted else st.minted ++ [⟨st.seq + 1, value⟩]) ↔
        ∃ t ∈ st.shards.set shard (s.logChangeRaw st.seq value).2, r ∈ t.records := by
      intro r
      rw [exists_records_set hs (s.records_logChangeRaw st.seq value), ← h.minted r]
      cases s.scopeActive <;> simp
    refine ⟨h.logs.logChangeRaw hs value, hminted, h.feed.set hs (fun r hr => ?_)
      (s.grows_logChangeRaw le_rfl value).log, ?_⟩
    · -- a new LSN is above every one handed out
      have hlast := h.feed.lastDelivered_le h.logs
      exact (LogShard.mem_logChangeRaw hr).imp_right fun hnew => by omega
    · exact h.call.grow rfl rfl (List.length_set ..) (s.le_logChangeRaw st.seq value) fun w hw =>
        shardsGrow_set hs (s.grows_logChangeRaw hw value)

theorem Inv.consume (h : st.Inv) (more : Bool) (hclear : st.PageClear (.consume more)) :
    (st.consume more).Inv := by
  have hcall := h.call
  unfold CallOk at hcall
  unfold PageClear at hclear
  unfold ShardedFeed.consume
  cases hc : st.call with
  | idle => exact { h with call := trivial }
  | flushing next =>
    simp only
    cases st.shards[next]? with
    | none => exact { h with call := Nat.zero_le _ }
    | some s => exact { h.flush next with call := trivial }
  | bounding next w =>
    rw [hc] at hcall
    simp only
    cases hs : st.shards[next]? with
    | some s =>
      refine { h with call := ?_ }
      change (if w < s.lastLSN then s.lastLSN else w) ≤ st.seq
      split
      · exact h.logs.lastLSN_le s (List.mem_of_getElem? hs)
      · exact hcall
    | none =>
      simp only
      split
      · exact { h with call := trivial }
      · rename_i hlt
        refine { h with call := ⟨le_of_not_ge hlt, hcall, Nat.zero_le _, ?_, ?_⟩ }
        · exact fun i sc hsc => by cases hsc
        · exact fun sc hsc => by cases hsc
  | merging w m =>
    rw [hc] at hcall hclear
    obtain ⟨hle, hseq, hok⟩ := hcall
    have hstep := hok.step h.logs.ascending h.logs.apart le_rfl
      (fun i s hi hs => by
        have := (List.getElem?_eq_some_iff.mp hs).1
        omega) hle hclear
    simp only
    cases hm : m.step st.shards st.shards.length (lastDelivered st.delivered) w with
    | run m' =>
      rw [hm] at hstep
      exact { h with call := ⟨hle, hseq, hstep⟩ }
    | emit r m' =>
      rw [hm] at hstep
      refine ⟨h.logs, h.minted, h.feed.emit h.logs hstep.1, ?_⟩
      unfold CallOk
      cases more with
      | false => trivial
      | true =>
        simp only [if_true, lastDelivered_append]
        exact ⟨hstep.1.le_bound, hseq, hstep.2⟩
    | overrun m' =>
      rw [hm] at hstep
      exact hstep.elim
    | finished => exact { h with call := trivial }

theorem Inv.step (h : st.Inv) (ev : FeedEvent P) (hclear : st.PageClear ev) : (st.step ev).Inv := by
  cases ev with
  | write shard value => exact h.write shard value
  | flush shard => exact h.flush shard
  | consume more => exact h.consume more hclear

end Steps

/-- **A consumer that reads only clear pages is handed every record, in LSN order.** -/
theorem tail_complete {st : ShardedFeed P}
    (h : Runs.Reachable Init (Runs.Guarded step PageClear) st) : st.Complete := by
  have hinv : st.Inv := h.invariant (fun s hs => .init hs) fun s ev s' _ hs hnext => by
    obtain ⟨hclear, rfl⟩ := hnext
    exact hs.step ev hclear
  refine ⟨hinv.feed.sorted, fun r hr => ?_, fun before r rest heq x hx hlt => ?_⟩
  · obtain ⟨s, hs, hr⟩ := hinv.feed.durable r hr
    exact (hinv.minted r).mpr ⟨s, hs, List.mem_append_left _ hr⟩
  · obtain ⟨s, hs, hx⟩ := (hinv.minted x).mp hx
    exact hinv.feed.mem_before heq hs hx hlt

/-- Two shards: a record each before the call, another on the second shard while the call drains. -/
def overlappingWrites : List (FeedEvent Nat) :=
  [.write 1 7, .write 0 8] ++ List.replicate 9 (.consume true) ++ [.write 1 9, .flush 1] ++
    List.replicate 18 (.consume true)

theorem tail_complete_overlappingWrites :
    (overlappingWrites.foldl step (fresh 2)).Complete :=
  tail_complete (Runs.Reachable.foldl (.start ⟨2, rfl⟩) (by decide +kernel))

/-- A record is minted on the first shard after the barrier has flushed it, and the next one on the
second shard before the barrier flushes that. -/
def mintedBehindBarrier : List (FeedEvent Nat) :=
  [.consume true, .consume true, .write 0 7, .write 1 8] ++ List.replicate 9 (.consume true)

/-- The second record is handed out, the first never. -/
theorem skips_mintedBehindBarrier :
    ∃ st : ShardedFeed Nat, Runs.Reachable Init (Runs.Guarded step fun _ _ => True) st ∧
      ¬ st.Complete := by
  refine ⟨mintedBehindBarrier.foldl step (fresh 2),
    Runs.Reachable.foldl (.start ⟨2, rfl⟩) (by decide +kernel), fun h => ?_⟩
  have := h.2.2 [] ⟨2, 8⟩ [] (by decide +kernel) ⟨1, 7⟩ (by decide +kernel) (by decide)
  cases this

end ShardedFeed

end RhoTkg
