import Mathlib.Data.List.Nodup
import RhoTkg.FeedMerge
import RhoTkg.Library.Runs

/-!
# A consumer of the tiered store's change feed

The tiered store is a reference shard, an archive and event shards.  Reference, hot and warm shards are
open from the start; the archive and the cold shards are opened on demand.  All shards mint their LSNs
from one allocator.  A flush of a shard commits its records and afterwards, as a step of its own,
writes the allocator's value to the reference shard; a reopen seeds the allocator from that value and
from the watermarks of the shards it opens.

A consumer reads the allocator before it flushes, so every LSN up to its bound is durable when it
merges.  A crash between the two steps of a flush is harmless on a shard the reopen opens.  On a cold
shard it leaves durable records above the seed, and their LSNs are minted again
(`TieredFeed.reuses_coldFlush`).  When every crash finds the durable LSNs covered by the seed, LSNs are
unique and the feed is complete (`TieredFeed.feed_complete`).

A consumer here is one of any number: what the others do to the store is flushing and opening shards.
A call goes on after a flush without waiting for its second step, which the source does wait for; every
run of the source is a run here.  The fence of an unreadable seed is left out.
-/

namespace RhoTkg

open List

variable {P : Type}

/-- `Tier` of an event shard. -/
inductive ShardTier where
  | hot
  | warm
  | cold
deriving DecidableEq, Repr

/-- `logShardKind`, with the tier of an event shard. -/
inductive LogShardKind where
  | ref
  | archive
  | event (tier : ShardTier)
deriving DecidableEq, Repr

/-- A shard of the store.  What a closed shard has on disk stays in `store`. -/
structure TieredShard (P : Type) where
  kind : LogShardKind
  store : LogShard P
  isOpen : Bool
  /-- A flush has committed records and has yet to run `OnChangeLogFlush`. -/
  hookDue : Bool
deriving DecidableEq, Repr

/-- The shard is opened with the store. -/
def LogShardKind.opensAtStart : LogShardKind → Bool
  | .ref | .event .hot | .event .warm => true
  | .archive | .event .cold => false

/-- The hot shard turns warm. -/
def TieredShard.cool (sh : TieredShard P) : TieredShard P :=
  { sh with kind := if sh.kind = .event .hot then .event .warm else sh.kind }

/-- `seedLogLSN`: the watermark, or the highest LSN in the log when that is higher. -/
def LogShard.seedLogLSN (s : LogShard P) : Nat :=
  let scanned := (s.log.getLast?.map ChangeRecord.lsn).getD 0
  if s.lastLSN < scanned then scanned else s.lastLSN

/-- `changeLogAllocator.Observe`. -/
def observe (seq watermark : Nat) : Nat := if watermark ≤ seq then seq else watermark

/-- Where the consumer's call of `ForEachChange` stands, with the bound it captured. -/
inductive TieredCall (P : Type) where
  | idle
  /-- `forEachOpenShard` is at the reference shard or the archive. -/
  | flushingRefs (next w : Nat)
  /-- It is at an event shard of the `count` shards it listed. -/
  | flushingEvents (next count w : Nat)
  | merging (count w : Nat) (m : Merge P)
deriving DecidableEq, Repr

/-- The tiered store with one consumer.  Shard 0 is the reference shard and shard 1 the archive. -/
structure TieredFeed (P : Type) where
  seq : Nat
  wmDurable : Nat
  /-- `changelog_lsn_watermark` on the reference shard, 0 when absent. -/
  watermark : Nat
  shards : List (TieredShard P)
  call : TieredCall P
  delivered : List (ChangeRecord P)
  /-- Every record a flush committed.  No step reads it. -/
  committed : List (ChangeRecord P)
deriving DecidableEq, Repr

/-- What happens on the store. -/
inductive TieredEvent (P : Type) where
  | write (shard : Nat) (value : P)
  | openShard (shard : Nat)
  | closeShard (shard : Nat)
  | flush (shard : Nat)
  /-- The second step of a flush. -/
  | persist (shard : Nat)
  | rotate
  | demote (shard : Nat)
  /-- A crash and the next open, which retiers the shards. -/
  | restart (demoted promoted : List Nat)
  /-- A step of the consumer; `more` is what the callback answers when it is handed a record. -/
  | consume (more : Bool)
deriving DecidableEq, Repr

namespace TieredFeed

/-- The change logs of the shards. -/
def stores (st : TieredFeed P) : List (LogShard P) := st.shards.map TieredShard.store

/-- A fresh store: the reference shard, no archive yet, and a hot event shard. -/
def fresh : TieredFeed P :=
  ⟨0, 0, 0, [⟨.ref, .empty, true, false⟩, ⟨.archive, .empty, false, false⟩,
    ⟨.event .hot, .empty, true, false⟩], .idle, [], []⟩

/-- A mutation on an open shard logs its record. -/
def write (shard : Nat) (value : P) (st : TieredFeed P) : TieredFeed P :=
  match st.shards[shard]? with
  | none => st
  | some sh =>
    if sh.isOpen then
      let (seq, store) := sh.store.logChangeRaw st.seq value
      { st with seq := seq, shards := st.shards.set shard { sh with store := store } }
    else st

/-- A closed shard is opened for a read or a write. -/
def openShard (shard : Nat) (st : TieredFeed P) : TieredFeed P :=
  match st.shards[shard]? with
  | none => st
  | some sh =>
    if sh.isOpen then st
    else
      { st with
        seq := observe st.seq sh.store.seedLogLSN
        shards := st.shards.set shard { sh with isOpen := true } }

/-- A drained shard that is not opened with the store is closed. -/
def closeShard (shard : Nat) (st : TieredFeed P) : TieredFeed P :=
  match st.shards[shard]? with
  | none => st
  | some sh =>
    if sh.kind.opensAtStart = false ∧ sh.store.pendingLog = [] ∧ sh.hookDue = false then
      { st with shards := st.shards.set shard { sh with isOpen := false } }
    else st

/-- The commit of a flush.  The reference shard has no `OnChangeLogFlush`. -/
def flush (shard : Nat) (st : TieredFeed P) : TieredFeed P :=
  match st.shards[shard]? with
  | none => st
  | some sh =>
    if sh.isOpen then
      { st with
        shards := st.shards.set shard
          { sh with
            store := sh.store.flush
            hookDue := sh.hookDue || (!sh.store.pendingLog.isEmpty && sh.kind != .ref) }
        committed := st.committed ++ sh.store.pendingLog }
    else st

/-- `persistWatermark`, as `OnChangeLogFlush` of a shard. -/
def persist (shard : Nat) (st : TieredFeed P) : TieredFeed P :=
  match st.shards[shard]? with
  | none => st
  | some sh =>
    if sh.hookDue then
      let st := { st with shards := st.shards.set shard { sh with hookDue := false } }
      if st.seq ≤ st.wmDurable then st else { st with watermark := st.seq, wmDurable := st.seq }
    else st

/-- A rotation opens the next hot shard. -/
def rotate (st : TieredFeed P) : TieredFeed P :=
  { st with shards := st.shards.map TieredShard.cool ++ [⟨.event .hot, .empty, true, false⟩] }

/-- A warm shard turns cold; it is closed later. -/
def demote (shard : Nat) (st : TieredFeed P) : TieredFeed P :=
  match st.shards[shard]? with
  | none => st
  | some sh =>
    if sh.kind = .event .warm then
      { st with shards := st.shards.set shard { sh with kind := .event .cold } }
    else st

/-- The tier of a shard after an open that demotes and promotes the listed shards. -/
def retier (demoted promoted : List Nat) (shard : Nat) : LogShardKind → LogShardKind
  | .event .warm => if demoted.contains shard then .event .cold else .event .warm
  | .event .cold => if promoted.contains shard then .event .warm else .event .cold
  | kind => kind

/-- A shard after a crash and the next open. -/
def reopen (demoted promoted : List Nat) (shard : Nat) (sh : TieredShard P) : TieredShard P :=
  let kind := retier demoted promoted shard sh.kind
  ⟨kind, { sh.store with pendingLog := [], scopeLog := none, scopeActive := false },
    kind.opensAtStart, false⟩

/-- A crash and the next open: the buffers are lost, and the allocator is seeded from the reference
shard's value and the watermarks of the shards opened. -/
def restart (demoted promoted : List Nat) (st : TieredFeed P) : TieredFeed P :=
  let shards := st.shards.mapIdx (reopen demoted promoted)
  { st with
    seq := shards.foldl (fun seq sh => if sh.isOpen then observe seq sh.store.seedLogLSN else seq)
      (observe 0 st.watermark)
    wmDurable := st.watermark
    shards := shards
    call := .idle }

/-- The allocator after a merge step, which opens the closed shard it pages. -/
def pageSeq (st : TieredFeed P) (count : Nat) (m : Merge P) : Nat :=
  match m.nextPage count (lastDelivered st.delivered) with
  | none => st.seq
  | some (shard, _) =>
    match st.shards[shard]? with
    | none => st.seq
    | some sh => if sh.isOpen then st.seq else observe st.seq sh.store.seedLogLSN

/-- The next step of the consumer. -/
def consume (more : Bool) (st : TieredFeed P) : TieredFeed P :=
  match st.call with
  | .idle => { st with call := .flushingRefs 0 st.seq }
  | .flushingRefs next w =>
    if next < 2 then { st.flush next with call := .flushingRefs (next + 1) w }
    else { st with call := .flushingEvents 2 st.shards.length w }
  | .flushingEvents next count w =>
    if next < count then { st.flush next with call := .flushingEvents (next + 1) count w }
    else if w ≤ lastDelivered st.delivered then { st with call := .idle }
    else { st with call := .merging st.shards.length w (.priming []) }
  | .merging count w m =>
    let st := { st with seq := st.pageSeq count m }
    match m.step st.stores count (lastDelivered st.delivered) w with
    | .run m => { st with call := .merging count w m }
    | .emit r m =>
      { st with delivered := st.delivered ++ [r], call := if more then .merging count w m else .idle }
    | .overrun _ => { st with call := .idle }
    | .finished => { st with call := .idle }

/-- One event. -/
def step (st : TieredFeed P) : TieredEvent P → TieredFeed P
  | .write shard value => st.write shard value
  | .openShard shard => st.openShard shard
  | .closeShard shard => st.closeShard shard
  | .flush shard => st.flush shard
  | .persist shard => st.persist shard
  | .rotate => st.rotate
  | .demote shard => st.demote shard
  | .restart demoted promoted => st.restart demoted promoted
  | .consume more => st.consume more

/-- A crash finds every shard's watermark covered: by the value on the reference shard, or by the
watermark of a shard the next open opens. -/
def SeedCovers (st : TieredFeed P) : TieredEvent P → Prop
  | .restart demoted promoted =>
    ∀ sh ∈ st.shards, sh.store.lastLSN ≤ st.watermark ∨
      ∃ t ∈ st.shards.mapIdx (reopen demoted promoted),
        t.isOpen = true ∧ sh.store.lastLSN ≤ t.store.lastLSN
  | _ => True

instance (st : TieredFeed P) (ev : TieredEvent P) : Decidable (st.SeedCovers ev) :=
  match ev with
  | .restart demoted promoted => inferInstanceAs (Decidable (∀ sh ∈ st.shards,
      sh.store.lastLSN ≤ st.watermark ∨ ∃ t ∈ st.shards.mapIdx (reopen demoted promoted),
        t.isOpen = true ∧ sh.store.lastLSN ≤ t.store.lastLSN))
  | .write _ _ | .openShard _ | .closeShard _ | .flush _ | .persist _ | .rotate | .demote _
  | .consume _ => inferInstanceAs (Decidable True)

/-- What the feed promises: no LSN is committed twice, and every committed record with a smaller LSN
than one handed out was handed out before it. -/
def Complete (st : TieredFeed P) : Prop :=
  (st.committed.map ChangeRecord.lsn).Nodup ∧
    ∀ before r rest, st.delivered = before ++ r :: rest →
      ∀ x ∈ st.committed, x.lsn < r.lsn → x ∈ before

/-! ## The invariant -/

/-- The bound covers no buffered record of the shard. -/
def BufferedAbove (w : Nat) (s : LogShard P) : Prop := ∀ r ∈ s.pendingLog, w < r.lsn

/-- What the state of the consumer's call promises. -/
def CallOk (st : TieredFeed P) : Prop :=
  match st.call with
  | .idle => True
  | .flushingRefs next w => w ≤ st.seq ∧
      ∀ (i : Nat) (s : LogShard P), st.stores[i]? = some s → i < next → BufferedAbove w s
  | .flushingEvents next count w => w ≤ st.seq ∧
      ∀ (i : Nat) (s : LogShard P), st.stores[i]? = some s → i < next ∨ count ≤ i → BufferedAbove w s
  | .merging count w m => w ≤ st.seq ∧ count ≤ st.stores.length ∧
      (∀ s ∈ st.stores, BufferedAbove w s) ∧
      (∀ (i : Nat) (s : LogShard P), count ≤ i → st.stores[i]? = some s → ∀ r ∈ s.records, w < r.lsn) ∧
      lastDelivered st.delivered ≤ w ∧ m.Ok st.stores count (lastDelivered st.delivered) w

/-- The records of the store and those handed out. -/
structure Inv (st : TieredFeed P) : Prop where
  logs : LogsOk st.stores st.seq
  lastLSN : ∀ s ∈ st.stores, ∀ r ∈ s.log, r.lsn ≤ s.lastLSN
  drained : ∀ sh ∈ st.shards, sh.isOpen = false → sh.store.pendingLog = []
  committed : ∀ r ∈ st.committed, ∃ s ∈ st.stores, r ∈ s.log
  nodup : (st.committed.map ChangeRecord.lsn).Nodup
  feed : FeedOk st.stores st.delivered
  call : st.CallOk

/-- What other writers, flushes and openings do to a store while a call runs. -/
structure Extends (st st' : TieredFeed P) : Prop where
  seq : st.seq ≤ st'.seq
  call : st'.call = st.call
  delivered : st'.delivered = st.delivered
  length : st.stores.length ≤ st'.stores.length
  grow : ∀ w ≤ st.seq, ShardsGrow w st.stores st'.stores
  pending : ∀ w ≤ st.seq, ∀ (i : Nat) (s' : LogShard P), st'.stores[i]? = some s' →
    (∃ s, st.stores[i]? = some s ∧ ∀ r ∈ s'.pendingLog, r ∈ s.pendingLog ∨ w < r.lsn) ∨
      BufferedAbove w s'

section Steps

variable {st st' : TieredFeed P} {shard : Nat} {sh : TieredShard P}

theorem Extends.bufferedAbove (h : st.Extends st') {w : Nat} (hw : w ≤ st.seq) {i : Nat}
    {s' : LogShard P} (hs' : st'.stores[i]? = some s')
    (hold : ∀ s, st.stores[i]? = some s → BufferedAbove w s) : BufferedAbove w s' := by
  rcases h.pending w hw i s' hs' with ⟨s, hs, hsub⟩ | habove
  · exact fun r hr => (hsub r hr).elim (hold s hs r) id
  · exact habove

theorem CallOk.extend (h : st.CallOk) (hext : st.Extends st') : st'.CallOk := by
  unfold CallOk at h ⊢
  rw [hext.call, hext.delivered]
  cases hc : st.call with
  | idle => trivial
  | flushingRefs | flushingEvents =>
    rw [hc] at h
    exact ⟨h.1.trans hext.seq, fun i s hs hi =>
      hext.bufferedAbove h.1 hs fun t ht => h.2 i t ht hi⟩
  | merging count w m =>
    rw [hc] at h
    obtain ⟨hseq, hcount, hbuf, hbeyond, hle, hok⟩ := h
    have hgrow := hext.grow w hseq
    refine ⟨hseq.trans hext.seq, hcount.trans hext.length, fun s hs => ?_, fun i s hi hs r hr => ?_,
      hle, hok.grow hgrow⟩
    · obtain ⟨i, hi⟩ := getElem?_of_mem hs
      exact hext.bufferedAbove hseq hi fun t ht => hbuf t (mem_of_getElem? ht)
    · cases ht : st.stores[i]? with
      | none => exact hgrow.2 i s hs ht r hr
      | some t =>
        obtain ⟨s', hs', hg⟩ := hgrow.1 i t ht
        cases hs.symm.trans hs'
        exact (hg.records r hr).elim (hbeyond i t hi ht r) id

variable {sh' : TieredShard P} {r : ChangeRecord P} {s : LogShard P}

/-- One shard is exchanged for one that keeps its log and whose new records are minted now. -/
theorem extends_set (hs : st.shards[shard]? = some sh) {seq' : Nat} (hseq : st.seq ≤ seq')
    (hgrow : ∀ w ≤ st.seq, sh.store.Grows w sh'.store)
    (hpending : ∀ r ∈ sh'.store.pendingLog, r ∈ sh.store.pendingLog ∨ st.seq < r.lsn)
    (hshards : st'.shards = st.shards.set shard sh') (hseq' : st'.seq = seq')
    (hcall : st'.call = st.call) (hdelivered : st'.delivered = st.delivered) : st.Extends st' := by
  have hstores : st'.stores = st.stores.set shard sh'.store := by
    unfold stores
    rw [hshards, map_set]
  have hget : st.stores[shard]? = some sh.store := by
    unfold stores
    rw [getElem?_map, hs]
    rfl
  refine ⟨hseq' ▸ hseq, hcall, hdelivered, by rw [hstores, length_set], fun w hw => ?_,
    fun w hw i s' hs' => .inl ?_⟩
  · rw [hstores]
    exact shardsGrow_set hget (hgrow w hw)
  · rw [hstores, getElem?_set] at hs'
    split at hs'
    · rename_i hi
      split at hs'
      · cases hs'
        exact ⟨sh.store, hi ▸ hget, fun r hr => (hpending r hr).imp_right hw.trans_lt⟩
      · cases hs'
    · exact ⟨s', hs', fun r hr => .inl hr⟩

theorem getElem?_stores (hs : st.shards[shard]? = some sh) : st.stores[shard]? = some sh.store := by
  unfold stores
  rw [getElem?_map, hs]
  rfl

theorem le_observe (seq watermark : Nat) : seq ≤ observe seq watermark := by
  unfold observe
  split <;> omega

/-- A step that leaves the change logs as they are. -/
theorem Inv.of_stores (h : st.Inv) (hstores : st'.stores = st.stores) (hseq : st.seq ≤ st'.seq)
    (hdrained : ∀ sh ∈ st'.shards, sh.isOpen = false → sh.store.pendingLog = [])
    (hcommitted : st'.committed = st.committed) (hdelivered : st'.delivered = st.delivered)
    (hcall : st'.call = st.call) : st'.Inv where
  logs := hstores ▸ h.logs.mono hseq
  lastLSN := hstores ▸ h.lastLSN
  drained := hdrained
  committed := hcommitted ▸ hstores ▸ h.committed
  nodup := hcommitted ▸ h.nodup
  feed := hstores ▸ hdelivered ▸ h.feed
  call := h.call.extend ⟨hseq, hcall, hdelivered, by rw [hstores], fun w _ => hstores ▸
    ⟨fun i s hs => ⟨s, hs, .refl w s⟩, fun i s hs hnone => by rw [hs] at hnone; cases hnone⟩,
    fun w _ i s hs => .inl ⟨s, hstores ▸ hs, fun r hr => .inl hr⟩⟩

/-- Exchanging a shard for one with the same change log. -/
theorem stores_set_same (hs : st.shards[shard]? = some sh) (hstore : sh'.store = sh.store) :
    (st.shards.set shard sh').map TieredShard.store = st.stores := by
  have hget := getElem?_stores hs
  have hlen := (List.getElem?_eq_some_iff.mp hget).1
  have hset : (st.shards.set shard sh').map TieredShard.store = st.stores.set shard sh.store :=
    hstore ▸ map_set
  rw [hset]
  refine ext_getElem? fun j => ?_
  by_cases hj : shard = j
  · rw [← hj, getElem?_set_self hlen, hget]
  · rw [getElem?_set_ne hj]

theorem drained_set (h : st.Inv) (shard : Nat) (sh' : TieredShard P)
    (hsh' : sh'.isOpen = false → sh'.store.pendingLog = []) :
    ∀ x ∈ st.shards.set shard sh', x.isOpen = false → x.store.pendingLog = [] := by
  intro x hx
  rcases mem_or_eq_of_mem_set hx with hx | rfl
  · exact h.drained x hx
  · exact hsh'

theorem Inv.openShard (h : st.Inv) (shard : Nat) : (st.openShard shard).Inv := by
  unfold TieredFeed.openShard
  cases hs : st.shards[shard]? with
  | none => exact h
  | some sh =>
    simp only
    split
    · exact h
    · exact h.of_stores (stores_set_same hs rfl) (le_observe _ _) (drained_set h _ _ fun h => by cases h)
        rfl rfl rfl

theorem Inv.closeShard (h : st.Inv) (shard : Nat) : (st.closeShard shard).Inv := by
  unfold TieredFeed.closeShard
  cases hs : st.shards[shard]? with
  | none => exact h
  | some sh =>
    simp only
    split
    · rename_i hdrained
      exact h.of_stores (stores_set_same hs rfl) le_rfl (drained_set h _ _ fun _ => hdrained.2.1)
        rfl rfl rfl
    · exact h

theorem Inv.demote (h : st.Inv) (shard : Nat) : (st.demote shard).Inv := by
  unfold TieredFeed.demote
  cases hs : st.shards[shard]? with
  | none => exact h
  | some sh =>
    simp only
    split
    · exact h.of_stores (stores_set_same hs rfl) le_rfl
        (drained_set h _ _ (h.drained sh (mem_of_getElem? hs))) rfl rfl rfl
    · exact h

theorem Inv.persist (h : st.Inv) (shard : Nat) : (st.persist shard).Inv := by
  unfold TieredFeed.persist
  cases hs : st.shards[shard]? with
  | none => exact h
  | some sh =>
    have hdrained := drained_set h shard { sh with hookDue := false }
      (h.drained sh (mem_of_getElem? hs))
    simp only
    split
    · split <;> exact h.of_stores (stores_set_same hs rfl) le_rfl hdrained rfl rfl rfl
    · exact h

/-- One shard's change log grows. -/
theorem Inv.set (h : st.Inv) (hs : st.shards[shard]? = some sh)
    (hshards : st'.shards = st.shards.set shard sh')
    (hlogs : LogsOk (st.stores.set shard sh'.store) st'.seq) (hseq : st.seq ≤ st'.seq)
    (hlast : ∀ r ∈ sh'.store.log, r.lsn ≤ sh'.store.lastLSN)
    (hdrained : sh'.isOpen = false → sh'.store.pendingLog = [])
    (hlog : ∀ r ∈ sh.store.log, r ∈ sh'.store.log)
    (hrecords : ∀ r ∈ sh'.store.records, r ∈ sh.store.records ∨ st.seq < r.lsn)
    (hpending : ∀ r ∈ sh'.store.pendingLog, r ∈ sh.store.pendingLog ∨ st.seq < r.lsn)
    (hcommitted : ∀ r ∈ st'.committed, r ∈ st.committed ∨ r ∈ sh'.store.log)
    (hnodup : (st'.committed.map ChangeRecord.lsn).Nodup) (hcall : st'.call = st.call)
    (hdelivered : st'.delivered = st.delivered) : st'.Inv := by
  have hget := getElem?_stores hs
  have hlen : shard < st.stores.length := (List.getElem?_eq_some_iff.mp hget).1
  have hstores : st'.stores = st.stores.set shard sh'.store := by
    unfold stores
    rw [hshards, map_set]
  have hself : sh'.store ∈ st'.stores :=
    hstores ▸ mem_of_getElem? (getElem?_set_self hlen)
  have hlast' := h.feed.lastDelivered_le h.logs
  refine ⟨hstores ▸ hlogs, fun s hs' => ?_, hshards ▸ drained_set h _ _ hdrained, fun r hr => ?_,
    hnodup, ?_, h.call.extend (extends_set hs hseq (fun w hw => ⟨hlog, fun r hr =>
      (hrecords r hr).imp_right hw.trans_lt⟩) hpending hshards rfl hcall hdelivered)⟩
  · rw [hstores] at hs'
    rcases mem_or_eq_of_mem_set hs' with hs' | rfl
    · exact h.lastLSN s hs'
    · exact hlast
  · rcases hcommitted r hr with hr | hr
    · obtain ⟨t, ht, hrt⟩ := h.committed r hr
      obtain ⟨j, hj⟩ := getElem?_of_mem ht
      by_cases hij : shard = j
      · rw [← hij, hget] at hj
        cases hj
        exact ⟨_, hself, hlog r hrt⟩
      · exact ⟨t, hstores ▸ mem_of_getElem? (by rw [getElem?_set_ne hij, hj]), hrt⟩
    · exact ⟨_, hself, hr⟩
  · rw [hstores, hdelivered]
    exact h.feed.set hget (fun r hr => (hrecords r hr).imp_right hlast'.trans_lt) hlog

theorem Inv.write (h : st.Inv) (shard : Nat) (value : P) : (st.write shard value).Inv := by
  unfold TieredFeed.write
  cases hs : st.shards[shard]? with
  | none => exact h
  | some sh =>
    simp only
    split
    · rename_i hopen
      have hget := getElem?_stores hs
      have hkeep : (sh.store.logChangeRaw st.seq value).2.log = sh.store.log ∧
          (sh.store.logChangeRaw st.seq value).2.lastLSN = sh.store.lastLSN ∧
          ∀ r ∈ (sh.store.logChangeRaw st.seq value).2.pendingLog,
            r ∈ sh.store.pendingLog ∨ st.seq < r.lsn := by
        unfold LogShard.logChangeRaw
        cases sh.store.scopeActive with
        | true => exact ⟨rfl, rfl, fun r hr => .inl hr⟩
        | false =>
          refine ⟨rfl, rfl, fun r hr => (mem_append.mp hr).imp_right fun hr => ?_⟩
          rw [mem_singleton.mp hr]
          exact Nat.lt_succ_self _
      refine h.set hs rfl (h.logs.logChangeRaw hget value) (sh.store.le_logChangeRaw st.seq value)
        ?_ (fun hclosed => ?_) (fun r hr => ?_) (fun r hr => ?_) hkeep.2.2 (fun r hr => .inl hr)
        h.nodup rfl rfl
      · simp only [hkeep.1, hkeep.2.1]
        exact h.lastLSN _ (mem_of_getElem? hget)
      · rw [show sh.isOpen = false from hclosed] at hopen
        cases hopen
      · simpa only [hkeep.1] using hr
      · exact (LogShard.mem_logChangeRaw hr).imp_right fun hnew => by omega
    · exact h

theorem le_foldl_max (l : List (ChangeRecord P)) (hr : r ∈ l) (hw : Nat) :
    r.lsn ≤ l.foldl (fun hw r => max hw r.lsn) hw := by
  rw [← foldl_map, foldl_max]
  exact (le_max?_getD_of_mem (mem_map_of_mem hr)).trans (le_max_right _ _)

/-- The watermark after a flush covers the log. -/
theorem lsn_le_lastLSN_flush (hasc : s.Ascending) (hlast : ∀ r ∈ s.log, r.lsn ≤ s.lastLSN)
    (hr : r ∈ s.flush.log) : r.lsn ≤ s.flush.lastLSN := by
  rw [hasc.flush_log] at hr
  unfold LogShard.flush
  split
  · rename_i hempty
    rw [LogShard.records, isEmpty_iff.mp hempty, append_nil] at hr
    exact hlast r hr
  · rename_i hne
    rcases mem_append.mp hr with hr | hr
    · obtain ⟨x, hx⟩ := exists_mem_of_ne_nil _ fun h => hne (isEmpty_iff.mpr h)
      exact ((pairwise_append.mp hasc).2.2 r hr x hx).le.trans (le_foldl_max _ hx 0)
    · exact le_foldl_max _ hr 0

theorem Inv.flush (h : st.Inv) (shard : Nat) : (st.flush shard).Inv := by
  unfold TieredFeed.flush
  cases hs : st.shards[shard]? with
  | none => exact h
  | some sh =>
    simp only
    split
    · have hget := getElem?_stores hs
      have hmem := mem_of_getElem? hget
      have hasc := h.logs.ascending _ hmem
      refine h.set hs rfl (h.logs.flush hget) le_rfl
        (fun r => lsn_le_lastLSN_flush hasc (h.lastLSN _ hmem)) (fun _ => sh.store.flush_pendingLog)
        (hasc.grows_flush 0).log (fun r hr => .inl (hasc.flush_records ▸ hr)) (fun r hr => ?_)
        (fun r hr => ?_) ?_ rfl rfl
      · rw [LogShard.flush_pendingLog] at hr
        cases hr
      · refine (mem_append.mp hr).imp_right fun hr => ?_
        exact hasc.flush_log ▸ mem_append_right _ hr
      · -- a buffered LSN is on no log
        rw [map_append]
        refine h.nodup.append ?_ ?_
        · exact pairwise_map.mpr ((pairwise_append.mp hasc).2.1.imp fun hlt => hlt.ne)
        · intro lsn hcommitted hpending
          obtain ⟨x, hx, rfl⟩ := mem_map.mp hcommitted
          obtain ⟨r, hr, hlsn⟩ := mem_map.mp hpending
          obtain ⟨t, ht, hxt⟩ := h.committed x hx
          obtain ⟨j, hj⟩ := getElem?_of_mem ht
          have hij := h.logs.apart shard j _ t hget hj r (mem_append_right _ hr) x
            (mem_append_left _ hxt) hlsn
          rw [← hij, hget] at hj
          cases hj
          have := (pairwise_append.mp hasc).2.2 x hxt r hr
          omega
    · exact h

theorem stores_rotate (st : TieredFeed P) : st.rotate.stores = st.stores ++ [.empty] := by
  unfold stores rotate
  rw [map_append, map_map]
  rfl

theorem Inv.rotate (h : st.Inv) : st.rotate.Inv := by
  have hstores := stores_rotate st
  have hget : ∀ {i : Nat} {s : LogShard P}, st.rotate.stores[i]? = some s →
      st.stores[i]? = some s ∨ (st.stores[i]? = none ∧ s = .empty) := by
    intro i s hs
    rw [hstores, getElem?_append] at hs
    split at hs
    · exact .inl hs
    · rename_i hge
      refine .inr ⟨getElem?_eq_none (not_lt.mp hge), ?_⟩
      exact mem_singleton.mp (mem_of_getElem? hs)
  have hmem : ∀ {s : LogShard P}, s ∈ st.rotate.stores → s ∈ st.stores ∨ s = .empty := by
    intro s hs
    rw [hstores] at hs
    exact (mem_append.mp hs).imp_right mem_singleton.mp
  have hsub : ∀ s ∈ st.stores, s ∈ st.rotate.stores := fun s hs =>
    hstores ▸ mem_append_left _ hs
  have hnone : ∀ r : ChangeRecord P, r ∉ LogShard.empty.records := fun r hr => by cases hr
  refine ⟨⟨fun s hs => ?_, fun i j s t hs ht r hr x hx heq => ?_, fun s hs => ?_, fun s hs r hr => ?_⟩,
    fun s hs r hr => ?_, fun sh hsh hclosed => ?_, fun r hr => ?_, h.nodup,
    ⟨h.feed.sorted, fun r hr => ?_, fun s hs r hr => ?_⟩, h.call.extend ⟨le_rfl, rfl, rfl, ?_,
    fun w _ => ⟨fun i s hs => ⟨s, ?_, .refl w s⟩, fun i s hs hn r hr => ?_⟩,
    fun w _ i s hs => ?_⟩⟩
  · rcases hmem hs with hs | rfl
    · exact h.logs.ascending s hs
    · exact Pairwise.nil
  · rcases hget hs with hs | ⟨-, rfl⟩
    · rcases hget ht with ht | ⟨-, rfl⟩
      · exact h.logs.apart i j s t hs ht r hr x hx heq
      · cases hnone x hx
    · cases hnone r hr
  · rcases hmem hs with hs | rfl
    · exact h.logs.lastLSN_le s hs
    · exact Nat.zero_le _
  · rcases hmem hs with hs | rfl
    · exact h.logs.lsn_le s hs r hr
    · cases hnone r hr
  · rcases hmem hs with hs | rfl
    · exact h.lastLSN s hs r hr
    · cases hr
  · rcases mem_append.mp hsh with hsh | hsh
    · obtain ⟨sh', hsh', rfl⟩ := mem_map.mp hsh
      exact h.drained sh' hsh' hclosed
    · rw [mem_singleton.mp hsh]
      rfl
  · obtain ⟨s, hs, hr⟩ := h.committed r hr
    exact ⟨s, hsub s hs, hr⟩
  · obtain ⟨s, hs, hr⟩ := h.feed.durable r hr
    exact ⟨s, hsub s hs, hr⟩
  · rcases hmem hs with hs | rfl
    · exact h.feed.closed s hs r hr
    · cases hnone r hr
  · rw [hstores, length_append]
    exact Nat.le_add_right _ _
  · rw [hstores, List.getElem?_append_left (List.getElem?_eq_some_iff.mp hs).1, hs]
  · rcases hget hs with hs | ⟨-, rfl⟩
    · cases hs.symm.trans hn
    · cases hnone r hr
  · rcases hget hs with hs | ⟨-, rfl⟩
    · exact .inl ⟨s, hs, fun r hr => .inl hr⟩
    · exact .inr fun r hr => by cases hr

/-- The change log a crash leaves. -/
def survives (s : LogShard P) : LogShard P :=
  { s with pendingLog := [], scopeLog := none, scopeActive := false }

theorem stores_restart (demoted promoted : List Nat) (st : TieredFeed P) :
    (st.restart demoted promoted).stores = st.stores.map survives := by
  unfold stores restart
  refine ext_getElem? fun i => ?_
  rw [getElem?_map, getElem?_mapIdx, getElem?_map, getElem?_map, Option.map_map,
    Option.map_map]
  rfl

theorem observe_ge (seq watermark : Nat) : watermark ≤ observe seq watermark := by
  unfold observe
  split <;> omega

/-- The seed of a reopen is at least every watermark it reads. -/
theorem le_seed (shards : List (TieredShard P)) (init : Nat) :
    init ≤ shards.foldl (fun seq sh => if sh.isOpen then observe seq sh.store.seedLogLSN else seq)
        init ∧
      ∀ sh ∈ shards, sh.isOpen = true → sh.store.lastLSN ≤
        shards.foldl (fun seq sh => if sh.isOpen then observe seq sh.store.seedLogLSN else seq)
          init := by
  induction shards generalizing init with
  | nil => exact ⟨le_rfl, fun sh hsh => by cases hsh⟩
  | cons sh shards ih =>
    obtain ⟨hinit, hrest⟩ := ih (if sh.isOpen then observe init sh.store.seedLogLSN else init)
    refine ⟨le_trans ?_ hinit, fun t ht hopen => ?_⟩
    · split
      · exact le_observe _ _
      · exact le_rfl
    · rcases mem_cons.mp ht with rfl | ht
      · refine le_trans ?_ hinit
        rw [if_pos hopen]
        refine le_trans ?_ (observe_ge _ _)
        unfold LogShard.seedLogLSN
        simp only
        split <;> omega
      · exact hrest t ht hopen

theorem Inv.restart (h : st.Inv) {demoted promoted : List Nat}
    (hseed : st.SeedCovers (.restart demoted promoted)) : (st.restart demoted promoted).Inv := by
  have hstores := stores_restart demoted promoted st
  have hrecords : ∀ s : LogShard P, (survives s).records = s.log := fun s => append_nil _
  have hmem : ∀ {s : LogShard P}, s ∈ (st.restart demoted promoted).stores →
      ∃ t ∈ st.stores, s = survives t := by
    intro s hs
    rw [hstores] at hs
    obtain ⟨t, ht, rfl⟩ := mem_map.mp hs
    exact ⟨t, ht, rfl⟩
  have hget : ∀ {i : Nat} {s : LogShard P}, (st.restart demoted promoted).stores[i]? = some s →
      ∃ t, st.stores[i]? = some t ∧ s = survives t := by
    intro i s hs
    rw [hstores, getElem?_map] at hs
    obtain ⟨t, ht, rfl⟩ := Option.map_eq_some_iff.mp hs
    exact ⟨t, ht, rfl⟩
  have hlog : ∀ r, (∃ s ∈ st.stores, r ∈ s.log) →
      ∃ s ∈ (st.restart demoted promoted).stores, r ∈ s.log := by
    rintro r ⟨s, hs, hr⟩
    exact ⟨survives s, hstores ▸ mem_map_of_mem hs, hr⟩
  -- the seed covers the watermark of every shard, and so every durable LSN
  have hlast : ∀ s ∈ st.stores, s.lastLSN ≤ (st.restart demoted promoted).seq := by
    intro s hs
    obtain ⟨sh, hsh, rfl⟩ := mem_map.mp hs
    obtain ⟨hinit, hopen⟩ := le_seed (st.shards.mapIdx (reopen demoted promoted))
      (observe 0 st.watermark)
    rcases hseed sh hsh with hle | ⟨t, ht, htopen, hle⟩
    · exact hle.trans ((observe_ge 0 _).trans hinit)
    · exact hle.trans (hopen t ht htopen)
  refine ⟨⟨fun s hs => ?_, fun i j s t hs ht r hr x hx heq => ?_, fun s hs => ?_, fun s hs r hr => ?_⟩,
    fun s hs r hr => ?_, fun sh hsh _ => ?_, fun r hr => hlog r (h.committed r hr), h.nodup,
    ⟨h.feed.sorted, fun r hr => hlog r (h.feed.durable r hr), fun s hs r hr => ?_⟩, trivial⟩
  · obtain ⟨t, ht, rfl⟩ := hmem hs
    unfold LogShard.Ascending
    rw [hrecords]
    exact (pairwise_append.mp (h.logs.ascending t ht)).1
  · obtain ⟨s', hs', rfl⟩ := hget hs
    obtain ⟨t', ht', rfl⟩ := hget ht
    rw [hrecords] at hr hx
    exact h.logs.apart i j s' t' hs' ht' r (mem_append_left _ hr) x (mem_append_left _ hx)
      heq
  · obtain ⟨t, ht, rfl⟩ := hmem hs
    exact hlast t ht
  · obtain ⟨t, ht, rfl⟩ := hmem hs
    rw [hrecords] at hr
    exact (h.lastLSN t ht r hr).trans (hlast t ht)
  · obtain ⟨t, ht, rfl⟩ := hmem hs
    exact h.lastLSN t ht r hr
  · obtain ⟨i, hi⟩ := getElem?_of_mem hsh
    change (st.shards.mapIdx (reopen demoted promoted))[i]? = some sh at hi
    rw [getElem?_mapIdx] at hi
    obtain ⟨sh', -, rfl⟩ := Option.map_eq_some_iff.mp hi
    rfl
  · obtain ⟨t, ht, rfl⟩ := hmem hs
    rw [hrecords] at hr
    exact h.feed.closed t ht r (mem_append_left _ hr)

theorem Inv.init : (fresh : TieredFeed P).Inv := by
  have hempty : ∀ s ∈ (fresh : TieredFeed P).stores, s = .empty := by
    intro s hs
    simpa [stores, fresh] using hs
  refine ⟨logsOk_of_empty hempty, fun s hs r hr => ?_, fun sh hsh _ => ?_,
    fun r hr => (not_mem_nil hr).elim, nodup_nil, .of_empty hempty, trivial⟩
  · rw [hempty s hs] at hr
    cases hr
  · rw [hempty sh.store (mem_map_of_mem hsh)]
    rfl

/-- After its flush a shard has nothing buffered; a closed shard has nothing to flush. -/
theorem Inv.buffered_flush (h : st.Inv) (w : Nat) (hs : (st.flush shard).stores[shard]? = some s) :
    BufferedAbove w s := by
  have hnil : s.pendingLog = [] := by
    unfold TieredFeed.flush at hs
    cases hsh : st.shards[shard]? with
    | none =>
      simp [stores, hsh] at hs
    | some sh =>
      have hlen := (List.getElem?_eq_some_iff.mp hsh).1
      rw [hsh] at hs
      simp only at hs
      split at hs
      · simp only [stores, getElem?_map, getElem?_set_self hlen, Option.map_some,
          Option.some.injEq] at hs
        rw [← hs]
        exact sh.store.flush_pendingLog
      · rename_i hclosed
        rw [getElem?_stores hsh] at hs
        cases hs
        exact h.drained sh (mem_of_getElem? hsh) (by simpa using hclosed)
  intro r hr
  rw [hnil] at hr
  cases hr

theorem call_flush (st : TieredFeed P) (shard : Nat) : (st.flush shard).call = st.call := by
  unfold TieredFeed.flush
  split
  · rfl
  · split <;> rfl

theorem Inv.consume (h : st.Inv) (more : Bool) : (st.consume more).Inv := by
  have hcall := h.call
  unfold CallOk at hcall
  unfold TieredFeed.consume
  cases hc : st.call with
  | idle => exact { h with call := ⟨le_rfl, fun i s _ hi => absurd hi (Nat.not_lt_zero i)⟩ }
  | flushingRefs next w =>
    rw [hc] at hcall
    simp only
    split
    · have hflush := h.flush next
      have hcall' := hflush.call
      unfold CallOk at hcall'
      rw [call_flush, hc] at hcall'
      refine { hflush with call := ⟨hcall'.1, fun i s hs hi => ?_⟩ }
      rcases Nat.lt_succ_iff_lt_or_eq.mp hi with hi | rfl
      · exact hcall'.2 i s hs hi
      · exact h.buffered_flush w hs
    · refine { h with call := ⟨hcall.1, fun i s hs hi => hcall.2 i s hs ?_⟩ }
      have hlen := (List.getElem?_eq_some_iff.mp hs).1
      simp only [stores, length_map] at hlen
      omega
  | flushingEvents next count w =>
    rw [hc] at hcall
    simp only
    split
    · have hflush := h.flush next
      have hcall' := hflush.call
      unfold CallOk at hcall'
      rw [call_flush, hc] at hcall'
      refine { hflush with call := ⟨hcall'.1, fun i s hs hi => ?_⟩ }
      by_cases hnext : i = next
      · subst hnext
        exact h.buffered_flush w hs
      · exact hcall'.2 i s hs (by omega)
    · split
      · exact { h with call := trivial }
      · rename_i hlt
        refine { h with call := ⟨hcall.1, by simp [stores], fun s hs => ?_, fun i s hi hs => ?_,
          le_of_not_ge hlt, Nat.zero_le _, fun i sc hsc => ?_, fun sc hsc => ?_⟩ }
        · obtain ⟨i, hi⟩ := getElem?_of_mem hs
          exact hcall.2 i s hi (by omega)
        · have hlen := (List.getElem?_eq_some_iff.mp hs).1
          simp only [stores, length_map] at hlen
          omega
        · cases hsc
        · cases hsc
  | merging count w m =>
    have hpage : ({ st with seq := st.pageSeq count m } : TieredFeed P).Inv := by
      refine h.of_stores rfl ?_ h.drained rfl rfl rfl
      change st.seq ≤ st.pageSeq count m
      unfold pageSeq
      split
      · exact le_rfl
      · split
        · exact le_rfl
        · split
          · exact le_rfl
          · exact le_observe _ _
    rw [hc] at hcall
    obtain ⟨hseq, hcount, hbuf, hbeyond, hle, hok⟩ := hcall
    have hseq' : w ≤ st.pageSeq count m := by
      have := hpage.call
      simp only [hc] at this
      exact this.1
    have hstep := hok.step h.logs.ascending h.logs.apart hcount hbeyond hle
      fun page _ s hs _ => hbuf s (mem_of_getElem? hs)
    simp only
    split
    · rename_i m' hm
      rw [show m.step st.stores count (lastDelivered st.delivered) w = _ from hm] at hstep
      exact { hpage with call := ⟨hseq', hcount, hbuf, hbeyond, hle, hstep⟩ }
    · rename_i r m' hm
      rw [show m.step st.stores count (lastDelivered st.delivered) w = _ from hm] at hstep
      refine { hpage with feed := h.feed.emit h.logs hstep.1, call := ?_ }
      unfold CallOk
      cases more with
      | false => trivial
      | true =>
        simp only [if_true, lastDelivered_append]
        exact ⟨hseq', hcount, hbuf, hbeyond, hstep.1.le_bound, hstep.2⟩
    · exact { hpage with call := trivial }
    · exact { hpage with call := trivial }

theorem Inv.step (h : st.Inv) (ev : TieredEvent P) (hseed : st.SeedCovers ev) : (st.step ev).Inv := by
  cases ev with
  | write shard value => exact h.write shard value
  | openShard shard => exact h.openShard shard
  | closeShard shard => exact h.closeShard shard
  | flush shard => exact h.flush shard
  | persist shard => exact h.persist shard
  | rotate => exact h.rotate
  | demote shard => exact h.demote shard
  | restart demoted promoted => exact h.restart hseed
  | consume more => exact h.consume more

end Steps

/-- **The tiered feed is complete and no LSN is used twice**, in every run whose crashes find the
durable LSNs covered by the next seed. -/
theorem feed_complete {st : TieredFeed P}
    (h : Runs.Reachable (fun s => s = fresh) (Runs.Guarded step SeedCovers) st) : st.Complete := by
  have hinv : st.Inv := by
    refine h.invariant (fun s hs => ?_) fun s ev s' _ hs hnext => ?_
    · rw [hs]
      exact .init
    · obtain ⟨hseed, rfl⟩ := hnext
      exact hs.step ev hseed
  refine ⟨hinv.nodup, fun before r rest heq x hx hlt => ?_⟩
  obtain ⟨s, hs, hx⟩ := hinv.committed x hx
  exact hinv.feed.mem_before heq hs (mem_append_left _ hx) hlt

/-- A cold shard is written while a consumer reads, its flush is completed, and the store is reopened
without it. -/
def coldFlushCompleted : List (TieredEvent Nat) :=
  [.write 2 5, .rotate, .flush 2, .persist 2, .demote 2, .closeShard 2, .consume true, .openShard 2,
    .write 2 7, .write 3 6] ++ List.replicate 20 (.consume true) ++
  [.persist 2, .write 3 9, .restart [] [], .write 3 8, .flush 3] ++ List.replicate 22 (.consume true)

theorem feed_complete_coldFlushCompleted :
    (coldFlushCompleted.foldl step fresh).Complete :=
  feed_complete (Runs.Reachable.foldl (.start rfl) (by decide +kernel))

/-- A cold shard is opened for a write and flushed, and the process dies before the value on the
reference shard is written.  The next write on the hot shard takes the same LSN. -/
def coldFlush : List (TieredEvent Nat) :=
  [.rotate, .demote 2, .closeShard 2, .openShard 2, .write 2 7, .flush 2, .restart [] [], .write 3 8,
    .flush 3]

/-- Two durable records carry one LSN. -/
theorem reuses_coldFlush :
    ∃ st : TieredFeed Nat,
      Runs.Reachable (fun s => s = fresh) (Runs.Guarded step fun _ _ => True) st ∧
        ¬ st.Complete := by
  refine ⟨coldFlush.foldl step fresh, Runs.Reachable.foldl (.start rfl) (by decide +kernel),
    fun h => absurd h.1 (by decide +kernel)⟩

end TieredFeed

end RhoTkg
