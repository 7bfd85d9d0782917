import Mathlib.Data.List.MinMax
import Mathlib.Data.List.Sort
import RhoTkg.Library.Keyed

/-!
# The change log of a shard and the merged feed

A badger shard buffers its change-log records in `pendingLog` and a flush commits them together with
the watermark `LastLSNKey`.  A store of several shards hands one LSN allocator to all of them, and
`mergeChangeFeed` pages the shards' durable logs up to a bound and emits the smallest head until every
shard is exhausted.  The sharded and the tiered store run the same merge; they differ in how the bound
is taken and in what happens on a record above it.

`Merge.step` is one step of the merge: a page of one shard or one record handed to the callback.
Other writers run between two steps, so every step reads the shards as they are then.

LSNs are natural numbers: the source counts in `uint64` and mints one LSN a record.  A record's tag
and payload are one value.  `container/heap` is taken by its contract: `Pop` returns a least entry.
-/

namespace RhoTkg

variable {P : Type}

/-- `store.ChangeRecord`. -/
structure ChangeRecord (P : Type) where
  lsn : Nat
  payload : P
deriving DecidableEq, Repr

/-- The change-log part of a badger `Store`. -/
structure LogShard (P : Type) where
  pendingLog : List (ChangeRecord P)
  /-- The records committed under `KeyChangeLog`, by LSN. -/
  log : List (ChangeRecord P)
  /-- `LastLSNKey`, 0 when absent. -/
  lastLSN : Nat
  /-- The buffer of an open scope. -/
  scopeLog : Option (List P)
  scopeActive : Bool
deriving DecidableEq, Repr

namespace LogShard

/-- A shard without records. -/
def empty : LogShard P := ⟨[], [], 0, none, false⟩

/-- The records a shard holds, durable or buffered. -/
def records (s : LogShard P) : List (ChangeRecord P) := s.log ++ s.pendingLog

/-- `nextLSN` and `appendLogLocked`: the next LSN of the allocator, and the shard with the record. -/
def appendLogLocked (seq : Nat) (value : P) (s : LogShard P) : Nat × LogShard P :=
  (seq + 1, { s with pendingLog := s.pendingLog ++ [⟨seq + 1, value⟩] })

/-- `logChangeRaw` on a shard whose change log is on. -/
def logChangeRaw (seq : Nat) (value : P) (s : LogShard P) : Nat × LogShard P :=
  if s.scopeActive then
    (seq, { s with scopeLog := some (s.scopeLog.getD [] ++ [value]) })
  else s.appendLogLocked seq value

/-- The change-log part of `flush`: the buffered records and the highest of their LSNs ride one
commit. -/
def flush (s : LogShard P) : LogShard P :=
  if s.pendingLog.isEmpty then s
  else
    { s with
      log := (s.pendingLog.insertionSort fun x y => x.lsn ≤ y.lsn).foldl
        (Keyed.put ChangeRecord.lsn) s.log
      lastLSN := s.pendingLog.foldl (fun hw r => max hw r.lsn) 0
      pendingLog := [] }

end LogShard

/-- `changeFeedPageSize`. -/
def changeFeedPageSize : Nat := 256

/-- `pageBoundedFeed`: one page of a shard's log, cut at the first record above the bound. -/
def pageBoundedFeed (shard : LogShard P) (afterLSN w : Nat) : List (ChangeRecord P) :=
  ((shard.log.filter fun r => decide (afterLSN < r.lsn)).take changeFeedPageSize).takeWhile
    fun r => decide (r.lsn ≤ w)

/-- `shardCursor`; `buf` is the part of the page from `pos` on. -/
structure ShardCursor (P : Type) where
  cursor : Nat
  buf : List (ChangeRecord P)
  done : Bool
deriving DecidableEq, Repr

/-- `page`: refill a cursor's buffer. -/
def ShardCursor.page (shard : LogShard P) (w : Nat) (sc : ShardCursor P) : ShardCursor P :=
  if sc.done then sc
  else
    let recs := pageBoundedFeed shard sc.cursor w
    match recs.getLast? with
    | none => { sc with done := true }
    | some last => ⟨last.lsn, recs, false⟩

/-- `feedHeapItem`. -/
structure FeedHeapItem where
  lsn : Nat
  shard : Nat
deriving DecidableEq, Repr

/-- `heap.Pop`. -/
def feedHeapPop (heap : List FeedHeapItem) : Option (FeedHeapItem × List FeedHeapItem) :=
  (heap.argmin FeedHeapItem.lsn).map fun top => (top, heap.erase top)

/-- The push of a cursor's head, when it has one. -/
def ShardCursor.pushHead (shard : Nat) (sc : ShardCursor P) (heap : List FeedHeapItem) :
    List FeedHeapItem :=
  match sc.done, sc.buf with
  | false, r :: _ => ⟨r.lsn, shard⟩ :: heap
  | _, _ => heap

/-- The heap after the priming loop, from the shard `i` on. -/
def feedHeapInit : Nat → List (ShardCursor P) → List FeedHeapItem
  | _, [] => []
  | i, sc :: rest => sc.pushHead i (feedHeapInit (i + 1) rest)

/-- Where a merge stands: it primes the shards in turn, drains the heap, or refills the cursor it
just exhausted. -/
inductive Merge (P : Type) where
  | priming (cursors : List (ShardCursor P))
  | draining (cursors : List (ShardCursor P)) (heap : List FeedHeapItem)
  | refilling (cursors : List (ShardCursor P)) (heap : List FeedHeapItem) (shard : Nat)
deriving DecidableEq, Repr

/-- What a step of the merge does. -/
inductive MergeStep (P : Type) where
  | run (m : Merge P)
  /-- The record goes to the callback; the merge goes on from `m` when the callback wants more. -/
  | emit (record : ChangeRecord P) (m : Merge P)
  /-- The record is above the bound. -/
  | overrun (m : Merge P)
  | finished

/-- One step of `mergeChangeFeed` over the first `count` shards. -/
def Merge.step (shards : List (LogShard P)) (count afterLSN w : Nat) : Merge P → MergeStep P
  | .priming cursors =>
    match shards[cursors.length]? with
    | some shard =>
      if cursors.length < count then
        .run (.priming (cursors ++ [ShardCursor.page shard w ⟨afterLSN, [], false⟩]))
      else .run (.draining cursors (feedHeapInit 0 cursors))
    | none => .run (.draining cursors (feedHeapInit 0 cursors))
  | .draining cursors heap =>
    match feedHeapPop heap with
    | none => .finished
    | some (top, heap) =>
      match cursors[top.shard]? with
      | none => .finished
      | some sc =>
        match sc.buf with
        | [] => .finished
        | record :: rest =>
          if w < record.lsn then .overrun (.draining cursors heap)
          else
            let sc := { sc with buf := rest }
            if rest.isEmpty then
              .emit record (.refilling (cursors.set top.shard sc) heap top.shard)
            else .emit record (.draining (cursors.set top.shard sc) (sc.pushHead top.shard heap))
  | .refilling cursors heap shard =>
    match shards[shard]?, cursors[shard]? with
    | some s, some sc =>
      let sc := sc.page s w
      .run (.draining (cursors.set shard sc) (sc.pushHead shard heap))
    | _, _ => .finished

/-- The shard and the cursor of the page the next step reads, if it reads one. -/
def Merge.nextPage (count afterLSN : Nat) : Merge P → Option (Nat × Nat)
  | .priming cursors => if cursors.length < count then some (cursors.length, afterLSN) else none
  | .draining _ _ => none
  | .refilling cursors _ shard => cursors[shard]?.map fun sc => (shard, sc.cursor)

/-- The LSN a consumer resumes from: the last one it was handed. -/
def lastDelivered (delivered : List (ChangeRecord P)) : Nat :=
  (delivered.getLast?.map ChangeRecord.lsn).getD 0

end RhoTkg
