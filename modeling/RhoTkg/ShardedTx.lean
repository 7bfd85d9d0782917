import Mathlib.Data.List.Flatten
import RhoTkg.FeedMerge

/-!
# The records of a transaction over several shards

While a transaction is open on the sharded store, each shard keeps the records of its own rows in a
scope, without LSNs.  `CommitLogScope` then goes through the shards in order and mints the LSNs of one
shard after the other: in LSN order the records come sorted by shard, and within a shard by call
(`changesAfter_runTx`).  The row of a relationship lies on the shard of its own ID, whatever the shards
of its endpoints, so its record may come before that of an endpoint created earlier in the same
transaction, and a replica refuses it (`ShardedGraph.refused_endpointOnLaterShard`).  This happens
exactly when an endpoint created in the transaction lies on a later shard
(`ShardedGraph.applicable_iff`).

A row's labels, type, properties and temporal block are one value.  The errors of a shard's I/O are
left out.
-/

namespace RhoTkg

open List

variable {P R : Type}

/-! ## Scopes -/

namespace LogShard

/-- `BeginLogScope`; none when a scope is open. -/
def beginLogScope (s : LogShard P) : Option (LogShard P) :=
  if s.scopeLog.isSome || s.scopeActive then none else some { s with scopeLog := some [] }

/-- `SetLogDivert`. -/
def setLogDivert (on : Bool) (s : LogShard P) : LogShard P :=
  { s with
    scopeLog := if on && s.scopeLog.isNone then some [] else s.scopeLog
    scopeActive := on }

/-- `CommitLogScope`: the allocator, the highest LSN minted (0 when the scope was empty) and the
shard. -/
def commitLogScope (seq : Nat) (s : LogShard P) : Nat × Nat × LogShard P :=
  let buffered := s.scopeLog.getD []
  let minted := buffered.foldl (fun acc value => acc.2.appendLogLocked acc.1 value)
    (seq, { s with scopeLog := none, scopeActive := false })
  if buffered.isEmpty then (minted.1, 0, minted.2) else (minted.1, minted.1, minted.2.flush)

end LogShard

/-! ## The store -/

/-- A put of a row: a node, or a relationship with its endpoints. -/
inductive EntityPut (R : Type) where
  | node (id : Nat) (row : R)
  | rel (id startNode endNode : Nat) (row : R)
deriving DecidableEq, Repr

/-- The ID of the row. -/
def EntityPut.id : EntityPut R → Nat
  | .node id _ => id
  | .rel id _ _ _ => id

/-- The put is of a relationship and the other one of an endpoint of it. -/
def EntityPut.DependsOn : EntityPut R → EntityPut R → Prop
  | .rel _ startNode endNode _, .node id _ => id = startNode ∨ id = endNode
  | _, _ => False

instance (a b : EntityPut R) : Decidable (a.DependsOn b) :=
  match a, b with
  | .rel _ startNode endNode _, .node id _ =>
    inferInstanceAs (Decidable (id = startNode ∨ id = endNode))
  | .node _ _, _ | .rel _ _ _ _, .rel _ _ _ _ => inferInstanceAs (Decidable False)

/-- The sharded store: the routing of IDs, the change logs and the IDs of the rows. -/
structure ShardedGraph (R : Type) where
  /-- `shardForID`: the index of the shard of a local slot. -/
  shardForID : Nat → Option Nat
  seq : Nat
  shards : List (LogShard (EntityPut R))
  nodes : List Nat
  rels : List Nat

namespace ShardedGraph

/-- `requireNodeLive`. -/
def requireNodeLive (g : ShardedGraph R) (id : Nat) : Bool :=
  (g.shardForID id).isSome && decide (id ∈ g.nodes)

/-- The index of the shard that takes a put. -/
def shardOf (g : ShardedGraph R) (p : EntityPut R) : Nat := (g.shardForID p.id).getD 0

/-- The checks of `PutNode` and `PutRelationship`. -/
def accepts (g : ShardedGraph R) (p : EntityPut R) : Bool :=
  (g.shardForID p.id).isSome && decide (g.shardOf p < g.shards.length) &&
    match p with
    | .node id _ => decide (id ∉ g.nodes)
    | .rel id startNode endNode _ =>
      g.requireNodeLive startNode && g.requireNodeLive endNode && decide (id ∉ g.rels)

/-- The rows after a put. -/
def withRow (g : ShardedGraph R) : EntityPut R → ShardedGraph R
  | .node id _ => { g with nodes := id :: g.nodes }
  | .rel id _ _ _ => { g with rels := id :: g.rels }

/-- `PutNode` and `PutRelationship`: the row and its record go to the shard of the ID. -/
def put (g : ShardedGraph R) (p : EntityPut R) : Option (ShardedGraph R) :=
  if g.accepts p then
    match g.shards[g.shardOf p]? with
    | none => none
    | some s =>
      let (seq, s') := s.logChangeRaw g.seq p
      some { g.withRow p with seq := seq, shards := g.shards.set (g.shardOf p) s' }
  else none

/-- `BeginLogScope` on every shard. -/
def beginLogScope (g : ShardedGraph R) : Option (ShardedGraph R) :=
  (g.shards.mapM LogShard.beginLogScope).map fun shards => { g with shards := shards }

/-- `SetLogDivert` on every shard. -/
def setLogDivert (on : Bool) (g : ShardedGraph R) : ShardedGraph R :=
  { g with shards := g.shards.map (LogShard.setLogDivert on) }

/-- A create of an open transaction; a refused one leaves the store. -/
def txCall (g : ShardedGraph R) (p : EntityPut R) : ShardedGraph R :=
  let g := g.setLogDivert true
  ((g.put p).getD g).setLogDivert false

/-- The loop of `CommitLogScope` over the shards. -/
def commitShards : Nat → List (LogShard P) → Nat × Nat × List (LogShard P)
  | seq, [] => (seq, 0, [])
  | seq, s :: rest =>
    let (seq, lsn, s) := s.commitLogScope seq
    let (seq, maxLSN, rest) := commitShards seq rest
    (seq, if maxLSN < lsn then lsn else maxLSN, s :: rest)

/-- `CommitLogScope`: the highest LSN minted and the store. -/
def commitLogScope (g : ShardedGraph R) : Nat × ShardedGraph R :=
  let (seq, maxLSN, shards) := commitShards g.seq g.shards
  (maxLSN, { g with seq := seq, shards := shards })

/-- A transaction of creates that commits. -/
def runTx (calls : List (EntityPut R)) (g : ShardedGraph R) : Option (ShardedGraph R) :=
  g.beginLogScope.map fun g => (calls.foldl txCall g).commitLogScope.2

/-- The records after an LSN, in LSN order. -/
def changesAfter (g : ShardedGraph R) (after : Nat) : List (ChangeRecord (EntityPut R)) :=
  ((g.shards.flatMap LogShard.records).filter fun r => decide (after < r.lsn)).insertionSort
    fun x y => x.lsn ≤ y.lsn

/-- The creates of a transaction that the store accepts. -/
def accepted : ShardedGraph R → List (EntityPut R) → List (EntityPut R)
  | _, [] => []
  | g, p :: calls => if g.accepts p then p :: accepted (g.withRow p) calls else accepted g calls

end ShardedGraph

/-! ## The replica -/

/-- The rows of a replica. -/
structure Replica (R : Type) where
  nodes : List (Nat × R)
  rels : List (Nat × R)
deriving DecidableEq, Repr

namespace Replica

/-- The rows with one stored under its ID. -/
def store (rows : List (Nat × R)) (id : Nat) (row : R) : List (Nat × R) :=
  (id, row) :: rows.filter fun r => r.1 != id

/-- `applyNodePutLocked` and `applyRelPutLocked` on records of creates: a row the replica does not have
is put, and a relationship is refused when an endpoint is missing; a row it has is replaced unless it
matches. -/
def apply [DecidableEq R] (rep : Replica R) : EntityPut R → Option (Replica R)
  | .node id row =>
    if (id, row) ∈ rep.nodes then some rep else some { rep with nodes := store rep.nodes id row }
  | .rel id startNode endNode row =>
    if id ∈ rep.rels.map Prod.fst then
      if (id, row) ∈ rep.rels then some rep else some { rep with rels := store rep.rels id row }
    else if startNode ∈ rep.nodes.map Prod.fst ∧ endNode ∈ rep.nodes.map Prod.fst then
      some { rep with rels := store rep.rels id row }
    else none

/-- The records in turn; none when one is refused. -/
def applyAll [DecidableEq R] (rep : Replica R) (feed : List (EntityPut R)) : Option (Replica R) :=
  feed.foldlM apply rep

/-- The replica has the rows of the store. -/
def CaughtUp (rep : Replica R) (g : ShardedGraph R) : Prop :=
  (∀ id, id ∈ rep.nodes.map Prod.fst ↔ id ∈ g.nodes) ∧ ∀ id, id ∈ rep.rels.map Prod.fst ↔ id ∈ g.rels

end Replica

/-! ## The LSNs of a commit -/

/-- The records of values that are given the LSNs after `seq` in turn. -/
def mintAll : Nat → List P → List (ChangeRecord P)
  | _, [] => []
  | seq, value :: values => ⟨seq + 1, value⟩ :: mintAll (seq + 1) values

theorem mintAll_append (seq : Nat) (xs ys : List P) :
    mintAll seq (xs ++ ys) = mintAll seq xs ++ mintAll (seq + xs.length) ys := by
  induction xs generalizing seq with
  | nil => rfl
  | cons x xs ih =>
    rw [cons_append, mintAll, ih, mintAll, length_cons, cons_append,
      show seq + 1 + xs.length = seq + (xs.length + 1) by omega]

theorem map_payload_mintAll (seq : Nat) (values : List P) :
    (mintAll seq values).map ChangeRecord.payload = values := by
  induction values generalizing seq with
  | nil => rfl
  | cons v values ih => rw [mintAll, map_cons, ih]

theorem lt_of_mem_mintAll {seq : Nat} {values : List P} {r : ChangeRecord P}
    (hr : r ∈ mintAll seq values) : seq < r.lsn := by
  induction values generalizing seq with
  | nil => cases hr
  | cons v values ih =>
    rcases mem_cons.mp hr with rfl | hr
    · exact Nat.lt_succ_self _
    · have := ih hr
      omega

theorem sorted_mintAll (seq : Nat) (values : List P) :
    Keyed.Sorted ChangeRecord.lsn (mintAll seq values) := by
  induction values generalizing seq with
  | nil => exact Pairwise.nil
  | cons v values ih => exact pairwise_cons.mpr ⟨fun r hr => lt_of_mem_mintAll hr, ih _⟩

theorem foldl_appendLogLocked (values : List P) (seq : Nat) (s : LogShard P) :
    values.foldl (fun acc value => acc.2.appendLogLocked acc.1 value) (seq, s) =
      (seq + values.length, { s with pendingLog := s.pendingLog ++ mintAll seq values }) := by
  induction values generalizing seq s with
  | nil =>
    rw [foldl_nil, mintAll, append_nil]
    rfl
  | cons v values ih =>
    rw [foldl_cons, LogShard.appendLogLocked, ih, length_cons, mintAll, append_assoc,
      singleton_append, show seq + 1 + values.length = seq + (values.length + 1) by omega]

/-- A shard's commit mints the LSNs of its scope in order. -/
theorem LogShard.commitLogScope_spec {s : LogShard P} {seq : Nat} (hasc : s.Ascending)
    (hle : ∀ r ∈ s.records, r.lsn ≤ seq) :
    (s.commitLogScope seq).1 = seq + (s.scopeLog.getD []).length ∧
      (s.commitLogScope seq).2.2.records = s.records ++ mintAll seq (s.scopeLog.getD []) := by
  unfold LogShard.commitLogScope
  simp only [foldl_appendLogLocked]
  split
  · exact ⟨rfl, by simp [LogShard.records]⟩
  · refine ⟨rfl, ?_⟩
    have hasc' : ({ s with
        pendingLog := s.pendingLog ++ mintAll seq (s.scopeLog.getD [])
        scopeLog := none
        scopeActive := false } : LogShard P).Ascending := by
      unfold LogShard.Ascending LogShard.records
      rw [← append_assoc]
      exact pairwise_append.mpr ⟨hasc, sorted_mintAll _ _, fun r hr x hx =>
        (hle r hr).trans_lt (lt_of_mem_mintAll hx)⟩
    rw [hasc'.flush_records]
    exact (append_assoc _ _ _).symm

/-- The commit mints the LSNs of one shard after the other. -/
theorem ShardedGraph.flatMap_commitShards (shards : List (LogShard P)) {base seq : Nat}
    (hbase : base ≤ seq) (hasc : ∀ s ∈ shards, s.Ascending)
    (hle : ∀ s ∈ shards, ∀ r ∈ s.records, r.lsn ≤ base) :
    ((ShardedGraph.commitShards seq shards).2.2.flatMap LogShard.records).filter
        (fun r => decide (base < r.lsn)) =
      mintAll seq (shards.flatMap fun s => s.scopeLog.getD []) := by
  induction shards generalizing seq with
  | nil => rfl
  | cons s rest ih =>
    have hles := hle s mem_cons_self
    obtain ⟨hseq, hrec⟩ := LogShard.commitLogScope_spec (hasc s mem_cons_self)
      fun r hr => (hles r hr).trans hbase
    have ih := @ih (seq + (s.scopeLog.getD []).length) (by omega)
      (fun t ht => hasc t (mem_cons_of_mem _ ht)) fun t ht => hle t (mem_cons_of_mem _ ht)
    rw [ShardedGraph.commitShards]
    simp only [flatMap_cons, filter_append, hseq, hrec]
    rw [ih, mintAll_append]
    have hold : s.records.filter (fun r => decide (base < r.lsn)) = [] := by
      rw [filter_eq_nil_iff]
      intro r hr
      simpa using hles r hr
    have hnew : (mintAll seq (s.scopeLog.getD [])).filter (fun r => decide (base < r.lsn)) =
        mintAll seq (s.scopeLog.getD []) := by
      rw [filter_eq_self]
      intro r hr
      simpa using hbase.trans_lt (lt_of_mem_mintAll hr)
    rw [hold, hnew, nil_append]

/-! ## The scopes of a transaction -/

namespace ShardedGraph

variable {g h : ShardedGraph R} {calls done : List (EntityPut R)} {p : EntityPut R}

/-- The shards while a transaction is open that has created `done`. -/
def openScopes (g : ShardedGraph R) (on : Bool) (done : List (EntityPut R)) :
    List (LogShard (EntityPut R)) :=
  g.shards.mapIdx fun i s =>
    { s with scopeLog := some (done.filter fun p => g.shardOf p == i), scopeActive := on }

theorem beginLogScope_eq (hscope : ∀ s ∈ g.shards, s.scopeLog = none ∧ s.scopeActive = false) :
    g.beginLogScope = some { g with shards := g.openScopes false [] } := by
  have hmap : ∀ shards : List (LogShard (EntityPut R)),
      (∀ s ∈ shards, s.scopeLog = none ∧ s.scopeActive = false) →
      shards.mapM LogShard.beginLogScope =
        some (shards.map fun s => { s with scopeLog := some [], scopeActive := false }) := by
    intro shards hall
    induction shards with
    | nil => rfl
    | cons s rest ih =>
      obtain ⟨hlog, hactive⟩ := hall s mem_cons_self
      rw [mapM_cons, ih fun t ht => hall t (mem_cons_of_mem _ ht)]
      simp [LogShard.beginLogScope, hlog, hactive]
  unfold beginLogScope
  rw [hmap g.shards hscope]
  simp only [Option.map_some, openScopes, filter_nil]
  congr 1
  rw [ShardedGraph.mk.injEq]
  refine ⟨rfl, rfl, ?_, rfl, rfl⟩
  refine ext_getElem? fun i => ?_
  rw [getElem?_map, getElem?_mapIdx]

theorem setLogDivert_openScopes (on on' : Bool) (done : List (EntityPut R)) :
    (g.openScopes on done).map (LogShard.setLogDivert on') = g.openScopes on' done := by
  refine ext_getElem? fun i => ?_
  rw [openScopes, openScopes, getElem?_map, getElem?_mapIdx, getElem?_mapIdx, Option.map_map]
  congr 1
  funext s
  simp [LogShard.setLogDivert]

/-- Two stores that take the same puts. -/
structure SameRows (g h : ShardedGraph R) : Prop where
  route : h.shardForID = g.shardForID
  length : h.shards.length = g.shards.length
  nodes : h.nodes = g.nodes
  rels : h.rels = g.rels

theorem SameRows.accepts (hsame : SameRows g h) (p : EntityPut R) : h.accepts p = g.accepts p := by
  unfold ShardedGraph.accepts requireNodeLive shardOf
  rw [hsame.route, hsame.length, hsame.nodes, hsame.rels]

theorem SameRows.withRow (hsame : SameRows g h) (p : EntityPut R) :
    SameRows (g.withRow p) (h.withRow p) := by
  cases p with
  | node id row => exact ⟨hsame.route, hsame.length, congrArg (id :: ·) hsame.nodes, hsame.rels⟩
  | rel id a b row => exact ⟨hsame.route, hsame.length, hsame.nodes, congrArg (id :: ·) hsame.rels⟩

/-- A create adds its record to the scope of its shard. -/
theorem set_openScopes {s : LogShard (EntityPut R)} (hs : (g.openScopes true done)[g.shardOf p]? = some s)
    (seq : Nat) : (g.openScopes true done).set (g.shardOf p) (s.logChangeRaw seq p).2 =
      g.openScopes true (done ++ [p]) := by
  have hlen := (List.getElem?_eq_some_iff.mp hs).1
  refine ext_getElem? fun i => ?_
  rw [getElem?_set]
  by_cases hi : g.shardOf p = i
  · subst hi
    rw [if_pos rfl, if_pos hlen, openScopes, getElem?_mapIdx]
    rw [openScopes, getElem?_mapIdx] at hs
    obtain ⟨s₀, hs₀, rfl⟩ := Option.map_eq_some_iff.mp hs
    rw [hs₀]
    simp [LogShard.logChangeRaw]
  · rw [if_neg hi, openScopes, openScopes, getElem?_mapIdx, getElem?_mapIdx]
    simp [hi]

/-- One call of an open transaction. -/
theorem txCall_openScopes (p : EntityPut R) (hsame : SameRows g h) {base : ShardedGraph R}
    (hroute : base.shardForID = h.shardForID) (hshards : h.shards = base.openScopes false done) :
    (h.txCall p).seq = h.seq ∧
      (h.txCall p).shards = base.openScopes false (done ++ if g.accepts p then [p] else []) ∧
      SameRows (if g.accepts p then g.withRow p else g) (h.txCall p) := by
  have hdivert : (h.setLogDivert true).shards = base.openScopes true done := by
    unfold setLogDivert
    rw [hshards, setLogDivert_openScopes]
  have hsame' : SameRows g (h.setLogDivert true) :=
    ⟨hsame.route, by rw [← hsame.length]; exact length_map _, hsame.nodes, hsame.rels⟩
  have hof : (h.setLogDivert true).shardOf p = base.shardOf p := by
    unfold shardOf
    rw [hroute]
    rfl
  unfold txCall put
  simp only [hsame'.accepts p]
  cases hacc : g.accepts p with
  | false =>
    simp only [Bool.false_eq_true, if_false, Option.getD_none, append_nil]
    refine ⟨rfl, ?_, hsame'.route, ?_, hsame'.nodes, hsame'.rels⟩
    · change (h.setLogDivert true).shards.map _ = _
      rw [hdivert, setLogDivert_openScopes]
    · exact (length_map _).trans hsame'.length
  | true =>
    have hlt : (h.setLogDivert true).shardOf p < (h.setLogDivert true).shards.length := by
      have := hsame'.accepts p
      rw [hacc] at this
      unfold ShardedGraph.accepts at this
      simp only [Bool.and_eq_true, decide_eq_true_eq] at this
      exact this.1.2
    obtain ⟨s, hs⟩ : ∃ s, (h.setLogDivert true).shards[(h.setLogDivert true).shardOf p]? = some s :=
      ⟨_, getElem?_eq_getElem hlt⟩
    simp only [if_true, hs, Option.getD_some]
    have hs' : (base.openScopes true done)[base.shardOf p]? = some s := by rw [← hdivert, ← hof, hs]
    have hset : ((h.setLogDivert true).shards.set ((h.setLogDivert true).shardOf p)
        (s.logChangeRaw (h.setLogDivert true).seq p).2) = base.openScopes true (done ++ [p]) := by
      rw [hof, hdivert]
      exact set_openScopes hs' _
    have hactive : s.scopeActive = true := by
      rw [openScopes, getElem?_mapIdx] at hs'
      obtain ⟨s₀, -, rfl⟩ := Option.map_eq_some_iff.mp hs'
      rfl
    refine ⟨?_, ?_, ?_, ?_, ?_, ?_⟩
    · change (s.logChangeRaw h.seq p).1 = h.seq
      unfold LogShard.logChangeRaw
      rw [if_pos hactive]
    · change map _ (set _ _ _) = _
      rw [hset, setLogDivert_openScopes]
    · cases p <;> exact hsame'.route
    · change (map _ (set _ _ _)).length = _
      rw [length_map, length_set, hsame'.length]
      cases p <;> rfl
    · exact (hsame'.withRow p).nodes
    · exact (hsame'.withRow p).rels

/-- The calls of a transaction leave their records in the scopes of their shards. -/
theorem foldl_txCall (base : ShardedGraph R) (hsame : SameRows g h)
    (hroute : base.shardForID = h.shardForID) (hshards : h.shards = base.openScopes false done)
    (calls : List (EntityPut R)) :
    (calls.foldl txCall h).seq = h.seq ∧
      (calls.foldl txCall h).shards = base.openScopes false (done ++ g.accepted calls) := by
  induction calls generalizing g h done with
  | nil =>
    rw [ShardedGraph.accepted, append_nil]
    exact ⟨rfl, hshards⟩
  | cons p calls ih =>
    obtain ⟨hseq, hshards', hsame'⟩ := txCall_openScopes p hsame hroute hshards
    have hroute' : base.shardForID = (h.txCall p).shardForID := by
      rw [hsame'.route, hroute, hsame.route]
      split
      · cases p <;> rfl
      · rfl
    obtain ⟨hseq', hrest⟩ := ih hsame' hroute' hshards'
    rw [foldl_cons, hseq', hrest, hseq, ShardedGraph.accepted]
    refine ⟨rfl, ?_⟩
    cases g.accepts p <;> simp

/-- **The records of a transaction in LSN order**: those of the first shard in the order of the calls,
then those of the second, and so on. -/
theorem changesAfter_runTx {g' : ShardedGraph R} (hlogs : LogsOk g.shards g.seq)
    (hscope : ∀ s ∈ g.shards, s.scopeLog = none ∧ s.scopeActive = false)
    (hrun : g.runTx calls = some g') :
    (g'.changesAfter g.seq).map ChangeRecord.payload =
      (List.range g.shards.length).flatMap fun i =>
        (g.accepted calls).filter fun p => g.shardOf p == i := by
  unfold runTx at hrun
  rw [beginLogScope_eq hscope, Option.map_some] at hrun
  cases hrun
  have hsame : SameRows g { g with shards := g.openScopes false [] } :=
    ⟨rfl, length_mapIdx, rfl, rfl⟩
  obtain ⟨hseq, hshards⟩ := foldl_txCall g hsame rfl rfl calls
  rw [nil_append] at hshards
  have hmem : ∀ s ∈ g.openScopes false (g.accepted calls), ∃ t ∈ g.shards, s.records = t.records := by
    intro s hs
    obtain ⟨i, hi⟩ := getElem?_of_mem hs
    rw [openScopes, getElem?_mapIdx] at hi
    obtain ⟨t, ht, rfl⟩ := Option.map_eq_some_iff.mp hi
    exact ⟨t, mem_of_getElem? ht, rfl⟩
  have hfeed := flatMap_commitShards (g.openScopes false (g.accepted calls))
    (le_refl g.seq)
    (fun s hs => by
      obtain ⟨t, ht, heq⟩ := hmem s hs
      unfold LogShard.Ascending
      rw [heq]
      exact hlogs.ascending t ht)
    (fun s hs => by
      obtain ⟨t, ht, heq⟩ := hmem s hs
      rw [heq]
      exact hlogs.lsn_le t ht)
  unfold changesAfter commitLogScope
  simp only [hseq, hshards, hfeed]
  rw [Pairwise.insertionSort_eq ((sorted_mintAll _ _).imp le_of_lt), map_payload_mintAll,
    flatMap_def, flatMap_def]
  congr 1
  refine ext_getElem? fun i => ?_
  rw [getElem?_map, getElem?_map, openScopes, getElem?_mapIdx]
  by_cases hi : i < g.shards.length
  · rw [getElem?_range hi, getElem?_eq_getElem hi]
    rfl
  · rw [getElem?_eq_none (by simpa using hi), getElem?_eq_none (by simpa using hi)]
    rfl

/-! ## The order of the records -/

theorem lt_of_accepts (hacc : g.accepts p = true) : g.shardOf p < g.shards.length := by
  unfold ShardedGraph.accepts at hacc
  simp only [Bool.and_eq_true, decide_eq_true_eq] at hacc
  exact hacc.1.2

theorem shardOf_withRow (p q : EntityPut R) : (g.withRow p).shardOf q = g.shardOf q := by
  cases p <;> rfl

theorem length_withRow (p : EntityPut R) : (g.withRow p).shards.length = g.shards.length := by
  cases p <;> rfl

/-- What is accepted: a node is new, and an endpoint of a relationship is there or was accepted. -/
theorem accepted_spec (calls : List (EntityPut R)) :
    ∀ p ∈ g.accepted calls, g.shardOf p < g.shards.length ∧
      match p with
      | .node id _ => id ∉ g.nodes
      | .rel id startNode endNode _ => id ∉ g.rels ∧ ∀ x, x = startNode ∨ x = endNode →
          x ∈ g.nodes ∨ ∃ row, .node x row ∈ g.accepted calls := by
  induction calls generalizing g with
  | nil => exact fun p hp => by cases hp
  | cons q calls ih =>
    rw [ShardedGraph.accepted]
    cases hacc : g.accepts q with
    | false => exact ih
    | true =>
      intro p hp
      rcases mem_cons.mp hp with rfl | hp
      · refine ⟨lt_of_accepts hacc, ?_⟩
        unfold ShardedGraph.accepts at hacc
        cases p with
        | node id row => simpa using (Bool.and_eq_true_iff.mp hacc).2
        | rel id a b row =>
          simp only [requireNodeLive, Bool.and_eq_true, decide_eq_true_eq] at hacc
          refine ⟨hacc.2.2, fun x hx => .inl ?_⟩
          rcases hx with rfl | rfl
          · exact hacc.2.1.1.2
          · exact hacc.2.1.2.2
      · obtain ⟨hlt, hspec⟩ := ih p hp
        rw [shardOf_withRow, length_withRow] at hlt
        refine ⟨hlt, ?_⟩
        cases p with
        | node id row =>
          cases q with
          | node id' row' => exact fun h => hspec (mem_cons_of_mem _ h)
          | rel id' a b row' => exact hspec
        | rel id a b row =>
          refine ⟨?_, fun x hx => ?_⟩
          · cases q with
            | node id' row' => exact hspec.1
            | rel id' a b row' => exact fun h => hspec.1 (mem_cons_of_mem _ h)
          · rcases hspec.2 x hx with hold | ⟨row', hnew⟩
            · cases q with
              | node id' row' =>
                rcases mem_cons.mp hold with rfl | hold
                · exact .inr ⟨row', mem_cons_self⟩
                · exact .inl hold
              | rel id' a b row' => exact .inl hold
            · exact .inr ⟨row', mem_cons_of_mem _ hnew⟩

/-- In the order of the calls no record comes before one it depends on. -/
theorem accepted_pairwise (calls : List (EntityPut R)) :
    (g.accepted calls).Pairwise fun a b => ¬ a.DependsOn b := by
  induction calls generalizing g with
  | nil => exact Pairwise.nil
  | cons q calls ih =>
    rw [ShardedGraph.accepted]
    cases hacc : g.accepts q with
    | false => exact ih
    | true =>
      refine pairwise_cons.mpr ⟨fun p hp hdep => ?_, ih⟩
      have hspec := (accepted_spec calls p hp).2
      unfold ShardedGraph.accepts at hacc
      cases q with
      | node id row => exact hdep
      | rel id a b row =>
        cases p with
        | rel id' a' b' row' => exact hdep
        | node x row' =>
          -- an endpoint is there when the relationship is accepted, so no later call creates it
          simp only [requireNodeLive, Bool.and_eq_true, decide_eq_true_eq] at hacc
          rcases hdep with rfl | rfl
          · exact hspec hacc.2.1.1.2
          · exact hspec hacc.2.1.2.2

/-- Sorted by shard, no record comes before one it depends on exactly when every endpoint created
in the transaction lies on no later shard than the relationship. -/
theorem pairwise_byShard_iff (calls : List (EntityPut R)) :
    (((List.range g.shards.length).flatMap fun i =>
        (g.accepted calls).filter fun p => g.shardOf p == i).Pairwise fun a b => ¬ a.DependsOn b) ↔
      ∀ a ∈ g.accepted calls, ∀ b ∈ g.accepted calls, a.DependsOn b → g.shardOf b ≤ g.shardOf a := by
  rw [pairwise_flatMap]
  constructor
  · rintro ⟨-, hcross⟩ a ha b hb hdep
    by_contra hlt
    have hlen : g.shardOf b < g.shards.length := (accepted_spec calls b hb).1
    have hlen' : g.shardOf a < g.shards.length := (accepted_spec calls a ha).1
    have hpair := pairwise_iff_getElem.mp hcross (g.shardOf a) (g.shardOf b)
      (by simpa using hlen') (by simpa using hlen) (not_le.mp hlt)
    exact hpair a (mem_filter.mpr ⟨ha, by simp⟩) b (mem_filter.mpr ⟨hb, by simp⟩) hdep
  · intro hcond
    refine ⟨fun i _ => (accepted_pairwise calls).filter _, ?_⟩
    refine pairwise_lt_range.imp fun hij a ha b hb hdep => ?_
    have ha' := mem_filter.mp ha
    have hb' := mem_filter.mp hb
    have := hcond a ha'.1 b hb'.1 hdep
    simp only [beq_iff_eq] at ha' hb'
    omega

end ShardedGraph

/-! ## The replica -/

namespace Replica

theorem mem_store (rows : List (Nat × R)) (id : Nat) (row : R) (x : Nat) :
    x ∈ (store rows id row).map Prod.fst ↔ x = id ∨ x ∈ rows.map Prod.fst := by
  unfold store
  rw [map_cons, mem_cons]
  by_cases hx : x = id
  · simp [hx]
  · simp only [hx, false_or, mem_map, mem_filter]
    constructor
    · rintro ⟨r, ⟨hr, -⟩, rfl⟩
      exact ⟨r, hr, rfl⟩
    · rintro ⟨r, hr, rfl⟩
      exact ⟨r, ⟨hr, by simpa using hx⟩, rfl⟩

variable [DecidableEq R] {rep : Replica R}

/-- A record whose endpoints are there is not refused, and no row disappears. -/
theorem apply_isSome (p : EntityPut R)
    (hends : ∀ id a b row, p = .rel id a b row →
      a ∈ rep.nodes.map Prod.fst ∧ b ∈ rep.nodes.map Prod.fst) :
    ∃ rep', rep.apply p = some rep' ∧ (∀ x ∈ rep.nodes.map Prod.fst, x ∈ rep'.nodes.map Prod.fst) ∧
      ∀ id row, p = .node id row → id ∈ rep'.nodes.map Prod.fst := by
  cases p with
  | node n row =>
    by_cases hmem : (n, row) ∈ rep.nodes
    · refine ⟨rep, if_pos hmem, fun x hx => hx, fun _ _ heq => ?_⟩
      cases heq
      exact mem_map_of_mem hmem
    · refine ⟨_, if_neg hmem, fun x hx => (mem_store _ _ _ _).mpr (.inr hx), fun _ _ heq => ?_⟩
      cases heq
      exact (mem_store _ _ _ _).mpr (.inl rfl)
  | rel n a b row =>
    have hno : ∀ id row', EntityPut.rel n a b row = .node id row' → id ∈ rep.nodes.map Prod.fst :=
      fun _ _ heq => by cases heq
    simp only [apply, if_pos (hends n a b row rfl)]
    split
    · split
      · exact ⟨rep, rfl, fun x hx => hx, hno⟩
      · exact ⟨_, rfl, fun x hx => hx, hno⟩
    · exact ⟨_, rfl, fun x hx => hx, hno⟩

/-- Records in which every endpoint is there or comes before are applied. -/
theorem applyAll_isSome {feed : List (EntityPut R)}
    (horder : feed.Pairwise fun a b => ¬ a.DependsOn b)
    (hends : ∀ id a b row, .rel id a b row ∈ feed → ∀ x, x = a ∨ x = b →
      x ∈ rep.nodes.map Prod.fst ∨ ∃ row', .node x row' ∈ feed) :
    (rep.applyAll feed).isSome = true := by
  induction feed generalizing rep with
  | nil => rfl
  | cons p feed ih =>
    have hcons := pairwise_cons.mp horder
    -- the endpoints of the first record do not come after it
    have hnow : ∀ id a b row, p = .rel id a b row →
        a ∈ rep.nodes.map Prod.fst ∧ b ∈ rep.nodes.map Prod.fst := by
      rintro id a b row rfl
      have hone : ∀ x, x = a ∨ x = b → x ∈ rep.nodes.map Prod.fst := by
        intro x hx
        rcases hends id a b row mem_cons_self x hx with hx' | ⟨row', hrow'⟩
        · exact hx'
        · rcases mem_cons.mp hrow' with heq | hrow'
          · cases heq
          · exact absurd hx (hcons.1 _ hrow')
      exact ⟨hone a (.inl rfl), hone b (.inr rfl)⟩
    obtain ⟨rep', hrep', hkeep, hnode⟩ := apply_isSome p hnow
    unfold applyAll
    rw [foldlM_cons, hrep']
    refine ih hcons.2 fun id a b row hrel x hx => ?_
    rcases hends id a b row (mem_cons_of_mem _ hrel) x hx with hx' | ⟨row', hrow'⟩
    · exact .inl (hkeep x hx')
    · rcases mem_cons.mp hrow' with heq | hrow'
      · exact .inl (hnode x row' heq.symm)
      · exact .inr ⟨row', hrow'⟩

end Replica

/-! ## Applicable transactions -/

namespace ShardedGraph

variable [DecidableEq R]

/-- The committed records can be applied in LSN order: none comes before the record of an endpoint
created in the same transaction, and a replica that had the rows before is never refused. -/
def Applicable (g g' : ShardedGraph R) : Prop :=
  (((g'.changesAfter g.seq).map ChangeRecord.payload).Pairwise fun a b => ¬ a.DependsOn b) ∧
    ∀ rep : Replica R, rep.CaughtUp g →
      (rep.applyAll ((g'.changesAfter g.seq).map ChangeRecord.payload)).isSome = true

/-- **A transaction over several shards is applicable exactly when no relationship it creates lies
on an earlier shard than an endpoint it creates.** -/
theorem applicable_iff {g g' : ShardedGraph R} (hlogs : LogsOk g.shards g.seq)
    (hscope : ∀ s ∈ g.shards, s.scopeLog = none ∧ s.scopeActive = false) (calls : List (EntityPut R))
    (hrun : g.runTx calls = some g') :
    g.Applicable g' ↔
      ∀ a ∈ g.accepted calls, ∀ b ∈ g.accepted calls, a.DependsOn b → g.shardOf b ≤ g.shardOf a := by
  unfold Applicable
  rw [changesAfter_runTx hlogs hscope hrun]
  refine ⟨fun h => (pairwise_byShard_iff calls).mp h.1, fun hcond => ?_⟩
  have horder := (pairwise_byShard_iff calls).mpr hcond
  have hmem : ∀ p, (p ∈ (range g.shards.length).flatMap fun i =>
      (g.accepted calls).filter fun p => g.shardOf p == i) ↔ p ∈ g.accepted calls := by
    intro p
    simp only [mem_flatMap, mem_range, mem_filter, beq_iff_eq]
    exact ⟨fun ⟨_, _, hp, _⟩ => hp, fun hp => ⟨_, (accepted_spec calls p hp).1, hp, rfl⟩⟩
  refine ⟨horder, fun rep hrep => Replica.applyAll_isSome horder fun id a b row hrel x hx => ?_⟩
  have hspec := (accepted_spec calls _ ((hmem _).mp hrel)).2
  rcases hspec.2 x hx with hold | ⟨row', hnew⟩
  · exact .inl ((hrep.1 x).mpr hold)
  · exact .inr ⟨row', (hmem _).mpr hnew⟩

/-- A fresh store of two shards, the odd IDs on the second. -/
def twoShards : ShardedGraph Nat :=
  ⟨fun id => some (id % 2), 0, [.empty, .empty], [], []⟩

/-- Two nodes on the two shards and a relationship between them on the second. -/
theorem applicable_relOnLaterShard :
    ∃ g', twoShards.runTx [.node 2 0, .node 3 0, .rel 5 2 3 0] = some g' ∧
      (twoShards.Applicable g' ↔
        ∀ a ∈ twoShards.accepted [.node 2 0, .node 3 0, .rel 5 2 3 0],
          ∀ b ∈ twoShards.accepted [.node 2 0, .node 3 0, .rel 5 2 3 0],
            a.DependsOn b → twoShards.shardOf b ≤ twoShards.shardOf a) ∧
      twoShards.Applicable g' := by
  obtain ⟨g', hg'⟩ : ∃ g', twoShards.runTx [.node 2 0, .node 3 0, .rel 5 2 3 0] = some g' := ⟨_, rfl⟩
  have hiff := applicable_iff (logsOk_of_empty (by decide)) (by decide) _ hg'
  exact ⟨g', hg', hiff, hiff.mpr (by decide)⟩

/-- The relationship lies on the first shard with its start node and before the end node on the
second: the replica refuses its record. -/
theorem refused_endpointOnLaterShard :
    ∃ g', twoShards.runTx [.node 2 0, .node 3 0, .rel 4 2 3 0] = some g' ∧
      ¬ twoShards.Applicable g' := by
  obtain ⟨g', hg'⟩ : ∃ g', twoShards.runTx [.node 2 0, .node 3 0, .rel 4 2 3 0] = some g' := ⟨_, rfl⟩
  refine ⟨g', hg', fun happ => ?_⟩
  have hfeed := changesAfter_runTx (logsOk_of_empty (by decide)) (by decide) hg'
  have hrep := happ.2 ⟨[], []⟩ ⟨fun _ => Iff.rfl, fun _ => Iff.rfl⟩
  rw [hfeed] at hrep
  exact absurd hrep (by decide)

end ShardedGraph

end RhoTkg
