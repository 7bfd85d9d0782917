import RhoTkg.Library.Runs
import RhoTkg.Library.Tally

/-!
# Tracked degree statistics

For a relationship type a caller tracks, `RelTypeDegreeStats` keeps the per-node counts of the type
and applies the relationships created since, which the create kernel records.  A refresh takes the
graph's write lock and checks an identity: the type's mutation stamp moved by exactly the number of
recorded creates.  When it did not, the type is counted again, and the counts are installed under the
write lock if the stamp has not moved since before the count.

The calls run concurrently.  `State.step` lets one of them take its next step:

* a write changes the store and moves the stamps while it holds the graph's read lock, and a create
  through a recording door keeps the lock until its record step (`inflight`);
* a refresh holds the graph's write lock and the tracker's lock while it assigns to the fields of the
  stats, one at a time, in the order of `degreeBase.add`; the rest of what it does only the holder of
  the locks can see, and it is done with the first step;
* a count loads the two terms of the stamp, takes the members of the type and reads them one by one;
* a call whose counts were installed copies the stats of its base after it gave the locks back, field
  by field.

A type's token is fixed.  `since` and `trace` are bookkeeping no step reads: the store at every moment
so far, and the moment a call began.
-/

namespace RhoTkg
namespace RelDegrees

open Tally (Map bump tally top)

/-! ## The store -/

/-- A current relationship. -/
structure Rel where
  id : ℕ
  typeToken : ℕ
  start : ℕ
  end_ : ℕ
deriving DecidableEq, Repr

/-- `degreeEdge`. -/
structure DegreeEdge where
  start : ℕ
  end_ : ℕ
deriving DecidableEq, Repr

/-- The endpoints of a relationship. -/
def Rel.edge (r : Rel) : DegreeEdge := ⟨r.start, r.end_⟩

/-- `relTypeEpochStripes`. -/
def relTypeEpochStripes : ℕ := 256

/-- The current relationships of a store and its mutation stamps: one for each stripe of types, and
the term every type shares. -/
structure RelStore where
  rels : List Rel
  relTypeEpochs : ℕ → ℕ
  relEpochCoarse : ℕ
  ids_nodup : (rels.map Rel.id).Nodup

namespace RelStore

variable (s : RelStore)

/-- A store without relationships. -/
def empty : RelStore := ⟨[], fun _ => 0, 0, List.nodup_nil⟩

/-- `RelMutationEpochForType`. -/
def relMutationEpochForType (tok : ℕ) : ℕ :=
  s.relTypeEpochs (tok % relTypeEpochStripes) + s.relEpochCoarse

/-- The relationships of a type. -/
def ofType (tok : ℕ) : List Rel := s.rels.filter fun r => r.typeToken == tok

/-- The row of a relationship, if it is of the type. -/
def read (tok id : ℕ) : Option Rel := (s.ofType tok).find? fun r => r.id == id

/-- `bumpRelEpoch`. -/
def bumpRelEpoch : RelStore := { s with relEpochCoarse := s.relEpochCoarse + 1 }

/-- `bumpRelEpochForTypes`. -/
def bumpRelEpochForTypes (rels : List Rel) : RelStore :=
  if rels.any fun r => r.typeToken == 0 then s.bumpRelEpoch
  else { s with relTypeEpochs := rels.foldl (fun epochs r =>
    Function.update epochs (r.typeToken % relTypeEpochStripes)
      (epochs (r.typeToken % relTypeEpochStripes) + 1)) s.relTypeEpochs }

/-- `PutRelationship`, `PutRelationshipsBatch`: the rows can be stored. -/
def Puts (rels : List Rel) : Prop :=
  (∀ r ∈ rels, r.typeToken ≠ 0) ∧ ((rels ++ s.rels).map Rel.id).Nodup

instance (rels : List Rel) : Decidable (s.Puts rels) := inferInstanceAs (Decidable (_ ∧ _))

/-- A put that is not refused. -/
def put (rels : List Rel) (h : s.Puts rels) : RelStore :=
  { s with rels := rels ++ s.rels, ids_nodup := h.2 }.bumpRelEpochForTypes rels

/-- `DeleteRelationship`, `DeleteRelationshipsBatch` and the cascades. -/
def delete (ids : List ℕ) : RelStore :=
  { s with
    rels := s.rels.filter fun r => !ids.contains r.id
    ids_nodup := s.ids_nodup.sublist (List.filter_sublist.map _) }.bumpRelEpoch

/-- What the tracking rests on: a store step that creates `created` moves the stamp of every type by
one for each of them, and by one more when it does anything else to the type. -/
structure Accounted (s s' : RelStore) (created : List Rel) : Prop where
  epochs_le : ∀ stripe, s.relTypeEpochs stripe ≤ s'.relTypeEpochs stripe
  coarse_le : s.relEpochCoarse ≤ s'.relEpochCoarse
  moved : ∀ tok,
    (s.relMutationEpochForType tok + (created.filter fun r => r.typeToken == tok).length ≤
        s'.relMutationEpochForType tok ∧
      (s'.ofType tok).Perm ((created.filter fun r => r.typeToken == tok) ++ s.ofType tok)) ∨
    s.relMutationEpochForType tok + (created.filter fun r => r.typeToken == tok).length <
      s'.relMutationEpochForType tok

end RelStore

/-! ## The statistics -/

/-- `RelTypeDegreeStats`. -/
structure RelTypeDegreeStats where
  rels : ℕ := 0
  starts : ℕ := 0
  ends : ℕ := 0
  maxOut : ℕ := 0
  maxIn : ℕ := 0
  maxOutNode : ℕ := 0
  maxInNode : ℕ := 0
  exact : Bool := false
deriving DecidableEq, Repr

/-- The words of the stats that a refresh assigns. -/
inductive StatField where
  | rels
  | starts
  | ends
  | maxOut
  | maxIn
  | maxOutNode
  | maxInNode
deriving DecidableEq, Repr

/-- The fields in the order they stand. -/
def StatField.all : List StatField := [.rels, .starts, .ends, .maxOut, .maxIn, .maxOutNode, .maxInNode]

namespace RelTypeDegreeStats

/-- Read a field. -/
def get (st : RelTypeDegreeStats) : StatField → ℕ
  | .rels => st.rels
  | .starts => st.starts
  | .ends => st.ends
  | .maxOut => st.maxOut
  | .maxIn => st.maxIn
  | .maxOutNode => st.maxOutNode
  | .maxInNode => st.maxInNode

/-- Assign to a field. -/
def set (st : RelTypeDegreeStats) (f : StatField) (v : ℕ) : RelTypeDegreeStats :=
  match f with
  | .rels => { st with rels := v }
  | .starts => { st with starts := v }
  | .ends => { st with ends := v }
  | .maxOut => { st with maxOut := v }
  | .maxIn => { st with maxIn := v }
  | .maxOutNode => { st with maxOutNode := v }
  | .maxInNode => { st with maxInNode := v }

/-- A list of assignments. -/
def assign (st : RelTypeDegreeStats) (ws : List (StatField × ℕ)) : RelTypeDegreeStats :=
  ws.foldl (fun st w => st.set w.1 w.2) st

end RelTypeDegreeStats

/-- `DegreeStatsFromCounts`. -/
def degreeStatsFromCounts (rels : ℕ) (out in_ : Map ℕ) : RelTypeDegreeStats where
  rels := rels
  starts := out.keys.length
  ends := in_.keys.length
  maxOut := (top out).1
  maxOutNode := (top out).2
  maxIn := (top in_).1
  maxInNode := (top in_).2

/-- The statistics of relationships counted afresh. -/
def degreeStats (es : List DegreeEdge) : RelTypeDegreeStats :=
  degreeStatsFromCounts es.length (tally (es.map DegreeEdge.start)) (tally (es.map DegreeEdge.end_))

/-- The statistics of a type in a store. -/
def RelStore.degreeStats (s : RelStore) (tok : ℕ) : RelTypeDegreeStats :=
  RelDegrees.degreeStats ((s.ofType tok).map Rel.edge)

/-! ## The maintained counts -/

/-- `degreeBase`. -/
structure DegreeBase where
  tok : ℕ
  epoch : ℕ
  out : Map ℕ
  in_ : Map ℕ
  stats : RelTypeDegreeStats

namespace DegreeBase

/-- The assignments one side of `degreeBase.add` makes: the node's count is now `n`, the stats have
`nodes` nodes on the side and the largest count `best` at `node`. -/
def sideWrites (nodesField bestField nodeField : StatField) (nodes best node n id : ℕ) :
    List (StatField × ℕ) :=
  (if n = 1 then [(nodesField, nodes + 1)] else []) ++
    if best < n ∨ (n = best ∧ id < node) then [(bestField, n), (nodeField, id)] else []

/-- The assignments of `degreeBase.add` to the stats, in order. -/
def addWrites (b : DegreeBase) (e : DegreeEdge) : List (StatField × ℕ) :=
  (.rels, b.stats.rels + 1) ::
    (sideWrites .starts .maxOut .maxOutNode b.stats.starts b.stats.maxOut b.stats.maxOutNode
      (Tally.get b.out e.start + 1) e.start ++
    sideWrites .ends .maxIn .maxInNode b.stats.ends b.stats.maxIn b.stats.maxInNode
      (Tally.get b.in_ e.end_ + 1) e.end_)

/-- `degreeBase.add`. -/
def add (b : DegreeBase) (e : DegreeEdge) : DegreeBase :=
  { b with
    out := bump b.out e.start
    in_ := bump b.in_ e.end_
    stats := b.stats.assign (b.addWrites e) }

/-- The loop of `applyPendingDegrees`. -/
def addAll (b : DegreeBase) (es : List DegreeEdge) : DegreeBase := es.foldl add b

/-- The assignments of that loop to the stats. -/
def allWrites : DegreeBase → List DegreeEdge → List (StatField × ℕ)
  | _, [] => []
  | b, e :: es => b.addWrites e ++ (b.add e).allWrites es

end DegreeBase

/-! ## The tracker -/

/-- `degreeTrack`; the base is shared with the calls that installed it. -/
structure DegreeTrack where
  pending : List DegreeEdge := []
  overflow : Bool := false
  base : Option ℕ := none
deriving DecidableEq, Repr

/-- `maxPendingDegreeEdges`. -/
def maxPendingDegreeEdges : ℕ := 65536

/-- `noteRelsCreated` on the type's entry. -/
def DegreeTrack.note (tr : DegreeTrack) (es : List DegreeEdge) : DegreeTrack :=
  if tr.overflow then tr
  else if maxPendingDegreeEdges < tr.pending.length + es.length then
    { tr with pending := [], overflow := true }
  else { tr with pending := tr.pending ++ es }

/-! ## The calls -/

/-- Where a call of `trackedDegreeStats` stands.  An attempt is numbered from 0. -/
inductive CallState where
  | started
  | tracked
  | applying
  | attempt (n : ℕ)
  | loadedStripe (n stripe : ℕ)
  | loadedEpoch (n before : ℕ)
  | counting (n before : ℕ) (ids : List ℕ) (out in_ : Map ℕ) (rels : ℕ)
  | copying (base : ℕ) (copied : RelTypeDegreeStats) (left : List StatField)
  | answered (stats : RelTypeDegreeStats) (till : ℕ)
  | unhandled

/-- A call, with the moment it began. -/
structure Call (ν : Type) where
  name : ν
  since : ℕ
  state : CallState

/-- A refresh that holds the graph's write lock and the tracker's lock: the call, the base it brings
up to date, and the assignments it has still to make. -/
structure Refresh where
  call : ℕ
  base : ℕ
  todo : List (StatField × ℕ)
deriving DecidableEq, Repr

/-- The graph: the store, the tracker, the creates between their store step and their record step,
and the calls. -/
structure State (ν : Type) where
  store : RelStore
  trace : List RelStore
  types : ν → Option DegreeTrack
  bases : ℕ → DegreeBase
  nextBase : ℕ
  inflight : List (ν × List Rel)
  refresh : Option Refresh
  calls : List (Call ν)

/-- What a type's token is, and whether the store counts degrees itself
(`RelTypeDegreeCountsCapability`). -/
structure Config (ν : Type) where
  token : ν → ℕ
  native : Bool

/-- What can happen next: a store step of a write, the store step of a create through a recording
door, the record step of the `i`-th create in flight, `TrackRelTypeDegrees`,
`UntrackRelTypeDegrees`, a new call, and the next step of the `i`-th call. -/
inductive Event (ν : Type) where
  | write (store : RelStore)
  | create (name : ν) (rels : List Rel) (store : RelStore)
  | record (i : ℕ)
  | track (name : ν)
  | untrack (name : ν)
  | call (name : ν)
  | advance (i : ℕ)

/-- A graph that tracks nothing. -/
def State.initial {ν : Type} (store : RelStore) : State ν :=
  ⟨store, [store], fun _ => none, fun _ => ⟨0, 0, ∅, ∅, {}⟩, 0, [], none, []⟩

section System

variable {ν : Type} (cfg : Config ν) (s : State ν)

namespace State

/-- A store step. -/
def setStore (store : RelStore) : State ν := { s with store := store, trace := s.trace ++ [store] }

/-- The `i`-th call goes on in another state. -/
def setCall (i : ℕ) (c : Call ν) (state : CallState) : State ν :=
  { s with calls := s.calls.set i { c with state := state } }

/-- No write is half done and no refresh is at work: the graph's write lock can be had. -/
def canLock : Bool := s.inflight.isEmpty && s.refresh.isNone

/-- A refresh assigns to a field of the stats. -/
def assigned (r : Refresh) (f : StatField) (v : ℕ) (todo : List (StatField × ℕ)) : State ν :=
  { s with
    bases := Function.update s.bases r.base
      { s.bases r.base with stats := (s.bases r.base).stats.set f v }
    refresh := some { r with todo := todo } }

/-- The refresh of the call makes its next assignment, or returns its answer. -/
def goOnRefresh (i : ℕ) (c : Call ν) : State ν :=
  match s.refresh with
  | none => s
  | some r =>
    if r.call = i then
      match r.todo with
      | (f, v) :: todo => s.assigned r f v todo
      | [] => { s.setCall i c (.answered { (s.bases r.base).stats with exact := true }
          s.trace.length) with refresh := none }
    else s

/-- The stores at the moments from `since` to before `till`. -/
def moments (since till : ℕ) : List RelStore := (s.trace.take till).drop since

end State

/-- The store steps move the stamps as they should, and a recording door records relationships of its
type. -/
def Lawful (s : State ν) : Event ν → Prop
  | .write store => s.store.Accounted store []
  | .create name rels store => s.store.Accounted store rels ∧ ∀ r ∈ rels, r.typeToken = cfg.token name
  | _ => True

/-- The call has copied some of the stats of the base, and not all. -/
def Call.copiesPart (c : Call ν) (b : ℕ) : Bool :=
  match c.state with
  | .copying b' _ left => b' == b && left != StatField.all
  | _ => false

end System

section Step

variable {ν : Type} [DecidableEq ν] (cfg : Config ν) (s : State ν)

namespace State

/-- `applyPendingDegrees`: the entry and the base it brings up to date, when the identity holds. -/
def applicable (name : ν) : Option (DegreeTrack × ℕ) :=
  match s.types name with
  | none => none
  | some tr =>
    match tr.base with
    | none => none
    | some b =>
      if (s.bases b).tok = cfg.token name ∧ tr.overflow = false ∧
          (s.bases b).epoch + tr.pending.length =
            s.store.relMutationEpochForType (cfg.token name) then some (tr, b)
      else none

/-- The call refreshes the base `b` of the entry `tr`: what only the holder of the locks can see is
done at once. -/
def refreshing (i : ℕ) (c : Call ν) (tr : DegreeTrack) (b : ℕ) : State ν :=
  { s.setCall i c .applying with
    types := Function.update s.types c.name (some { tr with pending := [] })
    bases := Function.update s.bases b { (s.bases b).addAll tr.pending with
      epoch := s.store.relMutationEpochForType (cfg.token c.name)
      stats := (s.bases b).stats }
    refresh := some ⟨i, b, (s.bases b).allWrites tr.pending⟩ }

/-- `applyPendingDegrees` from its check on. -/
def startRefresh (i : ℕ) (c : Call ν) : State ν :=
  match s.applicable cfg c.name with
  | none => s.setCall i c (.attempt 0)
  | some (tr, b) => s.refreshing cfg i c tr b

/-- The counts are the new base of the type, if it is still tracked, and the call goes on to copy their
stats. -/
def installed (i : ℕ) (c : Call ν) (base : DegreeBase) : State ν :=
  { s.setCall i c (.copying s.nextBase {} StatField.all) with
    types := match s.types c.name with
      | none => s.types
      | some _ => Function.update s.types c.name (some ⟨[], false, some s.nextBase⟩)
    bases := Function.update s.bases s.nextBase base
    nextBase := s.nextBase + 1 }

/-- `installDegreeBase` of the counts of an attempt. -/
def install (i : ℕ) (c : Call ν) (n before : ℕ) (out in_ : Map ℕ) (rels : ℕ) : State ν :=
  if s.store.relMutationEpochForType (cfg.token c.name) = before then
    s.installed i c ⟨cfg.token c.name, before, out, in_, degreeStatsFromCounts rels out in_⟩
  else s.setCall i c (.attempt (n + 1))

/-- The attempts of `trackedDegreeStats`. -/
def maxAttempts : ℕ := 3

/-- The next step of a call; one that waits for a lock stays where it is. -/
def advance (i : ℕ) (c : Call ν) : State ν :=
  let tok := cfg.token c.name
  match c.state with
  | .started =>
    if s.refresh.isNone then
      s.setCall i c (if (s.types c.name).isSome then .tracked else .unhandled)
    else s
  | .tracked => if s.canLock then s.startRefresh cfg i c else s
  | .applying => s.goOnRefresh i c
  | .attempt n =>
    if n < maxAttempts then
      s.setCall i c (.loadedStripe n (s.store.relTypeEpochs (tok % relTypeEpochStripes)))
    else s.setCall i c .unhandled
  | .loadedStripe n stripe => s.setCall i c (.loadedEpoch n (stripe + s.store.relEpochCoarse))
  | .loadedEpoch n before =>
    if cfg.native then
      if s.refresh.isNone then
        let rels := s.store.ofType tok
        s.setCall i c (.counting n before [] (tally (rels.map Rel.start)) (tally (rels.map Rel.end_))
          rels.length)
      else s
    else s.setCall i c (.counting n before ((s.store.ofType tok).map Rel.id) ∅ ∅ 0)
  | .counting n before (id :: ids) out in_ rels =>
    s.setCall i c (match s.store.read tok id with
      | none => .counting n before ids out in_ rels
      | some r => .counting n before ids (bump out r.start) (bump in_ r.end_) (rels + 1))
  | .counting n before [] out in_ rels =>
    if s.canLock then s.install cfg i c n before out in_ rels else s
  | .copying b copied (f :: left) =>
    let copied := copied.set f ((s.bases b).stats.get f)
    s.setCall i c (if left.isEmpty then .answered { copied with exact := true } s.trace.length
      else .copying b copied left)
  | .copying _ _ [] => s
  | .answered _ _ => s
  | .unhandled => s

/-- One step. -/
def step : Event ν → State ν
  | .write store => if s.refresh.isNone then s.setStore store else s
  | .create name rels store =>
    if s.refresh.isNone then { s.setStore store with inflight := (name, rels) :: s.inflight } else s
  | .record i =>
    match s.inflight[i]? with
    | none => s
    | some (name, rels) =>
      if s.refresh.isNone then
        { s with
          types := Function.update s.types name ((s.types name).map (·.note (rels.map Rel.edge)))
          inflight := s.inflight.eraseIdx i }
      else s
  | .track name =>
    if s.refresh.isNone then
      { s with types := Function.update s.types name (some ((s.types name).getD {})) }
    else s
  | .untrack name =>
    if s.refresh.isNone then { s with types := Function.update s.types name none } else s
  | .call name => { s with calls := s.calls ++ [⟨name, s.trace.length - 1, .started⟩] }
  | .advance i =>
    match s.calls[i]? with
    | none => s
    | some c => s.advance cfg i c

end State

/-- No call copies the stats of a base while a refresh assigns to them. -/
def raceFree (s : State ν) : Event ν → Bool
  | .advance i =>
    match s.calls[i]? with
    | none => true
    | some c =>
      match c.state with
      | .copying b _ _ => s.refresh.all fun r => r.base != b || r.todo.isEmpty
      | .tracked =>
        (s.applicable cfg c.name).all fun p => p.1.pending.isEmpty || !s.calls.any (·.copiesPart p.2)
      | _ => true
  | _ => true

end Step

end RelDegrees
end RhoTkg
