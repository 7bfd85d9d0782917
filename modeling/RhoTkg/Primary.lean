import Mathlib.Data.Finset.Sort
import RhoTkg.NodeSteps
import RhoTkg.Replica
import RhoTkg.ScopedLog

/-!
# The primary: doors, store calls and the change log

The write doors of a graph on a change-logged memory store.  A door reads the chain of its entity,
computes the rows it writes and writes them through one or more store doors; each store door logs the
record of its change.  Inside a transaction the record waits in the transaction's scope, when the door
hands the scope's token on.  Two doors do not: `replaceNodeVersionInternal` calls
`store.ReplaceNodeWithHistory`, and the slot write of a per-segment label change
(`nodeLabelOp.writeSlot`) calls `store.AddNodeLabelToken` or `store.RemoveNodeLabelToken`.

A relationship's doors are the node's doors on its row, without the label doors and
`ReplaceVersion`.  `effect` and `creates` of a logged change are bookkeeping no step reads: the place
of the change in the order of the store's mutations, and whether the call was a create.
-/

namespace RhoTkg

variable {V : Type}

/-! ## The store calls of a door -/

/-- A store call of a door, and whether the door passes the token of its scope to it. -/
structure RoutedCall (V : Type) where
  call : StoreCall V
  routed : Bool

/-- The record of the call waits in the scope `token`. -/
def RoutedCall.waits (c : RoutedCall V) (token : Nat) : Bool := c.routed && token != 0

/-- The configuration of a graph: an ID's minting instant is part of the ID. -/
structure GraphConfig where
  door : DoorConfig
  mint : EntityId → Int

/-- The configuration the doors of one entity read. -/
def GraphConfig.forEntity (cfg : GraphConfig) (e : EntityId) : DoorConfig :=
  { cfg.door with core := { cfg.door.core with mint := cfg.mint e } }

/-- The chain of an entity, as its doors read it. -/
def Store.chainState (s : Store V) (clock : Clock) (e : EntityId) : NodeState V :=
  ⟨clock, (s.history e).map (·.row), (s.current e).map (·.row)⟩

/-- The history row under a row's version. -/
def historyRowAt (history : List (Row V)) (r : Row V) : Row V :=
  (history.find? fun x => x.version == r.version).getD r

theorem historyRowAt_putVersion {history : List (Row V)} {current x : Row V}
    (h : x.version = current.version) : historyRowAt (putVersion history x) current = x := by
  unfold historyRowAt putVersion
  rw [← h, Keyed.find?_put]
  rfl

section DoorCalls

variable (e : EntityId) (ends : Option (Nat × Nat)) (ev : NodeEvent V)

/-- The store call of a superseding door: `prev` is the current row as it moves to history. -/
def supersedingCall (current new prev : Row V) : RoutedCall V :=
  match e, ev with
  | .node id, .changeLabel lop _ =>
    ⟨.changeNodeLabelTokenWithHistory id lop ⟨ends, new⟩ current.version ⟨ends, prev⟩, true⟩
  | _, .replaceVersion .. => ⟨.replaceWithHistory e ⟨ends, new⟩ current.version ⟨ends, prev⟩, false⟩
  | _, _ => ⟨.replaceWithHistory e ⟨ends, new⟩ current.version ⟨ends, prev⟩, true⟩

/-- The call that gives the current slot to a cascade's row. -/
def slotCall (current new : Row V) : RoutedCall V :=
  match e, ev with
  | .node id, .changeLabel lop _ =>
    if new.labels = current.labels then ⟨.replace e ⟨ends, new⟩, true⟩
    else ⟨.changeNodeLabelToken id lop ⟨ends, new⟩, false⟩
  | _, _ => ⟨.replace e ⟨ends, new⟩, true⟩

/-- The calls of a cascade: the appended rows in version order, then, when one of them takes the
current slot, the demoted row and the slot. -/
def cascadeCalls (st st' : NodeState V) (current new prev : Row V) : List (RoutedCall V) :=
  (st'.history.filter fun r => decide (topVersion st.history current < r.version)).map
      (fun r => ⟨.putVersion e r.version ⟨ends, r⟩, true⟩) ++
    if new.version = current.version then []
    else [⟨.putVersion e current.version ⟨ends, prev⟩, true⟩, slotCall e ends ev current new]

/-- The store calls of a door that takes the chain from `st` to `st'`. -/
def NodeState.storeCalls (cfg : DoorConfig) (st st' : NodeState V) : List (RoutedCall V) :=
  match st.current, st'.current with
  | none, some new => [⟨.put e ⟨ends, new⟩, true⟩]
  | some current, some new =>
    let prev := historyRowAt st'.history current
    if (ev.cascadesAt cfg st).isSome then cascadeCalls e ends ev st st' current new prev
    else if new.version = current.version then []
    else [supersedingCall e ends ev current new prev]
  | _, none => []

end DoorCalls

/-- The write doors.  `chain` is a door on one chain, with the endpoints of a relationship the call
creates. -/
inductive Door (V : Type) where
  | chain (e : EntityId) (ends : Option (Nat × Nat)) (ev : NodeEvent V)
  | updateInPlace (e : EntityId) (patch : Patch V) (vf vt : Option (Option Int64)) (wall : Int64)
  | deleteNode (id : Nat) (spec : NodeState.TombstoneSpec) (wall : List Int64)
  | deleteRel (id : Nat) (spec : NodeState.TombstoneSpec) (wall : List Int64)
  | hardDeleteNode (id : Nat)
  | hardDeleteNodeCascade (id : Nat)
  | hardDeleteRel (id : Nat)
  | truncateHistory (e : EntityId) (keep : Nat)
  | trimHistoryFrom (e : EntityId) (minVersion : Nat)

/-- The chain doors of nodes and relationships.  A delete is a door of its own. -/
def EntityId.accepts : EntityId → NodeEvent V → Bool
  | _, .endNode .. => false
  | .rel _, .changeLabel .. => false
  | .rel _, .replaceVersion .. => false
  | _, _ => true

/-- The doors a `GraphTx` has. -/
def Door.inTx : Door V → Bool
  | .chain _ _ (.closeVersion ..) => false
  | .chain .. => true
  | .deleteNode .. => true
  | .deleteRel .. => true
  | _ => false

/-- The relationships a node delete cascades to, by ID. -/
def Store.cascadedRels (s : Store V) (id : Nat) : List (Nat × Stored V) :=
  ((s.cascadedRelIDs id).sort (· ≤ ·)).filterMap fun r => (s.current (.rel r)).map (r, ·)

/-- The endpoints of the entity: its current row's, else those the call gives. -/
def Store.endsOf (s : Store V) (e : EntityId) (ends : Option (Nat × Nat)) : Option (Nat × Nat) :=
  match s.current e with
  | some x => x.ends
  | none => ends

/-! ## The graph -/

/-- A logged change with its place in the order of the mutations. -/
structure Logged (V : Type) where
  change : Change V
  creates : Bool
  effect : Nat

/-- The call is a create. -/
def StoreCall.creates : StoreCall V → Bool
  | .put .. => true
  | _ => false

/-- A graph on a change-logged store; `scopeToken` is the scope of the open transaction. -/
structure Primary (V : Type) where
  clock : Clock
  store : Store V
  log : ScopedLog (Logged V)
  effects : Nat
  scopeToken : Option Nat

/-- A graph on an empty store. -/
def Primary.new (clock : Clock) : Primary V := ⟨clock, .empty, .empty, 0, none⟩

namespace Primary

variable [DecidableEq V] (cfg : GraphConfig) (p : Primary V)

/-- A door's draw on the clock and its store calls. -/
def doorCalls : Door V → Clock × List (RoutedCall V)
  | .chain e ends ev =>
    if e.accepts ev then
      let st := p.store.chainState p.clock e
      let r := st.step (cfg.forEntity e) ev
      (r.1.clock, match r.2 with
        | .ok () => st.storeCalls e (p.store.endsOf e ends) ev (cfg.forEntity e) r.1
        | .error _ => [])
    else (p.clock, [])
  | .updateInPlace e patch vf vt wall =>
    let st := p.store.chainState p.clock e
    let r := st.updateInPlace (cfg.forEntity e) patch (vf.map (·.map Int64.toInt))
      (vt.map (·.map Int64.toInt)) wall.toInt
    (r.1.clock, match r.1.current with
      | some new =>
        if st.current = some new then [] else [⟨.replace e ⟨p.store.endsOf e none, new⟩, true⟩]
      | none => [])
  | .deleteNode id spec wall =>
    let st := p.store.chainState p.clock (.node id)
    let rels := p.store.cascadedRels id
    let a := cfg.door.core.axis
    let r := st.endNode (cfg.forEntity (.node id)) spec
      (rels.map fun x => ⟨(cfg.forEntity (.rel x.1)).core.nodeValidFrom x.2.row, x.2.row.validTo a⟩)
      (wall.map Int64.toInt)
    (r.1.clock, match r.2, st.current with
      | .ok (), some current =>
        let tombstone := historyRowAt r.1.history current
        [⟨.deleteNodeWithHistory id current.version ⟨none, tombstone⟩
          (rels.map fun x => ⟨x.1, x.2.version, { x.2 with
            row := x.2.row.tombstone a tombstone.deletedAt
              (NodeState.deleteRetracts cfg.door spec) }⟩), true⟩]
      | _, _ => [])
  | .deleteRel id spec wall =>
    let st := p.store.chainState p.clock (.rel id)
    let r := st.endNode (cfg.forEntity (.rel id)) spec [] (wall.map Int64.toInt)
    (r.1.clock, match r.2, st.current with
      | .ok (), some current =>
        [⟨.deleteRelWithHistory id current.version
          ⟨p.store.endsOf (.rel id) none, historyRowAt r.1.history current⟩, true⟩]
      | _, _ => [])
  | .hardDeleteNode id => (p.clock, [⟨.deleteNode id, true⟩])
  | .hardDeleteNodeCascade id => (p.clock, [⟨.deleteNodeCascade id, true⟩])
  | .hardDeleteRel id => (p.clock, [⟨.deleteRelationship id, true⟩])
  | .truncateHistory e keep => (p.clock, [⟨.truncateHistory e keep, true⟩])
  | .trimHistoryFrom e minVersion => (p.clock, [⟨.trimHistoryFrom e minVersion, true⟩])

omit [DecidableEq V] in
/-- A store call by a door that runs under `token`, 0 outside a transaction; `none` when the store
refuses it. -/
def runCall (token : Nat) (c : RoutedCall V) : Option (Primary V) :=
  match p.store.call c.call with
  | .error _ => none
  | .ok (s, none) => some { p with store := s }
  | .ok (s, some change) => some { p with
      store := s
      log := p.log.logRouted (if c.routed then token else 0) ⟨change, c.call.creates, p.effects⟩
      effects := p.effects + 1 }

omit [DecidableEq V] in
/-- The store calls of a door, up to the first that is refused. -/
def runCalls (token : Nat) : Primary V → List (RoutedCall V) → Primary V
  | p, [] => p
  | p, c :: cs =>
    match p.runCall token c with
    | none => p
    | some p' => runCalls token p' cs

/-- A door under `token`. -/
def runDoor (token : Nat) (d : Door V) : Primary V :=
  { p with clock := (p.doorCalls cfg d).1 }.runCalls token (p.doorCalls cfg d).2

/-- The calls of the graph: a standalone door, and `BeginTx`, a door of the open transaction and
`Commit`. -/
inductive Event (V : Type) where
  | call (d : Door V)
  | beginTx (wall : Int64)
  | txCall (d : Door V)
  | commit

/-- One call.  A second `BeginTx` waits for the open transaction (`txMu`). -/
def step : Event V → Primary V
  | .call d => p.runDoor cfg 0 d
  | .beginTx wall =>
    match p.scopeToken with
    | some _ => p
    | none => { p with
        clock := (p.clock.now wall.toInt).1
        log := p.log.beginScopedLog
        scopeToken := some p.log.beginScopedLog.scopedTokenSeq }
  | .txCall d =>
    match p.scopeToken with
    | none => p
    | some token => if d.inTx then p.runDoor cfg token d else p
  | .commit =>
    match p.scopeToken with
    | none => p
    | some token => { p with log := p.log.commitScopedLog token, scopeToken := none }

omit [DecidableEq V] in
/-- The records of the open transaction that wait for its commit. -/
def waiting : List (Logged V) :=
  match p.scopeToken with
  | none => []
  | some token => p.log.waiting token

/-! ## Where a record goes -/

section Scope

variable {p p' : Primary V} {token : Nat} {c : RoutedCall V}

omit [DecidableEq V]

/-- The log is numbered, and the scope of the open transaction is known to it. -/
structure ScopeOk (p : Primary V) : Prop where
  numbered : p.log.Numbered
  scope : ∀ token, p.scopeToken = some token →
    token ≠ 0 ∧ (p.log.scopedLogs token).isSome = true

/-- A call outside a transaction, or of the open one. -/
def UnderToken (p : Primary V) (token : Nat) : Prop := token = 0 ∨ p.scopeToken = some token

theorem waiting_of_none (h : p.scopeToken = none) : p.waiting = [] := by
  rw [waiting, h]

theorem waiting_of_some (h : p.scopeToken = some token) : p.waiting = p.log.waiting token := by
  rw [waiting, h]

theorem ScopeOk.withClock (h : p.ScopeOk) (clock : Clock) : ScopeOk { p with clock := clock } :=
  ⟨h.numbered, h.scope⟩

/-- What an accepted store call does to the graph. -/
theorem runCall_eq_some (h : p.runCall token c = some p') :
    (∃ s, p.store.call c.call = .ok (s, none) ∧ p' = { p with store := s }) ∨
    ∃ s change, p.store.call c.call = .ok (s, some change) ∧ p' = { p with
      store := s
      log := p.log.logRouted (if c.routed then token else 0) ⟨change, c.call.creates, p.effects⟩
      effects := p.effects + 1 } := by
  unfold runCall at h
  split at h
  · cases h
  · rename_i s hcall
    cases h
    exact .inl ⟨s, hcall, rfl⟩
  · rename_i s change hcall
    cases h
    exact .inr ⟨s, change, hcall, rfl⟩

/-- The store call of an accepted one. -/
theorem call_of_runCall (h : p.runCall token c = some p') :
    ∃ r, p.store.call c.call = .ok (p'.store, r) := by
  obtain ⟨s, hcall, rfl⟩ | ⟨s, change, hcall, rfl⟩ := runCall_eq_some h <;> exact ⟨_, hcall⟩

theorem UnderToken.runCall (htoken : p.UnderToken token) (h : p.runCall token c = some p') :
    p'.UnderToken token := by
  obtain ⟨s, -, rfl⟩ | ⟨s, change, -, rfl⟩ := runCall_eq_some h <;> exact htoken

/-- A record waits in the open transaction or goes to the log. -/
theorem ScopeOk.logRouted (hok : p.ScopeOk) (htoken : p.UnderToken token) (a : Logged V) :
    (c.waits token = true ∧
      ∃ buf, p.scopeToken = some token ∧ p.log.scopedLogs token = some buf ∧
        p.log.logRouted (if c.routed then token else 0) a = { p.log with
          scopedLogs := Function.update p.log.scopedLogs token (some (buf ++ [a])) }) ∨
    (c.waits token = false ∧
      p.log.logRouted (if c.routed then token else 0) a = p.log.logChange a) := by
  by_cases hwaits : c.waits token = true
  · refine .inl ⟨hwaits, ?_⟩
    simp only [RoutedCall.waits, Bool.and_eq_true, bne_iff_ne] at hwaits
    rcases htoken with rfl | htoken
    · exact absurd rfl hwaits.2
    · obtain ⟨buf, hbuf⟩ := Option.isSome_iff_exists.mp (hok.scope token htoken).2
      refine ⟨buf, htoken, hbuf, ?_⟩
      rw [if_pos hwaits.1, ScopedLog.logRouted, if_neg hwaits.2, ScopedLog.logChangeScoped, hbuf]
      rfl
  · refine .inr ⟨by simpa using hwaits, ?_⟩
    have hzero : (if c.routed then token else 0) = 0 := by
      by_cases hr : c.routed = true
      · simpa [RoutedCall.waits, hr] using hwaits
      · rw [if_neg hr]
    rw [hzero, ScopedLog.logRouted, if_pos rfl]

theorem ScopeOk.runCall (hok : p.ScopeOk) (htoken : p.UnderToken token)
    (h : p.runCall token c = some p') : p'.ScopeOk := by
  obtain ⟨s, -, rfl⟩ | ⟨s, change, -, rfl⟩ := runCall_eq_some h
  · exact ⟨hok.numbered, hok.scope⟩
  · rcases hok.logRouted (c := c) htoken ⟨change, c.call.creates, p.effects⟩ with
      ⟨-, buf, hscope, -, hlog⟩ | ⟨-, hlog⟩
    · refine ⟨by rw [hlog]; exact hok.numbered, fun t ht => ?_⟩
      have hsame : t = token := Option.some.inj (ht.symm.trans hscope)
      subst hsame
      refine ⟨(hok.scope t ht).1, ?_⟩
      simp [hlog]
    · exact ⟨by rw [hlog]; exact hok.numbered.logChange _, by rw [hlog]; exact hok.scope⟩

/-- The log and the waiting records after an accepted store call. -/
theorem ScopeOk.runCall_cases (hok : p.ScopeOk) (htoken : p.UnderToken token)
    (h : p.runCall token c = some p') :
    (∃ s, p.store.call c.call = .ok (s, none) ∧ p' = { p with store := s }) ∨
    ∃ s change, p.store.call c.call = .ok (s, some change) ∧ p' = { p with
        store := s
        log := p.log.logRouted (if c.routed then token else 0) ⟨change, c.call.creates, p.effects⟩
        effects := p.effects + 1 } ∧
      ((c.waits token = true ∧ p'.log.payloads = p.log.payloads ∧
          p'.waiting = p.waiting ++ [⟨change, c.call.creates, p.effects⟩]) ∨
        (c.waits token = false ∧
          p'.log.payloads = p.log.payloads ++ [⟨change, c.call.creates, p.effects⟩] ∧
          p'.waiting = p.waiting)) := by
  obtain h | ⟨s, change, hcall, hp'⟩ := runCall_eq_some h
  · exact .inl h
  · refine .inr ⟨s, change, hcall, hp', ?_⟩
    rcases hok.logRouted (c := c) htoken ⟨change, c.call.creates, p.effects⟩ with
      ⟨hwaits, buf, hscope, hbuf, hlog⟩ | ⟨hwaits, hlog⟩
    · refine .inl ⟨hwaits, ?_, ?_⟩
      · rw [hp']
        simp only [hlog]
        rfl
      · rw [hp', waiting_of_some (p := p) hscope, ScopedLog.waiting, hbuf]
        simp [waiting, hscope, hlog, ScopedLog.waiting]
    · refine .inr ⟨hwaits, ?_, ?_⟩
      · rw [hp']
        simp only [hlog, ScopedLog.payloads_logChange]
      · rw [hp']
        simp only [waiting, hlog]
        rfl

theorem ScopeOk.runCalls {cs : List (RoutedCall V)} (hok : p.ScopeOk)
    (htoken : p.UnderToken token) : (p.runCalls token cs).ScopeOk := by
  induction cs generalizing p with
  | nil => exact hok
  | cons c cs ih =>
    rw [Primary.runCalls]
    split
    · exact hok
    · rename_i p' hrun
      exact ih (hok.runCall htoken hrun) (htoken.runCall hrun)

theorem scopeOk_new (clock : Clock) : (Primary.new clock : Primary V).ScopeOk :=
  ⟨rfl, nofun⟩

variable [DecidableEq V] {cfg : GraphConfig}

theorem ScopeOk.step (hok : p.ScopeOk) (ev : Event V) : (p.step cfg ev).ScopeOk := by
  cases ev with
  | call d => exact (hok.withClock _).runCalls (.inl rfl)
  | beginTx wall =>
    rw [Primary.step]
    split
    · exact hok
    · refine ⟨hok.numbered, fun t ht => ?_⟩
      cases ht
      simp [ScopedLog.beginScopedLog]
  | txCall d =>
    rw [Primary.step]
    split
    · exact hok
    · split
      · exact (hok.withClock _).runCalls (.inr ‹_›)
      · exact hok
  | commit =>
    rw [Primary.step]
    split
    · exact hok
    · exact ⟨hok.numbered.commitScopedLog _, nofun⟩

end Scope

/-! ## Runs on fixed calls -/

/-- A graph on the legacy axis that lists label 1 for `ReplaceVersion`. -/
def legacyConfig : GraphConfig := ⟨⟨⟨.legacy, true, 0⟩, false, 8, 8, [1]⟩, fun _ => 0⟩

/-- The graph after a list of calls on an empty store. -/
def runOf (evs : List (Event Nat)) : Primary Nat := evs.foldl (step legacyConfig) (.new .fresh)

/-- Create a node. -/
def addNode (id : Nat) (wall : Int64) : Door Nat :=
  .chain (.node id) none (.add [1] [(1, 1)] none none wall)

/-- Update a node. -/
def updateNode (id val : Nat) (wall : Int64) : Door Nat :=
  .chain (.node id) none (.update [(1, some val)] none none false wall)

/-- A transaction replaces the version of the node it has created. -/
def replaceInTx : List (Event Nat) :=
  [.beginTx 1, .txCall (addNode 1 2),
    .txCall (.chain (.node 1) none (.replaceVersion [(1, 2)] 5 0 3)), .commit]

end Primary
end RhoTkg
