import Mathlib.Data.List.Sublists
import RhoTkg.ForeverOwners
import RhoTkg.OwnerRuns
import RhoTkg.RollbackCalls

/-!
# A graph under `UniqueForever` constraints

A graph under `UniqueForever` constraints whose claims and row writes can fail and that can crash.  A door
judges the rows it has built, claims their values one by one in the meta keys and then writes the rows.  A
claim whose persist fails, and a row write that fails, which may still have stored its row, make the door
withdraw the claims it has made but for the values of the rows that count as written: the node's stored row
for a door of one row, the rows already written for a cascade.  `past` are the durable states the graph has
been in; a crash goes back to one of them and loads the registry.
-/

namespace RhoTkg

/-- A durable state: the registry in the meta keys and the rows. -/
structure Durable where
  owners : Owners
  store : Store Value

/-- How a call ends that the kernel has let pass: another check refuses it; a claim fails after the claims
`made`; or the rows are written, all of them or up to the write `failed`, whose row may be stored.
`withdrawn` tells whether the withdrawal is persisted. -/
inductive CallFault where
  | refused
  | claimFailed (made : UniqueCheck → Bool) (withdrawn : Bool)
  | written (failed : Option (Nat × Bool)) (withdrawn : Bool)

/-- What a call leaves: the graph, the registry and the durable states on the way. -/
structure CallResult where
  graph : Primary Value
  registry : Registry
  passed : List Durable
  failed : Bool

/-- A graph under `UniqueForever` constraints.  `old` are the history rows at the activation; no step reads
them. -/
structure ForeverGraph extends UniqueGraph where
  registry : Registry
  past : List Durable
  old : Nat → List (Row Value)

/-- The calls.  The creates of a batch say themselves whether a claim fails; `failed` tells which rows a
failing batch write has stored, and `withdrawn` for which nodes the withdrawal is persisted. -/
inductive ForeverEvent where
  | call (d : Door Value) (o : CallFault)
  | batch (pending : List PendingNode) (wall : Int64) (failed : Option (Nat → Bool)) (withdrawn : Nat → Bool)
  | beginTx (wall : Int64)
  | txCall (c : TxCall Value) (o : CallFault)
  | txAddNodes (pending : List PendingNode) (claimFailed : Option (Nat → UniqueCheck → Bool))
      (failed : Option (Nat → Bool)) (withdrawn : Nat → Bool)
  | commit
  | rollback (faults : List (Option Nat))
  | crash (lost : Nat) (clock : Clock)

/-! ## The calls of a door -/

namespace Primary

variable (cfg : GraphConfig) (p : Primary Value)

/-- The number of calls up to the first the store refuses. -/
def accepted (token : Nat) : Primary Value → List (RoutedCall Value) → Nat
  | _, [] => 0
  | p, c :: cs =>
    match p.runCall token c with
    | none => 0
    | some p' => accepted token p' cs + 1

/-- The rows a cascade gives the kernel, when the door is one. -/
def cascade : Door Value → Option (Nat × CascadeRows)
  | .chain (.node id) ends ev =>
    match ev.cascadesAt (cfg.forEntity (.node id)) (p.store.chainState p.clock (.node id)),
        p.store.nodes id with
    | some _, some y =>
      let calls := (p.doorCalls cfg (.chain (.node id) ends ev)).2
      let args := ev.cascadeArgs cfg.door.core.axis
      some (id, ⟨y.row, appendedRows y.row calls, slotRow calls, args.1, args.2.1, args.2.2⟩)
    | _, _ => none
  | _ => none

end Primary

/-- The rows of a call. -/
def RoutedCall.rows (c : RoutedCall Value) : List (Row Value) :=
  (c.call.kept.toList ++ c.call.slot.toList).map (·.2.row)

/-- The rows written by the calls. -/
def writtenRows (calls : List (RoutedCall Value)) : List (Row Value) := calls.flatMap RoutedCall.rows

/-- The node's stored row. -/
def Store.storedRows (s : Store Value) (id : Nat) : List (Row Value) := ((s.nodes id).map (·.row)).toList

/-- Every value the row binds under a `UniqueForever` constraint is the node's, or meets `other`. -/
def ownsOr (reg : List UniqueConstraint) (owners : Owners) (id : Nat) (row : Row Value)
    (other : UniqueConstraint → IndexKey → Bool) : Bool :=
  reg.all fun c => c.scope != .forever || (row.binds c.label c.key).all fun k =>
    foreverOwner owners c.label c.key k == some id || other c k

namespace Registry

variable (r : Registry)

/-- The durable registries a crash in the claims of a call leaves.  The claims are made in the order of
their keys, which is left open. -/
def claimStates (self : Nat) (cks : List UniqueCheck) : List Owners :=
  cks.sublists.map fun cs => (claimAll self cs r).1.durable

/-- The claims of `enforceUniqueForNodes`: the registry, the claims of each node and the durable registries
on the way. -/
def claimNodes : List (NodeCreate × List UniqueCheck) → Registry →
    Registry × List (NodeCreate × List UniqueCheck) × List Owners
  | [], r => (r, [], [])
  | n :: ns, r =>
    let c := claimAll n.1.pending.id n.2 r
    let rest := claimNodes ns c.1
    (rest.1, (n.1, c.2) :: rest.2.1, r.claimStates n.1.pending.id n.2 ++ rest.2.2)

/-- `writeFailed` of the holds of several nodes. -/
def withdrawHolds (written : Nat → List (Row Value)) (withdrawn : Nat → Bool) :
    List (NodeCreate × List UniqueCheck) → Registry → Registry
  | [], r => r
  | h :: hs, r => withdrawHolds written withdrawn hs
      (r.writeFailed h.1.pending.id h.2 (written h.1.pending.id) (withdrawn h.1.pending.id))

end Registry

namespace ForeverGraph

variable (cfg : GraphConfig) (caps : TxCaps) (reg : List UniqueConstraint) (st : ForeverGraph)

/-- The durable state. -/
def durable : Durable := ⟨st.registry.durable, st.graph.store⟩

/-- The lookup of the kernel: another node that holds the value, and for a `UniqueForever` constraint
another owner. -/
def judge (r : Registry) (self : Nat) (ck : UniqueCheck) : Option UniqueError :=
  (st.toUniqueGraph.judge self ck).or
    (if ck.scope = .forever then r.checkForeverOwnership self ck else none)

/-! ## Doors -/

/-- The row writes of a door, given the registry with its claims and the claims it has made. -/
def writeRows (token : Nat) (graph : Primary Value) (calls : List (RoutedCall Value)) (cascade : Bool)
    (id : Nat) (claimed : Registry × List UniqueCheck) (failed : Option (Nat × Bool)) (withdrawn : Bool) :
    CallResult :=
  let done := graph.accepted token (calls.take ((failed.map (·.1)).getD calls.length))
  let reached := calls.take (if failed = some (done, true) then done + 1 else done)
  let passed := reached.inits.map fun cs => (⟨claimed.1.durable, (graph.runCalls token cs).store⟩ : Durable)
  let graph' := graph.runCalls token reached
  if done = calls.length then ⟨graph', claimed.1, passed, false⟩
  else
    let rows := if cascade then writtenRows (calls.take done) else graph'.store.storedRows id
    ⟨graph', claimed.1.writeFailed id claimed.2 rows withdrawn, passed, true⟩

/-- A door with its check, its claims and its writes. -/
def runDoor (token : Nat) (d : Door Value) (o : CallFault) : CallResult :=
  let r := st.graph.doorCalls cfg d.newNode
  let graph := { st.graph with clock := r.1 }
  match st.graph.enforceUnique cfg reg (st.judge st.registry) d.newNode with
  | .error _ => ⟨graph, st.registry, [], true⟩
  | .ok cks =>
    let id := d.newNode.nodeID.getD 0
    let cascade := (st.graph.cascade cfg d.newNode).isSome
    let claiming := (st.registry.claimStates id cks).map fun owners => (⟨owners, st.graph.store⟩ : Durable)
    match o with
    | .refused => ⟨graph, st.registry, [], true⟩
    | .claimFailed made withdrawn =>
      let claimed := Registry.claimAll id (cks.filter made) st.registry
      let rows := if cascade then [] else st.graph.store.storedRows id
      ⟨graph, claimed.1.writeFailed id claimed.2 rows withdrawn, claiming, true⟩
    | .written failed withdrawn =>
      let w := writeRows token graph r.2 cascade id (Registry.claimAll id cks st.registry) failed withdrawn
      { w with passed := claiming ++ w.passed }

/-! ## Batches -/

/-- The write of the nodes of a batch.  When it fails, the rows `failed` names are stored, and every node's
claims are withdrawn unless its row is stored. -/
def writeNodes (token : Nat) (graph : Primary Value) (r : Registry)
    (holds : List (NodeCreate × List UniqueCheck)) (failed : Option (Nat → Bool)) (withdrawn : Nat → Bool) :
    CallResult :=
  let nodes := holds.map (·.1)
  let put := fun ns => ((graph.putNodesBatch token ns).getD graph).store
  let passed := nodes.sublists.map fun ns => (⟨r.durable, put ns⟩ : Durable)
  match if failed.isNone then graph.putNodesBatch token nodes else none with
  | some graph' => ⟨graph', r, passed, false⟩
  | none =>
    let stored := nodes.filter fun n => failed.any (· n.pending.id)
    let graph' := (graph.putNodesBatch token stored).getD graph
    let withdraw := fun hs => Registry.withdrawHolds graph'.store.storedRows withdrawn hs r
    ⟨graph', withdraw holds,
      passed ++ holds.inits.map fun hs => (⟨(withdraw hs).durable, graph'.store⟩ : Durable), true⟩

/-- The state of the partition of a batch. -/
structure Partition where
  registry : Registry
  seen : List (OwnedValue × Nat)
  survivors : List (NodeCreate × List UniqueCheck)
  passed : List Durable

/-- One create of the partition: the check, then the claims; a claim that fails withdraws those before it. -/
def partitionNode (withdrawn : Nat → Bool) (b : Partition) (n : NodeCreate) : Partition :=
  match slotRow n.calls with
  | none => b
  | some row =>
    let id := n.pending.id
    match enforceUniqueForNode reg (seenJudge b.seen (st.judge b.registry id)) row none with
    | .error _ => b
    | .ok cks =>
      let passed := b.passed ++
        (b.registry.claimStates id cks).map fun owners => (⟨owners, st.graph.store⟩ : Durable)
      match n.pending.claimFailed with
      | some made =>
        let claimed := Registry.claimAll id (cks.filter made) b.registry
        let r := claimed.1.writeFailed id claimed.2 (st.graph.store.storedRows id) (withdrawn id)
        { b with registry := r, passed := passed ++ [⟨r.durable, st.graph.store⟩] }
      | none =>
        let claimed := Registry.claimAll id cks b.registry
        ⟨claimed.1, cks.map (fun ck => (ck.ownedValue, id)) ++ b.seen, b.survivors ++ [(n, claimed.2)], passed⟩

/-- `partitionBatchNodesByUnique`. -/
def partitionBatchNodesByUnique (withdrawn : Nat → Bool) (creates : List NodeCreate) : Partition :=
  creates.foldl (st.partitionNode reg withdrawn) ⟨st.registry, [], [], []⟩

/-- `enforceUniqueForNodes` up to the claims: every value of every node is checked first. -/
def enforceUniqueForNodes (seen : List (OwnedValue × Nat)) :
    List NodeCreate → Except UniqueError (List (NodeCreate × List UniqueCheck))
  | [] => .ok []
  | n :: ns =>
    match slotRow n.calls with
    | none => enforceUniqueForNodes seen ns
    | some row =>
      match enforceUniqueForNode reg (seenJudge seen (st.judge st.registry n.pending.id)) row none with
      | .error e => .error e
      | .ok cks =>
        match enforceUniqueForNodes (cks.map (fun ck => (ck.ownedValue, n.pending.id)) ++ seen) ns with
        | .error e => .error e
        | .ok checked => .ok ((n, cks) :: checked)

/-- `GraphTx.AddNodes` on a store whose transactions have no scope: one batch, all or nothing. -/
def addNodes (pending : List PendingNode) (claimFailed : Option (Nat → UniqueCheck → Bool))
    (failed : Option (Nat → Bool)) (withdrawn : Nat → Bool) : CallResult × List NodeCreate :=
  let r := st.graph.addNodesCreates cfg pending
  let graph := { st.graph with clock := r.1 }
  match if r.2.all (fun n => (slotRow n.calls).isSome) then (st.enforceUniqueForNodes reg [] r.2).toOption
      else none with
  | none => (⟨graph, st.registry, [], true⟩, [])
  | some checked =>
    let durable := fun owners => (⟨owners, st.graph.store⟩ : Durable)
    match claimFailed with
    | some made =>
      let c := Registry.claimNodes (checked.map fun n => (n.1, n.2.filter (made n.1.pending.id))) st.registry
      let withdraw := fun hs => Registry.withdrawHolds (fun _ => []) withdrawn hs c.1
      (⟨graph, withdraw c.2.1,
        c.2.2.map durable ++ c.2.1.inits.map fun hs => durable (withdraw hs).durable, true⟩, [])
    | none =>
      let c := Registry.claimNodes checked st.registry
      let w := writeNodes st.token graph c.1 c.2.1 failed withdrawn
      ({ w with passed := c.2.2.map durable ++ w.passed }, if w.failed then [] else r.2)

/-! ## The steps -/

/-- The graph after a call that left `r`. -/
def after (r : CallResult) (ids : List Nat) : ForeverGraph :=
  { st with
    graph := r.graph
    ids := ids ++ st.ids
    registry := r.registry
    past := r.passed.reverse ++ st.past }

/-- One call. -/
def step : ForeverEvent → ForeverGraph
  | .call d o => st.after (st.runDoor cfg reg 0 d o) d.newNode.nodeID.toList
  | .batch pending wall failed withdrawn =>
    let graph := { st.graph with clock := (st.graph.clock.now wall.toInt).1 }
    let b := st.partitionBatchNodesByUnique reg withdrawn (st.graph.executeCreates cfg wall pending)
    let w := writeNodes 0 graph b.registry b.survivors failed withdrawn
    st.after { w with passed := b.passed ++ w.passed } (pending.map (·.id))
  | .beginTx wall =>
    match st.tx with
    | some _ => st
    | none => { st with graph := st.graph.step cfg (.beginTx wall), tx := some .new }
  | .txCall c o =>
    match st.tx with
    | none => st
    | some tx =>
      if c.door.newNode.inTx then
        let r := st.runDoor cfg reg st.token c.door o
        let tx' := GraphTx.before cfg caps st.graph tx ⟨c.door.newNode, c.head⟩
        { st.after r c.door.newNode.nodeID.toList with
          -- a delete that fails records nothing
          tx := some (if r.failed && !c.door.newNode.buildsRow then tx'
            else GraphTx.after caps st.graph.store r.graph.store tx' c.door.newNode) }
      else st
  | .txAddNodes pending claimFailed failed withdrawn =>
    match st.tx with
    | none => st
    | some tx =>
      let r := st.addNodes cfg reg pending claimFailed failed withdrawn
      { st.after r.1 (pending.map (·.id)) with
        tx := some (r.2.foldl (fun tx n => GraphTx.after caps st.graph.store r.1.graph.store tx
          (n.pending.door n.wall)) tx) }
  | .commit =>
    match st.tx with
    | none => st
    | some _ => { st with graph := st.graph.step cfg .commit, tx := none }
  | .rollback faults =>
    match st.tx with
    | none => st
    | some tx =>
      let r := runRestores caps tx.restores faults st.graph.store
      { st with
        graph := { st.graph with
          store := r.2
          log := st.graph.log.discardScopedLog st.token
          scopeToken := none }
        tx := none
        past := (r.1.map fun s => (⟨st.registry.durable, s⟩ : Durable)).reverse ++ st.past }
  | .crash lost clock =>
    match (st.durable :: st.past)[lost]? with
    | none => st
    | some d => { st with
        graph := { Primary.new clock with store := d.store }
        tx := none
        registry := ⟨d.owners, d.owners⟩
        past := (st.durable :: st.past).drop (lost + 1) }

/-! ## The condition -/

/-- The values a cascade's rows carry from their base rows are the node's, or ones that the kernel judges. -/
def carriesOwned (d : Door Value) : Bool :=
  (st.graph.cascade cfg d).all fun (id, rows) => rows.appended.all fun row =>
    ownsOr reg st.registry.mem id row fun c k => rows.appended.any fun row' =>
      row'.binds c.label c.key == some k &&
        (rows.changesCurrent row' c.label c.key || rows.patched cfg.door.core.axis row' c.label c.key)

/-- A row write of a cascade that fails and has stored its row: the values of the row are the node's before
the call, or a row written before it carries them. -/
def countsStored (token : Nat) (d : Door Value) : CallFault → Bool
  | .written (some (n, true)) true =>
    (st.graph.cascade cfg d).all fun (id, _) =>
      let r := st.graph.doorCalls cfg d
      Primary.accepted token { st.graph with clock := r.1 } (r.2.take n) != n ||
        (r.2[n]?).all fun call => call.rows.all fun row =>
          ownsOr reg st.registry.mem id row fun c k =>
            (writtenRows (r.2.take n)).any fun row' => row'.binds c.label c.key == some k
  | _ => true

/-- The label turns of a rollback: the row a node has, with the labels of the row it gets back, has values of
the node only. -/
def turnsOwned (s : Store Value) (r : Restore Value) : Bool :=
  r.target.all fun (id, x) => (s.nodes id).all fun y =>
    ownsOr reg st.registry.mem id { y.row with labels := x.row.labels } fun _ _ => false

/-- The calls that keep the ownership. -/
def keepsOwnership : ForeverEvent → Bool
  | .call d o => st.carriesOwned cfg reg d.newNode && st.countsStored cfg reg 0 d.newNode o
  | .txCall c o => st.carriesOwned cfg reg c.door.newNode && st.countsStored cfg reg st.token c.door.newNode o
  | .rollback faults =>
    st.tx.all fun tx => restoresMeet caps (st.turnsOwned reg) tx.restores faults st.graph.store
  | _ => true

end ForeverGraph

end RhoTkg
