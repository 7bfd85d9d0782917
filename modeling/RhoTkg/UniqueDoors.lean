import RhoTkg.NodeDoors
import RhoTkg.Unique

/-!
# The write doors under unique constraints

A door hands the rows it has built to the kernel right before its first store call, and a refusal ends
the call there.  The rows are those of the store calls the door is about to make (`Primary.doorCalls`):
the last call gives the current slot its row, the calls before it write history rows.

`Primary.enforceUnique` is the check of a door and `Primary.nodes_runDoor` what a checked door does to
the nodes: nothing, or it deletes a node, or it gives one node a row of which every bound value was
bound before by the node's row or was judged.
-/

namespace RhoTkg

section Slot

variable {V : Type}

/-! ## The rows of a door's store calls -/

/-- The row the door gives the current slot: its last call's. -/
def slotRow (calls : List (RoutedCall V)) : Option (Row V) :=
  calls.getLast?.bind fun c => c.call.slot.map (·.2.row)

/-- The rows a cascade appends: those of its calls but the demoted row. -/
def appendedRows (current : Row V) (calls : List (RoutedCall V)) : List (Row V) :=
  calls.filterMap fun c =>
    match c.call with
    | .putVersion _ version x => if version = current.version then none else some x.row
    | call => call.slot.map (·.2.row)

/-- The labels of `types.NewNode`: a label given twice counts once. -/
def newNodeLabels : List Nat → List Nat
  | [] => []
  | l :: ls => l :: (newNodeLabels ls).filter (· != l)

theorem nodup_newNodeLabels (ls : List Nat) : (newNodeLabels ls).Nodup := by
  induction ls with
  | nil => exact List.nodup_nil
  | cons l ls ih => exact List.nodup_cons.mpr ⟨by simp, ih.filter _⟩

/-- The door with the labels of the node it creates as `types.NewNode` keeps them. -/
def Door.newNode : Door V → Door V
  | .chain e ends (.add labels props vf vt wall) =>
    .chain e ends (.add (newNodeLabels labels) props vf vt wall)
  | .chain e ends (.reimport labels props vf vt wall) =>
    .chain e ends (.reimport (newNodeLabels labels) props vf vt wall)
  | d => d

/-- The end, the patch and the added label of a call the cascade kernel serves. -/
def NodeEvent.cascadeArgs (a : ValidAxis) : NodeEvent V → Int × Patch V × Option Nat
  | .setInterval _ vt patch _ => (vt.toInt, patch, none)
  | .excise _ vt _ => (vt.toInt, [], none)
  | .update patch .. => (a.openEnd, patch, none)
  | .changeLabel lop _ => (a.openEnd, [], if lop.add then some lop.tok else none)
  | _ => (a.openEnd, [], none)

end Slot

/-! ## The check of a door -/

namespace Primary

variable (cfg : GraphConfig) (reg : List UniqueConstraint)
  (judge : Nat → UniqueCheck → Option UniqueError) (p : Primary Value)

/-- The check of a door on the chain of a node: creates, updates, whole-row replacements and label
additions judge the row they store, the last two as a new row and as a change of the current one;
cascades judge their rows; closes and label removals judge nothing. -/
def enforceUniqueChain (id : Nat) (ev : NodeEvent Value) (calls : List (RoutedCall Value)) :
    Except UniqueError (List UniqueCheck) :=
  let st := p.store.chainState p.clock (.node id)
  match ev.cascadesAt (cfg.forEntity (.node id)) st, st.current with
  | some _, some current =>
    let args := ev.cascadeArgs cfg.door.core.axis
    enforceUniqueForCascade reg (judge id) cfg.door.core.axis
      ⟨current, appendedRows current calls, slotRow calls, args.1, args.2.1, args.2.2⟩
  | some _, none => .ok []
  | none, prev =>
    match slotRow calls, ev with
    | some row, .add .. => enforceUniqueForNode reg (judge id) row none
    | some row, .reimport .. => enforceUniqueForNode reg (judge id) row none
    | some row, .update .. => enforceUniqueForNode reg (judge id) row prev
    | some row, .replaceVersion .. => enforceUniqueForNode reg (judge id) row prev
    | some row, .changeLabel lop _ =>
      if lop.add then enforceUniqueForNode reg (judge id) row none else .ok []
    | _, _ => .ok []

/-- The check of a door: the values it may bind and claims, or its refusal. -/
def enforceUnique (d : Door Value) : Except UniqueError (List UniqueCheck) :=
  match d with
  | .chain (.node id) _ ev => p.enforceUniqueChain cfg reg judge id ev (p.doorCalls cfg d).2
  | .updateInPlace (.node id) .. =>
    match slotRow (p.doorCalls cfg d).2 with
    | some row =>
      enforceUniqueForNode reg (judge id) row ((p.store.current (.node id)).map (·.row))
    | none => .ok []
  | _ => .ok []

end Primary

/-! ## What a checked door does to the nodes -/

/-- The row of the slot is one of the rows a cascade appends. -/
theorem mem_appendedRows {V : Type} {current : Row V} {calls : List (RoutedCall V)}
    {c : RoutedCall V} {id : Nat} {x : Stored V}
    (hc : c ∈ calls) (hslot : c.call.slot = some (id, x)) : x.row ∈ appendedRows current calls := by
  refine List.mem_filterMap.mpr ⟨c, hc, ?_⟩
  cases hcall : c.call with
  | putVersion e version y =>
    rw [hcall] at hslot
    cases hslot
  | _ =>
    rw [hcall] at hslot
    simp [hslot]

/-- Every value the row binds was bound by the row before it, or was judged. -/
def Judged (reg : List UniqueConstraint) (judge : UniqueCheck → Option UniqueError)
    (cks : List UniqueCheck) (prev : Option (Row Value)) (row : Row Value) : Prop :=
  ∀ c ∈ reg, ∀ k, row.binds c.label c.key = some k →
    (∃ p, prev = some p ∧ p.binds c.label c.key = some k) ∨
      ∃ ck ∈ cks, ck.label = c.label ∧ ck.key = c.key ∧ ck.raw.uniqueKey = some k ∧
        ck.valueKey = k ∧ ck.scope = c.scope ∧ ck.unchanged = false ∧ judge ck = none

section Judged

variable {reg : List UniqueConstraint} {judge : UniqueCheck → Option UniqueError}
  {cks : List UniqueCheck} {prev : Option (Row Value)} {current row : Row Value}

theorem judged_of_enforceUniqueForNode (h : enforceUniqueForNode reg judge row prev = .ok cks) :
    Judged reg judge cks prev row := fun _ hc _ hk => enforceUniqueForNode_ok h hc hk

/-- A row judged as a new one. -/
theorem Judged.of_none (h : Judged reg judge cks none row) : Judged reg judge cks prev row := by
  intro c hc k hk
  rcases h c hc k hk with ⟨p, hp, -⟩ | h
  · cases hp
  · exact .inr h

/-- A row with the properties of the row before it and no label more. -/
theorem judged_of_properties (hprops : row.properties = current.properties)
    (hlabels : ∀ l ∈ row.labels, l ∈ current.labels) : Judged reg judge cks (some current) row := by
  intro c hc k hk
  refine .inl ⟨current, rfl, ?_⟩
  rw [Row.binds] at hk ⊢
  split at hk
  · rename_i hlabel
    rw [if_pos (List.contains_iff_mem.mpr (hlabels _ (List.contains_iff_mem.mp hlabel))),
      uniqueValueKey, ← hprops]
    exact hk
  · cases hk

end Judged

namespace Primary

variable {cfg : GraphConfig} {reg : List UniqueConstraint}
  {judge : Nat → UniqueCheck → Option UniqueError} {p : Primary Value}

variable {cks : List UniqueCheck} {d : Door Value} {c : RoutedCall Value}
  {ends : Option (Nat × Nat)} {ev : NodeEvent Value} {id : Nat} {t : Store Value} {x : Stored Value}

/-- The values of a check were judged for the node of the door. -/
theorem checked_of_enforceUnique (h : p.enforceUnique cfg reg judge d = .ok cks) :
    ∀ ck ∈ cks, ∃ id, d.nodeID = some id ∧ Checked reg (judge id) ck := by
  have hnil : cks = [] → ∀ ck ∈ cks, ∃ id, d.nodeID = some id ∧ Checked reg (judge id) ck := by
    rintro rfl ck hck
    cases hck
  unfold enforceUnique at h
  split at h
  · rename_i id ends ev
    have hnode : ∀ {row prev}, enforceUniqueForNode reg (judge id) row prev = .ok cks →
        ∀ ck ∈ cks, ∃ id', (Door.chain (.node id) ends ev).nodeID = some id' ∧
          Checked reg (judge id') ck :=
      fun h ck hck => ⟨id, rfl, checked_of_enforceUniqueForNode h ck hck⟩
    unfold enforceUniqueChain at h
    dsimp only at h
    split at h
    · exact fun ck hck => ⟨id, rfl, checked_of_enforceUniqueForCascade h ck hck⟩
    · cases h
      exact hnil rfl
    · split at h
      · exact hnode h
      · exact hnode h
      · exact hnode h
      · exact hnode h
      · split at h
        · exact hnode h
        · cases h
          exact hnil rfl
      · cases h
        exact hnil rfl
  · rename_i id patch vf vt wall
    split at h
    · exact fun ck hck => ⟨id, rfl, checked_of_enforceUniqueForNode h ck hck⟩
    · cases h
      exact hnil rfl
  · cases h
    exact hnil rfl

/-- A chain door that has passed its check stores a judged row. -/
theorem judged_chain {id' : Nat} (hrows : ∀ y, p.store.nodes id = some y → y.row.labels.Nodup)
    (ht : t.nodes = p.store.nodes)
    (hcheck : p.enforceUnique cfg reg judge (.chain (.node id) ends ev) = .ok cks)
    (hlast : (p.doorCalls cfg (.chain (.node id) ends ev)).2.getLast? = some c)
    (hslot : c.call.slot = some (id', x)) (hok : SlotOk t c.call id' x) :
    id' = id ∧ Judged reg (judge id) cks ((p.store.nodes id).map (·.row)) x.row ∧
      (p.store.nodes id = none → x.row.labels = ev.createLabels) := by
  rw [enforceUnique, enforceUniqueChain] at hcheck
  have hrow : slotRow (p.doorCalls cfg (.chain (.node id) ends ev)).2 = some x.row := by
    rw [slotRow, hlast, Option.bind_some, hslot]
    rfl
  rw [hrow] at hcheck
  have hmem := List.mem_of_getLast? hlast
  generalize hcalls : (p.doorCalls cfg (.chain (.node id) ends ev)).2 = calls at hcheck hlast hmem
  rw [doorCalls] at hcalls
  split at hcalls
  swap
  · rw [← hcalls] at hmem
    cases hmem
  rename_i haccepts
  dsimp only at hcalls hcheck
  split at hcalls
  swap
  · rw [← hcalls] at hmem
    cases hmem
  have hcurrent : (p.store.chainState p.clock (.node id)).current =
    (p.store.nodes id).map (·.row) := rfl
  generalize hst : p.store.chainState p.clock (.node id) = st at hcalls hcheck hcurrent
  have hwrites : ¬ st.SameRows (st.step (cfg.forEntity (.node id)) ev).1 := fun hsame => by
    rw [NodeState.storeCalls_of_sameRows hsame] at hcalls
    rw [← hcalls] at hmem
    cases hmem
  rw [← hcalls] at hlast
  obtain ⟨new, hnew, rfl, rfl, hadded⟩ := NodeState.slotCall_storeCalls hlast hslot
  rw [← hcurrent]
  -- the labels of the row, when the node is there
  have hlabels : ∀ current, st.current = some current →
      ∀ l ∈ x.row.labels, l ∈ current.labels ∨ c.call.addedLabel = some l := by
    intro current hcur
    rw [hcurrent, Option.map_eq_some_iff] at hcur
    obtain ⟨y, hy, rfl⟩ := hcur
    exact (hok.labels y (by rw [ht]; exact hy) (hrows y hy)).2
  cases hcur : st.current with
  | none =>
    have hcreate : ev.isCreate = true := by
      by_contra hno
      exact hwrites (NodeState.sameRows_of_none haccepts (by simpa using hno) hcur)
    refine ⟨rfl, ?_, fun _ => NodeState.labels_of_create hcur hcreate hnew⟩
    cases ev with
    | add | reimport =>
      exact judged_of_enforceUniqueForNode hcheck
    | _ => cases hcreate
  | some current =>
    have hcreate : ev.isCreate = false := by
      by_contra hno
      exact hwrites (NodeState.sameRows_of_isCreate (by simpa using hno) (by simp [hcur]))
    refine ⟨rfl, ?_, fun hnone => by rw [hnone, hcur] at hcurrent; cases hcurrent⟩
    rw [hcur] at hcheck
    cases hcas : ev.cascadesAt (cfg.forEntity (.node id')) st with
    | some wall =>
      rw [hcas] at hcheck
      intro u hu k hk
      rcases enforceUniqueForCascade_ok hcheck rfl (mem_appendedRows hmem hslot) hu hk with
        ⟨hval, hadd⟩ | hjudged
      · refine .inl ⟨current, rfl, ?_⟩
        rw [Row.binds] at hk ⊢
        split at hk
        swap
        · cases hk
        rename_i hlabel
        have hlabel' : current.labels.contains u.label = true := by
          rcases hlabels current hcur _ (List.contains_iff_mem.mp hlabel) with hl | hl
          · exact List.contains_iff_mem.mpr hl
          · obtain ⟨lop, w, rfl, hlop, htok⟩ := hadded _ hl
            exact hadd (by simp [NodeEvent.cascadeArgs, hlop, htok])
        rw [if_pos hlabel']
        exact hval
      · exact .inr hjudged
    | none =>
      rw [hcas] at hcheck
      have hkept : (∀ l, c.call.addedLabel ≠ some l) → x.row.properties = current.properties →
          Judged reg (judge id') cks (some current) x.row := fun hno hprops =>
        judged_of_properties hprops fun l hl =>
          (hlabels current hcur l hl).resolve_right (hno l)
      cases ev with
      | tick => exact absurd ⟨rfl, rfl⟩ hwrites
      | add | reimport => cases hcreate
      | update => exact judged_of_enforceUniqueForNode hcheck
      | closeVersion end_ wall =>
        refine hkept (fun l hl => ?_) (NodeState.properties_closeVersion hcur hnew)
        obtain ⟨lop, w, hev, -⟩ := hadded l hl
        cases hev
      | replaceVersion => exact judged_of_enforceUniqueForNode hcheck
      | changeLabel lop wall =>
        by_cases hadd : lop.add = true
        · dsimp only at hcheck
          rw [if_pos hadd] at hcheck
          exact (judged_of_enforceUniqueForNode hcheck).of_none
        · refine hkept (fun l hl => ?_) (NodeState.properties_changeLabel hcas hcur hnew)
          obtain ⟨lop', w, hev, hadd', -⟩ := hadded l hl
          cases hev
          exact hadd hadd'
      | setInterval | excise => cases hcas
      | endNode => cases haccepts

/-- What a checked door does to the nodes. -/
inductive DoorNodes (cfg : GraphConfig) (reg : List UniqueConstraint)
    (judge : Nat → UniqueCheck → Option UniqueError) (p : Primary Value) (d : Door Value)
    (cks : List UniqueCheck) (s' : Store Value) : Prop
  | same (hnodes : s'.nodes = p.store.nodes)
  | deleted {id : Nat} (hd : d.nodeID = some id)
      (hnodes : s'.nodes = Function.update p.store.nodes id none)
  | stored {id : Nat} {x : Stored Value} (hd : d.nodeID = some id)
      (hnodes : s'.nodes = Function.update p.store.nodes id (some x))
      (hrow : slotRow (p.doorCalls cfg d).2 = some x.row) (hvalid : validSnapshot (.node id) x = true)
      (hnodup : x.row.labels.Nodup)
      (hjudged : Judged reg (judge id) cks ((p.store.nodes id).map (·.row)) x.row)

/-- A create is given every label once. -/
theorem nodup_createLabels {e : EntityId} (h : d.newNode = .chain e ends ev) :
    ev.createLabels.Nodup := by
  cases d with
  | chain e' ends' ev' =>
    cases ev' <;> cases h <;>
      first | exact nodup_newNodeLabels _ | exact List.nodup_nil
  | _ => cases h

/-- The row a checked door gives a node is judged. -/
theorem judged_slot (hrows : ∀ id y, p.store.nodes id = some y → y.row.labels.Nodup)
    (ht : t.nodes = p.store.nodes) (hcheck : p.enforceUnique cfg reg judge d.newNode = .ok cks)
    (hlast : (p.doorCalls cfg d.newNode).2.getLast? = some c) (hc : c.call.slot = some (id, x))
    (hok : SlotOk t c.call id x) :
    d.newNode.nodeID = some id ∧ x.row.labels.Nodup ∧
      Judged reg (judge id) cks ((p.store.nodes id).map (·.row)) x.row := by
  have hcreate := @nodup_createLabels d
  generalize d.newNode = d' at hcheck hcreate hlast
  have hmem := List.mem_of_getLast? hlast
  have hnodup : (p.store.nodes id = none → x.row.labels.Nodup) → x.row.labels.Nodup := by
    intro hnew
    cases hcur : p.store.nodes id with
    | none => exact hnew hcur
    | some y => exact (hok.labels y (by rw [ht]; exact hcur) (hrows id y hcur)).1
  cases d' with
  | chain e ends ev =>
    cases e with
    | rel r => exact absurd (hc.symm.trans ((mem_doorCalls_chain hmem).2 rfl)) nofun
    | node n =>
      obtain ⟨rfl, hjudged, hlabels⟩ := judged_chain (hrows n) ht hcheck hlast hc hok
      refine ⟨rfl, hnodup fun hnone => ?_, hjudged⟩
      rw [hlabels hnone]
      exact hcreate rfl
  | updateInPlace e patch vf vt wall =>
    have hrow : slotRow (p.doorCalls cfg (.updateInPlace e patch vf vt wall)).2 = some x.row := by
      rw [slotRow, hlast, Option.bind_some, hc]
      rfl
    obtain ⟨x', hx⟩ := mem_doorCalls_updateInPlace hmem
    rw [hx] at hc
    cases e with
    | rel r => cases hc
    | node n =>
      cases hc
      rw [enforceUnique, hrow] at hcheck
      refine ⟨rfl, hnodup fun hnone => ?_, judged_of_enforceUniqueForNode hcheck⟩
      have hput := hok.created (by rw [ht]; exact hnone)
      cases hx.symm.trans hput
  | _ => exact nomatch hc.symm.trans (mem_doorCalls_else rfl hmem).1

/-- **A checked door** leaves the nodes, deletes one, or gives one a judged row. -/
theorem nodes_runDoor (hrows : ∀ id y, p.store.nodes id = some y → y.row.labels.Nodup)
    (hcheck : p.enforceUnique cfg reg judge d.newNode = .ok cks) (token : Nat) :
    p.DoorNodes cfg reg judge d.newNode cks (p.runDoor cfg token d.newNode).store := by
  rcases nodes_runDoor_last cfg p d.newNode token with hsame | ⟨c, t, hlast, ht, hafter⟩
  · exact .same hsame
  cases hafter with
  | same hnodes => exact .same (hnodes.trans ht)
  | deleted hdel hnodes =>
    rw [ht] at hnodes
    exact .deleted (nodeID_of_deletedNode hlast hdel) hnodes
  | @slot id x hc hnodes hok =>
    rw [ht] at hnodes
    obtain ⟨hid, hnodup, hjudged⟩ := judged_slot hrows ht hcheck hlast hc hok
    have hrow : slotRow (p.doorCalls cfg d.newNode).2 = some x.row := by
      rw [slotRow, hlast, Option.bind_some, hc]
      rfl
    exact .stored hid hnodes hrow hok.valid hnodup hjudged

end Primary

end RhoTkg
