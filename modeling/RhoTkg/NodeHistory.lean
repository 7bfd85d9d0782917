import RhoTkg.UniqueDoors

/-!
# The stored rows of the nodes

A store call adds at most one history row of a node (`StoreCall.kept`), and a door writes into the history
of its node the current row under new stamps, or the rows its cascade appends (`Primary.kept_doorCalls`).

`Store.NodeRows P Q` says that every current row of a node satisfies `P` and every history row `Q`.  A call
keeps it when the rows it writes satisfy them (`Store.NodeRows.call`), and so do the calls of a door and
every initial part of them (`Store.NodeRows.runCalls`).
-/

namespace RhoTkg

open List

variable {V : Type} {s s' : Store V} {c : StoreCall V} {r : Option (Change V)}

/-! ## What a call adds to a history -/

/-- The history row a store call writes for a node. -/
def StoreCall.kept : StoreCall V → Option (Nat × Stored V)
  | .replaceWithHistory (.node id) _ _ prev => some (id, prev)
  | .changeNodeLabelTokenWithHistory id _ _ _ prev => some (id, prev)
  | .putVersion (.node id) _ x => some (id, x)
  | .deleteNodeWithHistory id _ tombstone _ => some (id, tombstone)
  | _ => none

variable {e : EntityId} {id : Nat} {x y : Stored V}

theorem Store.mem_history_putHistoryRow (h : y ∈ (s.putHistoryRow e x).history (.node id)) :
    y ∈ s.history (.node id) ∨ (e = .node id ∧ y = x) := by
  rw [history_putHistoryRow] at h
  by_cases he : e = .node id
  · subst he
    rw [Function.update_self] at h
    exact (Keyed.mem_of_mem_put h).symm.imp_right fun hy => ⟨rfl, hy⟩
  · rw [Function.update_of_ne (Ne.symm he)] at h
    exact .inl h

theorem Store.mem_history_setHistory {rows : List (Stored V)} (hrows : ∀ x ∈ rows, x ∈ s.history e)
    (h : y ∈ (s.setHistory e rows).history (.node id)) : y ∈ s.history (.node id) := by
  rw [history_setHistory] at h
  by_cases he : e = .node id
  · subst he
    rw [Function.update_self] at h
    exact hrows y h
  · rw [Function.update_of_ne (Ne.symm he)] at h
    exact h

/-- **The history of a node after an accepted call**: rows it had, and the one the call writes. -/
theorem Store.mem_history_call (h : s.call c = .ok (s', r)) (hx : x ∈ s'.history (.node id)) :
    x ∈ s.history (.node id) ∨ c.kept = some (id, x) := by
  cases Store.call_effect h with
  | putNode | putRel | replaced | labelled => exact .inl hx
  | @superseded e =>
    refine (mem_history_putHistoryRow hx).imp_right ?_
    rintro ⟨rfl, rfl⟩
    rfl
  | labelSuperseded =>
    refine (mem_history_putHistoryRow hx).imp_right ?_
    rintro ⟨he, rfl⟩
    cases he
    rfl
  | versionPut =>
    refine (mem_history_putHistoryRow hx).imp_right ?_
    rintro ⟨rfl, rfl⟩
    rfl
  | truncated => exact .inl (mem_history_setHistory (fun _ hy => mem_of_mem_drop hy) hx)
  | notTruncated => exact .inl hx
  | trimmed => exact .inl (mem_history_setHistory (fun _ hy => (mem_filter.mp hy).1) hx)
  | notTrimmed | relDeleted => exact .inl hx
  | @relEnded id' tombstone =>
    have hx' : x ∈ (s.putHistoryRow (.rel id') tombstone).history (.node id) := hx
    refine (mem_history_putHistoryRow hx').imp_right ?_
    rintro ⟨he, -⟩
    cases he
  | nodeDeleted | nodeCascaded => exact .inl hx
  | @nodeEnded id' tombstone old rels =>
    have hrels : ∀ rt ∈ rels, EntityId.rel rt.id ≠ .node id := fun _ _ he => nomatch he
    have hx' : x ∈ (rels.foldl (fun s rt => s.putHistoryRow (.rel rt.id) rt.tombstone)
        (s.putHistoryRow (.node id') tombstone)).history (.node id) := hx
    rw [history_foldl_putHistoryRow_of_not_mem hrels] at hx'
    refine (mem_history_putHistoryRow hx').imp_right ?_
    rintro ⟨he, rfl⟩
    cases he
    rfl

/-! ## Rows that satisfy a predicate -/

/-- The current rows of the nodes satisfy `P` and their history rows `Q`. -/
structure Store.NodeRows (P Q : Nat → Row V → Prop) (s : Store V) : Prop where
  current : ∀ id x, s.nodes id = some x → P id x.row
  history : ∀ id, ∀ x ∈ s.history (.node id), Q id x.row

section NodeRows

variable {P Q P' Q' : Nat → Row V → Prop}

theorem Store.NodeRows.mono (h : s.NodeRows P Q) (hP : ∀ id r, P id r → P' id r)
    (hQ : ∀ id r, Q id r → Q' id r) : s.NodeRows P' Q' :=
  ⟨fun id x hx => hP _ _ (h.current id x hx), fun id x hx => hQ _ _ (h.history id x hx)⟩

/-- **An accepted call** keeps the rows good when the rows it writes are. -/
theorem Store.NodeRows.call (h : s.NodeRows P Q) (hcall : s.call c = .ok (s', r))
    (hslot : ∀ id x, c.slot = some (id, x) → SlotOk s c id x → P id x.row)
    (hkept : ∀ id x, c.kept = some (id, x) → Q id x.row) : s'.NodeRows P Q := by
  refine ⟨fun id x hx => ?_, fun id x hx => ?_⟩
  · cases Store.nodes_call hcall with
    | same hnodes =>
      rw [hnodes] at hx
      exact h.current id x hx
    | deleted hc hnodes =>
      rw [hnodes, Function.update_apply] at hx
      split at hx
      · cases hx
      · exact h.current id x hx
    | slot hc hnodes hok =>
      rw [hnodes, Function.update_apply] at hx
      split at hx
      · rename_i heq
        cases hx
        subst heq
        exact hslot _ _ hc hok
      · exact h.current id x hx
  · rcases Store.mem_history_call hcall hx with hx | hx
    · exact h.history id x hx
    · exact hkept id x hx

variable {cs : List (RoutedCall V)}

theorem HistoryThenSlot.initial {cs' : List (RoutedCall V)} (h : HistoryThenSlot cs)
    (hinit : cs' <+: cs) : HistoryThenSlot cs' := by
  intro c hc
  obtain ⟨rest, rfl⟩ := hinit
  cases rest with
  | nil =>
    rw [append_nil] at h
    exact h c hc
  | cons d ds =>
    refine h c ?_
    rw [dropLast_append_of_ne_nil (cons_ne_nil _ _)]
    exact mem_append_left _ (mem_of_mem_dropLast hc)

/-- The row a call of a door gives the current slot is that of its last call. -/
theorem HistoryThenSlot.getLast?_of_slot (h : HistoryThenSlot cs) {c : RoutedCall V} (hc : c ∈ cs)
    {p : Nat × Stored V} (hslot : c.call.slot = some p) : cs.getLast? = some c := by
  have hne : cs ≠ [] := ne_nil_of_mem hc
  rw [← dropLast_append_getLast hne, mem_append, mem_singleton] at hc
  rcases hc with hc | rfl
  · obtain ⟨e, version, x, hput⟩ := h c hc
    rw [hput] at hslot
    cases hslot
  · exact getLast?_eq_some_getLast hne

/-- **The calls of a door.**  The rows it writes to the current slot may be judged by the nodes the door
has found, since the calls before the last one leave them. -/
theorem Store.NodeRows.runCalls {p : Primary V} (h : p.store.NodeRows P Q)
    (hcs : HistoryThenSlot cs)
    (hslot : ∀ c ∈ cs, ∀ (t : Store V) (id : Nat) (x : Stored V), t.nodes = p.store.nodes →
      c.call.slot = some (id, x) → SlotOk t c.call id x → P id x.row)
    (hkept : ∀ c ∈ cs, ∀ id x, c.call.kept = some (id, x) → Q id x.row) (token : Nat) :
    (p.runCalls token cs).store.NodeRows P Q := by
  induction cs generalizing p with
  | nil => exact h
  | cons c cs ih =>
    rw [Primary.runCalls]
    split
    · exact h
    rename_i p' hrun
    obtain ⟨r, hcall⟩ := Primary.call_of_runCall hrun
    have hnext := h.call hcall
      (fun id x hc hok => hslot c mem_cons_self p.store id x rfl hc hok)
      (hkept c mem_cons_self)
    cases cs with
    | nil => exact hnext
    | cons d ds =>
      obtain ⟨e, version, x, hput⟩ := hcs c mem_cons_self
      have hnodes : p'.store.nodes = p.store.nodes := by
        rw [hput] at hcall
        generalize p'.store = s' at hcall
        cases Store.call_effect hcall
        rfl
      refine ih hnext (fun c' hc' => hcs c' (mem_cons_of_mem _ hc'))
        (fun c' hc' t id x ht => ?_) fun c' hc' => hkept c' (mem_cons_of_mem _ hc')
      exact hslot c' (mem_cons_of_mem _ hc') t id x (ht.trans hnodes)

end NodeRows

/-! ## The history rows of a door -/

/-- The same labels and properties. -/
def Row.SameContent (r r' : Row V) : Prop := r.labels = r'.labels ∧ r.properties = r'.properties

section Doors

variable [DecidableEq V]

variable {cfg : DoorConfig} {current : Row V} {ev : NodeEvent V} {st : NodeState V}
  {c : RoutedCall V} {id : Nat} {x : Stored V}

/-- **The row that leaves the current slot** goes to history with its labels and properties. -/
theorem NodeState.sameContent_historyRowAt {new : Row V} (hcur : st.current = some current)
    (hnew : (st.step cfg ev).1.current = some new) (hver : new.version ≠ current.version) :
    (historyRowAt (st.step cfg ev).1.history current).SameContent current := by
  have heff := st.step_effect cfg (fun hnone => nomatch hcur.symm.trans hnone) ev
  generalize (st.step cfg ev).1 = st' at heff hnew
  have hsame : st.current ≠ some new := by
    intro h
    cases hcur.symm.trans h
    exact hver rfl
  cases heff with
  | idle => exact absurd hnew hsame
  | created _ _ hnone => exact nomatch hcur.symm.trans hnone
  | superseded _ _ hcur' =>
    cases hcur.symm.trans hcur'
    rw [historyRowAt_putVersion]
    · exact ⟨rfl, rfl⟩
    · rfl
  | @cascaded _ wall _ _ _ mode _ _ current' rows sup first _ _ hev h =>
    cases hcur.symm.trans h.live
    have hwritten := h.written
    unfold writeCascade at hwritten
    dsimp only at hwritten
    split at hwritten
    · cases hwritten
    split at hwritten
    · cases hwritten
    split at hwritten
    · split at hwritten
      · cases hwritten
        have hdemoted : (demotedRow current sup mode (st.clock.now wall).2).version = current.version ∧
            (demotedRow current sup mode (st.clock.now wall).2).SameContent current := by
          unfold demotedRow
          split <;> exact ⟨rfl, rfl, rfl⟩
        rw [historyRowAt_putVersion hdemoted.1]
        exact hdemoted.2
      · cases hwritten
    · cases hwritten
      exact absurd hnew hsame
  | ended => cases hnew

omit [DecidableEq V] in
/-- The tombstone of a delete has the labels and the properties of the row it ends. -/
theorem NodeState.sameContent_tombstone {spec : NodeState.TombstoneSpec} {rels : List CascadedRel}
    {wall : List Int} (hcur : st.current = some current)
    (hok : (st.endNode cfg spec rels wall).2 = .ok ()) :
    (historyRowAt (st.endNode cfg spec rels wall).1.history current).SameContent current := by
  unfold endNode at hok ⊢
  rw [hcur] at hok ⊢
  split at hok
  · cases hok
  · rename_i heq
    cases heq
  · rename_i hw heq
    cases heq
    dsimp only at hok ⊢
    split at hok
    · rename_i hstorable
      rw [if_pos hstorable]
      rw [historyRowAt_putVersion]
      · exact ⟨rfl, rfl⟩
      · rfl
    · cases hok

/-- A history row of a call is the current row under new stamps, or one of the rows a cascade appends. -/
inductive KeptRow (st : NodeState V) (cfg : DoorConfig) (ev : NodeEvent V) (calls : List (RoutedCall V))
    (row : Row V) : Prop
  | current {current : Row V} (hcur : st.current = some current) (hsame : row.SameContent current)
  | appended {current : Row V} (hcur : st.current = some current)
      (hcascade : (ev.cascadesAt cfg st).isSome = true) (hrow : row ∈ appendedRows current calls)

theorem NodeState.keptRow_storeCalls {e : EntityId} {ends : Option (Nat × Nat)}
    (hc : c ∈ st.storeCalls e ends ev cfg (st.step cfg ev).1) (hkept : c.call.kept = some (id, x)) :
    e = .node id ∧ KeptRow st cfg ev (st.storeCalls e ends ev cfg (st.step cfg ev).1) x.row := by
  have hput : ∀ {version : Nat} {y : Row V}, c.call = .putVersion e version ⟨ends, y⟩ →
      e = .node id ∧ x.row = y := by
    intro version y hcall
    rw [hcall] at hkept
    cases e with
    | rel r => cases hkept
    | node n =>
      cases hkept
      exact ⟨rfl, rfl⟩
  generalize hcalls : st.storeCalls e ends ev cfg (st.step cfg ev).1 = calls at hc ⊢
  rw [storeCalls] at hcalls
  split at hcalls
  · rw [← hcalls, mem_singleton] at hc
    rw [hc] at hkept
    cases e <;> cases hkept
  · rename_i current new hcur hnew
    split at hcalls
    · rename_i hcascade
      have hc' := hc
      rw [← hcalls, cascadeCalls, mem_append, mem_map] at hc'
      rcases hc' with ⟨y, hy, rfl⟩ | hc'
      · obtain ⟨rfl, hrow⟩ := hput rfl
        refine ⟨rfl, .appended hcur hcascade (mem_filterMap.mpr ⟨_, hc, ?_⟩)⟩
        have hlt := of_decide_eq_true (mem_filter.mp hy).2
        have hle : current.version ≤ topVersion st.history current := (le_foldl_max _ _).1
        dsimp only
        rw [if_neg (by omega), hrow]
      · split at hc'
        · cases hc'
        rename_i hver
        rw [mem_cons, mem_singleton] at hc'
        rcases hc' with rfl | rfl
        · obtain ⟨rfl, hrow⟩ := hput rfl
          refine ⟨rfl, .current hcur ?_⟩
          rw [hrow]
          exact sameContent_historyRowAt hcur hnew hver
        · exfalso
          unfold slotCall at hkept
          cases e <;> cases ev <;> first | cases hkept | (dsimp only at hkept; split at hkept <;> cases hkept)
    · split at hcalls
      · rw [← hcalls] at hc
        cases hc
      rename_i hver
      rw [← hcalls, mem_singleton] at hc
      have hsame := @sameContent_historyRowAt V _ cfg current ev st new hcur hnew hver
      have hrow : e = .node id ∧ x.row = historyRowAt (st.step cfg ev).1.history current := by
        rw [hc] at hkept
        cases e <;> cases ev <;> cases hkept <;> exact ⟨rfl, rfl⟩
      exact ⟨hrow.1, .current hcur (hrow.2 ▸ hsame)⟩
  · rw [← hcalls] at hc
    cases hc

/-- The history rows of a door's calls are rows of the node it names. -/
theorem Primary.keptRow_doorCalls {cfg : GraphConfig} {p : Primary V} {d : Door V}
    (hc : c ∈ (p.doorCalls cfg d).2) (hkept : c.call.kept = some (id, x)) :
    d.nodeID = some id ∧ ∃ y, p.store.nodes id = some y ∧ (x.row.SameContent y.row ∨
      ∃ ends ev, d = .chain (.node id) ends ev ∧
        (ev.cascadesAt (cfg.forEntity (.node id)) (p.store.chainState p.clock (.node id))).isSome = true ∧
        x.row ∈ appendedRows y.row (p.doorCalls cfg d).2) := by
  cases d with
  | chain e ends ev =>
    generalize hcalls : (p.doorCalls cfg (.chain e ends ev)).2 = calls at hc ⊢
    rw [doorCalls] at hcalls
    split at hcalls
    swap
    · rw [← hcalls] at hc
      cases hc
    dsimp only at hcalls
    split at hcalls
    swap
    · rw [← hcalls] at hc
      cases hc
    rw [← hcalls] at hc
    obtain ⟨rfl, hrow⟩ := NodeState.keptRow_storeCalls hc hkept
    rw [hcalls] at hrow
    refine ⟨rfl, ?_⟩
    cases hrow with
    | current hcur hsame =>
      obtain ⟨y, hy, rfl⟩ := Option.map_eq_some_iff.mp hcur
      exact ⟨y, hy, .inl hsame⟩
    | appended hcur hcascade hrow =>
      obtain ⟨y, hy, rfl⟩ := Option.map_eq_some_iff.mp hcur
      exact ⟨y, hy, .inr ⟨ends, ev, rfl, hcascade, hrow⟩⟩
  | updateInPlace e patch vf vt wall =>
    obtain ⟨y, hy⟩ := mem_doorCalls_updateInPlace hc
    rw [hy] at hkept
    cases e <;> cases hkept
  | deleteNode n spec wall =>
    rw [doorCalls] at hc
    split at hc
    swap
    · cases hc
    rename_i current hok hcur
    cases mem_singleton.mp hc
    cases hkept
    have hsame := NodeState.sameContent_tombstone hcur hok
    obtain ⟨y, hy, rfl⟩ := Option.map_eq_some_iff.mp hcur
    exact ⟨rfl, y, hy, .inl hsame⟩
  | deleteRel n spec wall =>
    rw [doorCalls] at hc
    split at hc
    swap
    · cases hc
    cases mem_singleton.mp hc
    cases hkept
  | hardDeleteNode | hardDeleteNodeCascade | hardDeleteRel | truncateHistory | trimHistoryFrom =>
    cases mem_singleton.mp hc
    cases hkept

end Doors

end RhoTkg
