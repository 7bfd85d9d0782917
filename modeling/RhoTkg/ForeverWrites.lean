import RhoTkg.ForeverGraph

/-!
# Writes under `UniqueForever` constraints

`Store.NodeRows` at `CurrentOwned` and `HistoryOwned` says that every row of a node stored since the
activation has values that the registry gives to the node.  A call is sound (`CallResult.Sound`) when it
keeps that, in every durable state on its way too, and loses no owner from before it.

What a call withdraws it has claimed itself, so the owners from before it stay (`Registry.Ok.writeFailed`);
what remains is that a row the call has stored keeps the claims of its values.  For a door of one row that is
so because the withdrawal reads the row back (`DoorWrites.rows_storeWriteFailed`, `sound_writeNodes`), for a
cascade when the rows stored are the rows counted (`DoorWrites.rows_cascade`).
-/

namespace RhoTkg

open List

/-! ## Rows of their owners -/

section Sound

variable (reg : List UniqueConstraint) (old : Nat → List (Row Value))

/-- A current row has distinct labels and values of its node. -/
def CurrentOwned (owners : Owners) (id : Nat) (row : Row Value) : Prop :=
  row.labels.Nodup ∧ Owns reg owners id row

/-- A history row is from before the activation or has values of its node. -/
def HistoryOwned (owners : Owners) (id : Nat) (row : Row Value) : Prop :=
  row ∈ old id ∨ Owns reg owners id row

/-- Every row of the store is its owner's. -/
abbrev Store.OwnedRows (s : Store Value) (owners : Owners) : Prop :=
  s.NodeRows (CurrentOwned reg owners) (HistoryOwned reg old owners)

/-- A durable state whose rows have values of their nodes. -/
structure Durable.Sound (d : Durable) : Prop where
  ok : Registry.Ok ⟨d.owners, d.owners⟩
  rows : d.store.NodeRows (CurrentOwned reg d.owners) (HistoryOwned reg old d.owners)

/-- What a call from the registry `r` leaves is sound, and no owner is lost. -/
structure CallResult.Sound (r : Registry) (w : CallResult) : Prop where
  ok : w.registry.Ok
  keeps : r.Keeps w.registry
  rows : w.graph.store.NodeRows (CurrentOwned reg w.registry.mem) (HistoryOwned reg old w.registry.mem)
  passed : ∀ d ∈ w.passed, d.Sound reg old

variable {reg old} {r r' : Registry} {s : Store Value}

variable {id : Nat} {judge : UniqueCheck → Option UniqueError}

theorem CurrentOwned.keeps {row : Row Value} (h : CurrentOwned reg r.mem id row)
    (hkeeps : r.Keeps r') : CurrentOwned reg r'.mem id row := ⟨h.1, h.2.mono hkeeps⟩

theorem HistoryOwned.keeps {row : Row Value} (h : HistoryOwned reg old r.mem id row)
    (hkeeps : r.Keeps r') : HistoryOwned reg old r'.mem id row := h.imp_right (·.mono hkeeps)

theorem Store.NodeRows.keeps (h : s.OwnedRows reg old r.mem)
    (hkeeps : r.Keeps r') : s.OwnedRows reg old r'.mem :=
  h.mono (fun _ _ hrow => hrow.keeps hkeeps) fun _ _ hrow => hrow.keeps hkeeps

theorem Registry.Ok.durable_sound (h : r.Ok)
    (hs : s.OwnedRows reg old r.mem) :
    Durable.Sound reg old ⟨r.durable, s⟩ := by
  obtain ⟨mem, durable⟩ := r
  have hagree : durable = mem := h.agree
  subst hagree
  exact ⟨h, hs⟩

/-- A call that changes no row. -/
theorem CallResult.sound_of_rows {w : CallResult} (hok : w.registry.Ok) (hkeeps : r.Keeps w.registry)
    (hrows : w.graph.store.OwnedRows reg old r.mem)
    (hpassed : ∀ d ∈ w.passed, d.Sound reg old) : w.Sound reg old r :=
  ⟨hok, hkeeps, hrows.keeps hkeeps, hpassed⟩

/-- The durable states before the writes. -/
theorem CallResult.Sound.after_claims {w : CallResult} (h : w.Sound reg old r) {ds : List Durable}
    (hds : ∀ d ∈ ds, d.Sound reg old) : CallResult.Sound reg old r { w with passed := ds ++ w.passed } :=
  ⟨h.ok, h.keeps, h.rows, forall_mem_append.mpr ⟨hds, h.passed⟩⟩

theorem ownsOr_eq_true {owners : Owners} {row : Row Value}
    {other : UniqueConstraint → IndexKey → Bool} (h : ownsOr reg owners id row other = true)
    {c : UniqueConstraint} (hc : c ∈ reg) (hscope : c.scope = .forever) {k : IndexKey}
    (hk : row.binds c.label c.key = some k) :
    foreverOwner owners c.label c.key k = some id ∨ other c k = true := by
  have hval := all_eq_true.mp h c hc
  rw [hscope, hk, Option.all_some, bne_self_eq_false, Bool.false_or, Bool.or_eq_true, beq_iff_eq] at hval
  exact hval

/-! ## Claims -/

variable {id : Nat} {cks made : List UniqueCheck}

theorem Registry.Claimed.unowned (h : Registry.Claimed r id cks r' made)
    (hcks : ∀ ck ∈ cks, ck.Keyed) : r.Unowned made :=
  fun ck hck => ⟨hcks ck (h.mem_made ck hck), (h.made ck hck).1⟩

/-- A crash in the claims of a call. -/
theorem Registry.Ok.sound_claimStates (h : r.Ok) (hs : s.OwnedRows reg old r.mem)
    (hcks : ∀ ck ∈ cks, ck.Keyed) :
    ∀ owners ∈ r.claimStates id cks, Durable.Sound reg old ⟨owners, s⟩ := by
  refine forall_mem_map.mpr fun cs hcs => ?_
  have hclaimed := @Registry.Ok.claimAll r id cs h fun ck hck => hcks ck ((mem_sublists.mp hcs).subset hck)
  exact hclaimed.ok.durable_sound (hs.keeps hclaimed.keeps)

/-- The values the lookup lets pass have no other owner. -/
def MayOwn (r : Registry) (id : Nat) (judge : UniqueCheck → Option UniqueError) : Prop :=
  ∀ ck, judge ck = none → ck.scope = .forever →
    foreverOwner r.mem ck.label ck.key ck.valueKey = none ∨
      foreverOwner r.mem ck.label ck.key ck.valueKey = some id

theorem ForeverGraph.mayOwn_judge (st : ForeverGraph) (r : Registry) (id : Nat) :
    MayOwn r id (st.judge r id) := by
  intro ck h hscope
  have hcheck := (Option.or_eq_none_iff.mp h).2
  rw [if_pos hscope, Registry.checkForeverOwnership, Option.map_eq_none_iff, Option.filter_eq_none_iff] at hcheck
  cases howner : foreverOwner r.mem ck.label ck.key ck.valueKey with
  | none => exact .inl rfl
  | some a => exact .inr (by simpa using hcheck a howner)

theorem MayOwn.seen (h : MayOwn r id judge) (seen : List (OwnedValue × Nat)) :
    MayOwn r id (seenJudge seen judge) :=
  fun ck hck => h ck (Option.or_eq_none_iff.mp hck).2

/-- After the claims of a call the judged row has values of the node. -/
theorem Registry.Claimed.owns (h : Registry.Claimed r id cks r' made) (hmay : MayOwn r id judge)
    {prev : Option (Row Value)} {row : Row Value} (hprev : ∀ p, prev = some p → Owns reg r.mem id p)
    (hjudged : Judged reg judge cks prev row) : Owns reg r'.mem id row := by
  intro c hc hscope k hk
  rcases hjudged c hc k hk with ⟨p, hp, hpk⟩ | ⟨ck, hck, hlabel, hkey, -, hval, hckscope, -, hnone⟩
  · exact h.keeps _ _ _ _ (hprev p hp c hc hscope k hpk)
  · have hforever := hckscope.trans hscope
    rw [← hlabel, ← hkey, ← hval]
    exact h.owned ck hck hforever (hmay ck hnone hforever)

end Sound

/-! ## The writes of a door -/

variable {id : Nat} {x : Stored Value}

theorem mem_rows_of_kept {c : RoutedCall Value} (h : c.call.kept = some (id, x)) :
    x.row ∈ c.rows := by
  rw [RoutedCall.rows, h]
  exact mem_map.mpr ⟨(id, x), mem_append_left _ (by simp), rfl⟩

theorem mem_rows_of_slot {c : RoutedCall Value} (h : c.call.slot = some (id, x)) :
    x.row ∈ c.rows := by
  rw [RoutedCall.rows, h]
  exact mem_map.mpr ⟨(id, x), mem_append_right _ (by simp), rfl⟩

/-- What the calls of a door write once its values are claimed, `r` before and `r'` after the claims: rows of
the node `id` with values of the node.  Outside a cascade the history rows had their values before. -/
structure DoorWrites (reg : List UniqueConstraint) (r r' : Registry) (id : Nat) (s : Store Value)
    (calls : List (RoutedCall Value)) (cascade : Bool) : Prop where
  order : HistoryThenSlot calls
  slot : ∀ c ∈ calls, ∀ (t : Store Value) (b : Nat) (x : Stored Value), t.nodes = s.nodes →
    c.call.slot = some (b, x) → SlotOk t c.call b x → b = id ∧ CurrentOwned reg r'.mem b x.row
  kept : ∀ c ∈ calls, ∀ b x, c.call.kept = some (b, x) → b = id ∧ Owns reg r'.mem b x.row ∧
    (cascade = false → Owns reg r.mem b x.row)

section Writes

variable {reg : List UniqueConstraint} {old : Nat → List (Row Value)} {r r' : Registry} {id : Nat}
  {graph : Primary Value} {calls : List (RoutedCall Value)} {cascade : Bool} {cks made : List UniqueCheck}
  {token : Nat}

/-- The rows after a part of the calls, under the registry with the claims. -/
theorem DoorWrites.rows (h : DoorWrites reg r r' id graph.store calls cascade) (hkeeps : r.Keeps r')
    (hs : graph.store.OwnedRows reg old r.mem)
    {cs : List (RoutedCall Value)} (hcs : cs <+: calls) (token : Nat) :
    (graph.runCalls token cs).store.OwnedRows reg old r'.mem :=
  (hs.keeps hkeeps).runCalls (h.order.initial hcs)
    (fun c hc t b x ht hslot hok => (h.slot c (hcs.subset hc) t b x ht hslot hok).2)
    (fun c hc b x hkept => .inr (h.kept c (hcs.subset hc) b x hkept).2.1) token

/-- **A failed cascade**: the rows written count, and so must the row of the write that failed. -/
theorem DoorWrites.rows_cascade (h : DoorWrites reg r r' id graph.store calls cascade)
    (hclaimed : Registry.Claimed r id cks r' made)
    (hcks : ∀ ck ∈ cks, ck.Keyed)
    (hs : graph.store.OwnedRows reg old r.mem)
    {cs : List (RoutedCall Value)} (hcs : cs <+: calls) {written : List (Row Value)} (persisted : Bool)
    (hcounts : persisted = true → ∀ c ∈ cs, ∀ row ∈ c.rows, ∀ u ∈ reg, u.scope = .forever → ∀ k,
      row.binds u.label u.key = some k → foreverOwner r.mem u.label u.key k = some id ∨
        ∃ row' ∈ written, row'.binds u.label u.key = some k) :
    (graph.runCalls token cs).store.OwnedRows reg old (r'.writeFailed id made written persisted).mem := by
  have hmade := hclaimed.unowned hcks
  obtain ⟨-, hkeeps⟩ := @Registry.Ok.writeFailed r' r id made hclaimed.ok hclaimed.keeps hmade written persisted
  have howns : ∀ c ∈ cs, ∀ row ∈ c.rows, Owns reg r'.mem id row →
      Owns reg (r'.writeFailed id made written persisted).mem id row := by
    intro c hc row hrow how u hu hscope k hk
    cases persisted with
    | false => exact how u hu hscope k hk
    | true =>
      rcases hcounts rfl c hc row hrow u hu hscope k hk with hold | hcarried
      · exact hkeeps _ _ _ _ hold
      · exact hclaimed.ok.foreverOwner_writeFailed (fun ck hck => (hmade ck hck).1) true
          (how u hu hscope k hk) fun _ => hcarried
  refine (hs.keeps hkeeps).runCalls (h.order.initial hcs) (fun c hc t b x ht hslot hok => ?_)
    (fun c hc b x hkept => ?_) token
  · obtain ⟨rfl, hnodup, how⟩ := h.slot c (hcs.subset hc) t b x ht hslot hok
    exact ⟨hnodup, howns c hc _ (mem_rows_of_slot hslot) how⟩
  · obtain ⟨rfl, how, -⟩ := h.kept c (hcs.subset hc) b x hkept
    exact .inr (howns c hc _ (mem_rows_of_kept hkept) how)

/-- **A failed door of one row** reads the stored row back. -/
theorem DoorWrites.rows_storeWriteFailed (h : DoorWrites reg r r' id graph.store calls false)
    (hclaimed : Registry.Claimed r id cks r' made)
    (hcks : ∀ ck ∈ cks, ck.Keyed)
    (hs : graph.store.OwnedRows reg old r.mem)
    {cs : List (RoutedCall Value)} (hcs : cs <+: calls) (persisted : Bool) :
    (graph.runCalls token cs).store.OwnedRows reg old (r'.writeFailed id made ((graph.runCalls token cs).store.storedRows id) persisted).mem := by
  have hmade := hclaimed.unowned hcks
  obtain ⟨-, hkeeps⟩ := @Registry.Ok.writeFailed r' r id made hclaimed.ok hclaimed.keeps hmade
    ((graph.runCalls token cs).store.storedRows id) persisted
  have hrows := h.rows hclaimed.keeps hs hcs token
  have hany : graph.store.NodeRows (fun _ _ => True) (HistoryOwned reg old r.mem) :=
    hs.mono (fun _ _ _ => trivial) fun _ _ hrow => hrow
  -- the history rows of such a door had their values before the call
  have hhistory := hany.runCalls (h.order.initial hcs) (fun _ _ _ _ _ _ _ _ => trivial)
    (fun c hc b x hkept => .inr ((h.kept c (hcs.subset hc) b x hkept).2.2 rfl)) token
  refine ⟨fun b x hx => ?_, fun b x hx => (hhistory.history b x hx).keeps hkeeps⟩
  refine ⟨(hrows.current b x hx).1, (hrows.current b x hx).2.writeFailed hclaimed.ok
    (fun ck hck => (hmade ck hck).1) (fun hself => ?_) persisted⟩
  subst hself
  rw [Store.storedRows, hx]
  exact mem_cons_self

/-- **The row writes of a door** are sound, when the row that a failed write of a cascade has stored counts. -/
theorem DoorWrites.sound_writeRows (h : DoorWrites reg r r' id graph.store calls cascade)
    (hclaimed : Registry.Claimed r id cks r' made)
    (hcks : ∀ ck ∈ cks, ck.Keyed)
    (hs : graph.store.OwnedRows reg old r.mem)
    {failed : Option (Nat × Bool)} {withdrawn : Bool}
    (hcounts : cascade = true → withdrawn = true → ∀ n, failed = some (n, true) →
      graph.accepted token (calls.take n) = n → ∀ c, calls[n]? = some c → ∀ row ∈ c.rows, ∀ u ∈ reg,
        u.scope = .forever → ∀ k, row.binds u.label u.key = some k →
          foreverOwner r.mem u.label u.key k = some id ∨
            ∃ row' ∈ writtenRows (calls.take n), row'.binds u.label u.key = some k) :
    (ForeverGraph.writeRows token graph calls cascade id (r', made) failed withdrawn).Sound reg old r := by
  have hmade := hclaimed.unowned hcks
  have hpassed : ∀ cs, cs <+: calls → ∀ d ∈ cs.inits.map fun cs =>
      (⟨r'.durable, (graph.runCalls token cs).store⟩ : Durable), d.Sound reg old :=
    fun cs hcs => forall_mem_map.mpr fun cs' hcs' => hclaimed.ok.durable_sound
      (h.rows hclaimed.keeps hs (((mem_inits _ _).mp hcs').trans hcs) token)
  unfold ForeverGraph.writeRows
  dsimp only
  generalize hdone : graph.accepted token (calls.take ((failed.map (·.1)).getD calls.length)) = done
  generalize hreached : (calls.take (if failed = some (done, true) then done + 1 else done)) = reached
  have hprefix : reached <+: calls := hreached ▸ take_prefix _ _
  split
  · exact ⟨hclaimed.ok, hclaimed.keeps, h.rows hclaimed.keeps hs hprefix token, hpassed _ hprefix⟩
  obtain ⟨hok, hkeeps⟩ := @Registry.Ok.writeFailed r' r id made hclaimed.ok hclaimed.keeps hmade
    (if cascade = true then writtenRows (calls.take done)
      else (graph.runCalls token reached).store.storedRows id) withdrawn
  refine ⟨hok, hkeeps, ?_, hpassed _ hprefix⟩
  cases cascade with
  | false => exact h.rows_storeWriteFailed hclaimed hcks hs hprefix withdrawn
  | true =>
    refine h.rows_cascade hclaimed hcks hs hprefix withdrawn fun hpersisted c hc row hrow u hu hscope k hk => ?_
    have hwritten : c ∈ calls.take done → ∃ row' ∈ writtenRows (calls.take done),
        row'.binds u.label u.key = some k :=
      fun hc => ⟨row, mem_flatMap.mpr ⟨c, hc, hrow⟩, hk⟩
    rw [← hreached] at hc
    split at hc
    swap
    · exact .inr (hwritten hc)
    rename_i hfailed
    rw [take_add_one, mem_append, Option.mem_toList] at hc
    rcases hc with hc | hc
    · exact .inr (hwritten hc)
    · rw [hfailed, Option.map_some, Option.getD_some] at hdone
      exact hcounts rfl hpersisted done hfailed hdone c hc row hrow u hu hscope k hk

end Writes

namespace Primary

variable {cfg : GraphConfig} {reg : List UniqueConstraint} {p : Primary Value} {id : Nat}

/-- The check of a cascade. -/
theorem enforceUnique_cascade {d : Door Value} {rows : CascadeRows} (h : p.cascade cfg d = some (id, rows))
    (judge : Nat → UniqueCheck → Option UniqueError) :
    d.nodeID = some id ∧
      p.enforceUnique cfg reg judge d = enforceUniqueForCascade reg (judge id) cfg.door.core.axis rows := by
  unfold cascade at h
  split at h
  swap
  · cases h
  split at h
  swap
  · cases h
  rename_i wall y hcas hy
  cases h
  refine ⟨rfl, ?_⟩
  have hcur : (p.store.chainState p.clock (.node id)).current = some y.row := by
    show (p.store.nodes id).map (·.row) = some y.row
    rw [hy]
    rfl
  rw [enforceUnique, enforceUniqueChain]
  rw [hcas, hcur]

/-- A cascade on a node that is there. -/
theorem cascade_chain {ends : Option (Nat × Nat)} {ev : NodeEvent Value} {y : Stored Value}
    (hy : p.store.nodes id = some y)
    (hcas : (ev.cascadesAt (cfg.forEntity (.node id)) (p.store.chainState p.clock (.node id))).isSome = true) :
    ∃ rows, p.cascade cfg (.chain (.node id) ends ev) = some (id, rows) ∧
      rows.appended = appendedRows y.row (p.doorCalls cfg (.chain (.node id) ends ev)).2 := by
  obtain ⟨wall, hwall⟩ := Option.isSome_iff_exists.mp hcas
  unfold cascade
  dsimp only
  rw [hwall, hy]
  exact ⟨_, rfl, rfl⟩

end Primary

namespace ForeverGraph

variable {cfg : GraphConfig} {caps : TxCaps} {reg : List UniqueConstraint} {st : ForeverGraph}
  {old : Nat → List (Row Value)}

variable {cks : List UniqueCheck} {r' r₀ : Registry}

/-- The rows a cascade appends have values of the node, once its values are claimed. -/
theorem owns_appended {d : Door Value} {id : Nat} {rows : CascadeRows} {made : List UniqueCheck}
    (hcascade : st.graph.cascade cfg d = some (id, rows))
    (hcheck : st.graph.enforceUnique cfg reg (st.judge st.registry) d = .ok cks)
    (hclaimed : Registry.Claimed st.registry id cks r' made)
    (hcarries : st.carriesOwned cfg reg d = true) {row : Row Value} (hrow : row ∈ rows.appended) :
    Owns reg r'.mem id row := by
  rw [(Primary.enforceUnique_cascade hcascade _).2] at hcheck
  rw [carriesOwned, hcascade, Option.all_some, all_eq_true] at hcarries
  intro c hc hscope k hk
  rcases ownsOr_eq_true (hcarries row hrow) hc hscope hk with hown | hnamed
  · exact hclaimed.keeps _ _ _ _ hown
  · obtain ⟨row', hrow', hnamed⟩ := any_eq_true.mp hnamed
    rw [Bool.and_eq_true, beq_iff_eq, Bool.or_eq_true] at hnamed
    obtain ⟨ck, hck, hlabel, hkey, -, hval, hckscope, -, hnone⟩ := judged_of_enforceUniqueForCascade hcheck
      hrow' hc hnamed.1 (hnamed.2.imp_right fun h => ⟨h, hscope⟩)
    have hforever := hckscope.trans hscope
    rw [← hlabel, ← hkey, ← hval]
    exact hclaimed.owned ck hck hforever (st.mayOwn_judge st.registry id ck hnone hforever)

/-- **The calls of a checked door** write rows with values of the node. -/
theorem doorWrites {d : Door Value} {made : List UniqueCheck}
    (hs : st.graph.store.OwnedRows reg old st.registry.mem)
    (hcheck : st.graph.enforceUnique cfg reg (st.judge st.registry) d.newNode = .ok cks)
    (hclaimed : Registry.Claimed st.registry (d.newNode.nodeID.getD 0) cks r' made)
    (hcarries : st.carriesOwned cfg reg d.newNode = true) :
    DoorWrites reg st.registry r' (d.newNode.nodeID.getD 0) st.graph.store
      (st.graph.doorCalls cfg d.newNode).2 (st.graph.cascade cfg d.newNode).isSome := by
  have horder := Primary.historyThenSlot_doorCalls cfg st.graph d.newNode
  refine ⟨horder, fun c hc t b x ht hslot hok => ?_, fun c hc b x hkept => ?_⟩
  · obtain ⟨hid, hnodup, hjudged⟩ := Primary.judged_slot (fun id y hy => (hs.current id y hy).1) ht hcheck
      (horder.getLast?_of_slot hc hslot) hslot hok
    rw [hid, Option.getD_some] at hclaimed ⊢
    refine ⟨rfl, hnodup, hclaimed.owns (st.mayOwn_judge _ _) (fun p hp => ?_) hjudged⟩
    obtain ⟨y, hy, rfl⟩ := Option.map_eq_some_iff.mp hp
    exact (hs.current b y hy).2
  · obtain ⟨hid, y, hy, hrow⟩ := Primary.keptRow_doorCalls hc hkept
    have hcurrent := (hs.current b y hy).2
    rw [hid, Option.getD_some] at hclaimed ⊢
    rcases hrow with hsame | ⟨ends, ev, hd, hcas, hrow⟩
    · have how := hcurrent.sameContent hsame.1 hsame.2
      exact ⟨rfl, how.mono hclaimed.keeps, fun _ => how⟩
    · obtain ⟨rows, hcascade, happended⟩ := @Primary.cascade_chain cfg st.graph b ends ev y hy hcas
      rw [← hd] at hcascade happended
      rw [← happended] at hrow
      refine ⟨rfl, owns_appended hcascade hcheck hclaimed hcarries hrow, fun hno => ?_⟩
      rw [hcascade] at hno
      cases hno

/-- **A door** is sound, when the values its cascade carries are the node's and the row that a failed write
has stored counts. -/
theorem sound_runDoor {d : Door Value} {o : CallFault} {token : Nat} (hok : st.registry.Ok)
    (hs : st.graph.store.OwnedRows reg old st.registry.mem)
    (hcarries : st.carriesOwned cfg reg d.newNode = true)
    (hcounts : st.countsStored cfg reg token d.newNode o = true) :
    (st.runDoor cfg reg token d o).Sound reg old st.registry := by
  have hidle : ∀ graph : Primary Value, graph.store = st.graph.store →
      CallResult.Sound reg old st.registry ⟨graph, st.registry, [], true⟩ :=
    fun graph hstore => CallResult.sound_of_rows hok (.refl _) (hstore ▸ hs) (forall_mem_nil _)
  unfold runDoor
  split
  · exact hidle _ rfl
  rename_i cks hcheck
  have hcks : ∀ ck ∈ cks, ck.Keyed := fun ck hck =>
    have ⟨_, _, hchecked⟩ := Primary.checked_of_enforceUnique hcheck ck hck
    hchecked.raw
  have hclaiming := forall_mem_map.mpr
    (@Registry.Ok.sound_claimStates reg old _ _ (d.newNode.nodeID.getD 0) cks hok hs hcks)
  cases o with
  | refused => exact hidle _ rfl
  | claimFailed made withdrawn =>
    have hraw : ∀ ck ∈ cks.filter made, ck.Keyed :=
      fun ck hck => hcks ck (mem_filter.mp hck).1
    have hclaimed := @Registry.Ok.claimAll st.registry (d.newNode.nodeID.getD 0) _ hok hraw
    obtain ⟨hok', hkeeps⟩ := hclaimed.ok.writeFailed hclaimed.keeps (hclaimed.unowned hraw) _ withdrawn
    exact CallResult.sound_of_rows hok' hkeeps hs hclaiming
  | written failed withdrawn =>
    have hclaimed := @Registry.Ok.claimAll st.registry (d.newNode.nodeID.getD 0) _ hok hcks
    have hwrites := doorWrites hs hcheck hclaimed hcarries
    have hw := @DoorWrites.sound_writeRows reg old st.registry _ _
      { st.graph with clock := (st.graph.doorCalls cfg d.newNode).1 } _ _ cks _ token hwrites hclaimed hcks hs
      failed withdrawn fun hcascade hwithdrawn n hfailed haccepted c hc row hrow u hu hscope k hk => by
        obtain ⟨⟨b, rows⟩, hsome⟩ := Option.isSome_iff_exists.mp hcascade
        obtain ⟨hid, -⟩ := @Primary.enforceUnique_cascade cfg reg st.graph b _ _ hsome (st.judge st.registry)
        subst hwithdrawn hfailed
        rw [countsStored, hsome, Option.all_some] at hcounts
        dsimp only at hcounts
        rw [haccepted, bne_self_eq_false, Bool.false_or, hc, Option.all_some, all_eq_true] at hcounts
        rw [hid, Option.getD_some]
        refine (ownsOr_eq_true (hcounts row hrow) hu hscope hk).imp_right fun hany => ?_
        obtain ⟨row', hrow', heq⟩ := any_eq_true.mp hany
        exact ⟨row', hrow', beq_iff_eq.mp heq⟩
    exact hw.after_claims hclaiming

/-! ## The writes of a batch -/

/-- A create of a batch with the claims it has made, `r₀` before the batch and `r` after its claims. -/
structure HoldOk (reg : List UniqueConstraint) (r₀ r : Registry) (h : NodeCreate × List UniqueCheck) : Prop where
  create : OwnerGraph.CreateOk h.1
  made : r₀.Unowned h.2
  owns : ∀ row, slotRow h.1.calls = some row → Owns reg r.mem h.1.pending.id row

/-- The rows after the write of a batch. -/
theorem rows_putNodesBatch {P Q : Nat → Row Value → Prop} {p : Primary Value} {ns : List NodeCreate}
    (h : p.store.NodeRows P Q) (hns : ∀ n ∈ ns, OwnerGraph.CreateOk n ∧
      ∀ row, slotRow n.calls = some row → row.labels.Nodup → P n.pending.id row) (token : Nat) :
    ((p.putNodesBatch token ns).getD p).store.NodeRows P Q := by
  have hput : ∀ (ns : List NodeCreate) (p p' : Primary Value), p.store.NodeRows P Q →
      (∀ n ∈ ns, OwnerGraph.CreateOk n ∧
        ∀ row, slotRow n.calls = some row → row.labels.Nodup → P n.pending.id row) →
      p.putNodesBatch token ns = some p' → p'.store.NodeRows P Q := by
    intro ns
    induction ns with
    | nil =>
      intro p p' h _ hp
      cases hp
      exact h
    | cons n ns ih =>
      intro p p' h hns hp
      obtain ⟨q, hq, hp⟩ := Option.bind_eq_some_iff.mp hp
      refine ih q p' ?_ (fun m hm => hns m (mem_cons_of_mem _ hm)) hp
      obtain ⟨hcreate, hrow⟩ := hns n mem_cons_self
      unfold Primary.putNode at hq
      rcases hcreate with hnil | ⟨x, hcalls, hnodup⟩
      · rw [hnil] at hq
        cases hq
        exact h
      · rw [hcalls, foldlM_cons] at hq
        obtain ⟨q', hq', hq⟩ := Option.bind_eq_some_iff.mp hq
        cases hq
        obtain ⟨change, hcall⟩ := Primary.call_of_runCall hq'
        refine h.call hcall (fun b y hslot _ => ?_) (fun b y hkept => nomatch hkept)
        cases hslot
        exact hrow _ (by rw [hcalls]; rfl) hnodup
  cases hp : p.putNodesBatch token ns with
  | none => exact h
  | some p' => exact hput ns p p' h hns hp

/-- The withdrawals of a failed batch keep the owners from before it. -/
theorem keeps_withdrawHolds {r : Registry} (hok : r.Ok) (hkeeps : r₀.Keeps r)
    {hs : List (NodeCreate × List UniqueCheck)} (hmade : ∀ h ∈ hs, r₀.Unowned h.2)
    (written : Nat → List (Row Value)) (withdrawn : Nat → Bool) :
    (Registry.withdrawHolds written withdrawn hs r).Ok ∧
      r₀.Keeps (Registry.withdrawHolds written withdrawn hs r) := by
  induction hs generalizing r with
  | nil => exact ⟨hok, hkeeps⟩
  | cons h hs ih =>
    obtain ⟨hok', hkeeps'⟩ := hok.writeFailed hkeeps (hmade h mem_cons_self)
      (written h.1.pending.id) (withdrawn h.1.pending.id)
    exact ih hok' hkeeps' fun h' hh' => hmade h' (mem_cons_of_mem _ hh')

/-- They leave the stored rows their values. -/
theorem owns_withdrawHolds {r : Registry} (hok : r.Ok) (hkeeps : r₀.Keeps r)
    {hs : List (NodeCreate × List UniqueCheck)} (hmade : ∀ h ∈ hs, r₀.Unowned h.2) {s : Store Value}
    (hrows : ∀ b x, s.nodes b = some x → Owns reg r.mem b x.row) (withdrawn : Nat → Bool) :
    ∀ b x, s.nodes b = some x →
      Owns reg (Registry.withdrawHolds s.storedRows withdrawn hs r).mem b x.row := by
  induction hs generalizing r with
  | nil => exact hrows
  | cons h hs ih =>
    have hhead := hmade h mem_cons_self
    obtain ⟨hok', hkeeps'⟩ := hok.writeFailed hkeeps hhead
      (s.storedRows h.1.pending.id) (withdrawn h.1.pending.id)
    refine ih hok' hkeeps' (fun h' hh' => hmade h' (mem_cons_of_mem _ hh')) fun b x hx => ?_
    refine (hrows b x hx).writeFailed hok (fun ck hck => (hhead ck hck).1) (fun hself => ?_) _
    rw [← hself, Store.storedRows, hx]
    exact mem_cons_self

/-- **The write of a batch** is sound. -/
theorem sound_writeNodes {r : Registry} {graph : Primary Value} (hok : r.Ok) (hkeeps : r₀.Keeps r)
    (hs : graph.store.OwnedRows reg old r₀.mem)
    {holds : List (NodeCreate × List UniqueCheck)} (hholds : ∀ h ∈ holds, HoldOk reg r₀ r h)
    (token : Nat) (failed : Option (Nat → Bool)) (withdrawn : Nat → Bool) :
    (writeNodes token graph r holds failed withdrawn).Sound reg old r₀ := by
  have hnode : ∀ n ∈ holds.map (·.1), OwnerGraph.CreateOk n ∧
      ∀ row, slotRow n.calls = some row → row.labels.Nodup → CurrentOwned reg r.mem n.pending.id row :=
    forall_mem_map.mpr fun h hh =>
      ⟨(hholds h hh).create, fun row hrow hnodup => ⟨hnodup, (hholds h hh).owns row hrow⟩⟩
  have hput : ∀ ns, ns ⊆ holds.map (·.1) → ((graph.putNodesBatch token ns).getD graph).store.OwnedRows reg old r.mem :=
    fun ns hns => rows_putNodesBatch (hs.keeps hkeeps) (fun n hn => hnode n (hns hn)) token
  have hpassed : ∀ d ∈ (holds.map (·.1)).sublists.map fun ns =>
      (⟨r.durable, ((graph.putNodesBatch token ns).getD graph).store⟩ : Durable), d.Sound reg old :=
    forall_mem_map.mpr fun ns hns => hok.durable_sound (hput ns (mem_sublists.mp hns).subset)
  unfold writeNodes
  dsimp only
  split
  · rename_i graph' hgraph
    split at hgraph
    swap
    · cases hgraph
    have hrows := hput (holds.map (·.1)) fun _ hn => hn
    rw [hgraph] at hrows
    exact ⟨hok, hkeeps, hrows, hpassed⟩
  -- the failed write: the history is the one before, and the stored rows count
  have hstored := hput ((holds.map (·.1)).filter fun n => failed.any (· n.pending.id))
    filter_sublist.subset
  have hany : graph.store.NodeRows (fun _ _ => True) (HistoryOwned reg old r₀.mem) :=
    hs.mono (fun _ _ _ => trivial) fun _ _ hrow => hrow
  have hhistory := @rows_putNodesBatch _ _ graph ((holds.map (·.1)).filter fun n => failed.any (· n.pending.id))
    hany (fun n hn => ⟨(hnode n (mem_filter.mp hn).1).1, fun _ _ _ => trivial⟩) token
  generalize ((graph.putNodesBatch token
    ((holds.map (·.1)).filter fun n => failed.any (· n.pending.id))).getD graph) = graph' at hstored hhistory ⊢
  have hwithdraw : ∀ hs, hs ⊆ holds →
      (Registry.withdrawHolds graph'.store.storedRows withdrawn hs r).Ok ∧
        r₀.Keeps (Registry.withdrawHolds graph'.store.storedRows withdrawn hs r) ∧
        graph'.store.OwnedRows reg old (Registry.withdrawHolds graph'.store.storedRows withdrawn hs r).mem := by
    intro hs hsub
    have hmade : ∀ h ∈ hs, r₀.Unowned h.2 := fun h hh => (hholds h (hsub hh)).made
    obtain ⟨hok', hkeeps'⟩ := keeps_withdrawHolds hok hkeeps hmade graph'.store.storedRows withdrawn
    refine ⟨hok', hkeeps', fun b x hx => ⟨(hstored.current b x hx).1, ?_⟩,
      fun b x hx => (hhistory.history b x hx).keeps hkeeps'⟩
    exact owns_withdrawHolds hok hkeeps hmade (fun b x hx => (hstored.current b x hx).2) withdrawn b x hx
  obtain ⟨hok', hkeeps', hrows⟩ := hwithdraw holds fun _ hh => hh
  refine ⟨hok', hkeeps', hrows, forall_mem_append.mpr ⟨hpassed, forall_mem_map.mpr fun hs hhs => ?_⟩⟩
  obtain ⟨hok'', -, hrows'⟩ := hwithdraw hs ((mem_inits _ _).mp hhs).subset
  exact hok''.durable_sound hrows'

/-! ## The partition of a batch -/

/-- What holds while a batch is partitioned. -/
structure Parts (reg : List UniqueConstraint) (old : Nat → List (Row Value)) (st : ForeverGraph)
    (b : Partition) : Prop where
  ok : b.registry.Ok
  keeps : st.registry.Keeps b.registry
  passed : ∀ d ∈ b.passed, d.Sound reg old
  survivors : ∀ h ∈ b.survivors, HoldOk reg st.registry b.registry h

theorem HoldOk.keeps {r : Registry} {h : NodeCreate × List UniqueCheck} (hh : HoldOk reg r₀ r h)
    (hkeeps : r.Keeps r') : HoldOk reg r₀ r' h :=
  ⟨hh.create, hh.made, fun row hrow => (hh.owns row hrow).mono hkeeps⟩

theorem Parts.partitionNode {b : Partition} (h : Parts reg old st b)
    (hs : st.graph.store.OwnedRows reg old st.registry.mem)
    {n : NodeCreate} (hn : OwnerGraph.CreateOk n) (withdrawn : Nat → Bool) :
    Parts reg old st (st.partitionNode reg withdrawn b n) := by
  unfold ForeverGraph.partitionNode
  split
  · exact h
  rename_i row hrow
  dsimp only
  split
  · exact h
  rename_i cks hcheck
  have hcks : ∀ ck ∈ cks, ck.Keyed :=
    fun ck hck => (checked_of_enforceUniqueForNode hcheck ck hck).raw
  have hpassed : ∀ d ∈ b.passed ++ (b.registry.claimStates n.pending.id cks).map fun owners =>
      (⟨owners, st.graph.store⟩ : Durable), d.Sound reg old :=
    forall_mem_append.mpr ⟨h.passed,
      forall_mem_map.mpr (h.ok.sound_claimStates (hs.keeps h.keeps) hcks)⟩
  split
  · rename_i made _
    have hraw : ∀ ck ∈ cks.filter made, ck.Keyed :=
      fun ck hck => hcks ck (mem_filter.mp hck).1
    have hclaimed := @Registry.Ok.claimAll b.registry n.pending.id _ h.ok hraw
    obtain ⟨hok, hkeeps⟩ := hclaimed.ok.writeFailed hclaimed.keeps (hclaimed.unowned hraw)
      (st.graph.store.storedRows n.pending.id) (withdrawn n.pending.id)
    exact ⟨hok, h.keeps.trans hkeeps, forall_mem_append.mpr ⟨hpassed, forall_mem_singleton.mpr
      (hok.durable_sound (hs.keeps (h.keeps.trans hkeeps)))⟩, fun m hm => (h.survivors m hm).keeps hkeeps⟩
  · have hclaimed := @Registry.Ok.claimAll b.registry n.pending.id _ h.ok hcks
    refine ⟨hclaimed.ok, h.keeps.trans hclaimed.keeps, hpassed, forall_mem_append.mpr
      ⟨fun m hm => (h.survivors m hm).keeps hclaimed.keeps, forall_mem_singleton.mpr ?_⟩⟩
    · refine ⟨hn, (hclaimed.unowned hcks).of_keeps h.keeps, fun row' hrow' => ?_⟩
      rw [hrow, Option.some.injEq] at hrow'
      subst hrow'
      have hnew : ∀ p, (none : Option (Row Value)) = some p → Owns reg b.registry.mem n.pending.id p := nofun
      exact hclaimed.owns ((st.mayOwn_judge b.registry n.pending.id).seen b.seen) hnew
        (judged_of_enforceUniqueForNode hcheck)

theorem parts_partition (hok : st.registry.Ok)
    (hs : st.graph.store.OwnedRows reg old st.registry.mem)
    {creates : List NodeCreate} (hcreates : ∀ n ∈ creates, OwnerGraph.CreateOk n) (withdrawn : Nat → Bool) :
    Parts reg old st (st.partitionBatchNodesByUnique reg withdrawn creates) :=
  foldlRecOn creates _ ⟨hok, .refl _, forall_mem_nil _, forall_mem_nil _⟩
    fun _ h n hn => h.partitionNode hs (hcreates n hn) withdrawn

/-! ## All or nothing -/

/-- The values of a new row are all judged. -/
theorem unchanged_of_new {judge : UniqueCheck → Option UniqueError} {row : Row Value}
    (h : enforceUniqueForNode reg judge row none = .ok cks) : ∀ ck ∈ cks, ck.unchanged = false := by
  obtain ⟨rfl, -⟩ := judgeAll_ok h
  intro ck hck
  obtain ⟨label, -, hck⟩ := mem_flatMap.mp hck
  obtain ⟨c, -, hck⟩ := mem_filterMap.mp hck
  exact (uniqueCheckOf_eq_some hck).2.2.2.2.2

/-- The creates of `AddNodes` after their check: the values of each are values its node may own, no two
creates have one value, and every value of a row is among them. -/
structure NodesChecked (reg : List UniqueConstraint) (r : Registry)
    (ns : List (NodeCreate × List UniqueCheck)) : Prop where
  raw : ∀ n ∈ ns, ∀ ck ∈ n.2, ck.raw.uniqueKey = some ck.valueKey
  may : ∀ n ∈ ns, ∀ ck ∈ n.2, ck.scope = .forever →
    foreverOwner r.mem ck.label ck.key ck.valueKey = none ∨
      foreverOwner r.mem ck.label ck.key ck.valueKey = some n.1.pending.id
  apart : ns.Pairwise fun n m => ∀ ck ∈ n.2, ∀ ck' ∈ m.2, ck'.ownedValue ≠ ck.ownedValue
  rows : ∀ n ∈ ns, ∀ row, slotRow n.1.calls = some row → ∀ c ∈ reg, ∀ k,
    row.binds c.label c.key = some k → ∃ ck ∈ n.2, ck.label = c.label ∧ ck.key = c.key ∧ ck.valueKey = k ∧
      ck.scope = c.scope

theorem checked_enforceUniqueForNodes {seen : List (OwnedValue × Nat)} {ns : List NodeCreate}
    {checked : List (NodeCreate × List UniqueCheck)}
    (h : st.enforceUniqueForNodes reg seen ns = .ok checked) :
    NodesChecked reg st.registry checked ∧ (∀ n ∈ checked, n.1 ∈ ns) ∧
      ∀ n ∈ checked, ∀ ck ∈ n.2, ck.ownedValue ∉ seen.map (·.1) := by
  induction ns generalizing seen checked with
  | nil =>
    cases h
    exact ⟨⟨forall_mem_nil _, forall_mem_nil _, .nil, forall_mem_nil _⟩,
      forall_mem_nil _, forall_mem_nil _⟩
  | cons n ns ih =>
    unfold enforceUniqueForNodes at h
    split at h
    · obtain ⟨hchecked, hmem, hseen⟩ := ih h
      exact ⟨hchecked, fun m hm => mem_cons_of_mem _ (hmem m hm), hseen⟩
    rename_i row hrow
    split at h
    · cases h
    rename_i cks hcheck
    split at h
    · cases h
    rename_i rest hrest
    cases h
    obtain ⟨hchecked, hmem, hseen⟩ := ih hrest
    have hof := checked_of_enforceUniqueForNode hcheck
    have hnone : ∀ ck ∈ cks, seenJudge seen (st.judge st.registry n.pending.id) ck = none :=
      fun ck hck => (hof ck hck).judged (unchanged_of_new hcheck ck hck)
    have hmay := (st.mayOwn_judge st.registry n.pending.id).seen seen
    -- a later create sees the values of this one
    have hlater : ∀ m ∈ rest, ∀ ck ∈ m.2, ck.ownedValue ∉ seen.map (·.1) ∧
        ∀ ck' ∈ cks, ck.ownedValue ≠ ck'.ownedValue := by
      intro m hm ck hck
      have hnot := hseen m hm ck hck
      rw [map_append, mem_append, not_or] at hnot
      refine ⟨hnot.2, fun ck' hck' heq => hnot.1 (mem_map.mpr ?_)⟩
      exact ⟨(ck'.ownedValue, n.pending.id), mem_map.mpr ⟨ck', hck', rfl⟩, heq.symm⟩
    refine ⟨⟨forall_mem_cons.mpr ⟨fun ck hck => (hof ck hck).raw, hchecked.raw⟩,
      forall_mem_cons.mpr ⟨fun ck hck => hmay ck (hnone ck hck), hchecked.may⟩,
      pairwise_cons.mpr ⟨fun m hm ck hck ck' hck' => (hlater m hm ck' hck').2 ck hck, hchecked.apart⟩,
      forall_mem_cons.mpr ⟨fun row' hrow' c hc k hk => ?_, hchecked.rows⟩⟩,
      forall_mem_cons.mpr ⟨mem_cons_self, fun m hm => mem_cons_of_mem _ (hmem m hm)⟩,
      forall_mem_cons.mpr ⟨fun ck hck hmem' => ?_, fun m hm ck hck => (hlater m hm ck hck).1⟩⟩
    · rw [hrow, Option.some.injEq] at hrow'
      subst hrow'
      rcases judged_of_enforceUniqueForNode hcheck c hc k hk with
        ⟨p, hp, -⟩ | ⟨ck, hck, hlabel, hkey, -, hval, hscope, -⟩
      · cases hp
      · exact ⟨ck, hck, hlabel, hkey, hval, hscope⟩
    · have hfind := (Option.or_eq_none_iff.mp (hnone ck hck)).1
      rw [Option.map_eq_none_iff, find?_eq_none] at hfind
      obtain ⟨e, he, heq⟩ := mem_map.mp hmem'
      exact hfind e he (beq_iff_eq.mpr heq)

/-- **The claims of `AddNodes`**, also those of a pass that fails: the owners from before it stay, in every
registry on the way. -/
theorem claims_claimNodes {r : Registry} {ns : List (NodeCreate × List UniqueCheck)} (hok : r.Ok)
    (hkeeps : r₀.Keeps r) (hraw : ∀ n ∈ ns, ∀ ck ∈ n.2, ck.Keyed) :
    (Registry.claimNodes ns r).1.Ok ∧ r.Keeps (Registry.claimNodes ns r).1 ∧
      (∀ h ∈ (Registry.claimNodes ns r).2.1, r₀.Unowned h.2 ∧ ∃ n ∈ ns, h.1 = n.1) ∧
      ∀ owners ∈ (Registry.claimNodes ns r).2.2, ∀ s : Store Value,
        s.OwnedRows reg old r₀.mem →
          Durable.Sound reg old ⟨owners, s⟩ := by
  induction ns generalizing r with
  | nil => exact ⟨hok, .refl _, forall_mem_nil _, forall_mem_nil _⟩
  | cons n ns ih =>
    obtain ⟨hn, hraw⟩ := forall_mem_cons.mp hraw
    have hclaimed := @Registry.Ok.claimAll r n.1.pending.id _ hok hn
    obtain ⟨hok', hkeeps', hholds, hpassed⟩ := ih hclaimed.ok (hkeeps.trans hclaimed.keeps) hraw
    refine ⟨hok', Registry.Keeps.trans hclaimed.keeps hkeeps', forall_mem_cons.mpr
      ⟨⟨(hclaimed.unowned hn).of_keeps hkeeps, n, mem_cons_self, rfl⟩, fun h hh => ?_⟩,
      forall_mem_append.mpr ⟨fun owners ho s hs => ?_, hpassed⟩⟩
    · obtain ⟨hun, m, hm, heq⟩ := hholds h hh
      exact ⟨hun, m, mem_cons_of_mem _ hm, heq⟩
    · exact hok.sound_claimStates (hs.keeps hkeeps) hn owners ho

/-- The claims of checked creates give every value to its node. -/
theorem owned_claimNodes {r : Registry} {ns : List (NodeCreate × List UniqueCheck)} (hok : r.Ok)
    (h : NodesChecked reg r ns) : ∀ n ∈ ns, ∀ ck ∈ n.2, ck.scope = .forever →
      foreverOwner (Registry.claimNodes ns r).1.mem ck.label ck.key ck.valueKey = some n.1.pending.id := by
  induction ns generalizing r with
  | nil => exact nofun
  | cons n ns ih =>
    obtain ⟨hn, hrest⟩ := forall_mem_cons.mp h.raw
    obtain ⟨hfirst, hothers⟩ := pairwise_cons.mp h.apart
    have hclaimed := @Registry.Ok.claimAll r n.1.pending.id _ hok hn
    obtain ⟨-, hkeeps, -⟩ := @claims_claimNodes reg (fun _ => []) r _ ns hclaimed.ok hclaimed.keeps hrest
    have htail : NodesChecked reg (Registry.claimAll n.1.pending.id n.2 r).1 ns := by
      refine ⟨hrest, fun m hm ck hck hscope => ?_, hothers, (forall_mem_cons.mp h.rows).2⟩
      -- the value is none of those just claimed
      have hno : (n.2.any fun ck' => ck'.scope = .forever && ck'.isOf ck.label ck.key ck.valueKey) = false := by
        rw [any_eq_false]
        intro ck' hck' hof
        obtain ⟨hlabel, hkey, hval⟩ := of_decide_eq_true ((Bool.and_eq_true _ _).mp hof).2
        refine absurd ?_ (hfirst m hm ck' hck' ck hck)
        rw [UniqueCheck.ownedValue, UniqueCheck.ownedValue, hlabel, hkey, hval,
          ← (of_decide_eq_true (UniqueCheck.Keyed.isOf_self (hrest m hm ck hck))).2.2]
      rw [(hok.foreverOwner_claimAll hn).2, hno, if_neg Bool.false_ne_true, Option.or_none]
      exact h.may m (mem_cons_of_mem _ hm) ck hck hscope
    intro m hm ck hck hscope
    rcases mem_cons.mp hm with rfl | hm
    · exact hkeeps _ _ _ _ (hclaimed.owned ck hck hscope (h.may m mem_cons_self ck hck hscope))
    · exact ih hclaimed.ok htail m hm ck hck hscope

/-- **`GraphTx.AddNodes`** is sound. -/
theorem sound_addNodes (hok : st.registry.Ok)
    (hs : st.graph.store.OwnedRows reg old st.registry.mem)
    (pending : List PendingNode) (claimFailed : Option (Nat → UniqueCheck → Bool))
    (failed : Option (Nat → Bool)) (withdrawn : Nat → Bool) :
    (st.addNodes cfg reg pending claimFailed failed withdrawn).1.Sound reg old st.registry := by
  have hcreates := @OwnerGraph.createOk_addNodesCreates cfg st.graph pending
  unfold addNodes
  dsimp only
  generalize st.graph.addNodesCreates cfg pending = r at hcreates
  split
  · exact CallResult.sound_of_rows hok (.refl _) hs (forall_mem_nil _)
  rename_i checked hcheck
  have hcheck' : st.enforceUniqueForNodes reg [] r.2 = .ok checked := by
    split at hcheck
    · cases hres : st.enforceUniqueForNodes reg [] r.2 with
      | error e =>
        rw [hres] at hcheck
        cases hcheck
      | ok cs =>
        rw [hres] at hcheck
        cases hcheck
        rfl
    · cases hcheck
  obtain ⟨hchecked, hmem, -⟩ := checked_enforceUniqueForNodes hcheck'
  cases claimFailed with
  | some made =>
    have hraw : ∀ n ∈ checked.map fun n => (n.1, n.2.filter (made n.1.pending.id)), ∀ ck ∈ n.2, ck.Keyed :=
      forall_mem_map.mpr fun n hn ck hck => hchecked.raw n hn ck (mem_filter.mp hck).1
    obtain ⟨hok', hkeeps, hholds, hpassed⟩ := @claims_claimNodes reg old st.registry _ _ hok
      (.refl _) hraw
    have hwithdraw := fun hs (hsub : hs ⊆ _) => @keeps_withdrawHolds st.registry _ hok' hkeeps hs
      (fun h hh => (hholds h (hsub hh)).1) (fun _ => []) withdrawn
    obtain ⟨hok'', hkeeps''⟩ := hwithdraw _ fun _ hh => hh
    refine CallResult.sound_of_rows hok'' hkeeps'' hs (forall_mem_append.mpr
      ⟨forall_mem_map.mpr fun owners ho => hpassed owners ho _ hs,
        forall_mem_map.mpr fun hs' hhs' => ?_⟩)
    obtain ⟨hok₃, hkeeps₃⟩ := hwithdraw hs' ((mem_inits _ _).mp hhs').subset
    exact hok₃.durable_sound (hs.keeps hkeeps₃)
  | none =>
    obtain ⟨hok', hkeeps, hholds, hpassed⟩ := @claims_claimNodes reg old st.registry _ _ hok
      (.refl _) hchecked.raw
    have howned := owned_claimNodes hok hchecked
    have hw := @sound_writeNodes reg old st.registry _
      { st.graph with clock := r.1 } hok' hkeeps hs _ (fun h hh => by
        obtain ⟨hun, n, hn, heq⟩ := hholds h hh
        refine ⟨heq ▸ (hcreates _ (hmem n hn)).1, hun, fun row hrow c hc hscope k hk => ?_⟩
        obtain ⟨ck, hck, hlabel, hkey, hval, hckscope⟩ := hchecked.rows n hn row (heq ▸ hrow) c hc k hk
        rw [← hlabel, ← hkey, ← hval, heq]
        exact howned n hn ck hck (hckscope.trans hscope)) st.token failed withdrawn
    exact hw.after_claims (forall_mem_map.mpr fun owners ho => hpassed owners ho _ hs)

end ForeverGraph

end RhoTkg
