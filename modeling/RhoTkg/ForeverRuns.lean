import RhoTkg.ForeverWrites

/-!
# `UniqueForever` ownership over whole runs

Three things break the ownership.  A cascade does not count the row of the write that failed, so when that
row was stored its value is free for another node (`stored_value_withdrawn`), where the doors of one row read
the stored row back.  A cascade stores values that its base rows carry without a check, and a base row from
before the constraint can carry a value of another node.  And the label turns of a rollback give a node's
labels back to a row that still has the values of the transaction.  In the runs in which none of the three
happens, every row stored since the activation has values of its own node only, in every durable state
(`forever_ownership`).
-/

namespace RhoTkg

open List

namespace ForeverGraph

variable {cfg : GraphConfig} {caps : TxCaps} {reg : List UniqueConstraint} {st : ForeverGraph}
  {old : Nat → List (Row Value)}

/-! ## One call -/

/-- The registry in memory is the durable one, and every row, in the store, in the undo log and in every
durable state a crash can go back to, has values of its node. -/
structure Inv (reg : List UniqueConstraint) (st : ForeverGraph) : Prop where
  ok : st.registry.Ok
  rows : st.graph.store.NodeRows (CurrentOwned reg st.registry.mem) (HistoryOwned reg st.old st.registry.mem)
  tx : ∀ tx, st.tx = some tx →
    tx.RowsOk (CurrentOwned reg st.registry.mem) (HistoryOwned reg st.old st.registry.mem)
  past : ∀ d ∈ st.past, d.Sound reg st.old

theorem Inv.txKeeps (h : Inv reg st) {r : Registry} (hkeeps : st.registry.Keeps r) {tx : GraphTx Value}
    (htx : st.tx = some tx) : tx.RowsOk (CurrentOwned reg r.mem) (HistoryOwned reg st.old r.mem) :=
  (h.tx tx htx).mono (fun _ _ hrow => hrow.keeps hkeeps) fun _ _ hrow => hrow.keeps hkeeps

/-- A sound call, with the undo log it leaves. -/
theorem Inv.after (h : Inv reg st) {w : CallResult} (hw : w.Sound reg st.old st.registry) (ids : List Nat)
    {tx : Option (GraphTx Value)} (htx : ∀ tx', tx = some tx' →
      tx'.RowsOk (CurrentOwned reg w.registry.mem) (HistoryOwned reg st.old w.registry.mem)) :
    Inv reg { st.after w ids with tx := tx } := by
  refine ⟨hw.ok, hw.rows, htx, fun d hd => ?_⟩
  rcases mem_append.mp hd with hd | hd
  · exact hw.passed d (mem_reverse.mp hd)
  · exact h.past d hd

theorem Inv.sound_durable (h : Inv reg st) : st.durable.Sound reg st.old := h.ok.durable_sound h.rows

/-- The label turns of a rollback. -/
theorem turnsOk_of_turnsOwned {s : Store Value} {r : Restore Value}
    (hs : s.NodeRows (CurrentOwned reg st.registry.mem) (HistoryOwned reg old st.registry.mem))
    (h : st.turnsOwned reg s r = true) :
    r.TurnsOk (CurrentOwned reg st.registry.mem) (HistoryOwned reg old st.registry.mem) s := by
  intro t id lop x y target ht hok htarget hy hx hlabels
  have hlive : ∃ z, t.nodes id = some z := by
    cases hz : t.nodes id with
    | none => exact nomatch hok.created hz
    | some z => exact ⟨z, rfl⟩
  obtain ⟨z, hz⟩ := hlive
  refine ⟨(hok.labels z hz (ht.current id z hz).1).1, fun c hc hscope k hk => ?_⟩
  rw [turnsOwned, htarget, Option.all_some] at h
  dsimp only at h
  rw [hy, Option.all_some] at h
  obtain ⟨hlabel, v, hv, hvk⟩ := binds_eq_some.mp hk
  have hprops : propertyValue y.row.properties c.key = some v := by
    rw [hx] at hv
    exact hv
  rcases hlabels c.label hlabel with hl | hl
  · exact (hs.current id y hy).2 c hc hscope k (binds_eq_some.mpr ⟨hl, v, hprops, hvk⟩)
  · have hbinds : ({ y.row with labels := target.row.labels } : Row Value).binds c.label c.key = some k :=
      binds_eq_some.mpr ⟨hl, v, hprops, hvk⟩
    exact (ownsOr_eq_true h hc hscope hbinds).resolve_right nofun

/-- The records of the creates of `AddNodes`. -/
theorem rowsOk_foldl_after {P Q : Nat → Row Value → Prop} {s s' : Store Value} (hs : s.NodeRows P Q)
    (ns : List NodeCreate) {tx : GraphTx Value} (h : tx.RowsOk P Q) :
    (ns.foldl (fun tx n => GraphTx.after caps s s' tx (n.pending.door n.wall)) tx).RowsOk P Q :=
  List.foldlRecOn ns _ h fun _ h _ _ => h.after hs _

/-- **One call** keeps the invariant. -/
theorem Inv.step (h : Inv reg st) {ev : ForeverEvent} (hok : st.keepsOwnership cfg caps reg ev = true) :
    Inv reg (st.step cfg caps reg ev) := by
  cases ev with
  | call d o =>
    rw [keepsOwnership, Bool.and_eq_true] at hok
    have hw := sound_runDoor h.ok h.rows hok.1 hok.2
    exact h.after hw _ fun tx htx => h.txKeeps hw.keeps htx
  | batch pending wall failed withdrawn =>
    rw [ForeverGraph.step]
    have hparts := parts_partition h.ok h.rows
      (fun n hn => (@OwnerGraph.createOk_executeCreates cfg st.graph wall pending n hn).1) withdrawn
    generalize st.partitionBatchNodesByUnique reg withdrawn (st.graph.executeCreates cfg wall pending) = b
      at hparts
    have hw := @sound_writeNodes reg st.old st.registry b.registry
      { st.graph with clock := (st.graph.clock.now wall.toInt).1 } hparts.ok hparts.keeps h.rows b.survivors
      hparts.survivors 0 failed withdrawn
    exact h.after (hw.after_claims hparts.passed) _ fun tx htx => h.txKeeps hw.keeps htx
  | beginTx wall =>
    rw [ForeverGraph.step]
    split
    · exact h
    · have hstore : (st.graph.step cfg (.beginTx wall)).store = st.graph.store := by
        rw [Primary.step]
        split <;> rfl
      refine ⟨h.ok, ?_, fun tx htx => ?_, h.past⟩
      · rw [hstore]
        exact h.rows
      · cases htx
        exact GraphTx.rowsOk_new
  | txCall c o =>
    rw [keepsOwnership, Bool.and_eq_true] at hok
    rw [ForeverGraph.step]
    split
    · exact h
    rename_i tx htx
    split
    swap
    · exact h
    have hw := sound_runDoor h.ok h.rows hok.1 hok.2
    have hrows := h.rows.keeps hw.keeps
    refine h.after hw _ fun tx' htx' => ?_
    cases htx'
    have hbefore := @GraphTx.RowsOk.before _ _ _ tx caps _ (h.txKeeps hw.keeps htx) cfg st.graph hrows
      ⟨c.door.newNode, c.head⟩
    split
    · exact hbefore
    · exact hbefore.after hrows _
  | txAddNodes pending claimFailed failed withdrawn =>
    rw [ForeverGraph.step]
    split
    · exact h
    rename_i tx htx
    have hw := @sound_addNodes cfg reg st st.old h.ok h.rows pending claimFailed failed withdrawn
    have hrows := h.rows.keeps hw.keeps
    refine h.after hw _ fun tx' htx' => ?_
    cases htx'
    exact rowsOk_foldl_after hrows _ (h.txKeeps hw.keeps htx)
  | commit =>
    rw [ForeverGraph.step]
    split
    · exact h
    · have hstore : (st.graph.step cfg .commit).store = st.graph.store := by
        rw [Primary.step]
        split <;> rfl
      refine ⟨h.ok, ?_, by rintro _ ⟨⟩, h.past⟩
      rw [hstore]
      exact h.rows
  | rollback faults =>
    rw [ForeverGraph.step]
    split
    · exact h
    rename_i tx htx
    rw [keepsOwnership, htx, Option.all_some] at hok
    obtain ⟨hend, hway⟩ := h.rows.runRestores (h.tx tx htx).restores
      (fun t r ht hturns => turnsOk_of_turnsOwned ht hturns) hok
    refine ⟨h.ok, hend, by rintro _ ⟨⟩, fun d hd => ?_⟩
    rcases mem_append.mp hd with hd | hd
    · obtain ⟨s, hs, rfl⟩ := mem_map.mp (mem_reverse.mp hd)
      exact h.ok.durable_sound (hway s hs)
    · exact h.past d hd
  | crash lost clock =>
    rw [ForeverGraph.step]
    have hall : ∀ d ∈ st.durable :: st.past, d.Sound reg st.old := by
      intro d hd
      rcases mem_cons.mp hd with rfl | hd
      · exact h.sound_durable
      · exact h.past d hd
    split
    · exact h
    rename_i d hd
    have hsound := hall d (mem_of_getElem? hd)
    exact ⟨hsound.ok, hsound.rows, by rintro _ ⟨⟩, fun e he => hall e (mem_of_mem_drop he)⟩

/-- A graph right after the activation of its constraints: no transaction is open, the nodes are known and
valid under the `UniqueForever` constraints, the registry is their seed, and `old` is the history. -/
structure Start (reg : List UniqueConstraint) (st : ForeverGraph) : Prop where
  tx : st.tx = none
  rows : NodesOk st.nodes
  known : ∀ id, st.nodes id ≠ none → id ∈ st.ids
  valid : ∀ c ∈ reg, c.scope = .forever → ValidExisting st.nodes c
  past : st.past = []
  old : ∀ id, st.old id = (st.graph.store.history (.node id)).map (·.row)
  seeded : ∃ r : Registry, r.Ok ∧ (∀ c ∈ reg, c.scope = .forever → ∀ k, r.mem (c.label, c.key, k) = none) ∧
    st.registry = seedForever st.nodes st.ids reg r

theorem Start.inv (h : Start reg st) : Inv reg st := by
  obtain ⟨r, hok, hfree, hseed⟩ := h.seeded
  have hseeded : Seeded st.nodes reg r := by
    refine ⟨hok, fun c hc hscope vk a ha => ?_⟩
    obtain ⟨k, -, hclaim⟩ := (foreverOwner_eq_some hok.oneWidth).mp ha
    exact nomatch (hfree c hc hscope k).symm.trans hclaim
  obtain ⟨hok', howns⟩ := hseeded.owns h.valid h.known
  rw [← hseed] at hok' howns
  refine ⟨hok', ⟨fun id x hx => ⟨(h.rows id x hx).nodup, howns id x hx⟩, fun id x hx => .inl ?_⟩,
    (fun tx htx => nomatch h.tx.symm.trans htx), fun d hd => ?_⟩
  · rw [h.old]
    exact mem_map.mpr ⟨x, hx, rfl⟩
  · rw [h.past] at hd
    cases hd

end ForeverGraph

/-- A row a node has stored since the activation. -/
inductive Store.StoredSince (old : Nat → List (Row Value)) (s : Store Value) (id : Nat) : Row Value → Prop
  | current {x : Stored Value} (hx : s.nodes id = some x) : StoredSince old s id x.row
  | history {x : Stored Value} (hx : x ∈ s.history (.node id)) (hnew : x.row ∉ old id) :
      StoredSince old s id x.row

/-- The ownership of a `UniqueForever` constraint in a durable state: the registry names the node of a stored
row as the owner of its value, and rows of different nodes have different values. -/
structure Durable.Exclusive (old : Nat → List (Row Value)) (c : UniqueConstraint) (d : Durable) : Prop where
  owned : ∀ id row v k, d.store.StoredSince old id row → c.label ∈ row.labels →
    propertyValue row.properties c.key = some v → v.uniqueKey = some k →
      foreverOwner d.owners c.label c.key k = some id
  apart : ∀ a b row row' v w, d.store.StoredSince old a row → d.store.StoredSince old b row' →
    c.label ∈ row.labels → c.label ∈ row'.labels → propertyValue row.properties c.key = some v →
      propertyValue row'.properties c.key = some w → v.Equal w → a = b

theorem Durable.Sound.exclusive {reg : List UniqueConstraint} {old : Nat → List (Row Value)} {d : Durable}
    (h : d.Sound reg old) {c : UniqueConstraint} (hc : c ∈ reg) (hscope : c.scope = .forever) :
    d.Exclusive old c := by
  have howns : ∀ id row, d.store.StoredSince old id row → Owns reg d.owners id row := by
    intro id row hrow
    cases hrow with
    | current hx => exact (h.rows.current id _ hx).2
    | history hx hnew => exact (h.rows.history id _ hx).resolve_left hnew
  refine ⟨fun id row v k hrow hlabel hv hk => ?_, fun a b row row' v w ha hb hla hlb hv hw heq => ?_⟩
  · exact howns id row hrow c hc hscope k (binds_eq_some.mpr ⟨hlabel, v, hv, hk⟩)
  · obtain ⟨k, hvk, hwk, -⟩ := heq.uniqueKey
    have hownA := howns a row ha c hc hscope k (binds_eq_some.mpr ⟨hla, v, hv, hvk⟩)
    have hownB := howns b row' hb c hc hscope k (binds_eq_some.mpr ⟨hlb, w, hw, hwk⟩)
    exact Option.some.inj (hownA.symm.trans hownB)

namespace ForeverGraph

variable {cfg : GraphConfig} {caps : TxCaps} {reg : List UniqueConstraint} {st : ForeverGraph}

/-- **Ownership is exclusive and permanent** in every run in which the values a cascade carries are its
node's, the row that a failed write of a cascade has stored counts, and the label turns of a rollback give no
node a value it does not own: the registry in memory is the durable one, and in the durable state, and in
every one a crash can go back to, each row stored since the activation has values that the registry gives to
its node, so that no two nodes have stored equal values. -/
theorem forever_ownership
    (h : Runs.Reachable (Start reg)
      (Runs.Guarded (ForeverGraph.step cfg caps reg) fun st ev => st.keepsOwnership cfg caps reg ev = true) st) :
    st.registry.durable = st.registry.mem ∧
      ∀ d ∈ st.durable :: st.past, ∀ c ∈ reg, c.scope = .forever → d.Exclusive st.old c := by
  have hinv : Inv reg st := h.invariant (fun _ hstart => hstart.inv)
    (fun _ _ _ _ hinv hstep => hstep.2 ▸ hinv.step hstep.1)
  refine ⟨hinv.ok.agree, fun d hd c hc hscope => ?_⟩
  rcases mem_cons.mp hd with rfl | hd
  · exact hinv.sound_durable.exclusive hc hscope
  · exact (hinv.past d hd).exclusive hc hscope

/-! ## Runs on fixed calls -/

/-- A constraint on label 1 and key 1. -/
def foreverConstraint : UniqueConstraint := ⟨1, 1, .forever⟩

/-- An empty graph with an empty registry. -/
def emptyForever : ForeverGraph := ⟨UniqueGraph.emptyGraph, ⟨fun _ => none, fun _ => none⟩, [], fun _ => []⟩

theorem start_emptyForever : Start [foreverConstraint] emptyForever := by
  refine ⟨rfl, (fun _ _ h => nomatch h), fun _ h => absurd rfl h, fun _ _ _ =>
    ⟨(fun _ _ _ _ _ _ h => nomatch h), (fun _ _ _ h => nomatch h)⟩, rfl, fun _ => rfl,
    ⟨fun _ => none, fun _ => none⟩,
    ⟨rfl, (fun _ _ _ _ h => nomatch h), (fun _ _ _ _ _ _ _ h => nomatch h)⟩,
    fun _ _ _ _ => rfl, rfl⟩

/-- Node 1 is created with the value 7 from 50 on; a correction gives it the value 8 on `[10, 20)`, whose row
write fails and has stored the row or not; then node 2 is created with the value 8. -/
def withdrawnRun (stored : Bool) : List ForeverEvent :=
  [.call (.chain (.node 1) none (.add [1] [(1, .int ⟨.int64, 7, .refl true⟩)] (some 50) none 1)) (.written none true),
    .call (.chain (.node 1) none (.setInterval 10 20 [(1, some (.int ⟨.int64, 8, .refl true⟩))] 2))
      (.written (some (0, stored)) true),
    .call (UniqueGraph.addNode 2 ⟨.int64, 8, .refl true⟩ 3) (.written none true)]

/-- The graph after a list of calls. -/
def runOf (evs : List ForeverEvent) : ForeverGraph :=
  evs.foldl (ForeverGraph.step Primary.legacyConfig ⟨true, true⟩ [foreverConstraint]) emptyForever

/-- A value of key 1 in the history of a node of label 1. -/
def pastValueOf (st : ForeverGraph) (id : Nat) : Option Value :=
  (st.graph.store.history (.node id)).findSome? fun x =>
    if x.row.labels.contains 1 then propertyValue x.row.properties 1 else none

theorem pastValueOf_eq_some {st : ForeverGraph} {id : Nat} {v : Value} (h : pastValueOf st id = some v) :
    ∃ x ∈ st.graph.store.history (.node id), 1 ∈ x.row.labels ∧ propertyValue x.row.properties 1 = some v := by
  obtain ⟨x, hx, h⟩ := exists_of_findSome?_eq_some h
  split at h
  · exact ⟨x, hx, contains_iff_mem.mp ‹_›, h⟩
  · cases h

/-- The row of the correction is stored, its claim is withdrawn, and node 2 takes the value. -/
theorem stored_value_withdrawn : ∃ st, Runs.Reachable (Start [foreverConstraint])
      (Runs.Guarded (ForeverGraph.step Primary.legacyConfig ⟨true, true⟩ [foreverConstraint])
        fun _ _ => True) st ∧
    ¬ st.durable.Exclusive st.old foreverConstraint := by
  refine ⟨runOf (withdrawnRun true), .foldl (.start start_emptyForever) ⟨trivial, trivial, trivial, trivial⟩,
    fun h => ?_⟩
  obtain ⟨x, hx, hlx, hvx⟩ := pastValueOf_eq_some (show pastValueOf (runOf (withdrawnRun true)) 1 =
    some (.int ⟨.int64, 8, rfl⟩) by decide +kernel)
  obtain ⟨y, hy, hly, hvy⟩ := UniqueGraph.valueOf_eq_some
    (show UniqueGraph.valueOf (runOf (withdrawnRun true)).toUniqueGraph 2 =
      some (.int ⟨.int64, 8, rfl⟩) by decide +kernel)
  have hnew : x.row ∉ (runOf (withdrawnRun true)).old 1 := not_mem_nil
  exact absurd (h.apart 1 2 _ _ _ _ (.history hx hnew) (.current hy) hlx hly hvx hvy rfl) (by decide)

/-- When the failed write has stored nothing, node 2 owns the value alone. -/
theorem forever_ownership_unstored :
    (runOf (withdrawnRun false)).durable.Exclusive (runOf (withdrawnRun false)).old foreverConstraint :=
  (forever_ownership (.foldl (.start start_emptyForever) (by decide +kernel))).2 _ mem_cons_self _
    mem_cons_self rfl

end ForeverGraph

end RhoTkg
