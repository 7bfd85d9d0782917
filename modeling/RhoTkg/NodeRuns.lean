import RhoTkg.DoorClock
import RhoTkg.Library.Runs

/-!
# Runs of a node and the chain stamp invariant

`NodeRun` is a node with the record of how its chain came about: the number of lives ended so far,
and the version and life of every stored row in the order they were written.  The record is for
proofs only, no door reads it.

`NodeRun.ChainStamps` is what the resolvers rely on: versions ascend in write order, no stamp of a row
precedes its `TxFrom`, a tombstone closes its life, and a later life is recorded after every stamp of
the earlier ones.  It holds in every state of a run whose calls are stamped past what is recorded
(`NodeRun.chainStamps_of_reachable`).  A run with a call that is not breaks it
(`NodeRun.cascade_behind_reimport`): a start in the future moves a delete ahead of the clock, the
re-import follows it, and the correction after them is stamped at the clock.
-/

namespace RhoTkg

open List

variable {V : Type}

/-- A node and how its chain came about. -/
structure NodeRun (V : Type) where
  node : NodeState V
  /-- The number of lives a delete ended. -/
  lives : Nat
  /-- The life and version of every row, in write order. -/
  log : List (Nat × Nat)

/-- The versions stored by the step from `st` to `st'`. -/
def NodeState.written (st st' : NodeState V) : List Nat :=
  (st'.rows.map Row.version).filter fun v => decide (v ∉ st.rows.map Row.version)

/-- The step of `NodeState`, recorded. -/
def NodeRun.step [DecidableEq V] (cfg : DoorConfig) (s : NodeRun V) (ev : NodeEvent V) : NodeRun V :=
  let node' := (s.node.step cfg ev).1
  { node := node'
    lives := if s.node.current.isSome && node'.current.isNone then s.lives + 1 else s.lives
    log := s.log ++ (s.node.written node').map fun v => (s.lives, v) }

/-- Nothing is stored, on a clock in any state a graph can have. -/
structure NodeRun.Init (s : NodeRun V) : Prop where
  clock : ClockOk s.node.clock
  history : s.node.history = []
  current : s.node.current = none
  lives : s.lives = 0
  log : s.log = []

/-- **The chain stamp invariant.** -/
structure NodeRun.ChainStamps (s : NodeRun V) : Prop where
  /-- Versions are distinct and ascend in write order. -/
  versions : (s.node.chain.map Row.version).Perm (s.log.map Prod.snd)
  ascending : (s.log.map Prod.snd).Pairwise (· < ·)
  /-- No row is superseded before it was recorded. -/
  txTo : ∀ r ∈ s.node.chain, r.txTo = 0 ∨ r.beliefTx ≤ r.txTo
  /-- A tombstone is stamped once, and no row of its life is recorded after it. -/
  tombstone : ∀ r ∈ s.node.chain, r.deletedAt ≠ 0 →
    r.deletedAt = r.txTo ∧ r.beliefTx ≤ r.txTo ∧
      ∀ l x, x ∈ s.node.chain → (l, r.version) ∈ s.log → (l, x.version) ∈ s.log →
        x.beliefTx ≤ r.deletedAt
  /-- A later life is recorded after every stamp of the earlier ones. -/
  lives : ∀ x ∈ s.node.chain, ∀ y ∈ s.node.chain, ∀ l l', (l, x.version) ∈ s.log →
    (l', y.version) ∈ s.log → l < l' →
      x.beliefTx < y.beliefTx ∧ x.txTo < y.beliefTx ∧ x.deletedAt < y.beliefTx

/-- The record agrees with the stamps: the log lists the rows in version order, and the life of a row
is the number of deletes stamped before it. -/
structure NodeRun.Recorded (s : NodeRun V) : Prop where
  ordered : s.node.Ordered
  log : s.log.map Prod.snd = s.node.rows.map Row.version
  life : ∀ r ∈ s.node.rows, ∀ l, (l, r.version) ∈ s.log → l = lifeOf (chainDeaths s.node.rows) r
  lives : s.lives = (chainDeaths s.node.rows).length

/-! ## The deletes of a chain -/

theorem chainDeaths_append (x y : List (Row V)) :
    chainDeaths (x ++ y) = chainDeaths x ++ chainDeaths y := by
  simp [chainDeaths]

variable {rows : List (Row V)}

theorem chainDeaths_congr {f : Row V → Row V} (h : ∀ r ∈ rows, (f r).deletedAt = r.deletedAt) :
    chainDeaths (rows.map f) = chainDeaths rows := by
  unfold chainDeaths
  rw [map_map]
  congr 1
  exact map_congr_left h

theorem chainDeaths_eq_nil (h : ∀ r ∈ rows, r.deletedAt = 0) : chainDeaths rows = [] := by
  unfold chainDeaths
  rw [filter_eq_nil_iff]
  intro d hd
  obtain ⟨r, hr, rfl⟩ := mem_map.mp hd
  simp [h r hr]

theorem mem_chainDeaths {d : Int} : d ∈ chainDeaths rows ↔ ∃ r ∈ rows, r.deletedAt = d ∧ d ≠ 0 := by
  simp only [chainDeaths, mem_filter, mem_map, decide_eq_true_eq]
  constructor
  · rintro ⟨⟨r, hr, rfl⟩, hd⟩
    exact ⟨r, hr, rfl, hd⟩
  · rintro ⟨r, hr, rfl, hd⟩
    exact ⟨⟨r, hr, rfl⟩, hd⟩

/-- A row recorded after every delete is of the newest life. -/
theorem lifeOf_of_past {deaths : List Int} {r : Row V} (h : ∀ d ∈ deaths, d < r.beliefTx) :
    lifeOf deaths r = deaths.length := by
  unfold lifeOf
  rw [countP_eq_length]
  intro d hd
  exact decide_eq_true (h d hd)

/-- The current row as the rows hold it: exchanging it touches no other row. -/
theorem NodeState.Distinct.rows_split {st : NodeState V} (h : st.Distinct) {cur : Row V}
    (hcur : st.current = some cur) (new : Row V) :
    ∃ before after, st.rows = before ++ cur :: after ∧
      st.rows.map (exchange cur new) = before ++ new :: after := by
  obtain ⟨before, after, hrows⟩ := append_of_mem
    ((NodeState.mem_rows_of_current h hcur).mpr (.inl rfl))
  have hsort := h.rows_sorted
  rw [hrows, Keyed.Sorted, pairwise_append, pairwise_cons] at hsort
  obtain ⟨-, ⟨hafter, -⟩, hbefore⟩ := hsort
  refine ⟨before, after, hrows, ?_⟩
  have hid : ∀ l : List (Row V), (∀ r ∈ l, r.version ≠ cur.version) →
      l.map (exchange cur new) = l := by
    intro l hl
    refine (map_congr_left fun r hr => ?_).trans (map_id l)
    exact if_neg (hl r hr)
  rw [hrows, map_append, map_cons, hid before, hid after]
  · simp [exchange]
  · exact fun r hr => (hafter r hr).ne'
  · exact fun r hr => (hbefore r hr cur mem_cons_self).ne

/-! ## The record of a run -/

section Recorded

variable {cfg : DoorConfig} {s : NodeRun V}

/-- The recorded step to `node'`. -/
def NodeRun.move (s : NodeRun V) (node' : NodeState V) : NodeRun V :=
  { node := node'
    lives := if s.node.current.isSome && node'.current.isNone then s.lives + 1 else s.lives
    log := s.log ++ (s.node.written node').map fun v => (s.lives, v) }

variable {st st' node' : NodeState V} {deaths : List Int} {x y : Row V}

theorem NodeState.written_of_versions {new : List Nat}
    (hrows : st'.rows.map Row.version = st.rows.map Row.version ++ new)
    (hnew : ∀ v ∈ new, v ∉ st.rows.map Row.version) : st.written st' = new := by
  unfold written
  rw [hrows, filter_append]
  have hold : (st.rows.map Row.version).filter (fun v => decide (v ∉ st.rows.map Row.version)) = [] :=
    filter_eq_nil_iff.mpr fun v hv => by simpa using hv
  have hall : new.filter (fun v => decide (v ∉ st.rows.map Row.version)) = new :=
    filter_eq_self.mpr fun v hv => decide_eq_true (hnew v hv)
  rw [hold, hall, nil_append]

/-- A step that stores no version keeps the log. -/
theorem NodeState.written_nil (hrows : st'.rows.map Row.version = st.rows.map Row.version) :
    st.written st' = [] :=
  written_of_versions (by rw [hrows, append_nil]) fun _ h => absurd h not_mem_nil

theorem NodeRun.Recorded.mem_log (h : s.Recorded) {r : Row V} {l : Nat}
    (hlog : (l, r.version) ∈ s.log) : ∃ x ∈ s.node.rows, x.version = r.version := by
  have hmem : r.version ∈ s.log.map Prod.snd := mem_map.mpr ⟨_, hlog, rfl⟩
  rw [h.log] at hmem
  exact mem_map.mp hmem

theorem NodeRun.Recorded.idle (h : s.Recorded) {clock' : Clock}
    (hord : ({ s.node with clock := clock' } : NodeState V).Ordered) :
    (s.move { s.node with clock := clock' }).Recorded := by
  have hwritten : s.node.written { s.node with clock := clock' } = [] := NodeState.written_nil rfl
  have hlog : (s.move { s.node with clock := clock' }).log = s.log := by
    simp [NodeRun.move, hwritten]
  have hlives : (s.move { s.node with clock := clock' }).lives = s.lives := by
    unfold NodeRun.move
    cases hcur : s.node.current <;> simp
  exact ⟨hord, by rw [hlog]; exact h.log, by rw [hlog]; exact h.life, by rw [hlives]; exact h.lives⟩

theorem NodeRun.Recorded.wroteAt (h : s.Recorded) {q : Int} {stamped : Row V → Row V}
    {new : List (Row V)} (hord : node'.Ordered) (hw : s.node.WroteAt node' q stamped new)
    (hpast : ∀ r ∈ s.node.rows, r.deletedAt < q) : (s.move node').Recorded := by
  have hkeep := fun r hr => hw.stamped_keeps (r := r) hr (h.ordered.stamped r hr)
  have hversions : node'.rows.map Row.version =
      s.node.rows.map Row.version ++ new.map Row.version := by
    rw [hw.rows, map_append, map_map]
    congr 1
    exact map_congr_left fun r hr => (hkeep r hr).1
  have hfresh : ∀ v ∈ new.map Row.version, v ∉ s.node.rows.map Row.version := by
    intro v hv hv'
    obtain ⟨n, hn, rfl⟩ := mem_map.mp hv
    obtain ⟨r, hr, heq⟩ := mem_map.mp hv'
    exact absurd heq (hw.above r hr n hn).ne
  have hdeaths : chainDeaths node'.rows = chainDeaths s.node.rows := by
    rw [hw.rows, chainDeaths_append, chainDeaths_congr fun r hr => (hkeep r hr).2.2,
      chainDeaths_eq_nil fun n hn => (hw.recorded n hn).deletedAt, append_nil]
  have hlives : (s.move node').lives = s.lives := by
    have hcur : (s.node.current.isSome && node'.current.isNone) = false := by
      rcases hw.current with ⟨heq, -⟩ | ⟨last, -, heq⟩
      · rw [heq]
        cases s.node.current <;> rfl
      · rw [heq]
        simp
    simp [NodeRun.move, hcur]
  have hlog : (s.move node').log = s.log ++ (new.map Row.version).map fun v => (s.lives, v) := by
    simp only [NodeRun.move, NodeState.written_of_versions hversions hfresh]
  refine ⟨hord, ?_, fun r (hr : r ∈ node'.rows) l hmem => ?_, ?_⟩
  · rw [hlog, map_append, h.log]
    show _ = node'.rows.map Row.version
    rw [hversions]
    simp
  · show l = lifeOf (chainDeaths node'.rows) r
    rw [hlog, mem_append] at hmem
    rw [hw.rows, mem_append, mem_map] at hr
    rw [hdeaths]
    rcases hr with ⟨x, hx, rfl⟩ | hr
    · obtain ⟨hver, hb, -⟩ := hkeep x hx
      rw [hver] at hmem
      rcases hmem with hmem | hmem
      · unfold lifeOf
        rw [hb]
        exact h.life x hx l hmem
      · -- a stored version is not written again
        obtain ⟨v, hv, heq⟩ := mem_map.mp hmem
        cases heq
        exact absurd (mem_map_of_mem hx) (hfresh _ hv)
    · rcases hmem with hmem | hmem
      · obtain ⟨x, hx, hver⟩ := h.mem_log hmem
        exact absurd hver (hw.above x hx r hr).ne
      · obtain ⟨v, -, heq⟩ := mem_map.mp hmem
        cases heq
        rw [h.lives, lifeOf_of_past]
        intro d hd
        obtain ⟨x, hx, rfl, -⟩ := mem_chainDeaths.mp hd
        rw [(hw.recorded r hr).beliefTx]
        exact hpast x hx
  · rw [hlives]
    exact hdeaths.symm ▸ h.lives

theorem NodeRun.Recorded.ended (h : s.Recorded) {cur tombstone : Row V} (hord : node'.Ordered)
    (hcur : s.node.current = some cur) (hcur' : node'.current = none)
    (hrows : node'.rows = s.node.rows.map (exchange cur tombstone))
    (hver : tombstone.version = cur.version) (hbelief : tombstone.beliefTx = cur.beliefTx)
    (hdead : tombstone.deletedAt ≠ 0)
    (hpast : ∀ r ∈ s.node.rows, r.beliefTx ≤ tombstone.deletedAt) : (s.move node').Recorded := by
  obtain ⟨before, after, hsplit, hsplit'⟩ := h.ordered.distinct.rows_split hcur tombstone
  rw [hsplit'] at hrows
  have hversions : node'.rows.map Row.version = s.node.rows.map Row.version := by
    rw [hrows, hsplit]
    simp [hver]
  have hlog : (s.move node').log = s.log := by
    simp [NodeRun.move, NodeState.written_nil hversions]
  have hlives : (s.move node').lives = s.lives + 1 := by
    simp [NodeRun.move, hcur, hcur']
  have hdeaths : chainDeaths s.node.rows = chainDeaths before ++ chainDeaths after := by
    have hlive : chainDeaths [cur] = [] := chainDeaths_eq_nil fun r hr => by
      rw [mem_singleton.mp hr]
      exact (h.ordered.live cur hcur).2.1
    rw [hsplit, chainDeaths_append, ← singleton_append, chainDeaths_append, hlive,
      nil_append]
  have hdeaths' : chainDeaths node'.rows =
      chainDeaths before ++ tombstone.deletedAt :: chainDeaths after := by
    have hone : chainDeaths [tombstone] = [tombstone.deletedAt] := by simp [chainDeaths, hdead]
    rw [hrows, chainDeaths_append, ← singleton_append, chainDeaths_append, hone,
      singleton_append]
  -- the new delete is not before any row, so every row keeps its life
  have hlife : ∀ r : Row V, r.beliefTx ≤ tombstone.deletedAt →
      lifeOf (chainDeaths node'.rows) r = lifeOf (chainDeaths s.node.rows) r := by
    intro r hr
    rw [hdeaths, hdeaths']
    unfold lifeOf
    rw [countP_append, countP_append, countP_cons_of_neg]
    simpa using hr
  refine ⟨hord, ?_, fun r (hr : r ∈ node'.rows) l hmem => ?_, ?_⟩
  · rw [hlog, h.log]
    exact hversions.symm
  · show l = lifeOf (chainDeaths node'.rows) r
    rw [hlog] at hmem
    obtain ⟨x, hx, hxver, hxb⟩ : ∃ x ∈ s.node.rows, x.version = r.version ∧
        x.beliefTx = r.beliefTx := by
      rw [hrows, mem_append, mem_cons] at hr
      rw [hsplit]
      rcases hr with hr | rfl | hr
      · exact ⟨r, mem_append_left _ hr, rfl, rfl⟩
      · exact ⟨cur, mem_append_right _ mem_cons_self, hver.symm, hbelief.symm⟩
      · exact ⟨r, mem_append_right _ (mem_cons_of_mem _ hr), rfl, rfl⟩
    rw [hlife r (hxb ▸ hpast x hx)]
    unfold lifeOf
    rw [← hxb]
    exact h.life x hx l (hxver.symm ▸ hmem)
  · show (s.move node').lives = (chainDeaths node'.rows).length
    rw [hlives, hdeaths', h.lives, hdeaths]
    simp only [length_append, length_cons]
    omega

/-- **The record stays in step with the stamps.** -/
theorem NodeRun.Recorded.move (h : s.Recorded) (hadv : s.node.Advance cfg node') :
    (s.move node').Recorded := by
  have hord := h.ordered.of_advance hadv
  cases hadv with
  | idle hclock hle => exact h.idle hord
  | wrote hw hclock hlast hpast hbound => exact h.wroteAt hord hw fun r hr => (hpast r hr).2.2
  | @ended cur at_ retract clock' hcur hclock hlast hpast =>
    have hmemc : cur ∈ s.node.rows :=
      (NodeState.mem_rows_of_current h.ordered.distinct hcur).mpr (.inl rfl)
    have hstamped := h.ordered.stamped cur hmemc
    obtain ⟨hb, -, hd⟩ := Row.tombstone_stamps hstamped cfg.core.axis at_ retract
    have hrows := (NodeState.rows_ended h.ordered.distinct hcur
      (rfl : (cur.tombstone cfg.core.axis at_ retract).version = cur.version) clock').2
    refine h.ended hord hcur rfl hrows rfl hb ?_ fun r hr => ?_
    · exact (hstamped.pos.trans_le (hpast cur hmemc).1).ne'
    · exact (hpast r hr).1

theorem NodeRun.Init.recorded (h : s.Init) : s.Recorded := by
  have hrows : s.node.rows = [] := by rw [NodeState.rows_of_none h.current, h.history]
  refine ⟨.start h.clock h.history h.current, ?_, ?_, ?_⟩
  · rw [h.log, hrows]
    rfl
  · rw [hrows]
    exact fun r hr => absurd hr not_mem_nil
  · rw [h.lives, hrows]
    rfl

/-! ## The chain stamp invariant -/

/-- Between rows of different lives lies a delete. -/
theorem exists_death_of_lifeOf_lt (h : lifeOf deaths x < lifeOf deaths y) :
    ∃ d ∈ deaths, x.beliefTx ≤ d ∧ d < y.beliefTx := by
  by_contra hcon
  refine absurd h (not_lt.mpr (countP_mono_left fun d hd hlt => ?_))
  simp only [decide_eq_true_eq] at hlt ⊢
  by_contra hge
  exact hcon ⟨d, hd, not_lt.mp hge, hlt⟩

/-- Rows recorded on the two sides of a delete are of different lives. -/
theorem lifeOf_lt_of_death {d : Int} (hd : d ∈ deaths) (hx : x.beliefTx ≤ d) (hy : d < y.beliefTx) :
    lifeOf deaths x < lifeOf deaths y := by
  unfold lifeOf
  induction deaths with
  | nil => exact absurd hd not_mem_nil
  | cons e deaths ih =>
    have hle := countP_mono_left (l := deaths) (p := fun d => decide (d < x.beliefTx))
      (q := fun d => decide (d < y.beliefTx)) fun z _ hz => by
        simp only [decide_eq_true_eq] at hz ⊢
        omega
    rcases mem_cons.mp hd with rfl | hd
    · rw [countP_cons_of_neg (by simpa using hx), countP_cons_of_pos (by simpa using hy)]
      omega
    · rw [countP_cons, countP_cons]
      split <;> split <;> simp_all <;> omega

/-- The record of a run gives the chain stamp invariant. -/
theorem NodeRun.Recorded.chainStamps (h : s.Recorded) : s.ChainStamps := by
  have hperm := h.ordered.distinct.rows_perm
  have hmem : ∀ {r}, r ∈ s.node.chain → r ∈ s.node.rows := fun hr => hperm.mem_iff.mpr hr
  refine ⟨?_, ?_, fun r hr => (h.ordered.stamped r (hmem hr)).txTo, fun r hr hdead => ?_,
    fun x hx y hy l l' hl hl' hlt => ?_⟩
  · rw [h.log]
    exact (hperm.map Row.version).symm
  · rw [h.log]
    exact pairwise_map.mpr h.ordered.distinct.rows_sorted
  · have hs := h.ordered.stamped r (hmem hr)
    have heq := hs.tombstone hdead
    have hle : r.beliefTx ≤ r.txTo := by
      rcases hs.txTo with h0 | hle
      · exact absurd (heq.trans h0) hdead
      · exact hle
    refine ⟨heq, hle, fun l x hx hlr hlx => ?_⟩
    by_contra hlt
    have hlife := lifeOf_lt_of_death (mem_chainDeaths.mpr ⟨r, hmem hr, rfl, hdead⟩)
      (heq.symm ▸ hle) (not_le.mp hlt)
    rw [← h.life r (hmem hr) l hlr, ← h.life x (hmem hx) l hlx] at hlife
    exact lt_irrefl l hlife
  · rw [h.life x (hmem hx) l hl, h.life y (hmem hy) l' hl'] at hlt
    obtain ⟨d, hd, hxd, hdy⟩ := exists_death_of_lifeOf_lt hlt
    obtain ⟨z, hz, rfl, hdead⟩ := mem_chainDeaths.mp hd
    obtain ⟨hb, ht, hdl⟩ := h.ordered.closed z hz hdead x (hmem hx) hxd
    exact ⟨hb.trans_lt hdy, ht.trans_lt hdy, hdl.trans_lt hdy⟩

variable [DecidableEq V]

/-- A recorded step of a call that is stamped past what is recorded, below the ceilings. -/
def NodeRun.NextForward (cfg : DoorConfig) (s : NodeRun V) (ev : NodeEvent V) (s' : NodeRun V) :
    Prop :=
  ev.StampsForward cfg s.node ∧ ev.BelowCeilings cfg s.node ∧ s' = s.step cfg ev

theorem NodeRun.recorded_of_reachable
    (h : Runs.Reachable NodeRun.Init (NodeRun.NextForward cfg) s) : s.Recorded := by
  refine h.invariant (fun s hs => hs.recorded) fun s ev s' _ hs hnext => ?_
  obtain ⟨hfwd, hceil, rfl⟩ := hnext
  exact hs.move (hs.ordered.advance hfwd hceil)

/-- **The chain stamp invariant holds in every run whose calls are stamped past what is
recorded.** -/
theorem NodeRun.chainStamps_of_reachable
    (h : Runs.Reachable NodeRun.Init (NodeRun.NextForward cfg) s) : s.ChainStamps :=
  (NodeRun.recorded_of_reachable h).chainStamps

end Recorded

/-! ## A run that keeps the order and one that does not -/

/-- A graph on the legacy axis. -/
def legacyGraph : DoorConfig := ⟨⟨.legacy, true, 0⟩, false, 8, 8, []⟩

/-- A node of a fresh graph. -/
def NodeRun.fresh : NodeRun Nat := ⟨⟨.fresh, [], none⟩, 0, []⟩

/-- The state after a list of calls. -/
def NodeRun.exec (cfg : DoorConfig) (s : NodeRun Nat) (evs : List (NodeEvent Nat)) : NodeRun Nat :=
  evs.foldl (NodeRun.step cfg) s

/-- A created node is corrected, updated, deleted, imported again and corrected. -/
def twoLives : List (NodeEvent Nat) :=
  [.add [1] [(1, 1)] (some 2) none 10, .setInterval 4 6 [(1, some 2)] 20,
    .update [(1, some 3)] none none false 30, .endNode ⟨false, false⟩ [] [40],
    .reimport [1] [(1, 4)] (some 50) none 50, .setInterval 60 70 [(1, some 5)] 60]

/-- Every call of `evs` from `s` on is stamped past what is recorded, below the ceilings. -/
def NodeRun.Forward (cfg : DoorConfig) : NodeRun Nat → List (NodeEvent Nat) → Prop
  | _, [] => True
  | s, ev :: evs =>
    (ev.StampsForward cfg s.node ∧ ev.BelowCeilings cfg s.node) ∧ Forward cfg (s.step cfg ev) evs

instance NodeRun.decidableForward (cfg : DoorConfig) :
    (s : NodeRun Nat) → (evs : List (NodeEvent Nat)) → Decidable (NodeRun.Forward cfg s evs)
  | _, [] => inferInstanceAs (Decidable True)
  | s, ev :: evs =>
    have := NodeRun.decidableForward cfg (s.step cfg ev) evs
    inferInstanceAs (Decidable (_ ∧ NodeRun.Forward cfg (s.step cfg ev) evs))

theorem NodeRun.reachable_of_forward {cfg : DoorConfig} {s : NodeRun Nat} {evs : List (NodeEvent Nat)}
    (hs : Runs.Reachable NodeRun.Init (NodeRun.NextForward cfg) s) (h : NodeRun.Forward cfg s evs) :
    Runs.Reachable NodeRun.Init (NodeRun.NextForward cfg) (s.exec cfg evs) := by
  induction evs generalizing s with
  | nil => exact hs
  | cons ev evs ih => exact ih (hs.step ⟨h.1.1, h.1.2, rfl⟩) h.2

theorem NodeRun.fresh_init : NodeRun.fresh.Init :=
  ⟨⟨by decide, by decide, by decide⟩, rfl, rfl, rfl, rfl⟩

theorem NodeRun.chainStamps_twoLives :
    (NodeRun.fresh.exec legacyGraph twoLives).ChainStamps :=
  NodeRun.chainStamps_of_reachable
    (NodeRun.reachable_of_forward (.start NodeRun.fresh_init) (by decide +kernel))

/-- A delete of a node that starts in the future is stamped ahead of the clock, the re-import after
it; the correction is stamped at the clock, before both. -/
def behindReimport : List (NodeEvent Nat) :=
  [.add [1] [(1, 1)] (some 8) none 1, .endNode ⟨false, false⟩ [] [2],
    .reimport [1] [(1, 2)] none none 3, .setInterval 20 30 [(1, some 3)] 4]

theorem NodeRun.cascade_behind_reimport :
    ¬ (NodeRun.fresh.exec legacyGraph behindReimport).ChainStamps := by
  intro h
  obtain ⟨x, hx, y, hy, hlx, hly, hle⟩ :
      ∃ x ∈ (NodeRun.fresh.exec legacyGraph behindReimport).node.chain,
      ∃ y ∈ (NodeRun.fresh.exec legacyGraph behindReimport).node.chain,
        (0, x.version) ∈ (NodeRun.fresh.exec legacyGraph behindReimport).log ∧
        (1, y.version) ∈ (NodeRun.fresh.exec legacyGraph behindReimport).log ∧
        y.beliefTx ≤ x.deletedAt := by decide +kernel
  exact absurd (h.lives x hx y hy 0 1 hlx hly Nat.zero_lt_one).2.2 (not_lt.mpr hle)

/-! ## The chain is append-only -/

/-- What a row says, without its temporal block. -/
def Row.content (r : Row V) : Nat × List Nat × List (Nat × V) := (r.version, r.labels, r.properties)

/-- The rows of `st'` extend those of `st`: no version is dropped, and none says anything else. -/
structure NodeState.Extends (st st' : NodeState V) : Prop where
  clock : ClockOk st'.clock
  distinct : st'.Distinct
  rows : st.rows.map Row.content <+: st'.rows.map Row.content

/-- The version after the current one is free. -/
abbrev NodeState.VersionRoom (st : NodeState V) : Prop :=
  ∀ cur ∈ st.current, cur.version < maxUint32 - 1 ∨ ∀ r ∈ st.history, r.version ≤ cur.version

variable [DecidableEq V] {cfg : DoorConfig} {st₀ st st' : NodeState V}

theorem NodeState.Extends.step (h : st₀.Extends st) (hroom : st.VersionRoom) (ev : NodeEvent V) :
    st₀.Extends (st.step cfg ev).1 := by
  have heff := NodeState.step_effect cfg (fun _ => h.clock) ev
  have hclock := heff.clockOk h.clock
  generalize (st.step cfg ev).1 = st' at heff hclock
  have hwrote {q f new} (hw : st.WroteAt st' q f new) : st₀.Extends st' := by
    refine ⟨hclock, hw.distinct, h.rows.trans ?_⟩
    rw [hw.rows, map_append, map_map, map_congr_left fun r hr => ?_]
    · exact prefix_append _ _
    · rcases hw.stamped_eq r hr with hr | ⟨-, hr⟩ <;> rw [Function.comp, hr]
      rfl
  cases heff with
  | idle => exact ⟨hclock, ⟨h.distinct.sorted, h.distinct.fresh⟩, h.rows⟩
  | created _ _ hcur hlife hrow _ hok => exact hwrote (.created h.distinct hcur hlife hrow hok)
  | superseded _ _ hcur hver hnew _ hok =>
    exact hwrote (.superseded h.distinct hcur hver (hroom _ hcur) hnew hok)
  | cascaded _ _ hc =>
    obtain ⟨-, f, hw, -⟩ := hc.wroteAt h.distinct
    exact hwrote hw
  | @ended spec _ _ cur clock' at_ _ hcur =>
    obtain ⟨hd, hrows⟩ := @rows_ended _ st cur h.distinct
      (cur.tombstone cfg.core.axis at_ (deleteRetracts cfg spec)) hcur rfl clock'
    refine ⟨hclock, hd, h.rows.trans ?_⟩
    rw [hrows, map_map, map_congr_left fun r hr => ?_]
    rw [Function.comp, exchange]
    split
    · rw [h.distinct.eq_current hcur hr ‹_›]
      rfl
    · rfl

/-- **The chain is append-only**: no run of node calls drops a version or changes what it says. -/
theorem NodeState.rows_append_only (hclock : ClockOk st.clock) (hd : st.Distinct)
    (h : Runs.Reachable (· = st)
      (Runs.Guarded (fun st ev => (step cfg st ev).1) fun st _ => st.VersionRoom) st') :
    st.Extends st' := by
  refine h.invariant ?_ ?_
  · rintro _ rfl
    exact ⟨hclock, hd, prefix_rfl⟩
  · rintro _ ev _ - hext ⟨hroom, rfl⟩
    exact hext.step hroom ev

theorem NodeState.rows_append_only_twoLives :
    let st := (NodeRun.fresh.exec legacyGraph (twoLives.take 3)).node
    st.Extends ((twoLives.drop 3).foldl (fun st ev => (step legacyGraph st ev).1) st) :=
  have h : (NodeRun.fresh.exec legacyGraph (twoLives.take 3)).Recorded :=
    NodeRun.recorded_of_reachable (NodeRun.reachable_of_forward (.start NodeRun.fresh_init) (by decide +kernel))
  rows_append_only h.ordered.clock h.ordered.distinct (.foldl (.start rfl) (by decide +kernel))

end RhoTkg
