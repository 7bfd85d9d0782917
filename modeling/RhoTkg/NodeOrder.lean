import RhoTkg.NodeRows

/-!
# The order of a node's stamps

The stamps of a node follow the order of its writes only while every write is stamped past what is
already recorded.  A superseding write moves its instant past the current row's belief and a
re-import past every stamp of the chain, but a cascade is stamped at the clock as it is and a delete
past valid-time starts only.  `NodeEvent.StampsForward` names the calls whose instant is past the
recorded belief; `NodeState.Advance` is what such a call can do, and `NodeState.Ordered` is what it
keeps: the stamps ascend in version order, and every life lies between two deletes.
-/

namespace RhoTkg

open List

variable {V : Type}

/-! ## Stamps in order -/

/-- The stamps of one row are in order. -/
structure Row.Stamped (r : Row V) : Prop where
  pos : 0 < r.beliefTx
  txTo : r.txTo = 0 ∨ r.beliefTx ≤ r.txTo
  tombstone : r.deletedAt ≠ 0 → r.deletedAt = r.txTo

/-- All stamps of the row lie at or before `b`. -/
def Row.StampsLe (r : Row V) (b : Int) : Prop := r.beliefTx ≤ b ∧ r.txTo ≤ b ∧ r.deletedAt ≤ b

/-- The stamps of a node whose writes were all stamped past what was recorded. -/
structure NodeState.Ordered (st : NodeState V) : Prop where
  clock : ClockOk st.clock
  distinct : st.Distinct
  stamped : ∀ r ∈ st.rows, r.Stamped
  ascending : st.rows.Pairwise fun x y => x.beliefTx ≤ y.beliefTx
  closed : ∀ d ∈ st.rows, d.deletedAt ≠ 0 → ∀ r ∈ st.rows, r.beliefTx ≤ d.deletedAt →
    r.StampsLe d.deletedAt
  live : ∀ cur ∈ st.current, cur.txTo = 0 ∧ cur.deletedAt = 0 ∧
    ∀ r ∈ st.rows, r.deletedAt < cur.beliefTx
  bound : ∀ cur ∈ st.current, ∀ r ∈ st.rows, r.StampsLe (max cur.beliefTx st.clock.lastInstant)

section Ordered

variable {st st' : NodeState V}

variable {q : Int} {r : Row V} {new : List (Row V)} {stamped : Row V → Row V} {clock' : Clock}

theorem Row.RecordedAt.beliefTx (h : r.RecordedAt q) : r.beliefTx = q := by
  obtain ⟨tm, htm, hq, -, -⟩ := h
  simp [Row.beliefTx, htm, hq]

theorem Row.RecordedAt.txTo (h : r.RecordedAt q) : r.txTo = 0 := by
  obtain ⟨tm, htm, -, hto, -⟩ := h
  simp [Row.txTo, htm, hto]

theorem Row.RecordedAt.deletedAt (h : r.RecordedAt q) : r.deletedAt = 0 := by
  obtain ⟨tm, htm, -, -, hdel⟩ := h
  simp [Row.deletedAt, htm, hdel]

theorem Row.Stamped.temporal (h : r.Stamped) : ∃ tm, r.temporal = some tm := by
  have hpos := h.pos
  cases htm : r.temporal with
  | none => simp [Row.beliefTx, htm] at hpos
  | some tm => exact ⟨tm, rfl⟩

theorem Row.superseded_stamps (h : r.Stamped) (q : Int) :
    (r.superseded q).beliefTx = r.beliefTx ∧ (r.superseded q).txTo = q ∧
      (r.superseded q).deletedAt = r.deletedAt := by
  obtain ⟨tm, htm⟩ := h.temporal
  simp [Row.superseded, Row.block, Row.beliefTx, Row.txTo, Row.deletedAt, htm]

/-- A write keeps the version, the belief and the delete of every stored row. -/
theorem NodeState.WroteAt.stamped_keeps (hw : st.WroteAt st' q stamped new) (hr : r ∈ st.rows)
    (hs : r.Stamped) :
    (stamped r).version = r.version ∧ (stamped r).beliefTx = r.beliefTx ∧
      (stamped r).deletedAt = r.deletedAt := by
  rcases hw.stamped_eq r hr with heq | ⟨-, heq⟩
  · rw [heq]
    exact ⟨rfl, rfl, rfl⟩
  · obtain ⟨hb, -, hd⟩ := Row.superseded_stamps hs q
    rw [heq]
    exact ⟨rfl, hb, hd⟩

/-- An initial state: nothing is stored. -/
theorem NodeState.Ordered.start (hclock : ClockOk st.clock) (hhist : st.history = [])
    (hcur : st.current = none) : st.Ordered := by
  have hrows : st.rows = [] := by rw [NodeState.rows_of_none hcur, hhist]
  refine ⟨hclock, ⟨by rw [hhist]; exact Pairwise.nil, ?_⟩, ?_, by rw [hrows]; exact Pairwise.nil,
    ?_, ?_, ?_⟩
  all_goals simp [hrows, hcur]

/-- A step that leaves the rows alone. -/
theorem NodeState.Ordered.idle (h : st.Ordered) (hclock : ClockOk clock')
    (hle : st.clock.lastInstant ≤ clock'.lastInstant) :
    ({ st with clock := clock' } : NodeState V).Ordered := by
  refine ⟨hclock, ⟨h.distinct.sorted, h.distinct.fresh⟩, h.stamped, h.ascending, h.closed, h.live,
    fun cur hcur r hr => ?_⟩
  obtain ⟨hb, ht, hd⟩ := h.bound cur hcur r hr
  have hle' : max cur.beliefTx st.clock.lastInstant ≤ max cur.beliefTx clock'.lastInstant :=
    max_le_max_left _ hle
  exact ⟨hb.trans hle', ht.trans hle', hd.trans hle'⟩

/-- **A write past every recorded stamp keeps the order.** -/
theorem NodeState.Ordered.wroteAt (h : st.Ordered) (hw : st.WroteAt st' q stamped new)
    (hclock : ClockOk st'.clock) (hpos : 0 < q)
    (hpast : ∀ r ∈ st.rows, r.beliefTx < q ∧ r.txTo < q ∧ r.deletedAt < q)
    (hbound : q ≤ st'.clock.lastInstant ∨ ∃ last, new.getLast? = some last ∧ st'.current = some
      last) : st'.Ordered := by
  -- a stored row keeps its belief and its delete, and its close is at or before `q`
  have hkeep : ∀ r ∈ st.rows, (stamped r).beliefTx = r.beliefTx ∧
      (stamped r).deletedAt = r.deletedAt ∧
      (stamped r = r ∨ (st.current = some r ∧ (stamped r).txTo = q)) := by
    intro r hr
    rcases hw.stamped_eq r hr with heq | ⟨hcur, heq⟩
    · exact ⟨by rw [heq], by rw [heq], .inl heq⟩
    · obtain ⟨hb, ht, hd⟩ := Row.superseded_stamps (h.stamped r hr) q
      rw [heq]
      exact ⟨hb, hd, .inr ⟨hcur, ht⟩⟩
  have hmem : ∀ {r}, r ∈ st'.rows ↔ (∃ x ∈ st.rows, stamped x = r) ∨ r ∈ new := by
    intro r
    rw [hw.rows, mem_append, mem_map]
  have hle_q : ∀ r ∈ st'.rows, r.StampsLe q := by
    intro r hr
    rcases hmem.mp hr with ⟨x, hx, rfl⟩ | hr
    · obtain ⟨hb, hd, ht⟩ := hkeep x hx
      obtain ⟨hxb, hxt, hxd⟩ := hpast x hx
      refine ⟨by omega, ?_, by omega⟩
      rcases ht with heq | ⟨-, ht⟩
      · rw [heq]
        exact hxt.le
      · exact ht.le
    · have hrec := hw.recorded r hr
      exact ⟨hrec.beliefTx.le, by rw [hrec.txTo]; exact hpos.le, by rw [hrec.deletedAt]; exact hpos.le⟩
  have hdel_lt : ∀ r ∈ st'.rows, r.deletedAt < q := by
    intro r hr
    rcases hmem.mp hr with ⟨x, hx, rfl⟩ | hr
    · rw [(hkeep x hx).2.1]
      exact (hpast x hx).2.2
    · rw [(hw.recorded r hr).deletedAt]
      exact hpos
  refine ⟨hclock, hw.distinct, fun r hr => ?_, ?_, fun d hd hdead r hr hrd => ?_, fun cur hcur => ?_,
    fun cur hcur r hr => ?_⟩
  · rcases hmem.mp hr with ⟨x, hx, rfl⟩ | hr
    · obtain ⟨hb, hd, ht⟩ := hkeep x hx
      have hs := h.stamped x hx
      rcases ht with heq | ⟨hcur, ht⟩
      · rw [heq]
        exact hs
      · refine ⟨by rw [hb]; exact hs.pos, .inr ?_, fun hdead => absurd ?_ hdead⟩
        · rw [hb, ht]
          exact (hpast x hx).1.le
        · rw [hd]
          exact (h.live x hcur).2.1
    · have hrec := hw.recorded r hr
      exact ⟨by rw [hrec.beliefTx]; exact hpos, .inl hrec.txTo, fun hd => absurd hrec.deletedAt hd⟩
  · rw [hw.rows, pairwise_append]
    refine ⟨?_, ?_, ?_⟩
    · refine pairwise_map.mpr (h.ascending.imp_of_mem fun hx hy hxy => ?_)
      rwa [(hkeep _ hx).1, (hkeep _ hy).1]
    · refine Pairwise.imp_of_mem (fun hx hy _ => ?_) hw.sorted
      rw [(hw.recorded _ hx).beliefTx, (hw.recorded _ hy).beliefTx]
    · intro x hx y hy
      obtain ⟨z, hz, rfl⟩ := mem_map.mp hx
      rw [(hkeep z hz).1, (hw.recorded y hy).beliefTx]
      exact (hpast z hz).1.le
  · -- a tombstone was there before, and a row it closes was too
    rcases hmem.mp hd with ⟨y, hy, rfl⟩ | hd
    · rw [(hkeep y hy).2.1] at hdead hrd ⊢
      rcases hmem.mp hr with ⟨x, hx, rfl⟩ | hr
      · obtain ⟨hb, -, ht⟩ := hkeep x hx
        rw [hb] at hrd
        rcases ht with heq | ⟨hcur, -⟩
        · rw [heq]
          exact h.closed y hy hdead x hx hrd
        · exact absurd hrd (not_le.mpr ((h.live x hcur).2.2 y hy))
      · rw [(hw.recorded r hr).beliefTx] at hrd
        exact absurd hrd (not_le.mpr (hpast y hy).2.2)
    · exact absurd (hw.recorded d hd).deletedAt hdead
  · rcases hw.current with ⟨heq, hid⟩ | ⟨last, hlast, heq⟩
    · rw [heq] at hcur
      obtain ⟨ht, hd, hall⟩ := h.live cur hcur
      refine ⟨ht, hd, fun r hr => ?_⟩
      rcases hmem.mp hr with ⟨x, hx, rfl⟩ | hr
      · rw [hid x hx]
        exact hall x hx
      · rw [(hw.recorded r hr).deletedAt]
        have hmemc : cur ∈ st.rows :=
          (NodeState.mem_rows_of_current h.distinct hcur).mpr (.inl rfl)
        exact (h.stamped cur hmemc).pos
    · cases heq.symm.trans hcur
      have hrec := hw.recorded _ (mem_of_getLast? hlast)
      refine ⟨hrec.txTo, hrec.deletedAt, fun r hr => ?_⟩
      rw [hrec.beliefTx]
      exact hdel_lt r hr
  · have hq : q ≤ max cur.beliefTx st'.clock.lastInstant := by
      rcases hbound with hq | ⟨last, hlast, heq⟩
      · exact hq.trans (le_max_right _ _)
      · cases heq.symm.trans hcur
        rw [(hw.recorded _ (mem_of_getLast? hlast)).beliefTx]
        exact le_max_left _ _
    obtain ⟨hb, ht, hd⟩ := hle_q r hr
    exact ⟨hb.trans hq, ht.trans hq, hd.trans hq⟩

theorem Row.tombstone_stamps (h : r.Stamped) (a : ValidAxis) (at_ : Int) (retract : Bool) :
    (r.tombstone a at_ retract).beliefTx = r.beliefTx ∧ (r.tombstone a at_ retract).txTo = at_ ∧
      (r.tombstone a at_ retract).deletedAt = at_ := by
  obtain ⟨tm, htm⟩ := h.temporal
  have hpos := h.pos
  simp only [Row.beliefTx, htm, Option.map_some, Option.getD_some] at hpos
  simp [Row.tombstone, stampDeleteTombstone, Row.block, Row.beliefTx, Row.txTo, Row.deletedAt, htm,
    hpos.ne']

/-- **A delete at or past every recorded stamp keeps the order.** -/
theorem NodeState.Ordered.ended (h : st.Ordered) {cur : Row V} (hcur : st.current = some cur)
    {a : ValidAxis} {at_ : Int} {retract : Bool} (hclock : ClockOk clock')
    (hpast : ∀ r ∈ st.rows, r.StampsLe at_) :
    (⟨clock', putVersion st.history (cur.tombstone a at_ retract), none⟩ : NodeState V).Ordered := by
  have hmemc : cur ∈ st.rows := (NodeState.mem_rows_of_current h.distinct hcur).mpr (.inl rfl)
  have hscur := h.stamped cur hmemc
  obtain ⟨hb, ht, hd⟩ := Row.tombstone_stamps hscur a at_ retract
  obtain ⟨hdistinct, hrows⟩ := NodeState.rows_ended h.distinct hcur
    (rfl : (cur.tombstone a at_ retract).version = cur.version) clock'
  -- a stored row, or the tombstone in the current row's place
  have hex : ∀ r ∈ st.rows, (exchange cur (cur.tombstone a at_ retract) r).beliefTx = r.beliefTx ∧
      ((exchange cur (cur.tombstone a at_ retract) r = r ∧ r.version ≠ cur.version) ∨
        (r = cur ∧
          exchange cur (cur.tombstone a at_ retract) r = cur.tombstone a at_ retract)) := by
    intro r hr
    unfold exchange
    split
    · rename_i hver
      obtain rfl := h.distinct.eq_current hcur hr hver
      exact ⟨hb, .inr ⟨rfl, rfl⟩⟩
    · rename_i hver
      exact ⟨rfl, .inl ⟨rfl, hver⟩⟩
  refine ⟨hclock, hdistinct, fun r hr => ?_, ?_, fun d hd' hdead r hr hrd => ?_, ?_, ?_⟩
  · rw [hrows, mem_map] at hr
    obtain ⟨x, hx, rfl⟩ := hr
    rcases (hex x hx).2 with ⟨heq, -⟩ | ⟨rfl, heq⟩
    · rw [heq]
      exact h.stamped x hx
    · rw [heq]
      refine ⟨by rw [hb]; exact hscur.pos, .inr ?_, fun _ => by rw [ht, hd]⟩
      rw [hb, ht]
      exact (hpast _ hx).1
  · rw [hrows]
    refine pairwise_map.mpr (h.ascending.imp_of_mem fun hx hy hxy => ?_)
    rwa [(hex _ hx).1, (hex _ hy).1]
  · rw [hrows, mem_map] at hr hd'
    obtain ⟨x, hx, rfl⟩ := hr
    obtain ⟨y, hy, rfl⟩ := hd'
    rw [(hex x hx).1] at hrd
    rcases (hex y hy).2 with ⟨heqy, -⟩ | ⟨rfl, heqy⟩
    · rw [heqy] at hdead hrd ⊢
      rcases (hex x hx).2 with ⟨heqx, -⟩ | ⟨rfl, heqx⟩
      · rw [heqx]
        exact h.closed y hy hdead x hx hrd
      · exact absurd hrd (not_le.mpr ((h.live x hcur).2.2 y hy))
    · rw [heqy, hd]
      rcases (hex x hx).2 with ⟨heqx, -⟩ | ⟨rfl, heqx⟩
      · rw [heqx]
        exact hpast x hx
      · rw [heqx]
        exact ⟨by rw [hb]; exact (hpast _ hx).1, ht.le, hd.le⟩
  · intro cur' hmem
    cases hmem
  · intro cur' hmem
    cases hmem

end Ordered

/-! ## Calls stamped past what is recorded -/

/-- The clock is past the current row's belief when the call draws its instant. -/
def NodeState.ClockPast (st : NodeState V) (wall : Int) : Prop :=
  ∀ cur ∈ st.current, cur.beliefTx ≤ st.clock.lastInstant ∨ cur.beliefTx < wall

/-- The delete's instant, past the clock and past the starts of the rows it ends, is not before the
current row's belief. -/
def NodeState.DeletePast (cfg : DoorConfig) (st : NodeState V) (rels : List (Int64 × Int64))
    (wall : List Int64) : Prop :=
  ∀ cur ∈ st.current, cur.beliefTx ≤ st.clock.lastInstant + 1 ∨
    cur.beliefTx ≤ (wall.map Int64.toInt).headD 0 ∨
    cur.beliefTx ≤ cfg.core.nodeValidFrom cur + 1 ∨ ∃ r ∈ rels, cur.beliefTx ≤ r.1.toInt + 1

/-- The call is stamped past the recorded beliefs: a call of the cascade kernel when the clock is
past them, a delete when its instant is. -/
def NodeEvent.StampsForward (cfg : DoorConfig) (st : NodeState V) (ev : NodeEvent V) : Prop :=
  (∀ wall ∈ ev.cascadesAt cfg st, st.ClockPast wall) ∧
    ∀ d ∈ ev.deletion, st.DeletePast cfg d.1 d.2

/-- The call stays below the ceilings of stamps (`math.MaxInt64`) and versions
(`math.MaxUint32`). -/
def NodeEvent.BelowCeilings (cfg : DoorConfig) (st : NodeState V) (ev : NodeEvent V) : Prop :=
  maxStampOf st.history < maxInt64 ∧
    ∀ cur ∈ st.current, cur.beliefTx < maxInt64 ∧
      (cur.version < maxUint32 - 1 ∨ ∀ r ∈ st.history, r.version ≤ cur.version) ∧
      ∀ d ∈ ev.deletion, cfg.core.nodeValidFrom cur < maxInt64 ∧
        cur.validTo cfg.core.axis ≠ maxInt64 - 1 ∧
        ∀ r ∈ d.1, r.1.toInt < maxInt64 ∧ r.2.toInt ≠ maxInt64 - 1

instance (st : NodeState V) (wall : Int) : Decidable (st.ClockPast wall) :=
  inferInstanceAs (Decidable (∀ cur ∈ st.current, _ ∨ _))

instance (cfg : DoorConfig) (st : NodeState V) (rels : List (Int64 × Int64)) (wall : List Int64) :
    Decidable (st.DeletePast cfg rels wall) :=
  inferInstanceAs (Decidable (∀ cur ∈ st.current, _ ∨ _ ∨ _ ∨ ∃ r ∈ rels, _))

instance (cfg : DoorConfig) (st : NodeState V) (ev : NodeEvent V) :
    Decidable (ev.StampsForward cfg st) :=
  inferInstanceAs (Decidable (_ ∧ _))

instance (cfg : DoorConfig) (st : NodeState V) (ev : NodeEvent V) :
    Decidable (ev.BelowCeilings cfg st) :=
  -- The relations are searched as a list: pairs of 64-bit words also form a finite type.
  have (rels : List (Int64 × Int64)) :
      Decidable (∀ r ∈ rels, r.1.toInt < maxInt64 ∧ r.2.toInt ≠ maxInt64 - 1) :=
    decidableBAll _ rels
  inferInstanceAs (Decidable (_ ∧ ∀ cur ∈ st.current,
    _ ∧ (_ ∨ ∀ r ∈ st.history, _) ∧ ∀ d ∈ ev.deletion, _ ∧ _ ∧ ∀ r ∈ d.1, _ ∧ _))

section Step

variable {st : NodeState V} {cfg : DoorConfig}

theorem stampsLe_foldl_max (history : List (Row V)) (m : Int) :
    let top := history.foldl (fun m r => max (max (max m r.beliefTx) r.txTo) r.deletedAt) m
    m ≤ top ∧ ∀ r ∈ history, r.StampsLe top := by
  induction history generalizing m with
  | nil => exact ⟨le_rfl, fun r hr => absurd hr not_mem_nil⟩
  | cons x rest ih =>
    obtain ⟨hm, hall⟩ := ih (max (max (max m x.beliefTx) x.txTo) x.deletedAt)
    refine ⟨le_trans (by omega) hm, fun r hr => ?_⟩
    rcases mem_cons.mp hr with rfl | hr
    · exact ⟨le_trans (by omega) hm, le_trans (by omega) hm, le_trans (by omega) hm⟩
    · exact hall r hr

theorem stampsLe_maxStampOf (history : List (Row V)) :
    0 ≤ maxStampOf history ∧ ∀ r ∈ history, r.StampsLe (maxStampOf history) :=
  stampsLe_foldl_max history 0

variable {at_ : Int} {rels : List CascadedRel} {clock : Clock} {wall : List Int} {cur : Row V}

theorem foldl_validInstantAfter (hat : 0 ≤ at_) (hmax : at_ ≤ maxInt64)
    (hrels : ∀ r ∈ rels, r.start < maxInt64) :
    at_ ≤ rels.foldl (fun at_ r => validInstantAfter at_ r.start) at_ ∧
      (∀ r ∈ rels, r.start < rels.foldl (fun at_ r => validInstantAfter at_ r.start) at_) ∧
      rels.foldl (fun at_ r => validInstantAfter at_ r.start) at_ ≤ maxInt64 := by
  induction rels generalizing at_ with
  | nil => exact ⟨le_rfl, fun r hr => absurd hr not_mem_nil, hmax⟩
  | cons r rels ih =>
    have hr := hrels r mem_cons_self
    have heq := validInstantAfter_eq_max hat hr
    rw [foldl_cons, heq]
    obtain ⟨hle, hall, hmax'⟩ := ih (by omega : 0 ≤ max at_ (r.start + 1)) (by omega)
      fun x hx => hrels x (mem_cons_of_mem _ hx)
    refine ⟨by omega, fun x hx => ?_, hmax'⟩
    rcases mem_cons.mp hx with rfl | hx
    · omega
    · exact hall x hx

theorem clock_deleteInstantForNodeCascade (c : Core) (cur : Row V) (rels : List CascadedRel)
    (hclock : ClockOk clock) (hwall : ∀ w ∈ wall, w ≤ maxInt64) :
    ClockOk (c.deleteInstantForNodeCascade clock cur rels wall).1 ∧
      clock.lastInstant ≤ (c.deleteInstantForNodeCascade clock cur rels wall).1.lastInstant :=
  clock_deleteInstantClearOfCloses (hclock.deleteClock hwall _)

/-- The instant of a delete is past the clock and past the starts of the rows it ends. -/
theorem le_deleteInstantForNodeCascade {c : Core} (hclock : ClockOk clock)
    (hwall : ∀ w ∈ wall, w ≤ maxInt64) (hstart : c.nodeValidFrom cur < maxInt64)
    (hclose : ∀ tm ∈ cur.temporal, tm.validTo ≠ maxInt64 - 1)
    (hrels : ∀ r ∈ rels, r.start < maxInt64 ∧ r.validTo ≠ maxInt64 - 1) (base : Int)
    (hpos : 0 ≤ base)
    (hbase : base ≤ (clock.now (wall.headD 0)).2 ∨ base ≤ c.nodeValidFrom cur + 1 ∨ ∃ r ∈ rels,
      base ≤ r.start + 1) : base ≤ (c.deleteInstantForNodeCascade clock cur rels wall).2 := by
  have hlo := hclock.nonneg
  obtain ⟨hok, hle, heq, -⟩ := hclock.now (headD_le_max hwall)
  have hmax := hok.le_max
  have hinit := validInstantAfter_eq_max
    (by omega : 0 ≤ (clock.now (wall.headD 0)).2) hstart
  obtain ⟨hfold, hall, hfmax⟩ := foldl_validInstantAfter
    (by omega : 0 ≤ max (clock.now (wall.headD 0)).2 (c.nodeValidFrom cur + 1)) (by omega)
    fun r hr => (hrels r hr).1
  unfold Core.deleteInstantForNodeCascade
  dsimp only
  rw [hinit]
  refine (le_deleteInstantClearOfCloses (hclock.deleteClock hwall _) hpos ?_ hfmax ?_).1
  · rcases hbase with hbase | hbase | ⟨r, hr, hbase⟩
    · omega
    · omega
    · have := hall r hr
      omega
  · intro e he
    rcases mem_append.mp he with he | he
    · rw [Option.mem_toList, Option.map_eq_some_iff] at he
      obtain ⟨tm, htm, rfl⟩ := he
      exact hclose tm htm
    · obtain ⟨r, hr, rfl⟩ := mem_map.mp he
      exact (hrels r hr).2

/-- The instant of a delete is at or past every recorded stamp. -/
theorem NodeState.Ordered.delete_past (h : st.Ordered) (hcur : st.current = some cur)
    {spec : NodeState.TombstoneSpec} {rels : List (Int64 × Int64)} {wall : List Int64}
    (hex : st.clock.clockExhausted = false)
    (hev : NodeEvent.StampsForward cfg st (.endNode spec rels wall))
    (hceil : NodeEvent.BelowCeilings cfg st (.endNode spec rels wall)) {clock' : Clock}
    (hat : cfg.core.deleteInstantForNodeCascade st.clock cur (rels.map fun r => ⟨r.1.toInt,
      r.2.toInt⟩) (wall.map Int64.toInt) = (clock', at_)) :
    ClockOk clock' ∧ st.clock.lastInstant < at_ ∧ ∀ r ∈ st.rows, r.StampsLe at_ := by
  have hwall := toInt_le_max wall
  obtain ⟨-, -, hdel⟩ := hceil.2 cur hcur
  obtain ⟨hstart, hclose, hrels⟩ := hdel _ rfl
  have hclose' : ∀ tm ∈ cur.temporal, tm.validTo ≠ maxInt64 - 1 := by
    intro tm htm
    rw [Option.mem_def] at htm
    simpa [Row.validTo, htm] using hclose
  have hrels' : ∀ r ∈ rels.map fun r => (⟨r.1.toInt, r.2.toInt⟩ : CascadedRel),
      r.start < maxInt64 ∧ r.validTo ≠ maxInt64 - 1 := by
    intro r hr
    obtain ⟨x, hx, rfl⟩ := mem_map.mp hr
    exact hrels x hx
  have hbase := le_deleteInstantForNodeCascade h.clock hwall hstart hclose' hrels'
  have hclock := clock_deleteInstantForNodeCascade cfg.core cur
    (rels.map fun r => ⟨r.1.toInt, r.2.toInt⟩) h.clock hwall
  rw [hat] at hclock hbase
  have hlo := h.clock.nonneg
  have hnow := h.clock.lt_now hex (headD_le_max hwall)
  have hwall' := (h.clock.now (headD_le_max hwall)).2.2.2
  have hmemc : cur ∈ st.rows := (mem_rows_of_current h.distinct hcur).mpr (.inl rfl)
  have hlast := hbase (st.clock.lastInstant + 1) (by omega) (.inl (by omega))
  have hcurle : cur.beliefTx ≤ at_ := by
    refine hbase cur.beliefTx (h.stamped cur hmemc).pos.le ?_
    have hforward : st.DeletePast cfg rels wall := hev.2 _ rfl
    rcases hforward cur hcur with hle | hle | hle | ⟨x, hx, hle⟩
    · exact .inl (by omega)
    · exact .inl (by omega)
    · exact .inr (.inl hle)
    · exact .inr (.inr ⟨_, mem_map.mpr ⟨x, hx, rfl⟩, hle⟩)
  refine ⟨hclock.1, by dsimp only at hlast; omega, fun r hr => ?_⟩
  obtain ⟨hb, ht, hd⟩ := h.bound cur hcur r hr
  exact ⟨by omega, by omega, by omega⟩

variable [DecidableEq V] {ev : NodeEvent V}

/-- What a call stamped past the recorded stamps does: nothing, a write past every stamp, or a
delete at or past every stamp. -/
inductive NodeState.Advance (cfg : DoorConfig) (st : NodeState V) : NodeState V → Prop
  | idle {clock' : Clock} (hclock : ClockOk clock')
      (hle : st.clock.lastInstant ≤ clock'.lastInstant) : Advance cfg st { st with clock := clock' }
  | wrote {st' : NodeState V} {q : Int} {stamped : Row V → Row V} {new : List (Row V)}
      (hw : st.WroteAt st' q stamped new) (hclock : ClockOk st'.clock)
      (hlast : st.clock.lastInstant < q)
      (hpast : ∀ r ∈ st.rows, r.beliefTx < q ∧ r.txTo < q ∧ r.deletedAt < q)
      (hbound : q ≤ st'.clock.lastInstant ∨ ∃ last, new.getLast? = some last ∧ st'.current = some last) :
      Advance cfg st st'
  | ended {cur : Row V} {at_ : Int} {retract : Bool} {clock' : Clock}
      (hcur : st.current = some cur) (hclock : ClockOk clock') (hlast : st.clock.lastInstant < at_)
      (hpast : ∀ r ∈ st.rows, r.StampsLe at_) :
      Advance cfg st
        ⟨clock', putVersion st.history (cur.tombstone cfg.core.axis at_ retract), none⟩

theorem NodeState.Ordered.advance (h : st.Ordered) (hev : ev.StampsForward cfg st)
    (hceil : ev.BelowCeilings cfg st) : st.Advance cfg (st.step cfg ev).1 := by
  have heff := NodeState.step_effect cfg (fun _ => h.clock) ev
  generalize (st.step cfg ev).1 = st' at heff ⊢
  have hlo := h.clock.nonneg
  cases heff with
  | idle hclock hle => exact .idle (hclock h.clock) (hle h.clock)
  | created hex hwall hcur hlife hrow hvoid hok =>
    have hnow := h.clock.lt_now hex hwall
    obtain ⟨hstamp, hmax⟩ := stampsLe_maxStampOf st.history
    rw [validInstantAfter_eq_max (by omega) hceil.1] at hrow
    refine .wrote (.created h.distinct hcur hlife hrow hok) (h.clock.now hwall).1 (by omega)
      (fun r hr => ?_) (.inr ⟨_, rfl, rfl⟩)
    rw [rows_of_none hcur] at hr
    obtain ⟨hb, ht, hd⟩ := hmax r hr
    exact ⟨by omega, by omega, by omega⟩
  | @superseded _ wall cur new hex hwall hcur hver hnew hvoid hok =>
    have hnow := h.clock.lt_now hex hwall
    obtain ⟨hlt, hroom, -⟩ := hceil.2 cur hcur
    rw [validInstantAfter_eq_max (by omega) hlt] at hnew ⊢
    refine .wrote (.superseded h.distinct hcur hver hroom hnew hok) (h.clock.now hwall).1
      (by omega) (fun r hr => ?_) (.inr ⟨_, rfl, rfl⟩)
    obtain ⟨hb, ht, hd⟩ := h.bound cur hcur r hr
    exact ⟨by omega, by omega, by omega⟩
  | @cascaded _ wall newVF newVT patch mode prov lop cur rows sup first _ hwall hcasc hc =>
    have hnow := h.clock.lt_now hc.writable hwall
    obtain ⟨hok, hle, heq, hwall'⟩ := h.clock.now hwall
    obtain ⟨hclock, stamped, hw, -⟩ := hc.wroteAt h.distinct
    have hpast := hev.1 wall hcasc cur hc.live
    refine .wrote hw (by rw [hclock]; exact hok) (by omega) (fun r hr => ?_)
      (.inl (by rw [hclock]; exact heq.le))
    obtain ⟨hb, ht, hd⟩ := h.bound cur hc.live r hr
    exact ⟨by omega, by omega, by omega⟩
  | ended hex hcur hat hok =>
    obtain ⟨hclock, hlast, hpast⟩ := h.delete_past hcur hex hev hceil hat
    exact .ended hcur hclock hlast hpast

omit [DecidableEq V] in
/-- **A call stamped past what is recorded keeps the order.** -/
theorem NodeState.Ordered.of_advance (h : st.Ordered) {st' : NodeState V}
    (hadv : st.Advance cfg st') : st'.Ordered := by
  cases hadv with
  | idle hclock hle => exact h.idle hclock hle
  | wrote hw hclock hlast hpast hbound =>
    exact h.wroteAt hw hclock (h.clock.nonneg.trans_lt hlast) hpast hbound
  | ended hcur hclock hlast hpast => exact h.ended hcur hclock hpast

end Step

end RhoTkg
