import RhoTkg.Doors
import RhoTkg.ClockRuns

/-!
# One step of a node

The events of a node are the calls of its doors and `tick`, any other draw on the graph's clock.
`NodeState.Effect` says once what a step can do to the stored rows: nothing; a create; a
superseding write, which stamps the current row and appends one; a cascade, which appends rows; a
delete, which turns the current row into a tombstone (`NodeState.step_effect`).

`NodeState.rows` is the chain in version order.  Every write appends to it above the top version
(`Effect.rows`), so it is the order of the writes.
-/

namespace RhoTkg

variable {V : Type}

/-- The calls on a node.  `tick` is a draw on the clock by any other call of the graph. -/
inductive NodeEvent (V : Type) where
  | tick (wall : Int64)
  | add (labels : List Nat) (props : List (Nat × V)) (vf vt : Option Int64) (wall : Int64)
  | reimport (labels : List Nat) (props : List (Nat × V)) (vf vt : Option Int64) (wall : Int64)
  | update (patch : Patch V) (vf vt : Option (Option Int64)) (prov : Bool) (wall : Int64)
  | closeVersion (end_ wall : Int64)
  | replaceVersion (props : List (Nat × V)) (vf vt wall : Int64)
  | changeLabel (lop : LabelOp) (wall : Int64)
  | setInterval (vf vt : Int64) (patch : Patch V) (wall : Int64)
  | excise (vf vt wall : Int64)
  | endNode (spec : NodeState.TombstoneSpec) (rels : List (Int64 × Int64)) (wall : List Int64)

/-- The door an event calls. -/
def NodeState.step [DecidableEq V] (cfg : DoorConfig) (st : NodeState V) :
    NodeEvent V → DoorResult V
  | .tick wall => ({ st with clock := (st.clock.now wall.toInt).1 }, .ok ())
  | .add labels props vf vt wall =>
    st.addNode cfg labels props (vf.map Int64.toInt) (vt.map Int64.toInt) wall.toInt
  | .reimport labels props vf vt wall =>
    st.importNode cfg labels props (vf.map Int64.toInt) (vt.map Int64.toInt) wall.toInt
  | .update patch vf vt prov wall =>
    st.update cfg patch (vf.map (·.map Int64.toInt)) (vt.map (·.map Int64.toInt)) prov wall.toInt
  | .closeVersion end_ wall => st.closeVersion cfg end_.toInt wall.toInt
  | .replaceVersion props vf vt wall => st.replaceVersion cfg props vf.toInt vt.toInt wall.toInt
  | .changeLabel lop wall => st.changeLabel cfg lop wall.toInt
  | .setInterval vf vt patch wall =>
    st.setNodeVersionInterval cfg vf.toInt vt.toInt patch wall.toInt
  | .excise vf vt wall => st.exciseNodeValidity cfg vf.toInt vt.toInt wall.toInt
  | .endNode spec rels wall =>
    st.endNode cfg spec (rels.map fun r => ⟨r.1.toInt, r.2.toInt⟩) (wall.map Int64.toInt)

/-! ## The rows in version order -/

/-- The chain in version order. -/
def NodeState.rows (st : NodeState V) : List (Row V) :=
  match st.current with
  | none => st.history
  | some current => putVersion st.history current

/-! ## The clock of a writing graph -/

/-- The clock is at or above 0, and at the ceiling only when it is marked exhausted. -/
structure ClockOk (c : Clock) : Prop where
  nonneg : 0 ≤ c.lastInstant
  le_max : c.lastInstant ≤ maxInt64
  ceiling : c.lastInstant = maxInt64 → c.clockExhausted = true

variable {c : Clock} {wall : Int}

theorem ClockOk.now (h : ClockOk c) (hwall : wall ≤ maxInt64) :
    ClockOk (c.now wall).1 ∧ c.lastInstant ≤ (c.now wall).1.lastInstant ∧
      (c.now wall).2 = (c.now wall).1.lastInstant ∧ wall ≤ (c.now wall).2 := by
  have hlo := h.nonneg
  have hrange : InRange c.lastInstant := ⟨by simp only [minInt64]; omega, h.le_max⟩
  have hex := c.now_clockExhausted wall
  have hwall' : wall ≤ (c.now wall).2 := by
    by_cases hle : wall ≤ c.lastInstant
    · rcases c.now_cases hrange hwall with ⟨hlt, -⟩ | ⟨-, heq, -⟩
      · omega
      · rwa [heq]
    · simp [Clock.now, hle, Clock.handOut]
  rcases c.now_cases hrange hwall with ⟨hlt, hle, heq⟩ | ⟨hmax, heq, heq'⟩
  · refine ⟨⟨by omega, by omega, fun hm => ?_⟩, by omega, heq.symm, hwall'⟩
    rw [hex, ← heq, hm]
    simp
  · refine ⟨⟨by omega, by omega, fun _ => ?_⟩, by omega, by omega, hwall'⟩
    rw [hex, heq]
    simp

/-- A graph that is not exhausted hands out an instant above every earlier one. -/
theorem ClockOk.lt_now (h : ClockOk c) (hex : c.clockExhausted = false) (hwall : wall ≤ maxInt64) :
    c.lastInstant < (c.now wall).2 := by
  have hlo := h.nonneg
  rcases c.now_cases ⟨by simp only [minInt64]; omega, h.le_max⟩ hwall with ⟨hlt, -⟩ | ⟨hmax, -⟩
  · exact hlt
  · rw [h.ceiling hmax] at hex
    cases hex

/-! ## What a step can do -/

/-- A row recorded at `tx` and neither superseded nor ended. -/
def Row.RecordedAt (r : Row V) (tx : Int) : Prop :=
  ∃ tm, r.temporal = some tm ∧ tm.txFrom = tx ∧ tm.txTo = 0 ∧ tm.deletedAt = 0

/-- The wall reading of a call the cascade kernel serves: a correction, an excise, or an untimed
update or label change of a literal-axis node. -/
def NodeEvent.cascadesAt (cfg : DoorConfig) (st : NodeState V) : NodeEvent V → Option Int
  | .setInterval _ _ _ wall => some wall.toInt
  | .excise _ _ wall => some wall.toInt
  | .update _ vf vt _ wall =>
    match extractTemporalTracked cfg.core.axis (vf.map (·.map Int64.toInt))
        (vt.map (·.map Int64.toInt)) with
    | .ok tmp => if NodeState.wholeAxisUntimedUpdate cfg tmp then some wall.toInt else none
    | .error _ => none
  | .changeLabel _ wall =>
    if cfg.core.axis = .literal ∧ st.current.any (!st.nodeWholeAxis cfg ·) = true then
      some wall.toInt
    else none
  | _ => none

/-- The relationships and wall readings of a delete. -/
def NodeEvent.deletion : NodeEvent V → Option (List (Int64 × Int64) × List Int64)
  | .endNode _ rels wall => some (rels, wall)
  | _ => none

/-- One cascade: the kernel's plan, the rows it built, and the write. -/
structure NodeState.IsCascade [DecidableEq V] (cfg : DoorConfig) (st : NodeState V) (wall : Int)
    (newVF newVT : Int) (patch : Patch V) (mode : CascadeMode) (prov : Bool) (lop : Option LabelOp)
    (current : Row V) (rows : List (Appended V)) (sup : WholeAxisSupersession) (first : Nat)
    (st' : NodeState V) : Prop where
  writable : st.clock.clockExhausted = false
  live : st.current = some current
  claimed : cfg.core.axis.claimed newVF = true
  ordered : cfg.core.axis.isOpen newVT = true ∨ newVF < newVT
  version : nextEntityVersion (topVersion st.history current) = .ok first
  built : cascadeRows cfg (cfg.core.planMiss st.history current newVF newVT (mode != .correction))
    current newVT patch mode prov lop (st.clock.now wall).2 = .ok (rows, sup)
  nonempty : rows ≠ []
  written : writeCascade cfg { st with clock := (st.clock.now wall).1 } current rows sup first mode
    lop (st.clock.now wall).2 = .ok st'

/-- What a step does to the stored node. -/
inductive NodeState.Effect [DecidableEq V] (cfg : DoorConfig) (st : NodeState V) :
    NodeEvent V → NodeState V → Prop
  | idle {ev : NodeEvent V} {clock' : Clock} (hclock : ClockOk st.clock → ClockOk clock')
      (hle : ClockOk st.clock → st.clock.lastInstant ≤ clock'.lastInstant) :
      Effect cfg st ev { st with clock := clock' }
  | created {ev : NodeEvent V} {wall : Int} {row : Row V}
      (hex : st.clock.clockExhausted = false) (hwall : wall ≤ maxInt64)
      (hcur : st.current = none)
      (hlife : lifeStartOf st.history = .ok ⟨row.version, maxStampOf st.history⟩)
      (hrow : row.RecordedAt (validInstantAfter (st.clock.now wall).2 (maxStampOf st.history)))
      (hvoid : row.isVoid = false) (hok : storable row = true) :
      Effect cfg st ev ⟨(st.clock.now wall).1, st.history, some row⟩
  | superseded {ev : NodeEvent V} {wall : Int} {current new : Row V}
      (hex : st.clock.clockExhausted = false) (hwall : wall ≤ maxInt64)
      (hcur : st.current = some current)
      (hver : nextNodeVersion st.history current = .ok new.version)
      (hnew : new.RecordedAt (validInstantAfter (st.clock.now wall).2 current.beliefTx))
      (hvoid : new.isVoid = false) (hok : storable new = true) :
      Effect cfg st ev ⟨(st.clock.now wall).1,
        putVersion st.history
          (current.superseded (validInstantAfter (st.clock.now wall).2 current.beliefTx)),
        some new⟩
  | cascaded {ev : NodeEvent V} {wall newVF newVT : Int} {patch : Patch V} {mode : CascadeMode}
      {prov : Bool} {lop : Option LabelOp} {current : Row V} {rows : List (Appended V)}
      {sup : WholeAxisSupersession} {first : Nat} {st' : NodeState V} (hwall : wall ≤ maxInt64)
      (hev : ev.cascadesAt cfg st = some wall)
      (h : st.IsCascade cfg wall newVF newVT patch mode prov lop current rows sup first st') :
      Effect cfg st ev st'
  | ended {spec : NodeState.TombstoneSpec} {rels : List (Int64 × Int64)} {wall : List Int64}
      {current : Row V} {clock' : Clock} {at_ : Int} (hex : st.clock.clockExhausted = false)
      (hcur : st.current = some current)
      (hat : cfg.core.deleteInstantForNodeCascade st.clock current
        (rels.map fun r => ⟨r.1.toInt, r.2.toInt⟩) (wall.map Int64.toInt) = (clock', at_))
      (hok : storable
        (current.tombstone cfg.core.axis at_ (NodeState.deleteRetracts cfg spec)) = true) :
      Effect cfg st (.endNode spec rels wall) ⟨clock', putVersion st.history
        (current.tombstone cfg.core.axis at_ (NodeState.deleteRetracts cfg spec)), none⟩

section Effect

variable {cfg : DoorConfig} {st : NodeState V} {ev : NodeEvent V}
  {wall at_ last base : Int} {patch : Patch V} {prov : Bool} {current new row : Row V}
  {clock : Clock} {tm : TemporalMetadata} {labels : List Nat} {props : List (Nat × V)}
  {vf vt : Option Int} {s : Clock × Int × List Int × Bool} {ends : List Int} {fuel : Nat}

theorem NodeState.checkWritable_ok (h : st.checkWritable = .ok ()) :
    st.clock.clockExhausted = false := by
  unfold checkWritable at h
  split at h
  · cases h
  · rename_i hex
    exact Bool.not_eq_true _ ▸ hex

theorem NodeState.replaceWithHistory_current {now : Int}
    (h : (st.replaceWithHistory clock current new now).1.current = some row) :
    row = new ∨ st.current = some row := by
  unfold replaceWithHistory at h
  split at h
  · exact .inl (Option.some.inj h).symm
  · exact .inr h

/-- The stamp of a superseding write on the new version's block. -/
theorem SupersessionInstant.recordedAt_stamp {at_ : SupersessionInstant} {a : ValidAxis} {r : Row V}
    (h : r.temporal = some (at_.stamp a tm)) : r.RecordedAt at_.tx ∧ r.isVoid = false := by
  unfold SupersessionInstant.stamp TemporalMetadata.stampAppendedRow at h
  simp only at h
  split at h <;> exact ⟨⟨_, h, rfl, rfl, rfl⟩, by rw [Row.isVoid, h]; rfl⟩

theorem lifeStartOf_maxStamp {history : List (Row V)} {life : LifeStart}
    (h : lifeStartOf history = .ok life) : life.maxStamp = maxStampOf history := by
  cases history with
  | nil =>
    cases h
    rfl
  | cons top rest =>
    unfold lifeStartOf nextEntityVersion at h
    simp only at h
    split at h
    · cases h
    · cases h
      rfl

/-! ## The instant of a delete -/

theorem validInstantAfter_eq_max {start : Int} (hat : 0 ≤ at_) (hstart : start < maxInt64) :
    validInstantAfter at_ start = max at_ (start + 1) := by
  unfold validInstantAfter
  split
  · rw [wrap64_succ_of_lt_max ⟨by simp only [minInt64]; omega, hstart.le⟩ hstart]
    omega
  · omega

/-- The clock of a delete in progress: sound, and not before `last`; the wall readings left are
instants. -/
structure DeleteClock (last : Int) (s : Clock × Int × List Int × Bool) : Prop where
  clock : ClockOk s.1
  last_le : last ≤ s.1.lastInstant
  wall_le : ∀ w ∈ s.2.2.1, w ≤ maxInt64

theorem headD_le_max {wall : List Int} (h : ∀ w ∈ wall, w ≤ maxInt64) : wall.headD 0 ≤ maxInt64 := by
  cases wall with
  | nil => decide
  | cons w wall => exact h w List.mem_cons_self

theorem DeleteClock.meetClose (h : DeleteClock last s) (e : Int) :
    DeleteClock last (meetClose s e) := by
  unfold RhoTkg.meetClose
  split
  · have hnow := h.clock.now (headD_le_max h.wall_le)
    exact ⟨hnow.1, h.last_le.trans hnow.2.1, fun w hw => h.wall_le w (List.mem_of_mem_tail hw)⟩
  · exact h

theorem DeleteClock.foldl_meetClose (h : DeleteClock last s) :
    DeleteClock last (ends.foldl RhoTkg.meetClose s) :=
  List.foldlRecOn ends _ h fun _ h e _ => h.meetClose e

theorem clock_deleteInstantClearOfCloses {wall : List Int}
    (h : DeleteClock last (clock, at_, wall, false)) :
    ClockOk (deleteInstantClearOfCloses ends fuel clock at_ wall).1 ∧
      last ≤ (deleteInstantClearOfCloses ends fuel clock at_ wall).1.lastInstant := by
  induction fuel generalizing clock at_ wall with
  | zero => exact ⟨h.clock, h.last_le⟩
  | succ fuel ih =>
    have hturn : DeleteClock last (clearOfCloses clock at_ ends wall) := h.foldl_meetClose
    rw [deleteInstantClearOfCloses]
    split
    · dsimp only
      split
      · exact ih ⟨hturn.clock, hturn.last_le, hturn.wall_le⟩
      · exact ⟨hturn.clock, hturn.last_le⟩
    · exact ⟨h.clock, h.last_le⟩

/-- The instant of a delete in progress is at or after `base`, and at the ceiling only with the
clock. -/
structure DeleteInstant (base : Int) (s : Clock × Int × List Int × Bool) : Prop where
  base_le : base ≤ s.2.1
  le_max : s.2.1 ≤ maxInt64
  ceiling : s.2.1 = maxInt64 → s.1.lastInstant = maxInt64

theorem DeleteInstant.meetClose (hclock : DeleteClock last s) (h : DeleteInstant base s)
    (hbase : 0 ≤ base) {e : Int} (he : e ≠ maxInt64 - 1) :
    DeleteInstant base (RhoTkg.meetClose s e) := by
  obtain ⟨hle, hmax, hceil⟩ := h
  unfold RhoTkg.meetClose
  split
  · obtain ⟨hok, hlast, heq, -⟩ := hclock.clock.now (headD_le_max hclock.wall_le)
    have hok := hok.le_max
    by_cases hlt : s.2.1 < maxInt64
    · -- the instant stays below the ceiling unless the clock is there
      have hwrap := wrap64_succ_of_lt_max ⟨by simp only [minInt64]; omega, hlt.le⟩ hlt
      exact ⟨by simp only [hwrap]; omega, by simp only [hwrap]; omega,
        by simp only [hwrap]; omega⟩
    · have hwrap := (inRange_wrap64 (s.2.1 + 1)).2
      exact ⟨by dsimp only; omega, by dsimp only; omega, by dsimp only; omega⟩
  · exact ⟨hle, hmax, hceil⟩

theorem DeleteInstant.foldl_meetClose (hclock : DeleteClock last s) (h : DeleteInstant base s)
    (hbase : 0 ≤ base) (hends : ∀ e ∈ ends, e ≠ maxInt64 - 1) :
    DeleteInstant base (ends.foldl RhoTkg.meetClose s) := by
  induction ends generalizing s with
  | nil => exact h
  | cons e ends ih =>
    exact ih (hclock.meetClose e) (h.meetClose hclock hbase (hends e List.mem_cons_self))
      fun e he => hends e (List.mem_cons_of_mem _ he)

/-- Clearing the recorded closes moves a delete instant forward only. -/
theorem le_deleteInstantClearOfCloses {wall : List Int}
    (hclock : DeleteClock last (clock, at_, wall, false)) (hbase : 0 ≤ base) (hle : base ≤ at_)
    (hmax : at_ ≤ maxInt64) (hends : ∀ e ∈ ends, e ≠ maxInt64 - 1) :
    base ≤ (deleteInstantClearOfCloses ends fuel clock at_ wall).2 ∧
      (deleteInstantClearOfCloses ends fuel clock at_ wall).2 ≤ maxInt64 := by
  induction fuel generalizing clock at_ wall with
  | zero => exact ⟨hle, hmax⟩
  | succ fuel ih =>
    have hcturn : DeleteClock last (clearOfCloses clock at_ ends wall) := hclock.foldl_meetClose
    rw [deleteInstantClearOfCloses]
    split
    · rename_i hlt
      have hturn : DeleteInstant base (clearOfCloses clock at_ ends wall) :=
        DeleteInstant.foldl_meetClose hclock ⟨hle, hmax, fun h => absurd h hlt.ne⟩ hbase hends
      dsimp only
      split
      · exact ih ⟨hcturn.clock, hcturn.last_le, hcturn.wall_le⟩ hturn.base_le hturn.le_max
      · exact ⟨hturn.base_le, hturn.le_max⟩
    · exact ⟨hle, hmax⟩

theorem toInt_le_max (wall : List Int64) : ∀ w ∈ wall.map Int64.toInt, w ≤ maxInt64 := by
  intro w hw
  obtain ⟨x, -, rfl⟩ := List.mem_map.mp hw
  exact (inRange_toInt x).2

/-- The clock after the first draw of a delete. -/
theorem ClockOk.deleteClock {c : Clock} (h : ClockOk c) {wall : List Int}
    (hwall : ∀ w ∈ wall, w ≤ maxInt64) (at_ : Int) :
    DeleteClock c.lastInstant ((c.now (wall.headD 0)).1, at_, wall.tail, false) := by
  have hnow := h.now (headD_le_max hwall)
  exact ⟨hnow.1, hnow.2.1, fun w hw => hwall w (List.mem_of_mem_tail hw)⟩

/-! ## The doors -/

variable [DecidableEq V]

/-- A refused call and a read. -/
theorem NodeState.Effect.unchanged : st.Effect cfg ev st :=
  (NodeState.Effect.idle id fun _ => le_rfl : st.Effect cfg ev { st with clock := st.clock })

/-- A call refused after it drew its instant. -/
theorem NodeState.Effect.drawn (hwall : wall ≤ maxInt64) :
    st.Effect cfg ev { st with clock := (st.clock.now wall).1 } :=
  .idle (fun h => (h.now hwall).1) fun h => (h.now hwall).2.1

theorem NodeState.cascadeNodeMode_effect {newVF newVT : Int} {mode : CascadeMode}
    {lop : Option LabelOp} (hwall : wall ≤ maxInt64) (hex : st.clock.clockExhausted = false)
    (hev : ev.cascadesAt cfg st = some wall) :
    st.Effect cfg ev (st.cascadeNodeMode cfg newVF newVT patch mode prov lop wall).1 := by
  unfold cascadeNodeMode
  split
  · exact .unchanged
  · rename_i hinterval
    rw [not_or, Bool.not_eq_false, not_and_or, Bool.not_eq_false, not_le] at hinterval
    split
    · exact .unchanged
    · rename_i current hcur
      simp only
      split
      · exact .unchanged
      · rename_i first hver
        split
        · exact .drawn hwall
        · rename_i rows sup hbuilt
          split
          · exact .drawn hwall
          · rename_i hne
            split
            · exact .drawn hwall
            · rename_i st' hwritten
              refine .cascaded hwall hev ⟨hex, hcur, hinterval.1, hinterval.2, hver, hbuilt, ?_,
                hwritten⟩
              rintro rfl
              exact hne rfl

theorem NodeState.replaceWithHistory_effect (hwall : wall ≤ maxInt64)
    (hex : st.clock.clockExhausted = false) (hcur : st.current = some current)
    (hver : nextNodeVersion st.history current = .ok new.version)
    (hnew : new.RecordedAt (validInstantAfter (st.clock.now wall).2 current.beliefTx))
    (hvoid : new.isVoid = false) :
    st.Effect cfg ev (st.replaceWithHistory (st.clock.now wall).1 current new
      (validInstantAfter (st.clock.now wall).2 current.beliefTx)).1 := by
  unfold replaceWithHistory
  split
  · rename_i hok
    rw [Bool.and_eq_true] at hok
    exact .superseded hex hwall hcur hver hnew hvoid hok.1
  · exact .drawn hwall

/-- The write of the plain superseding doors. -/
theorem NodeState.replaceWithHistory_stamp_effect (hwall : wall ≤ maxInt64)
    (hex : st.clock.clockExhausted = false) (hcur : st.current = some current)
    (hver : nextNodeVersion st.history current = .ok new.version)
    (htm : new.temporal = some ((cfg.core.nodeVersionUpdateInstant (st.clock.now wall).2
      current).stamp cfg.core.axis tm)) :
    st.Effect cfg ev (st.replaceWithHistory (st.clock.now wall).1 current new
      (cfg.core.nodeVersionUpdateInstant (st.clock.now wall).2 current).tx).1 := by
  have hstamp := SupersessionInstant.recordedAt_stamp htm
  exact replaceWithHistory_effect hwall hex hcur hver hstamp.1 hstamp.2

theorem NodeState.putCreated_effect (hwall : wall ≤ maxInt64)
    (hex : st.clock.clockExhausted = false) (hcur : st.current = none)
    (hlife : lifeStartOf st.history = .ok ⟨row.version, maxStampOf st.history⟩)
    (hrow : row.RecordedAt (validInstantAfter (st.clock.now wall).2 (maxStampOf st.history)))
    (hvoid : row.isVoid = false) :
    st.Effect cfg ev (st.putCreated (st.clock.now wall).1 row).1 := by
  unfold putCreated
  split
  · rename_i hok
    exact .created hex hwall hcur hlife hrow hvoid hok
  · exact .drawn hwall

theorem NodeState.addNode_effect (hwall : wall ≤ maxInt64)
    (hclock : st.current = none → ClockOk st.clock) :
    st.Effect cfg ev (st.addNode cfg labels props vf vt wall).1 := by
  unfold addNode
  split
  · exact .unchanged
  · exact .unchanged
  · rename_i hw _
    split
    · rename_i hempty
      have hex := checkWritable_ok hw
      obtain ⟨hhist, hcur⟩ : st.history = [] ∧ st.current = none := by
        simpa [chain, chainOf, Option.toList_eq_nil_iff] using hempty
      have hpos := (hclock hcur).nonneg
      have hlt := (hclock hcur).lt_now hex hwall
      refine putCreated_effect hwall hex hcur (by rw [hhist]; rfl) ?_ rfl
      refine ⟨_, rfl, ?_, rfl, rfl⟩
      rw [hhist, validInstantAfter, if_neg]
      exact not_le.mpr (hpos.trans_lt hlt)
    · exact .unchanged

theorem NodeState.importNode_effect (hwall : wall ≤ maxInt64) :
    st.Effect cfg ev (st.importNode cfg labels props vf vt wall).1 := by
  unfold importNode
  split
  · exact .unchanged
  · exact .unchanged
  · rename_i hw _
    split
    · exact .unchanged
    · rename_i hnone
      split
      · exact .unchanged
      · rename_i life hlife
        have hmax := lifeStartOf_maxStamp hlife
        refine putCreated_effect hwall (checkWritable_ok hw) (by simpa using hnone) ?_ ?_ rfl
        · rw [hlife, ← hmax]
          rfl
        · exact ⟨_, rfl, by rw [← hmax]; rfl, rfl, rfl⟩

theorem NodeState.updateCurrent_effect {tmp : UpdateTemporal} (hwall : wall ≤ maxInt64)
    (hex : st.clock.clockExhausted = false) (hcur : st.current = some current) :
    st.Effect cfg ev (st.updateCurrent cfg current patch tmp wall).1 := by
  unfold updateCurrent
  simp only
  split
  · exact .unchanged
  split
  · exact .unchanged
  split
  · exact .unchanged
  split
  · exact .unchanged
  rename_i version hver
  split
  · exact .unchanged
  exact replaceWithHistory_stamp_effect hwall hex hcur hver rfl

theorem NodeState.update_effect {vf vt : Option (Option Int64)} {wall : Int64} :
    st.Effect cfg (.update patch vf vt prov wall)
      (st.step cfg (.update patch vf vt prov wall)).1 := by
  show st.Effect cfg _ (st.update cfg patch _ _ prov wall.toInt).1
  have hwall := (inRange_toInt wall).2
  unfold update
  split
  · exact .unchanged
  · exact .unchanged
  rename_i tmp hw htmp
  have hex := checkWritable_ok hw
  split
  · exact .unchanged
  split
  · rename_i huntimed
    refine cascadeNodeMode_effect hwall hex ?_
    simp only [NodeEvent.cascadesAt, htmp, huntimed, if_true]
  split
  · exact .unchanged
  rename_i current hcur
  split
  · exact updateCurrent_effect hwall hex hcur
  · exact .unchanged

theorem NodeState.closeVersion_effect {end_ : Int} (hwall : wall ≤ maxInt64) :
    st.Effect cfg ev (st.closeVersion cfg end_ wall).1 := by
  unfold closeVersion
  simp only
  split
  · exact .unchanged
  · exact .unchanged
  rename_i current hw hcur
  split
  · exact .unchanged
  split
  · exact .unchanged
  split
  · exact .unchanged
  split
  · exact .unchanged
  rename_i version hver
  exact replaceWithHistory_stamp_effect hwall (checkWritable_ok hw) hcur hver rfl

theorem NodeState.replaceVersion_effect {vf vt : Int} (hwall : wall ≤ maxInt64) :
    st.Effect cfg ev (st.replaceVersion cfg props vf vt wall).1 := by
  unfold replaceVersion
  simp only
  split
  · exact .unchanged
  · exact .unchanged
  rename_i current hw hcur
  split
  · exact .unchanged
  split
  · exact .unchanged
  split
  · exact .unchanged
  split
  · exact .unchanged
  split
  · exact .unchanged
  rename_i version hver
  exact replaceWithHistory_effect hwall (checkWritable_ok hw) hcur hver ⟨_, rfl, rfl, rfl, rfl⟩ rfl

theorem NodeState.changeLabel_effect {lop : LabelOp} {wall : Int64} :
    st.Effect cfg (.changeLabel lop wall) (st.step cfg (.changeLabel lop wall)).1 := by
  show st.Effect cfg _ (st.changeLabel cfg lop wall.toInt).1
  have hwall := (inRange_toInt wall).2
  unfold changeLabel
  split
  · exact .unchanged
  · exact .unchanged
  rename_i current hw hcur
  have hex := checkWritable_ok hw
  split
  · rename_i hpart
    refine cascadeNodeMode_effect hwall hex (if_pos ⟨hpart.1, ?_⟩)
    simp [hcur, hpart.2]
  split
  · exact .unchanged
  split
  · exact .unchanged
  split
  · exact .unchanged
  split
  · exact .unchanged
  rename_i version hver
  exact replaceWithHistory_stamp_effect hwall hex hcur hver rfl

theorem NodeState.endNode_effect {spec : NodeState.TombstoneSpec} {rels : List (Int64 × Int64)}
    {wall : List Int64} :
    st.Effect cfg (.endNode spec rels wall) (st.step cfg (.endNode spec rels wall)).1 := by
  show st.Effect cfg _ (st.endNode cfg spec _ _).1
  unfold endNode
  split
  · exact .unchanged
  · exact .unchanged
  rename_i current hw hcur
  dsimp only
  split
  · rename_i hok
    exact .ended (checkWritable_ok hw) hcur rfl hok
  · exact .idle (fun h => (clock_deleteInstantClearOfCloses (h.deleteClock (toInt_le_max wall) _)).1)
      fun h => (clock_deleteInstantClearOfCloses (h.deleteClock (toInt_le_max wall) _)).2

/-- **The inversion lemma**: what a step of a node can do. -/
theorem NodeState.step_effect (cfg : DoorConfig) (hclock : st.current = none → ClockOk st.clock)
    (ev : NodeEvent V) :
    st.Effect cfg ev (st.step cfg ev).1 := by
  cases ev with
  | tick wall => exact .drawn (inRange_toInt wall).2
  | add labels props vf vt wall => exact addNode_effect (inRange_toInt wall).2 hclock
  | reimport labels props vf vt wall => exact importNode_effect (inRange_toInt wall).2
  | update patch vf vt prov wall => exact update_effect
  | closeVersion end_ wall => exact closeVersion_effect (inRange_toInt wall).2
  | replaceVersion props vf vt wall => exact replaceVersion_effect (inRange_toInt wall).2
  | changeLabel lop wall => exact changeLabel_effect
  | setInterval vf vt patch wall =>
    show st.Effect cfg _ (st.setNodeVersionInterval cfg _ _ patch wall.toInt).1
    unfold setNodeVersionInterval
    split
    · exact .unchanged
    · rename_i hw
      exact cascadeNodeMode_effect (inRange_toInt wall).2 (checkWritable_ok hw) rfl
  | excise vf vt wall =>
    show st.Effect cfg _ (st.exciseNodeValidity cfg _ _ wall.toInt).1
    unfold exciseNodeValidity
    split
    · exact .unchanged
    · rename_i hw
      exact cascadeNodeMode_effect (inRange_toInt wall).2 (checkWritable_ok hw) rfl
  | endNode spec rels wall => exact endNode_effect

/-- What an in-place update does: it stores its row in the current slot, or nothing. -/
theorem NodeState.updateInPlace_eq (cfg : DoorConfig) (st : NodeState V) (patch : Patch V)
    (vf vt : Option (Option Int)) (wall : Int) :
    ∃ clock', (clock' = st.clock ∨ clock' = (st.clock.now wall).1) ∧
      ((st.updateInPlace cfg patch vf vt wall).1 = { st with clock := clock' } ∨
        ∃ current tmp now, st.current = some current ∧
          extractTemporalTracked cfg.core.axis vf vt = .ok tmp ∧
          (st.updateInPlace cfg patch vf vt wall).1 = { st with
            clock := clock'
            current := some (updatedInPlaceRow cfg current patch tmp vf.isSome now) }) := by
  unfold updateInPlace
  dsimp only
  split
  · exact ⟨_, .inl rfl, .inl rfl⟩
  · exact ⟨_, .inl rfl, .inl rfl⟩
  rename_i tmp _ htmp
  split
  · exact ⟨_, .inl rfl, .inl rfl⟩
  rename_i current hcur
  split
  · exact ⟨_, .inl rfl, .inl rfl⟩
  split
  · exact ⟨_, .inl rfl, .inl rfl⟩
  split
  · exact ⟨_, .inl rfl, .inl rfl⟩
  split
  · exact ⟨_, .inr rfl, .inl rfl⟩
  split
  · exact ⟨_, .inr rfl, .inr ⟨current, tmp, _, hcur, htmp, rfl⟩⟩
  · exact ⟨_, .inr rfl, .inl rfl⟩

end Effect

end RhoTkg
