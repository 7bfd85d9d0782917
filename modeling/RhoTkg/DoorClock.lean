import RhoTkg.NodeOrder
import RhoTkg.Primary

/-!
# The clock behind the doors

A door only draws from the clock, so the clock of a writing graph stays one (`Primary.doorCalls_clockOk`);
the store calls do not touch it.
-/

namespace RhoTkg

variable {V : Type}

/-! ## Stamps -/

variable {at_ start : Int} {clock : Clock} {wall : List Int}

theorem inRange_validInstantAfter (hat : InRange at_) : InRange (validInstantAfter at_ start) := by
  unfold validInstantAfter
  split
  · exact inRange_wrap64 _
  · exact hat

/-- The stamp of a write is not 0, also where it wraps. -/
theorem validInstantAfter_ne_zero (hat : 0 < at_) (hstart : InRange start) :
    validInstantAfter at_ start ≠ 0 := by
  unfold validInstantAfter
  split
  · by_cases hmax : start = maxInt64
    · rw [hmax]
      decide
    · rw [wrap64_succ_of_lt_max hstart (lt_of_le_of_ne hstart.2 hmax)]
      omega
  · omega

theorem ClockOk.inRange_now {c : Clock} (h : ClockOk c) {wall : Int} (hwall : wall ≤ maxInt64) :
    InRange (c.now wall).2 := by
  obtain ⟨hok, -, heq, -⟩ := h.now hwall
  have hlo := hok.nonneg
  have hhi := hok.le_max
  rw [heq]
  exact ⟨by simp only [minInt64]; omega, hhi⟩

/-- The instant of a delete is a machine integer. -/
theorem inRange_deleteInstantClearOfCloses {ends : List Int} {fuel : Nat} (hclock : ClockOk clock)
    (hwall : ∀ w ∈ wall, w ≤ maxInt64) (hat : InRange at_) :
    InRange (deleteInstantClearOfCloses ends fuel clock at_ wall).2 := by
  -- a turn over the closes draws from the clock and moves the instant to one of its instants at most
  have hturn := fun s => @List.foldlRecOn _ _ (fun s : Clock × Int × List Int × Bool => ClockOk s.1 ∧
      InRange s.2.1 ∧ ∀ w ∈ s.2.2.1, w ≤ maxInt64) ends meetClose s
  have hmeet : ∀ s : Clock × Int × List Int × Bool, (ClockOk s.1 ∧ InRange s.2.1 ∧
      ∀ w ∈ s.2.2.1, w ≤ maxInt64) → ∀ e ∈ ends, ClockOk (meetClose s e).1 ∧
        InRange (meetClose s e).2.1 ∧ ∀ w ∈ (meetClose s e).2.2.1, w ≤ maxInt64 := by
    intro s ⟨hok, hin, hw⟩ e _
    unfold meetClose
    split
    · have hhead := headD_le_max hw
      have hnow := hok.inRange_now hhead
      have hwrap := inRange_wrap64 (s.2.1 + 1)
      refine ⟨(hok.now hhead).1, ⟨le_max_of_le_left hwrap.1, max_le hwrap.2 hnow.2⟩, fun w hmem => ?_⟩
      exact hw w (List.mem_of_mem_tail hmem)
    · exact ⟨hok, hin, hw⟩
  induction fuel generalizing clock at_ wall with
  | zero => exact hat
  | succ fuel ih =>
    rw [deleteInstantClearOfCloses]
    split
    · obtain ⟨hok', hin', hw'⟩ := hturn (clock, at_, wall, false) ⟨hclock, hat, hwall⟩ hmeet
      dsimp only [clearOfCloses]
      split
      · exact ih hok' hw' hin'
      · exact hin'
    · exact hat

theorem inRange_deleteInstantForNodeCascade (c : Core) (cur : Row V) (rels : List CascadedRel)
    (hclock : ClockOk clock) (hwall : ∀ w ∈ wall, w ≤ maxInt64) :
    InRange (c.deleteInstantForNodeCascade clock cur rels wall).2 := by
  have hhead := headD_le_max hwall
  exact inRange_deleteInstantClearOfCloses (hclock.now hhead).1
    (fun w hw => hwall w (List.mem_of_mem_tail hw))
    (List.foldlRecOn rels _ (inRange_validInstantAfter (hclock.inRange_now hhead))
      fun _ h _ _ => inRange_validInstantAfter h)

section Chain

variable [DecidableEq V] {cfg : DoorConfig} {st st' : NodeState V} {ev : NodeEvent V}

/-- The clock of the graph after a door. -/
theorem NodeState.Effect.clockOk (h : st.Effect cfg ev st') (hclock : ClockOk st.clock) :
    ClockOk st'.clock := by
  cases h with
  | idle hok => exact hok hclock
  | created _ hwall | superseded _ hwall => exact (hclock.now hwall).1
  | cascaded hwall _ hc =>
    obtain ⟨slot, -, -, ⟨-, rfl⟩ | ⟨new, -, -, -, rfl⟩⟩ := writeCascade_eq_ok hc.written hc.nonempty
    · exact (hclock.now hwall).1
    · exact (hclock.now hwall).1
  | @ended spec rels wall current clock' at_ hex hcur hat =>
    have h := (clock_deleteInstantForNodeCascade cfg.core current
      (rels.map fun r => ⟨r.1.toInt, r.2.toInt⟩) hclock (toInt_le_max wall)).1
    rwa [hat] at h

/-- The row a door makes current is stamped with a machine integer. -/
theorem NodeState.Effect.inRange (h : st.Effect cfg ev st') (hclock : ClockOk st.clock)
    {new : Row V} (hnew : st'.current = some new) :
    st.current = some new ∨ InRange new.beliefTx := by
  cases h with
  | idle => exact .inl hnew
  | created _ hwall _ _ hrow | superseded _ hwall _ _ hrow =>
    cases hnew
    rw [hrow.beliefTx]
    exact .inr (inRange_validInstantAfter (hclock.inRange_now hwall))
  | cascaded hwall _ hc =>
    obtain ⟨slot, -, -, ⟨-, rfl⟩ | ⟨last, -, hlast, -, rfl⟩⟩ :=
      writeCascade_eq_ok hc.written hc.nonempty
    · exact .inl hnew
    · cases hnew
      obtain ⟨-, e, he, hrow⟩ := mem_finalRows (List.mem_of_getLast? hlast)
      have hrec := cascadeRows_recorded hc.built e he
      rw [hrow, (hrec.of_version _).beliefTx]
      exact .inr (hclock.inRange_now hwall)
  | ended => cases hnew

end Chain

section UpdateInPlace

variable {cfg : DoorConfig} {st : NodeState V} {patch : Patch V} {vf vt : Option (Option Int)}
  {wall : Int}

/-- An in-place update keeps the transaction instant. -/
theorem updatedInPlaceRow_beliefTx (cfg : DoorConfig) (current : Row V) (patch : Patch V)
    (tmp : UpdateTemporal) (hasValidFrom : Bool) (now : Int) :
    (NodeState.updatedInPlaceRow cfg current patch tmp hasValidFrom now).beliefTx =
      current.beliefTx := by
  have hblock : current.block.txFrom = current.beliefTx := by
    unfold Row.block Row.beliefTx
    cases current.temporal <;> rfl
  unfold NodeState.updatedInPlaceRow
  split <;> split <;> exact hblock

/-- What an in-place update does. -/
theorem NodeState.updateInPlace_cases [DecidableEq V] (cfg : DoorConfig) (st : NodeState V)
    (patch : Patch V) (vf vt : Option (Option Int)) (wall : Int) :
    ((st.updateInPlace cfg patch vf vt wall).1.clock = st.clock ∨
        (st.updateInPlace cfg patch vf vt wall).1.clock = (st.clock.now wall).1) ∧
      ((st.updateInPlace cfg patch vf vt wall).1.current = st.current ∨
        ∃ current new, st.current = some current ∧ new.beliefTx = current.beliefTx ∧
          (st.updateInPlace cfg patch vf vt wall).1.current = some new) := by
  obtain ⟨clock', hclock, heq | ⟨current, tmp, now, hcur, -, heq⟩⟩ :=
    st.updateInPlace_eq cfg patch vf vt wall
  · rw [heq]
    exact ⟨hclock, .inl rfl⟩
  · rw [heq]
    exact ⟨hclock, .inr ⟨current, _, hcur, updatedInPlaceRow_beliefTx .., rfl⟩⟩

end UpdateInPlace

namespace Primary

variable [DecidableEq V] {cfg : GraphConfig} {p : Primary V}

omit [DecidableEq V] in
/-- A delete draws from the clock. -/
theorem clockOk_endNode {cfg : DoorConfig} {st : NodeState V} (hclock : ClockOk st.clock)
    (spec : NodeState.TombstoneSpec) (rels : List CascadedRel) (wall : List Int64) :
    ClockOk (st.endNode cfg spec rels (wall.map Int64.toInt)).1.clock := by
  unfold NodeState.endNode
  split
  · exact hclock
  · exact hclock
  rename_i current _ _
  have hok := (clock_deleteInstantForNodeCascade cfg.core current rels hclock
    (toInt_le_max wall)).1
  dsimp only
  split <;> exact hok

/-- The clock after a door. -/
theorem doorCalls_clockOk (hclock : ClockOk p.clock) (d : Door V) :
    ClockOk (p.doorCalls cfg d).1 := by
  cases d with
  | chain e ends ev =>
    rw [doorCalls]
    split
    · have heff := (p.store.chainState p.clock e).step_effect (cfg.forEntity e) (fun _ => hclock) ev
      exact heff.clockOk hclock
    · exact hclock
  | updateInPlace e patch vf vt wall =>
    rcases (NodeState.updateInPlace_cases (cfg.forEntity e) (p.store.chainState p.clock e) patch
      (vf.map (·.map Int64.toInt)) (vt.map (·.map Int64.toInt)) wall.toInt).1 with h | h
    · exact (congrArg ClockOk h).mpr hclock
    · exact (congrArg ClockOk h).mpr (hclock.now (inRange_toInt wall).2).1
  | deleteNode _ spec wall | deleteRel _ spec wall => exact clockOk_endNode hclock spec _ wall
  | hardDeleteNode | hardDeleteNodeCascade | hardDeleteRel | truncateHistory | trimHistoryFrom =>
    exact hclock

omit [DecidableEq V] in
theorem clock_runCalls (token : Nat) (cs : List (RoutedCall V)) :
    (p.runCalls token cs).clock = p.clock := by
  induction cs generalizing p with
  | nil => rfl
  | cons c cs ih =>
    rw [runCalls]
    split
    · rfl
    · rename_i p' hrun
      rw [ih]
      obtain ⟨s, -, rfl⟩ | ⟨s, change, -, rfl⟩ := runCall_eq_some hrun <;> rfl

end Primary
end RhoTkg
