import RhoTkg.DoorClock
import RhoTkg.EndpointConstraint
import RhoTkg.TxDoors

/-!
# The store calls of a door leave the chain the door computed

A chain door computes a chain, and the store calls that are read off it write it down row by row
(`NodeState.storeCalls`).  When the store accepts every one of them, the entity's chain in the store is
the computed one, and every other chain is untouched (`Store.Accepts.chainSet_storeCalls`).

`ChainSound` is what the doors keep of a chain whatever they are called with: the history is in version
order, the current row carries the instant of its write and no delete, and every stamp is a machine
integer.
-/

namespace RhoTkg

open List

variable {V : Type}

namespace Store

/-- The store accepts every call of the list. -/
inductive Accepts : Store V → List (RoutedCall V) → Store V → Prop
  | nil (s : Store V) : Accepts s [] s
  | cons {s t s' : Store V} {c : RoutedCall V} {cs : List (RoutedCall V)} {r : Option (Change V)}
      (hcall : s.call c.call = .ok (t, r)) (hrest : Accepts t cs s') : Accepts s (c :: cs) s'

/-- The chain of `e` has become `past` with the current row `x`, and nothing else has changed. -/
structure ChainSet (s : Store V) (e : EntityId) (past : List (Row V)) (x : Option (Stored V))
    (s' : Store V) : Prop where
  past : s'.pastRows e = past
  current : s'.current e = x
  others : ∀ e', e' ≠ e → s'.current e' = s.current e' ∧ s'.history e' = s.history e'

section ChainSet

variable {s t s' : Store V} {e : EntityId} {past past' : List (Row V)} {x x' : Option (Stored V)}

theorem ChainSet.refl (s : Store V) (e : EntityId) :
    s.ChainSet e (s.pastRows e) (s.current e) s :=
  ⟨rfl, rfl, fun _ _ => ⟨rfl, rfl⟩⟩

theorem ChainSet.trans (h : s.ChainSet e past x t) (h' : t.ChainSet e past' x' s') :
    s.ChainSet e past' x' s' :=
  ⟨h'.past, h'.current, fun e' he =>
    ⟨(h'.others e' he).1.trans (h.others e' he).1, (h'.others e' he).2.trans (h.others e' he).2⟩⟩

theorem chainSet_putHistoryRow (s : Store V) (e : EntityId) (y : Stored V) :
    s.ChainSet e (RhoTkg.putVersion (s.pastRows e) y.row) (s.current e) (s.putHistoryRow e y) := by
  refine ⟨?_, rfl, fun e' he => ⟨rfl, by rw [history_putHistoryRow, Function.update_of_ne he]⟩⟩
  rw [pastRows, history_putHistoryRow, Function.update_self]
  exact Keyed.map_put (fun _ => rfl) _ _

theorem chainSet_setCurrent (s : Store V) (e : EntityId) (y : Option (Stored V)) :
    s.ChainSet e (s.pastRows e) y (s.setCurrent e y) :=
  ⟨rfl, by rw [current_setCurrent, Function.update_self], fun e' he =>
    ⟨by rw [current_setCurrent, Function.update_of_ne he], rfl⟩⟩

/-! ## The calls -/

variable {ends : Option (Nat × Nat)} {ev : NodeEvent V} {current new prev : Row V}

theorem Accepts.of_nil (h : s.Accepts [] s') : s' = s := by
  cases h
  rfl

theorem Accepts.of_singleton {c : RoutedCall V} (h : s.Accepts [c] s') :
    ∃ r, s.call c.call = .ok (s', r) := by
  cases h with
  | cons hcall hrest =>
    cases hrest
    exact ⟨_, hcall⟩

variable {rows : List (Row V)}

/-- History rows, and then the rest of the calls. -/
theorem Accepts.putVersions {rest : List (RoutedCall V)}
    (h : s.Accepts (rows.map (fun r => ⟨.putVersion e r.version ⟨ends, r⟩, true⟩) ++ rest) s') :
    ∃ t, s.ChainSet e (rows.foldl RhoTkg.putVersion (s.pastRows e)) (s.current e) t ∧
      t.Accepts rest s' := by
  induction rows generalizing s with
  | nil => exact ⟨s, .refl s e, h⟩
  | cons r rows ih =>
    cases h with
    | cons hcall hrest =>
      cases call_effect hcall with
      | versionPut =>
        obtain ⟨t, hset, ht⟩ := ih hrest
        have hput := chainSet_putHistoryRow s e ⟨ends, r⟩
        refine ⟨t, hput.trans ?_, ht⟩
        rwa [hput.past] at hset

theorem Accepts.chainSet_slotCall (h : s.Accepts [slotCall e ends ev current new] s') :
    s.ChainSet e (s.pastRows e) (some ⟨ends, new⟩) s' := by
  obtain ⟨r, hcall⟩ := h.of_singleton
  have hreplace : s.call (.replace e ⟨ends, new⟩) = .ok (s', r) →
      s.ChainSet e (s.pastRows e) (some ⟨ends, new⟩) s' := by
    intro hcall
    cases call_effect hcall with
    | replaced => exact chainSet_setCurrent s e _
  unfold slotCall at hcall
  split at hcall
  · split at hcall
    · exact hreplace hcall
    · cases call_effect hcall with
      | labelled => exact chainSet_setCurrent s _ _
  · exact hreplace hcall

theorem Accepts.chainSet_supersedingCall
    (h : s.Accepts [supersedingCall e ends ev current new prev] s') :
    s.ChainSet e (RhoTkg.putVersion (s.pastRows e) prev) (some ⟨ends, new⟩) s' := by
  obtain ⟨r, hcall⟩ := h.of_singleton
  have hset : s.ChainSet e (RhoTkg.putVersion (s.pastRows e) prev) (some ⟨ends, new⟩)
      ((s.putHistoryRow e ⟨ends, prev⟩).setCurrent e (some ⟨ends, new⟩)) := by
    have hput := chainSet_putHistoryRow s e ⟨ends, prev⟩
    refine hput.trans ?_
    rw [← hput.past]
    exact chainSet_setCurrent _ e _
  have hreplace : s.call (.replaceWithHistory e ⟨ends, new⟩ current.version ⟨ends, prev⟩) =
      .ok (s', r) → s.ChainSet e (RhoTkg.putVersion (s.pastRows e) prev) (some ⟨ends, new⟩) s' := by
    intro hcall
    generalize current.version = v at hcall
    cases call_effect hcall with
    | superseded => exact hset
  unfold supersedingCall at hcall
  split at hcall
  · generalize current.version = v at hcall
    cases call_effect hcall with
    | labelSuperseded => exact hset
  · exact hreplace hcall
  · exact hreplace hcall

theorem Accepts.chainSet_put {y : Stored V} {routed : Bool} (h : s.Accepts [⟨.put e y, routed⟩] s') :
    s.ChainSet e (s.pastRows e) (some y) s' := by
  obtain ⟨r, hcall⟩ := h.of_singleton
  cases call_effect hcall with
  | putNode => exact chainSet_setCurrent s _ _
  | putRel => exact (chainSet_setCurrent s _ (some y)).trans ⟨rfl, by simp, fun _ _ => ⟨rfl, rfl⟩⟩

/-- The calls of a cascade that appends the rows `new` and gives the slot to the last of them, or to
none. -/
theorem Accepts.chainSet_cascadeCalls {st st' : NodeState V} (hpast : s.pastRows e = st.history)
    {old : Stored V} (hcur : s.current e = some old) (hold : old = ⟨ends, current⟩)
    (hrows : st'.history.filter (fun r => decide (topVersion st.history current < r.version)) =
      rows) (h : s.Accepts (cascadeCalls e ends ev st st' current new prev) s') :
    (new.version = current.version ∧
        s.ChainSet e (rows.foldl RhoTkg.putVersion st.history) (some ⟨ends, current⟩) s') ∨
      (new.version ≠ current.version ∧
        s.ChainSet e (RhoTkg.putVersion (rows.foldl RhoTkg.putVersion st.history) prev)
          (some ⟨ends, new⟩) s') := by
  unfold cascadeCalls at h
  rw [hrows] at h
  obtain ⟨t, hset, ht⟩ := h.putVersions
  rw [hcur, hold, hpast] at hset
  split at ht
  · rename_i hver
    cases ht.of_nil
    exact .inl ⟨hver, hset⟩
  · rename_i hver
    refine .inr ⟨hver, ?_⟩
    cases ht with
    | cons hcall hrest =>
      cases call_effect hcall with
      | versionPut =>
        have hput := chainSet_putHistoryRow t e ⟨ends, prev⟩
        have hslot := hrest.chainSet_slotCall
        rw [hput.past, hset.past] at hslot
        exact (hset.trans hput).trans hslot

end ChainSet

end Store

/-! ## The chain of a door -/

section Door

variable {st st' : NodeState V} {current : Row V}

theorem version_le_of_mem_putVersion {demoted r : Row V} (hver : demoted.version = current.version)
    (hr : r ∈ putVersion st.history demoted) : r.version ≤ topVersion st.history current := by
  rcases Keyed.mem_of_mem_put hr with rfl | hr
  · rw [hver]
    exact version_le_topVersion (.inl rfl)
  · exact version_le_topVersion (.inr hr)

/-- Of a chain with rows appended above it, those rows are above its top version. -/
theorem filter_above_append {past rows : List (Row V)} {top : Nat} (hpast : ∀ r ∈ past, r.version ≤ top)
    (hrows : ∀ r ∈ rows, top < r.version) :
    (past ++ rows).filter (fun r => decide (top < r.version)) = rows := by
  rw [filter_append, filter_eq_nil_iff.mpr fun r hr => by simpa using hpast r hr,
    nil_append, filter_eq_self.mpr fun r hr => by simpa using hrows r hr]

theorem nextNodeVersion_ne {history : List (Row V)} {v : Nat}
    (h : nextNodeVersion history current = .ok v) : v ≠ current.version := by
  have hv := nextEntityVersion_eq_ok h
  have hle : current.version ≤ topVersion history current := version_le_topVersion (.inl rfl)
  split at hv <;> omega

variable [DecidableEq V] {cfg : DoorConfig} {ev : NodeEvent V}

/-- What a cascade makes of the history, by the slot it picked. -/
theorem NodeState.IsCascade.history {wall newVF newVT : Int} {patch : Patch V} {mode : CascadeMode}
    {prov : Bool} {lop : Option LabelOp} {rows : List (Appended V)} {sup : WholeAxisSupersession}
    {first : Nat}
    (hc : st.IsCascade cfg wall newVF newVT patch mode prov lop current rows sup first st') :
    ∃ new : List (Row V), (∀ r ∈ new, topVersion st.history current < r.version) ∧
      (∀ r ∈ new, r.RecordedAt (st.clock.now wall).2) ∧
      ((st'.current = some current ∧ st'.history = st.history ++ new ∧
          new.foldl putVersion st.history = st.history ++ new) ∨
        ∃ last, st'.current = some last ∧ topVersion st.history current < last.version ∧
          last.RecordedAt (st.clock.now wall).2 ∧
          st'.history = putVersion st.history (demotedRow current sup mode (st.clock.now wall).2) ++ new ∧
          putVersion (new.foldl putVersion st.history)
            (demotedRow current sup mode (st.clock.now wall).2) = st'.history) := by
  obtain ⟨slot, -, -, hcases⟩ := writeCascade_eq_ok hc.written hc.nonempty
  have hfirst := nextEntityVersion_eq_ok hc.version
  have habove : ∀ r ∈ finalRows first rows slot, topVersion st.history current < r.version := by
    intro r hr
    have := (mem_finalRows hr).1
    omega
  have hrec : ∀ r ∈ finalRows first rows slot, r.RecordedAt (st.clock.now wall).2 := by
    intro n hn
    obtain ⟨-, e, he, heq⟩ := mem_finalRows hn
    rw [heq]
    exact (cascadeRows_recorded hc.built e he).of_version _
  have hlt : ∀ {l : List (Row V)}, (∀ r ∈ l, topVersion st.history current < r.version) →
      ∀ x ∈ st.history, ∀ y ∈ l, x.version < y.version := fun hl x hx y hy =>
    (version_le_topVersion (.inr hx)).trans_lt (hl y hy)
  have hsorted := finalRows_sorted first rows slot
  rcases hcases with ⟨-, rfl⟩ | ⟨last, -, hlast, -, rfl⟩
  · have happ := Keyed.foldl_put_eq_append hsorted (hlt habove)
    exact ⟨_, habove, hrec, .inl ⟨hc.live, happ, happ⟩⟩
  · have hsub : ∀ r ∈ (finalRows first rows slot).dropLast, r ∈ finalRows first rows slot :=
      fun r hr => mem_of_mem_dropLast hr
    have habove' := fun r hr => habove r (hsub r hr)
    have happ := Keyed.foldl_put_eq_append (hsorted.sublist (dropLast_sublist _)) (hlt habove')
    have hmem := mem_of_getLast? hlast
    refine ⟨_, habove', fun r hr => hrec r (hsub r hr), .inr ⟨last, rfl, habove last hmem,
      hrec last hmem, ?_, rfl⟩⟩
    refine (congrArg (putVersion · _) happ).trans (Keyed.put_append fun y hy => ?_)
    rw [demotedRow_version]
    exact (version_le_topVersion (.inl rfl)).trans_lt (habove' y hy)

/-- **The store calls of a chain door** leave the chain the door computed. -/
theorem Store.Accepts.chainSet_storeCalls {s s' : Store V} {clock : Clock} {e : EntityId}
    {ends : Option (Nat × Nat)} (hst : s.chainState clock e = st) (heff : st.Effect cfg ev st')
    (haccepts : e.accepts ev = true)
    (hends : ∀ x, s.current e = some x → x.ends = ends)
    (h : s.Accepts (st.storeCalls e ends ev cfg st') s') :
    s.ChainSet e st'.history (st'.current.map (⟨ends, ·⟩)) s' := by
  have hpast : s.pastRows e = st.history := by rw [← hst]; rfl
  have hcurrent : (s.current e).map (·.row) = st.current := by rw [← hst]; rfl
  have hsame : s.ChainSet e st.history (st.current.map (⟨ends, ·⟩)) s := by
    refine ⟨hpast, ?_, fun _ _ => ⟨rfl, rfl⟩⟩
    rw [← hcurrent, Option.map_map]
    cases hx : s.current e with
    | none => rfl
    | some x => simp [← hends x hx]
  have hlive : ∀ cur, st.current = some cur → s.current e = some ⟨ends, cur⟩ := by
    intro cur hcur
    rw [hsame.current, hcur]
    rfl
  unfold NodeState.storeCalls at h
  cases heff with
  | @idle _ clock' =>
    cases hcur : st.current with
    | none =>
      simp only [hcur] at h
      rw [h.of_nil, ← hcur]
      exact hsame
    | some cur =>
      have hnil : st.history.filter (fun r => decide (topVersion st.history cur < r.version)) = [] :=
        filter_eq_nil_iff.mpr fun r hr => by simpa using version_le_topVersion (.inr hr)
      simp only [hcur] at h
      split at h
      · rcases h.chainSet_cascadeCalls hpast (hlive cur hcur) rfl hnil with ⟨-, hset⟩ | ⟨hne, -⟩
        · exact hset
        · exact absurd rfl hne
      · rw [h.of_nil, ← hcur]
        exact hsame
  | @created _ _ row _ _ hcur =>
    simp only [hcur] at h
    rw [← hpast]
    exact h.chainSet_put
  | @superseded _ wall cur new _ _ hcur hver =>
    obtain ⟨demoted, hdemoted⟩ :
        ∃ d, cur.superseded (validInstantAfter (st.clock.now wall).2 cur.beliefTx) = d := ⟨_, rfl⟩
    have hdver : demoted.version = cur.version := by rw [← hdemoted]; rfl
    have hne := nextNodeVersion_ne hver
    have hnil : (RhoTkg.putVersion st.history demoted).filter
        (fun r => decide (topVersion st.history cur < r.version)) = [] :=
      filter_eq_nil_iff.mpr fun r hr => by simpa using version_le_of_mem_putVersion hdver hr
    simp only [hcur, hdemoted, historyRowAt_putVersion hdver] at h
    simp only [hdemoted]
    split at h
    · rcases h.chainSet_cascadeCalls hpast (hlive cur hcur) rfl hnil with ⟨heq, -⟩ | ⟨-, hset⟩
      · exact absurd heq hne
      · exact hset
    · rw [← hpast]
      exact h.chainSet_supersedingCall
  | @cascaded _ wall _ _ _ mode _ _ cur _ sup _ _ hwall hev hc =>
    obtain ⟨new, habove, -, hcases⟩ := hc.history
    have htop : ∀ r ∈ st.history, r.version ≤ topVersion st.history cur :=
      fun r hr => version_le_topVersion (.inr hr)
    rcases hcases with ⟨hcur', hhist, hput⟩ | ⟨last, hcur', hlt, -, hhist, hput⟩
    · simp only [hc.live, hcur', hev, Option.isSome_some, if_true] at h
      rcases h.chainSet_cascadeCalls hpast (hlive cur hc.live) rfl
        (hhist ▸ filter_above_append htop habove) with ⟨-, hset⟩ | ⟨hne, -⟩
      · rw [hput, ← hhist] at hset
        rw [hcur']
        exact hset
      · exact absurd rfl hne
    · have hprev : historyRowAt st'.history cur =
          demotedRow cur sup mode (st.clock.now wall).2 := by
        rw [← hput]
        exact historyRowAt_putVersion (demotedRow_version _ _ _ _)
      simp only [hc.live, hcur', hev, Option.isSome_some, if_true, hprev] at h
      have hle : cur.version ≤ topVersion st.history cur := version_le_topVersion (.inl rfl)
      rcases h.chainSet_cascadeCalls hpast (hlive cur hc.live) rfl
        (hhist ▸ filter_above_append (fun r hr =>
          version_le_of_mem_putVersion (demotedRow_version _ _ _ _) hr) habove) with
        ⟨heq, -⟩ | ⟨-, hset⟩
      · omega
      · rw [hput] at hset
        rw [hcur']
        exact hset
  | ended => cases e <;> cases haccepts

end Door

/-! ## Sound chains -/

/-- The stamps of a row are machine integers. -/
structure Row.StampsInRange (r : Row V) : Prop where
  beliefTx : InRange r.beliefTx
  txTo : InRange r.txTo
  deletedAt : InRange r.deletedAt

/-- The row is live: it carries the instant of its write, and no delete. -/
def Row.Live (r : Row V) : Prop :=
  r.StampsInRange ∧ ∃ tm, r.temporal = some tm ∧ tm.txFrom ≠ 0 ∧ tm.deletedAt = 0

/-- The history is in version order, its stamps are machine integers, and the current row is live. -/
structure ChainSound (history : List (Row V)) (current : Option (Row V)) : Prop where
  sorted : Keyed.Sorted Row.version history
  past : ∀ r ∈ history, r.StampsInRange
  live : ∀ cur, current = some cur → cur.Live

section Sound

variable {history : List (Row V)} {cur : Row V}

theorem inRange_zero : InRange 0 := by decide

variable {q at_ : Int} {r : Row V}

theorem Row.RecordedAt.stampsInRange (h : r.RecordedAt q) (hq : InRange q) : r.StampsInRange := by
  obtain ⟨tm, htm, rfl, hto, hdel⟩ := h
  refine ⟨?_, ?_, ?_⟩
  · simpa [Row.beliefTx, htm] using hq
  · simpa [Row.txTo, htm, hto] using inRange_zero
  · simpa [Row.deletedAt, htm, hdel] using inRange_zero

theorem Row.RecordedAt.live (h : r.RecordedAt q) (hq : InRange q) (hne : q ≠ 0) : r.Live := by
  refine ⟨h.stampsInRange hq, ?_⟩
  obtain ⟨tm, htm, rfl, -, hdel⟩ := h
  exact ⟨tm, htm, hne, hdel⟩

theorem Row.Live.superseded (h : cur.Live) (hq : InRange q) : (cur.superseded q).StampsInRange := by
  obtain ⟨hin, tm, htm, -, -⟩ := h
  refine ⟨?_, ?_, ?_⟩
  · simpa [Row.superseded, Row.block, Row.beliefTx, htm] using hin.beliefTx
  · simpa [Row.superseded, Row.block, Row.txTo, htm] using hq
  · simpa [Row.superseded, Row.block, Row.deletedAt, htm] using hin.deletedAt

theorem Row.Live.tombstone (h : cur.Live) (a : ValidAxis) (hat : InRange at_) (retract : Bool) :
    (cur.tombstone a at_ retract).StampsInRange := by
  obtain ⟨hin, tm, htm, hne, -⟩ := h
  refine ⟨?_, ?_, ?_⟩
  · simpa [Row.tombstone, stampDeleteTombstone, Row.block, Row.beliefTx, htm, hne] using hin.beliefTx
  · simpa [Row.tombstone, stampDeleteTombstone, Row.block, Row.txTo, htm] using hat
  · simpa [Row.tombstone, stampDeleteTombstone, Row.block, Row.deletedAt, htm] using hat

theorem inRange_maxStampOf (h : ∀ r ∈ history, r.StampsInRange) : InRange (maxStampOf history) := by
  refine foldlRecOn history _ inRange_zero fun m hm r hr => ?_
  obtain ⟨hb, ht, hd⟩ := h r hr
  refine ⟨?_, max_le (max_le (max_le hm.2 hb.2) ht.2) hd.2⟩
  exact le_max_of_le_left (le_max_of_le_left (le_max_of_le_left hm.1))

/-- The history with a row stored under a version. -/
theorem ChainSound.put (h : ChainSound history (some cur)) (hr : r.StampsInRange)
    {x : Option (Row V)} (hx : ∀ y, x = some y → y.Live) : ChainSound (putVersion history r) x := by
  refine ⟨Keyed.sorted_put h.sorted r, fun y hy => ?_, hx⟩
  rcases Keyed.mem_of_mem_put hy with rfl | hy
  · exact hr
  · exact h.past y hy

/-- A delete. -/
theorem ChainSound.ended (h : ChainSound history (some cur)) (a : ValidAxis) (hat : InRange at_)
    (retract : Bool) : ChainSound (putVersion history (cur.tombstone a at_ retract)) none :=
  h.put ((h.live cur rfl).tombstone a hat retract) fun _ hy => nomatch hy

/-- An in-place update keeps the stamps of the row. -/
theorem Row.Live.inPlace (h : cur.Live) (cfg : DoorConfig) (patch : Patch V) (tmp : UpdateTemporal)
    (hasValidFrom : Bool) (now : Int) :
    (NodeState.updatedInPlaceRow cfg cur patch tmp hasValidFrom now).Live := by
  obtain ⟨⟨hb, ht, hd⟩, tm, htm, hne, hdel⟩ := h
  have hrow : ∃ tm', (NodeState.updatedInPlaceRow cfg cur patch tmp hasValidFrom now).temporal =
      some tm' ∧ tm'.txFrom = tm.txFrom ∧ tm'.txTo = tm.txTo ∧ tm'.deletedAt = tm.deletedAt := by
    refine ⟨_, rfl, ?_⟩
    rw [Row.block, htm]
    split <;> split <;> exact ⟨rfl, rfl, rfl⟩
  obtain ⟨tm', htm', hfrom, hto, hdel'⟩ := hrow
  refine ⟨⟨?_, ?_, ?_⟩, tm', htm', by rwa [hfrom], by rw [hdel', hdel]⟩
  · simpa [Row.beliefTx, htm', htm, hfrom] using hb
  · simpa [Row.txTo, htm', htm, hto] using ht
  · simpa [Row.deletedAt, htm', htm, hdel'] using hd

variable [DecidableEq V] {cfg : DoorConfig} {st st' : NodeState V} {ev : NodeEvent V}

/-- **Every chain door keeps a sound chain sound.** -/
theorem NodeState.Effect.chainSound (h : st.Effect cfg ev st') (hclock : ClockOk st.clock)
    (hs : ChainSound st.history st.current) : ChainSound st'.history st'.current := by
  have hpos := hclock.nonneg
  cases h with
  | idle => exact hs
  | @created _ wall row hex hwall hcur hlife hrow =>
    refine ⟨hs.sorted, hs.past, fun y hy => ?_⟩
    cases hy
    have hlt := hclock.lt_now hex hwall
    exact hrow.live (inRange_validInstantAfter (hclock.inRange_now hwall))
      (validInstantAfter_ne_zero (hpos.trans_lt hlt) (inRange_maxStampOf hs.past))
  | @superseded _ wall cur new hex hwall hcur hver hnew =>
    have hlive := hs.live cur hcur
    have hlt := hclock.lt_now hex hwall
    have hq := @inRange_validInstantAfter _ cur.beliefTx (hclock.inRange_now hwall)
    rw [hcur] at hs
    refine hs.put (hlive.superseded hq) fun y hy => ?_
    cases hy
    exact hnew.live hq (validInstantAfter_ne_zero (hpos.trans_lt hlt) hlive.1.beliefTx)
  | @cascaded _ wall _ _ _ mode _ _ cur _ sup _ _ hwall hev hc =>
    have hq := hclock.inRange_now hwall
    have hlt := hclock.lt_now hc.writable hwall
    have hlive := hs.live cur hc.live
    obtain ⟨new, -, hrec, ⟨hcur', hhist, hput⟩ | ⟨last, hcur', -, hlast, hhist, hput⟩⟩ := hc.history
    · refine ⟨?_, fun r hr => ?_, fun y hy => ?_⟩
      · rw [hhist, ← hput]
        exact Keyed.sorted_foldl_put hs.sorted new
      · rw [hhist] at hr
        rcases mem_append.mp hr with hr | hr
        · exact hs.past r hr
        · exact (hrec r hr).stampsInRange hq
      · cases hcur'.symm.trans hy
        exact hlive
    · have hdemoted : (demotedRow cur sup mode (st.clock.now wall).2).StampsInRange := by
        unfold demotedRow
        split
        · exact hlive.superseded hq
        · exact hlive.1
      refine ⟨?_, fun r hr => ?_, fun y hy => ?_⟩
      · rw [← hput]
        exact Keyed.sorted_put (Keyed.sorted_foldl_put hs.sorted new) _
      · rw [hhist] at hr
        rcases mem_append.mp hr with hr | hr
        · rcases Keyed.mem_of_mem_put hr with rfl | hr
          · exact hdemoted
          · exact hs.past r hr
        · exact (hrec r hr).stampsInRange hq
      · cases hcur'.symm.trans hy
        exact hlast.live hq (by omega)
  | @ended spec rels wall cur clock' at_ hex hcur hat =>
    rw [hcur] at hs
    refine hs.ended _ ?_ _
    have h := inRange_deleteInstantForNodeCascade cfg.core cur
      (rels.map fun r => ⟨r.1.toInt, r.2.toInt⟩) hclock (toInt_le_max wall)
    rwa [hat] at h

end Sound

end RhoTkg
