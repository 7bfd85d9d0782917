import RhoTkg.DoorClock
import RhoTkg.Replay

/-!
# A tailing replica has the primary's rows

The records of a primary that has one writer at a time, applied once in LSN order on an empty store,
give the primary's store.

Every store call of a door is reproducible (`Primary.doorCalls_ok`): a superseding door stamps the row
it demotes with the transaction instant of the row it writes, and nothing else, so the handler finds
the demoted row in its own current row; a label door changes one token.  So the log with the waiting
records behind it replays to the store, as long as it is in the order of the calls.

A transaction breaks this order when one of its doors does not hand its scope on: the record of a
`ReplaceNodeVersion`, or of the slot of a per-segment label change, goes to the log before the records
that wait.  It can be applied early when no waiting record puts or deletes the same node
(`Store.applyChanges_put_early`); then the replica agrees (`Primary.replica_agrees`).
-/

namespace RhoTkg

open List Store Option

variable {V : Type}

/-! ## The calls of a door -/

/-- The row a call makes current. -/
def StoreCall.currentRow : StoreCall V → Option (Stored V)
  | .put _ x => some x
  | .replace _ x => some x
  | .replaceWithHistory _ x _ _ => some x
  | .changeNodeLabelToken _ _ x => some x
  | .changeNodeLabelTokenWithHistory _ _ x _ _ => some x
  | _ => none

/-- The calls are reproducible one after the other, and make rows current whose transaction instant
is a machine integer. -/
def CallsOk : Store V → List (RoutedCall V) → Prop
  | _, [] => True
  | s, c :: cs => c.call.Reproducible s ∧ (∀ x ∈ c.call.currentRow, InRange x.row.beliefTx) ∧
    ∀ s' r, s.Effect c.call s' r → CallsOk s' cs

variable {e : EntityId} {s : Store V} {lop : LabelOp}

theorem Store.Effect.currentRow {s' : Store V} {c : StoreCall V} {r : Option (Change V)}
    (h : s.Effect c s' r) {x : Stored V} (hx : s'.current e = some x) :
    s.current e = some x ∨ c.currentRow = some x := by
  have hset : ∀ {t : Store V} {e' : EntityId} {y : Stored V},
      (t.setCurrent e' (some y)).current e = some x → t.current e = some x ∨ some y = some x := by
    intro t e' y hy
    by_cases he : e = e'
    · subst he
      rw [current_setCurrent, Function.update_self] at hy
      exact .inr hy
    · rw [current_setCurrent, Function.update_of_ne he] at hy
      exact .inl hy
  have hnone : ∀ {t : Store V} {e' : EntityId}, (t.setCurrent e' none).current e = some x →
      t.current e = some x := by
    intro t e' hy
    by_cases he : e = e'
    · subst he
      rw [current_setCurrent, Function.update_self] at hy
      cases hy
    · rwa [current_setCurrent, Function.update_of_ne he] at hy
  have hrels : ∀ {t : Store V} {ids : Finset Nat}, (t.removeRels ids).current e = some x →
      t.current e = some x := by
    intro t ids hy
    cases e with
    | node n => exact hy
    | rel n =>
      rw [current_removeRels_rel] at hy
      split at hy
      · cases hy
      · exact hy
  cases h with
  | putNode => exact hset hx
  | putRel =>
    exact hset hx
  | replaced | labelled | superseded | labelSuperseded => exact hset hx
  | versionPut | truncated | notTruncated | trimmed | notTrimmed => exact .inl hx
  | relDeleted | relEnded => exact .inl (hrels hx)
  | nodeDeleted => exact .inl (hnone hx)
  | nodeCascaded => exact .inl (hrels (hnone hx))
  | nodeEnded =>
    have := hrels (hnone hx)
    simp only [current_foldl_putHistoryRow, current_putHistoryRow] at this
    exact .inl this

/-- Calls that put history rows come before the others. -/
theorem callsOk_putVersions {ends : Option (Nat × Nat)} {rows : List (Row V)}
    {rest : List (RoutedCall V)} (h : ∀ s' : Store V, s'.current = s.current → CallsOk s' rest) :
    CallsOk s (rows.map (fun r => ⟨.putVersion e r.version ⟨ends, r⟩, true⟩) ++ rest) := by
  induction rows generalizing s with
  | nil => exact h s rfl
  | cons r rows ih =>
    refine ⟨trivial, (fun _ hx => nomatch hx), fun s' c' heff => ih fun t ht => h t ?_⟩
    cases heff
    exact ht

/-! ## Labels -/

/-- The label set changes by the token. -/
def LabelChanged (lop : LabelOp) (old new : List Nat) : Prop :=
  if lop.add then lop.tok ∉ old ∧ new = old ++ [lop.tok]
  else lop.tok ∈ old ∧ new = old.filter (· != lop.tok)

theorem LabelChanged.labelTokenDiff {old new : Stored V}
    (h : LabelChanged lop old.row.labels new.row.labels) :
    labelTokenDiff old new = if lop.add then ([lop.tok], []) else ([], [lop.tok]) := by
  unfold LabelChanged at h
  unfold RhoTkg.labelTokenDiff
  split at h
  · rename_i hadd
    obtain ⟨hnot, hnew⟩ := h
    rw [if_pos hadd, hnew]
    have hold : old.row.labels.filter (!old.row.labels.contains ·) = [] := by
      simp [filter_eq_nil_iff]
    have hkept : old.row.labels.filter (!(old.row.labels ++ [lop.tok]).contains ·) = [] := by
      rw [filter_eq_nil_iff]
      intro a ha
      simp [ha]
    rw [filter_append, hold, hkept]
    simp [hnot]
  · rename_i hadd
    obtain ⟨hmem, hnew⟩ := h
    rw [if_neg hadd, hnew]
    have hnone : (old.row.labels.filter (· != lop.tok)).filter
        (!old.row.labels.contains ·) = [] := by
      rw [filter_eq_nil_iff]
      intro a ha
      simp [(mem_filter.mp ha).1]
    have hgone : old.row.labels.filter
        (!(old.row.labels.filter (· != lop.tok)).contains ·) =
        old.row.labels.filter (· == lop.tok) := by
      refine filter_congr fun a ha => ?_
      by_cases hat : a = lop.tok <;> simp [ha, hat]
    rw [hnone, hgone, filter_beq]
    have hcount : old.row.labels.count lop.tok ≠ 0 := by
      simpa [count_eq_zero] using hmem
    rw [replicate_dedup hcount, dedup_nil]

theorem slotLabelsOk_labelChanged {current new : Row V}
    (h : slotLabelsOk (some lop) current new = true) (hne : new.labels ≠ current.labels) :
    LabelChanged lop current.labels new.labels := by
  unfold slotLabelsOk at h
  simp only at h
  split at h
  · exact absurd (beq_iff_eq.mp h) hne
  · rename_i hdiff
    unfold LabelChanged
    split at h
    · rename_i hadd
      rw [if_pos hadd]
      have hnew := beq_iff_eq.mp h
      refine ⟨fun hmem => hdiff ?_, hnew⟩
      simp [hnew, hmem]
    · rename_i hadd
      rw [if_neg hadd]
      have hnew := beq_iff_eq.mp h
      refine ⟨by_contra fun hmem => hdiff ?_, hnew⟩
      simp [hnew, hmem]

theorem applyNodeLabelOp_labelChanged {cfg : DoorConfig} {labels labels' : List Nat}
    (h : applyNodeLabelOp cfg labels (some lop) = .ok labels')
    (hdiff : ¬ labels.contains lop.tok = lop.add) : LabelChanged lop labels labels' := by
  unfold LabelChanged
  simp only [applyNodeLabelOp] at h
  split at h
  · rename_i hadd
    rw [if_pos hadd]
    split at h
    · cases h
    · split at h
      · cases h
      · rename_i hnot
        cases h
        exact ⟨by simpa using hnot, rfl⟩
  · rename_i hadd
    rw [if_neg hadd]
    split at h
    · cases h
    · cases h
      rw [Bool.not_eq_true] at hadd
      rw [hadd] at hdiff
      exact ⟨by simpa using hdiff, rfl⟩

section Chain

variable [DecidableEq V] {cfg : DoorConfig} {st st' : NodeState V} {ev : NodeEvent V}

variable {current new : Row V} {lop : LabelOp}

theorem NodeState.cascadeNodeMode_labels {newVF newVT wall : Int} {patch : Patch V}
    {mode : CascadeMode} {prov : Bool} (hcur : st.current = some current)
    (hnew : (st.cascadeNodeMode cfg newVF newVT patch mode prov (some lop) wall).1.current = some
      new) : new.labels = current.labels ∨ LabelChanged lop current.labels new.labels := by
  have hsame : st.current = some new → new.labels = current.labels := by
    rintro h
    cases hcur.symm.trans h
    rfl
  unfold cascadeNodeMode at hnew
  split at hnew
  · exact .inl (hsame hnew)
  · simp only [hcur] at hnew
    split at hnew
    · exact .inl (hsame hnew)
    · split at hnew
      · exact .inl (hsame (hcur.trans hnew))
      · rename_i rows sup _
        split at hnew
        · exact .inl (hsame (hcur.trans hnew))
        · rename_i hne
          split at hnew
          · exact .inl (hsame (hcur.trans hnew))
          · rename_i st' hwritten
            have hne' : rows ≠ [] := by
              rintro rfl
              exact hne rfl
            obtain ⟨slot, -, -, ⟨-, rfl⟩ | ⟨last, -, -, hlabels, rfl⟩⟩ :=
              writeCascade_eq_ok hwritten hne'
            · exact .inl (hsame (hcur.trans hnew))
            · cases hnew
              by_cases heq : new.labels = current.labels
              · exact .inl heq
              · exact .inr (slotLabelsOk_labelChanged hlabels heq)

/-- A label door changes the label set by its token. -/
theorem NodeState.changeLabel_labels {wall : Int64} (hcur : st.current = some current)
    (hnew : (st.step cfg (.changeLabel lop wall)).1.current = some new) :
    LabelChanged lop current.labels new.labels ∨ new.labels = current.labels ∧
      ((NodeEvent.changeLabel lop wall : NodeEvent V).cascadesAt cfg st = none →
        new = current) := by
  have hsame : st.current = some new → new = current := by
    intro h
    rw [hcur] at h
    exact (some.inj h).symm
  have hsame' : st.current = some new → new.labels = current.labels ∧
      ((NodeEvent.changeLabel lop wall : NodeEvent V).cascadesAt cfg st = none →
        new = current) := fun h => ⟨by rw [hsame h], fun _ => hsame h⟩
  change (st.changeLabel cfg lop wall.toInt).1.current = some new at hnew
  unfold changeLabel at hnew
  split at hnew
  · exact .inr (hsame' hnew)
  · exact .inr (hsame' hnew)
  rename_i current' _ hcur'
  cases some.inj (hcur'.symm.trans hcur)
  split at hnew
  · rename_i hpart
    have hcascade : (NodeEvent.changeLabel lop wall : NodeEvent V).cascadesAt cfg st ≠ none := by
      simp [NodeEvent.cascadesAt, hpart.1, hcur, hpart.2]
    rcases cascadeNodeMode_labels hcur hnew with heq | hchanged
    · exact .inr ⟨heq, fun h => absurd h hcascade⟩
    · exact .inl hchanged
  split at hnew
  · exact .inr (hsame' hnew)
  rename_i hdiff
  split at hnew
  · exact .inr (hsame' hnew)
  rename_i labels happly
  split at hnew
  · exact .inr (hsame' hnew)
  split at hnew
  · exact .inr (hsame' hnew)
  rcases replaceWithHistory_current hnew with rfl | hold
  · exact .inl (applyNodeLabelOp_labelChanged happly hdiff)
  · exact .inr (hsame' hold)

end Chain

/-! ## The calls of a chain door -/

section StoreCalls

variable {cfg : DoorConfig} {s : Store V} {clock : Clock} {e : EntityId}
  {ends : Option (Nat × Nat)} {ev : NodeEvent V} {st' : NodeState V}

/-- A call alone. -/
theorem callsOk_singleton {c : RoutedCall V} (hrep : c.call.Reproducible s)
    (hrange : ∀ x ∈ c.call.currentRow, InRange x.row.beliefTx) : CallsOk s [c] :=
  ⟨hrep, hrange, fun _ _ _ => trivial⟩

variable {new prev : Row V} {old : Stored V}

/-- The slot of a cascade. -/
theorem callsOk_slotCall (hcur : s.current e = some old) (hrange : InRange new.beliefTx)
    (hlabels : ∀ lop wall, ev = .changeLabel lop wall → LabelChanged lop old.row.labels new.labels
      ∨ new.labels = old.row.labels) : CallsOk s [slotCall e ends ev old.row new] := by
  have hreplace : CallsOk s [⟨.replace e ⟨ends, new⟩, true⟩] :=
    callsOk_singleton trivial fun x hx => by
      cases hx
      exact hrange
  unfold slotCall
  split
  · rename_i id lop wall
    split
    · exact hreplace
    · rename_i hne
      refine callsOk_singleton (fun old' hcur' => ?_) fun x hx => by
        cases hx
        exact hrange
      cases some.inj (hcur'.symm.trans hcur)
      have hchanged := (hlabels lop wall rfl).resolve_right hne
      exact LabelChanged.labelTokenDiff hchanged
  · exact hreplace

/-- The call of a superseding door, whose demoted row is stamped at the new row's instant. -/
theorem callsOk_supersedingCall (hcur : s.current e = some old) (hrange : InRange new.beliefTx)
    (hne : new.version ≠ old.row.version) (hzero : new.beliefTx ≠ 0)
    (hprev : prev = old.row.superseded new.beliefTx)
    (hlabels :
      ∀ lop wall, ev = .changeLabel lop wall → LabelChanged lop old.row.labels new.labels) :
    CallsOk s [supersedingCall e old.ends ev old.row new prev] := by
  have hsuper : (⟨old.ends, prev⟩ : Stored V) = reproduceSupersededTxTo old ⟨old.ends, new⟩ := by
    rw [reproduceSupersededTxTo, if_neg hzero, hprev]
  have hreplace : ∀ routed, CallsOk s
      [⟨.replaceWithHistory e ⟨old.ends, new⟩ old.row.version ⟨old.ends, prev⟩, routed⟩] := by
    refine fun routed => callsOk_singleton (fun old' hcur' => ?_) fun x hx => by
      cases hx
      exact hrange
    cases some.inj (hcur'.symm.trans hcur)
    exact ⟨hne.symm, hsuper⟩
  unfold supersedingCall
  split
  · rename_i id lop wall
    refine callsOk_singleton (fun old' hcur' => ?_) fun x hx => by
      cases hx
      exact hrange
    cases some.inj (hcur'.symm.trans hcur)
    exact ⟨LabelChanged.labelTokenDiff (hlabels lop wall rfl), hsuper⟩
  · exact hreplace false
  · exact hreplace true

/-- The calls of a cascade. -/
theorem callsOk_cascadeCalls {st : NodeState V} (hcur : s.current e = some old)
    (hrange : InRange new.beliefTx)
    (hlabels : ∀ lop wall, ev = .changeLabel lop wall → LabelChanged lop old.row.labels new.labels
      ∨ new.labels = old.row.labels) :
    CallsOk s (cascadeCalls e ends ev st st' old.row new prev) := by
  refine callsOk_putVersions fun t ht => ?_
  split
  · trivial
  · refine ⟨trivial, (fun _ hx => nomatch hx), fun t' r heff => ?_⟩
    cases heff
    exact callsOk_slotCall ((congrFun ht e).trans hcur) hrange hlabels

variable [DecidableEq V]

/-- **The calls of a chain door** are reproducible. -/
theorem NodeState.storeCalls_ok (hclock : ClockOk clock)
    (hrange : ∀ x, s.current e = some x → InRange x.row.beliefTx) :
    CallsOk s ((s.chainState clock e).storeCalls e (s.endsOf e ends) ev cfg
      ((s.chainState clock e).step cfg ev).1) := by
  have heff := (s.chainState clock e).step_effect cfg (fun _ => hclock) ev
  have hnewrange : ∀ {new : Row V}, ((s.chainState clock e).step cfg ev).1.current = some new →
      (s.chainState clock e).current = some new ∨ InRange new.beliefTx := heff.inRange hclock
  have hlabelled : ∀ {current new : Row V}, (s.chainState clock e).current = some current →
      ((s.chainState clock e).step cfg ev).1.current = some new → ∀ lop wall,
      ev = .changeLabel lop wall → LabelChanged lop current.labels new.labels ∨
        new.labels = current.labels ∧ (ev.cascadesAt cfg (s.chainState clock e) = none →
          new = current) := by
    rintro current new hcur hnew lop wall rfl
    exact changeLabel_labels hcur hnew
  generalize ((s.chainState clock e).step cfg ev).1 = st' at heff hnewrange hlabelled
  unfold storeCalls
  split
  · -- a create
    rename_i new hnone hnew
    refine callsOk_singleton trivial fun x hx => ?_
    cases hx
    exact (hnewrange hnew).resolve_left (by rw [hnone]; exact fun h => nomatch h)
  · rename_i current new hcur hnew
    obtain ⟨old, hold, rfl⟩ := map_eq_some_iff.mp hcur
    have hr : InRange new.beliefTx := by
      rcases hnewrange hnew with h | h
      · cases hcur.symm.trans h
        exact hrange old hold
      · exact h
    have hends : s.endsOf e ends = old.ends := by rw [endsOf, hold]
    split
    · exact callsOk_cascadeCalls hold hr fun lop wall hev =>
        (hlabelled hcur hnew lop wall hev).imp_right And.left
    · rename_i hcascade
      split
      · trivial
      · rename_i hne
        rw [hends]
        have hlabels : ∀ lop wall, ev = .changeLabel lop wall →
            LabelChanged lop old.row.labels new.labels := fun lop wall hev =>
          (hlabelled hcur hnew lop wall hev).resolve_right fun h =>
            hne (by rw [h.2 (by simpa using hcascade)])
        cases heff with
        | idle =>
          cases hcur.symm.trans hnew
          exact absurd rfl hne
        | created _ _ hnone =>
          cases hcur.symm.trans hnone
        | cascaded _ hev =>
          rw [hev] at hcascade
          exact absurd rfl hcascade
        | ended => cases hnew
        | superseded hex hwall hcur' _ hnew' =>
          cases some.inj (hcur'.symm.trans hcur)
          cases hnew
          have hpos := hclock.nonneg
          have hlt := hclock.lt_now hex hwall
          refine callsOk_supersedingCall hold hr hne ?_ ?_ hlabels
          · rw [hnew'.beliefTx]
            exact validInstantAfter_ne_zero (hpos.trans_lt hlt) (hrange old hold)
          · rw [hnew'.beliefTx]
            exact historyRowAt_putVersion rfl
  · trivial

end StoreCalls

/-! ## The calls of every door -/

namespace Primary

variable [DecidableEq V] {cfg : GraphConfig} {p p' : Primary V} {d : Door V}

/-- **Every store call of a door is reproducible.** -/
theorem doorCalls_ok (hclock : ClockOk p.clock)
    (hrange : ∀ e x, p.store.current e = some x → InRange x.row.beliefTx) (d : Door V) :
    CallsOk p.store (p.doorCalls cfg d).2 := by
  -- a call that makes no row current and leaves nothing to reproduce
  have hplain : ∀ {c : RoutedCall V}, c.call.Reproducible p.store → c.call.currentRow = none →
      CallsOk p.store [c] := fun hrep hnone =>
    callsOk_singleton hrep fun x hx => by rw [hnone] at hx; cases hx
  cases d with
  | chain e ends ev =>
    rw [doorCalls]
    split
    · dsimp only
      split
      · exact NodeState.storeCalls_ok hclock (hrange e)
      · trivial
    · trivial
  | updateInPlace e patch vf vt wall =>
    have hcases := (NodeState.updateInPlace_cases (cfg.forEntity e) (p.store.chainState p.clock e)
      patch (vf.map (·.map Int64.toInt)) (vt.map (·.map Int64.toInt)) wall.toInt).2
    rw [doorCalls]
    split
    · rename_i new hnew
      split
      · trivial
      · rename_i hne
        refine callsOk_singleton trivial fun x hx => ?_
        cases hx
        rcases hcases with h | ⟨current, new', hcur, hbelief, hnew'⟩
        · exact absurd (h.symm.trans hnew) hne
        · cases some.inj (hnew'.symm.trans hnew)
          obtain ⟨old, hold, rfl⟩ := map_eq_some_iff.mp hcur
          rw [hbelief]
          exact hrange e old hold
    · trivial
  | deleteNode | deleteRel =>
    rw [doorCalls]
    split
    · exact hplain trivial rfl
    · trivial
  | hardDeleteNode | hardDeleteNodeCascade | hardDeleteRel | truncateHistory | trimHistoryFrom =>
    exact hplain trivial rfl

end Primary

/-! ## The condition -/

/-- The node whose current row a call of an unrouted door puts, and the version it demotes. -/
def StoreCall.nodeSlot : StoreCall V → Option (Nat × Option Nat)
  | .replaceWithHistory (.node id) _ prevVersion _ => some (id, some prevVersion)
  | .changeNodeLabelToken id _ _ => some (id, none)
  | _ => none

namespace Primary

/-- The waiting records let the record of a call that logs at once pass: none of them changes the
row the call puts, or the history row it writes. -/
def Passes (p : Primary V) (c : StoreCall V) : Prop :=
  match c.nodeSlot with
  | some slot => ∀ w ∈ p.waiting, w.change.ClearOf slot.1 slot.2
  | none => p.waiting = []

instance (p : Primary V) (c : StoreCall V) : Decidable (p.Passes c) :=
  match h : c.nodeSlot with
  | some slot => decidable_of_iff (∀ w ∈ p.waiting, w.change.ClearOf slot.1 slot.2)
      (by simp [Passes, h])
  | none => decidable_of_iff (p.waiting.isEmpty = true) (by simp [Passes, h])

/-- Every store call of a door that logs at once is let pass. -/
def UnroutedPass (token : Nat) : Primary V → List (RoutedCall V) → Prop
  | _, [] => True
  | p, c :: cs => (c.waits token = false → p.Passes c.call) ∧
      ∀ p' ∈ p.runCall token c, UnroutedPass token p' cs

instance decidableUnroutedPass (token : Nat) : (p : Primary V) → (cs : List (RoutedCall V)) →
    Decidable (p.UnroutedPass token cs)
  | _, [] => inferInstanceAs (Decidable True)
  | p, c :: cs =>
    have : Decidable (∀ p' ∈ p.runCall token c, UnroutedPass token p' cs) :=
      match p.runCall token c with
      | none => isTrue fun _ h => (not_mem_none _ h).elim
      | some p' =>
        have := decidableUnroutedPass token p' cs
        decidable_of_iff (UnroutedPass token p' cs) (by simp)
    inferInstanceAs (Decidable (_ ∧ _))

variable [DecidableEq V] {cfg : GraphConfig} {p p' : Primary V} {token : Nat} {c : RoutedCall V}

/-- One writer at a time, and every transaction door that logs at once is let pass. -/
def SingleWriterPass (cfg : GraphConfig) (p : Primary V) : Event V → Prop
  | .call _ => p.scopeToken = none
  | .txCall d => ∀ token ∈ p.scopeToken,
    { p with clock := (p.doorCalls cfg d).1 }.UnroutedPass token (p.doorCalls cfg d).2
  | _ => True

instance (cfg : GraphConfig) (p : Primary V) :
    (ev : Event V) → Decidable (p.SingleWriterPass cfg ev)
  | .call _ => inferInstanceAs (Decidable (p.scopeToken = none))
  | .txCall d =>
    inferInstanceAs (Decidable (∀ token ∈ p.scopeToken,
      { p with clock := (p.doorCalls cfg d).1 }.UnroutedPass token (p.doorCalls cfg d).2))
  | .beginTx _ => inferInstanceAs (Decidable True)
  | .commit => inferInstanceAs (Decidable True)

/-! ## The run -/

/-- The log with the waiting records behind it replays to the store. -/
structure Replays (p : Primary V) : Prop where
  scope : p.ScopeOk
  clock : ClockOk p.clock
  range : ∀ e x, p.store.current e = some x → InRange x.row.beliefTx
  replay : Store.empty.applyChanges ((p.log.payloads ++ p.waiting).map (·.change)) = .ok p.store

/-- A record logged at once is applied before the records that wait. -/
theorem Replays.logged_early (hinv : p.Replays) {s : Store V} {change : Change V}
    (heff : p.store.Effect c.call s (some change)) (hrep : p.store.applyChange change = .ok s)
    (hpass : p.Passes c.call) :
    Store.empty.applyChanges (p.log.payloads.map (·.change) ++
      change :: p.waiting.map (·.change)) = .ok s := by
  have hreplay := hinv.replay
  rw [map_append] at hreplay
  obtain ⟨u, hu, hwait⟩ := applyChanges_append_ok hreplay
  rw [applyChanges_append hu]
  unfold Passes at hpass
  split at hpass
  · rename_i slot hslot
    have hclear : ∀ b ∈ p.waiting.map (·.change), b.ClearOf slot.1 slot.2 := by
      intro b hb
      obtain ⟨w, hw, rfl⟩ := mem_map.mp hb
      exact hpass w hw
    generalize hc : c.call = call at heff hslot
    cases heff with
    | @superseded e x prev old hcur =>
      cases e with
      | rel => cases hslot
      | node id =>
        cases hslot
        exact applyChanges_put_early hcur hclear hwait hrep
    | @labelled id lop x old hcur =>
      cases hslot
      exact applyChanges_put_early hcur hclear hwait hrep
    | _ => cases hslot
  · rw [hpass] at hwait ⊢
    cases hwait
    simp only [map_nil, applyChanges, hrep]

theorem Replays.runCall (hinv : p.Replays) (htoken : p.UnderToken token)
    (hrep : c.call.Reproducible p.store)
    (hrange : ∀ x ∈ c.call.currentRow, InRange x.row.beliefTx)
    (hpass : c.waits token = false → p.Passes c.call)
    (h : p.runCall token c = some p') : p'.Replays := by
  have hrange' : ∀ {s : Store V} {r : Option (Change V)}, p.store.Effect c.call s r →
      ∀ e x, s.current e = some x → InRange x.row.beliefTx := fun heff e x hx =>
    (heff.currentRow hx).elim (hinv.range e x) (hrange x)
  obtain ⟨s, hcall, rfl⟩ | ⟨s, change, hcall, hp', hlog⟩ := hinv.scope.runCall_cases htoken h
  · rw [call_unlogged hcall]
    exact hinv
  · have heff := call_effect hcall
    have happly := applyChange_of_call hcall hrep
    refine ⟨hinv.scope.runCall htoken h, ?_, ?_, ?_⟩
    · rw [hp']
      exact hinv.clock
    · rw [hp']
      exact hrange' heff
    · have hstore : p'.store = s := by rw [hp']
      obtain ⟨-, hpay, hwait⟩ | ⟨hwaits, hpay, hwait⟩ := hlog
      · rw [hpay, hwait, ← append_assoc, map_append,
          applyChanges_append hinv.replay, hstore]
        simp only [map_cons, map_nil, applyChanges, happly]
      · rw [hpay, hwait, hstore, append_assoc, map_append]
        exact hinv.logged_early heff happly (hpass hwaits)

variable {cs : List (RoutedCall V)}

theorem Replays.runCalls (hinv : p.Replays) (htoken : p.UnderToken token) (hok : CallsOk p.store cs)
    (hpass : p.UnroutedPass token cs) : (p.runCalls token cs).Replays := by
  induction cs generalizing p with
  | nil => exact hinv
  | cons c cs ih =>
    rw [Primary.runCalls]
    split
    · exact hinv
    · rename_i p' hrun
      obtain ⟨hrep, hrange, hrest⟩ := hok
      refine ih (hinv.runCall htoken hrep hrange hpass.1 hrun) (htoken.runCall hrun) ?_
        (hpass.2 p' hrun)
      obtain ⟨r, hcall⟩ := call_of_runCall hrun
      exact hrest _ _ (call_effect hcall)

omit [DecidableEq V] in
/-- Outside a transaction nothing waits. -/
theorem unroutedPass_of_none (h : p.scopeToken = none) : p.UnroutedPass token cs := by
  induction cs generalizing p with
  | nil => trivial
  | cons c cs ih =>
    refine ⟨fun _ => ?_, fun p' hrun => ih ?_⟩
    · unfold Passes
      rw [waiting_of_none h]
      split
      · exact fun w hw => absurd hw not_mem_nil
      · rfl
    · obtain ⟨s, -, rfl⟩ | ⟨s, change, -, rfl⟩ := runCall_eq_some hrun <;> exact h

theorem Replays.runDoor (hinv : p.Replays) (htoken : p.UnderToken token) {d : Door V}
    (hpass : { p with clock := (p.doorCalls cfg d).1 }.UnroutedPass token (p.doorCalls cfg d).2) :
    (p.runDoor cfg token d).Replays :=
  Replays.runCalls ⟨hinv.scope.withClock _, doorCalls_clockOk hinv.clock d, hinv.range, hinv.replay⟩
    htoken (doorCalls_ok hinv.clock hinv.range d) hpass

theorem Replays.step (hinv : p.Replays) {ev : Event V} (hpass : p.SingleWriterPass cfg ev) :
    (p.step cfg ev).Replays := by
  cases ev with
  | call d => exact hinv.runDoor (.inl rfl) (unroutedPass_of_none hpass)
  | beginTx wall =>
    have hscope : (p.step cfg (.beginTx wall)).ScopeOk := hinv.scope.step _
    rw [Primary.step] at hscope ⊢
    split at hscope
    · exact hinv
    · rename_i hnone
      have hreplay := hinv.replay
      rw [waiting_of_none hnone] at hreplay
      refine ⟨hscope, (hinv.clock.now (inRange_toInt wall).2).1, hinv.range, ?_⟩
      simpa [Primary.waiting, ScopedLog.waiting, ScopedLog.beginScopedLog, ScopedLog.payloads]
        using hreplay
  | txCall d =>
    rw [Primary.step]
    split
    · exact hinv
    · rename_i token htoken
      split
      · exact hinv.runDoor (.inr htoken) (hpass token htoken)
      · exact hinv
  | commit =>
    have hscope : (p.step cfg .commit).ScopeOk := hinv.scope.step _
    rw [Primary.step] at hscope ⊢
    split at hscope
    · exact hinv
    · rename_i token htoken
      have hreplay := hinv.replay
      rw [waiting_of_some htoken] at hreplay
      refine ⟨hscope, hinv.clock, hinv.range, ?_⟩
      simpa [Primary.waiting, ScopedLog.payloads_commitScopedLog] using hreplay

/-- The graph was opened on an empty store, with the clock of a graph that can write. -/
def IsOpened (p : Primary V) : Prop := ∃ clock, ClockOk clock ∧ p = .new clock

theorem replays_of_isOpened (h : p.IsOpened) : p.Replays := by
  obtain ⟨clock, hclock, rfl⟩ := h
  exact ⟨scopeOk_new clock, hclock, (fun _ _ hx => nomatch hx), rfl⟩

/-- **A tailing replica has the primary's rows**, in every run of one writer at a time in which no
record waits that changes the row a door logs at once: outside a transaction, the feed applied once on
an empty store is accepted and gives the primary's store. -/
theorem replica_agrees
    (h : Runs.Reachable IsOpened (Runs.Guarded (step cfg) (SingleWriterPass cfg)) p)
    (hidle : p.scopeToken = none) :
    Store.empty.applyChanges (p.log.payloads.map (·.change)) = .ok p.store := by
  have hinv : p.Replays := by
    refine h.invariant (fun _ => replays_of_isOpened) ?_
    rintro q ev _ - hq ⟨hpass, rfl⟩
    exact hq.step hpass
  have hreplay := hinv.replay
  rwa [waiting_of_none hidle, append_nil] at hreplay

/-! ## Runs a replica follows and one it does not -/

/-- Two nodes and a relationship, a transaction that replaces the version of the first node and
changes labels, and the delete of a node with its relationship. -/
def replicatedRun : List (Event Nat) :=
  [.call (addNode 1 1), .call (addNode 2 2), .call (updateNode 1 2 3), .beginTx 4,
    .txCall (updateNode 2 3 5),
    .txCall (.chain (.node 1) none (.replaceVersion [(1, 7)] 5 0 6)),
    .txCall (.chain (.rel 4) (some (1, 2)) (.add [2] [] none none 7)),
    .txCall (.chain (.node 1) none (.changeLabel ⟨3, true⟩ 8)), .commit,
    .call (.chain (.node 1) none (.setInterval 2 4 [(1, some 5)] 9)),
    .call (.updateInPlace (.node 1) [(2, some 1)] none none 10),
    .call (.deleteNode 2 ⟨false, false⟩ [11]), .call (.truncateHistory (.node 1) 2)]

theorem replica_agrees_replicatedRun :
    Store.empty.applyChanges ((runOf replicatedRun).log.payloads.map (·.change)) =
      .ok (runOf replicatedRun).store ∧ (runOf replicatedRun).log.payloads.length = 13 :=
  ⟨replica_agrees (.foldl (.start ⟨.fresh, ⟨by decide, by decide, by decide⟩, rfl⟩)
    (by decide +kernel)) (by decide +kernel), by decide +kernel⟩

/-- The replica keeps the row the transaction created, and not the one that replaced it. -/
theorem not_replicated_replacedInTx :
    (Store.empty.applyChanges ((runOf replaceInTx).log.payloads.map (·.change))).toOption.map
        (fun s => ((s.current (.node 1)).map (·.version), (s.history (.node 1)).length)) =
      some (some 0, 0) ∧
    (((runOf replaceInTx).store.current (.node 1)).map (·.version),
      ((runOf replaceInTx).store.history (.node 1)).length) = (some 1, 1) := by
  decide +kernel

end Primary

end RhoTkg
