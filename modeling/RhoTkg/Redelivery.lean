import RhoTkg.ChangeLog
import RhoTkg.Library.Runs
import RhoTkg.Primary
import RhoTkg.Replay

/-!
# Redelivery after a crash

A replica applies a call's records, flushes its store and then writes its watermark, the applied LSN.
A crash between the two leaves the watermark behind the store, and the driver, which resumes from the
watermark, delivers the records of the call again.  They meet the store the whole call left.

A record that finds what it left is taken for applied and changes nothing (`Change.Settled`).  It finds
it as long as no later record of the call changed the same row (`Lasting`); then every redelivery is
a no-op, and the store is the one that delivery once gives (`ReplicaGraph.redelivery_converges`).
Otherwise the handler takes the newer row for the one the record was made from.  It moves it to
history, or refuses the record.
-/

namespace RhoTkg

open List Function

variable {V : Type}

/-! ## The apply loop -/

/-- The errors of `ApplyChanges`. -/
inductive ReplError where
  | apply (e : ApplyError)
  | errChangesNotAscending
deriving DecidableEq, Repr

/-- The loop of `ReplOps.ApplyChanges`: the store, the last LSN applied and the error that ended it. -/
def applyBatch [DecidableEq V] : Store V → (last prevLSN : Nat) → List (ChangeRecord (Change V)) →
    Store V × Nat × Option ReplError
  | s, last, _, [] => (s, last, none)
  | s, last, prevLSN, rec :: recs =>
    if prevLSN ≠ 0 ∧ rec.lsn ≤ prevLSN then (s, last, some .errChangesNotAscending)
    else if rec.lsn ≤ last then applyBatch s last rec.lsn recs
    else
      match s.applyChange rec.payload with
      | .error e => (s, last, some (.apply e))
      | .ok s' => applyBatch s' rec.lsn rec.lsn recs

/-- Consecutive records from the LSN `first` on. -/
def numbered (first : Nat) : List (Change V) → List (ChangeRecord (Change V))
  | [] => []
  | b :: l => ⟨first, b⟩ :: numbered (first + 1) l

/-- A replica: its store and the durable applied LSN.  `reached` is bookkeeping no call reads: the
number of records of the feed the store has seen. -/
structure ReplicaGraph (V : Type) where
  store : Store V
  appliedLSN : Nat
  reached : Nat

namespace ReplicaGraph

variable [DecidableEq V] (feed : List (Change V)) (r : ReplicaGraph V)

/-- The next `n` records of the feed after the watermark. -/
def nextRecords (n : Nat) : List (ChangeRecord (Change V)) :=
  numbered (r.appliedLSN + 1) ((feed.drop r.appliedLSN).take n)

/-- `ReplOps.ApplyChanges`; `crash` ends the process before the watermark is written. -/
def applyChanges (recs : List (ChangeRecord (Change V))) (crash : Bool) :
    ReplicaGraph V × Option ReplError :=
  let b := applyBatch r.store r.appliedLSN 0 recs
  (⟨b.1, if crash then r.appliedLSN else b.2.1, max r.reached b.2.1⟩, b.2.2)

/-- `ReplOps.ApplyChange`. -/
def applyChange (rec : ChangeRecord (Change V)) (crash : Bool) : ReplicaGraph V × Option ReplError :=
  if rec.lsn ≤ r.appliedLSN then (r, none)
  else
    match r.store.applyChange rec.payload with
    | .error e => (r, some (.apply e))
    | .ok s =>
      (⟨s, if crash then r.appliedLSN else rec.lsn, max r.reached rec.lsn⟩, none)

/-- What the driver does: deliver the record after the watermark, or the `n` records. -/
inductive Call where
  | one (crash : Bool)
  | batch (n : Nat) (crash : Bool)

/-- The number of records a call delivers. -/
def Call.size : Call → Nat
  | .one _ => 1
  | .batch n _ => n

/-- One call. -/
def call : Call → ReplicaGraph V × Option ReplError
  | .one crash =>
    match r.nextRecords feed 1 with
    | [] => (r, none)
    | rec :: _ => r.applyChange rec crash
  | .batch n crash => r.applyChanges (r.nextRecords feed n) crash

/-- The replica after a call. -/
def step (c : Call) : ReplicaGraph V := (r.call feed c).1

/-- A replica that has seen nothing. -/
def empty : ReplicaGraph V := ⟨.empty, 0, 0⟩

end ReplicaGraph

/-! ## The condition -/

/-- The change sets the current row of the entity. -/
def Change.SetsCurrent (s : Store V) (e : EntityId) : Change V → Prop
  | .put e' _ _ => e' = e
  | .nodeDelete id _ _ _ => e = .node id ∨ ∃ r ∈ s.relIDs id, e = .rel r
  | .relDelete id _ => e = .rel id
  | .historyVersion .. => False
  | .historyTruncate .. => False

/-- The change puts a current row. -/
def Change.Puts (e : EntityId) : Change V → Prop
  | .put e' _ _ => e' = e
  | _ => False

/-- The history rows a change writes on the store `s`, by entity and version. -/
def Change.historyCells (s : Store V) : Change V → List (EntityId × Nat)
  | .put e _ true => ((s.current e).map fun old => (e, old.version)).toList
  | .nodeDelete id (some tombstone) rels _ =>
    (.node id, tombstone.version) :: rels.map fun r => (.rel r.1, r.2.version)
  | .relDelete id (some tombstone) => [(.rel id, tombstone.version)]
  | .historyVersion e _ x => [(e, x.version)]
  | _ => []

/-- The change removes no history row `x` of the entity. -/
def Change.Spares [DecidableEq V] (s : Store V) (e : EntityId) (x : Stored V) : Change V → Prop
  | .historyTruncate e' false keep =>
    e' = e → x ∈ (s.history e).drop ((s.history e).length - keep)
  | .historyTruncate e' true minVersion => e' = e → x.version < minVersion
  | _ => True

/-- The change `b`, applied to `s`, leaves alone what `a` has left. -/
def Change.Keeps [DecidableEq V] (s : Store V) (a b : Change V) : Prop :=
  match a with
  | .put e _ _ => ¬ b.SetsCurrent s e
  | .nodeDelete id _ _ _ => ¬ b.Puts (.node id)
  | .relDelete id _ => ¬ b.Puts (.rel id)
  | .historyVersion e _ x => (e, x.version) ∉ b.historyCells s ∧ b.Spares s e x
  | .historyTruncate e false _ => ∀ c ∈ b.historyCells s, c.1 ≠ e
  | .historyTruncate e true minVersion => ∀ c ∈ b.historyCells s, c.1 = e → c.2 < minVersion

/-- The changes `l`, applied to `s` one after the other, leave alone what `a` has left. -/
def Lasting [DecidableEq V] (a : Change V) : Store V → List (Change V) → Prop
  | _, [] => True
  | s, b :: l => Change.Keeps s a b ∧ ∀ t, s.applyChange b = .ok t → Lasting a t l

/-- Each of the first `n` of the changes is left alone by those behind it. -/
def Undisturbed [DecidableEq V] : Store V → Nat → List (Change V) → Prop
  | _, 0, _ => True
  | _, _, [] => True
  | s, n + 1, a :: l => ∀ t, s.applyChange a = .ok t → Lasting a t l ∧ Undisturbed t n l

/-- The call redelivers no record that a later record of the feed, seen before the crash, has
overtaken. -/
def ReplicaGraph.NotOvertaken [DecidableEq V] (feed : List (Change V)) (r : ReplicaGraph V)
    (c : ReplicaGraph.Call) : Prop :=
  ∀ s, Store.empty.applyChanges (feed.take r.appliedLSN) = .ok s →
    Undisturbed s c.size ((feed.drop r.appliedLSN).take (r.reached - r.appliedLSN))

section Decidable

variable [DecidableEq V] (s : Store V)

instance decidableForallOk {ε α : Type} {x : Except ε α} {P : α → Prop} [∀ t, Decidable (P t)] :
    Decidable (∀ t, x = .ok t → P t) :=
  match x with
  | .error _ => isTrue nofun
  | .ok t => decidable_of_iff (P t) (by simp)

instance (e : EntityId) : (b : Change V) → Decidable (b.SetsCurrent s e)
  | .put e' _ _ => inferInstanceAs (Decidable (e' = e))
  | .nodeDelete id _ _ _ =>
    inferInstanceAs (Decidable (e = .node id ∨ ∃ r ∈ s.relIDs id, e = .rel r))
  | .relDelete id _ => inferInstanceAs (Decidable (e = .rel id))
  | .historyVersion .. => inferInstanceAs (Decidable False)
  | .historyTruncate .. => inferInstanceAs (Decidable False)

instance (e : EntityId) : (b : Change V) → Decidable (b.Puts e)
  | .put e' _ _ => inferInstanceAs (Decidable (e' = e))
  | .nodeDelete .. => inferInstanceAs (Decidable False)
  | .relDelete .. => inferInstanceAs (Decidable False)
  | .historyVersion .. => inferInstanceAs (Decidable False)
  | .historyTruncate .. => inferInstanceAs (Decidable False)

instance (e : EntityId) (x : Stored V) : (b : Change V) → Decidable (b.Spares s e x)
  | .historyTruncate e' false keep => inferInstanceAs (Decidable
      (e' = e → x ∈ (s.history e).drop ((s.history e).length - keep)))
  | .historyTruncate e' true minVersion => inferInstanceAs (Decidable (e' = e → x.version < minVersion))
  | .put .. => inferInstanceAs (Decidable True)
  | .nodeDelete .. => inferInstanceAs (Decidable True)
  | .relDelete .. => inferInstanceAs (Decidable True)
  | .historyVersion .. => inferInstanceAs (Decidable True)

instance (b : Change V) : (a : Change V) → Decidable (Change.Keeps s a b)
  | .put e _ _ => inferInstanceAs (Decidable (¬ b.SetsCurrent s e))
  | .nodeDelete id _ _ _ => inferInstanceAs (Decidable (¬ b.Puts (.node id)))
  | .relDelete id _ => inferInstanceAs (Decidable (¬ b.Puts (.rel id)))
  | .historyVersion e _ x =>
    inferInstanceAs (Decidable ((e, x.version) ∉ b.historyCells s ∧ b.Spares s e x))
  | .historyTruncate e false _ => inferInstanceAs (Decidable (∀ c ∈ b.historyCells s, c.1 ≠ e))
  | .historyTruncate e true minVersion =>
    inferInstanceAs (Decidable (∀ c ∈ b.historyCells s, c.1 = e → c.2 < minVersion))

instance decidableLasting (a : Change V) : (s : Store V) → (l : List (Change V)) →
    Decidable (Lasting a s l)
  | _, [] => inferInstanceAs (Decidable True)
  | s, b :: l =>
    have := fun t => decidableLasting a t l
    inferInstanceAs (Decidable (Change.Keeps s a b ∧ ∀ t, s.applyChange b = .ok t → Lasting a t l))

instance decidableUndisturbed : (s : Store V) → (n : Nat) → (l : List (Change V)) →
    Decidable (Undisturbed s n l)
  | _, 0, _ => inferInstanceAs (Decidable True)
  | _, _ + 1, [] => inferInstanceAs (Decidable True)
  | s, n + 1, a :: l =>
    have := fun t => decidableUndisturbed t n l
    inferInstanceAs (Decidable
      (∀ t, s.applyChange a = .ok t → Lasting a t l ∧ Undisturbed t n l))

instance (feed : List (Change V)) (r : ReplicaGraph V) (c : ReplicaGraph.Call) :
    Decidable (r.NotOvertaken feed c) :=
  inferInstanceAs (Decidable (∀ s, Store.empty.applyChanges (feed.take r.appliedLSN) = .ok s →
    Undisturbed s c.size ((feed.drop r.appliedLSN).take (r.reached - r.appliedLSN))))

end Decidable

/-! ## What a record leaves stays -/

/-- The histories are keyed by version. -/
def Store.HistorySorted (s : Store V) : Prop := ∀ e, Keyed.Sorted Stored.version (s.history e)

/-- What the handler asks of a record whatever the store holds. -/
def Change.WellFormed : Change V → Prop
  | .nodeDelete id none _ _ => id ≠ 0
  | .relDelete id none => id ≠ 0
  | .historyVersion e version x => validVersionSnapshot e version x = true
  | .historyTruncate e _ _ => e.valid = true
  | _ => True

section Settled

variable {s t : Store V} {a b : Change V}

namespace Store

variable {e : EntityId} {y : Stored V} {rels : List (RelTombstone V)}

theorem mem_putHistoryRow (hs : s.HistorySorted) {e' : EntityId} {x : Stored V} :
    y ∈ (s.putHistoryRow e x).history e' ↔
      (e' = e ∧ y = x) ∨ (y ∈ s.history e' ∧ (e', y.version) ≠ (e, x.version)) := by
  by_cases he : e' = e
  · subst he
    rw [history_putHistoryRow, update_self, Keyed.mem_put (hs e')]
    simp [Prod.ext_iff]
  · rw [history_putHistoryRow, update_of_ne he]
    simp [he]

theorem HistorySorted.putHistoryRow (hs : s.HistorySorted) (e : EntityId) (x : Stored V) :
    (s.putHistoryRow e x).HistorySorted := by
  intro e'
  by_cases he : e' = e
  · subst he
    rw [history_putHistoryRow, update_self]
    exact Keyed.sorted_put (hs e') x
  · rw [history_putHistoryRow, update_of_ne he]
    exact hs e'

theorem HistorySorted.foldl_putHistoryRow (hs : s.HistorySorted) :
    (rels.foldl (fun s rt => s.putHistoryRow (.rel rt.id) rt.tombstone) s).HistorySorted :=
  foldlRecOn rels _ hs fun _ h _ _ => h.putHistoryRow _ _

/-- The rows after a list of tombstones. -/
theorem mem_foldl_putHistoryRow (hs : s.HistorySorted)
    (hy : y ∈ (rels.foldl (fun s rt => s.putHistoryRow (.rel rt.id) rt.tombstone) s).history e) :
    y ∈ s.history e ∨ ∃ rt ∈ rels, (e, y.version) = (.rel rt.id, rt.tombstone.version) := by
  induction rels generalizing s with
  | nil => exact .inl hy
  | cons rt rels ih =>
    rcases ih (hs.putHistoryRow (.rel rt.id) rt.tombstone) hy with hy | ⟨rt', hrt', heq⟩
    · rcases (mem_putHistoryRow hs).mp hy with ⟨rfl, rfl⟩ | hy
      · exact .inr ⟨rt, mem_cons_self, rfl⟩
      · exact .inl hy.1
    · exact .inr ⟨rt', mem_cons_of_mem _ hrt', heq⟩

/-- A row under no tombstone's version stays. -/
theorem mem_foldl_putHistoryRow_of_ne (hs : s.HistorySorted) (hy : y ∈ s.history e)
    (hne : ∀ rt ∈ rels, (e, y.version) ≠ (.rel rt.id, rt.tombstone.version)) :
    y ∈ (rels.foldl (fun s rt => s.putHistoryRow (.rel rt.id) rt.tombstone) s).history e := by
  induction rels generalizing s with
  | nil => exact hy
  | cons rt rels ih =>
    refine ih (hs.putHistoryRow (.rel rt.id) rt.tombstone) ?_ fun rt' hrt' =>
      hne rt' (mem_cons_of_mem _ hrt')
    exact (mem_putHistoryRow hs).mpr (.inr ⟨hy, hne rt mem_cons_self⟩)

namespace Applied

/-- A change keeps the histories keyed. -/
theorem historySorted (h : s.Applied b t) (hs : s.HistorySorted) : t.HistorySorted := by
  have hset : ∀ {e : EntityId} {rows : List (Stored V)}, rows.Sublist (s.history e) →
      (s.setHistory e rows).HistorySorted := by
    intro e rows hsub e'
    rw [history_setHistory, update_apply]
    split
    · rename_i he
      subst he
      exact (hs e').sublist hsub
    · exact hs e'
  cases h with
  | already | created | relCreated | replaced => exact hs
  | superseded => exact hs.putHistoryRow _ _
  | nodeDeleted => exact hs
  | nodeEnded => exact (hs.putHistoryRow _ _).foldl_putHistoryRow
  | relDeleted => exact hs
  | relEnded | versionPut => exact hs.putHistoryRow _ _
  | truncated => exact hset (drop_sublist _ _)
  | trimmed => exact hset filter_sublist

variable {e : EntityId} {y : Stored V}

/-- A change that does not set an entity's current row keeps it. -/
theorem current_of_not_setsCurrent (h : s.Applied b t) (hne : ¬ b.SetsCurrent s e) :
    t.current e = s.current e := by
  have hset : ∀ {u : Store V} {e' : EntityId} {x : Option (Stored V)}, e' ≠ e →
      (u.setCurrent e' x).current e = u.current e := fun he =>
    update_of_ne he.symm _ _
  have hrels : ∀ {u : Store V} {ids : Finset Nat}, (∀ r ∈ ids, e ≠ .rel r) →
      (u.removeRels ids).current e = u.current e := by
    intro u ids hids
    cases e with
    | node n => rfl
    | rel n =>
      rw [current_removeRels_rel, if_neg]
      exact fun hn => hids n hn rfl
  have hsingle : ∀ {id : Nat}, e ≠ .rel id → ∀ r ∈ ({id} : Finset Nat), e ≠ .rel r := by
    intro id he r hr
    rwa [Finset.mem_singleton.mp hr]
  cases h with
  | already => rfl
  | created => exact hset hne
  | relCreated =>
    exact hset hne
  | replaced | superseded => exact hset hne
  | nodeDeleted =>
    rw [Change.SetsCurrent, not_or, not_exists] at hne
    exact (hset (Ne.symm hne.1)).trans (hrels fun r hr heq => hne.2 r ⟨hr, heq⟩)
  | nodeEnded =>
    rw [Change.SetsCurrent, not_or, not_exists] at hne
    refine (hset (Ne.symm hne.1)).trans ((hrels fun r hr heq => hne.2 r ⟨hr, heq⟩).trans ?_)
    rw [current_foldl_putHistoryRow]
    rfl
  | relDeleted | relEnded => exact hrels (hsingle hne)
  | versionPut | truncated | trimmed => rfl

/-- A change that puts no row of a deleted entity leaves it deleted. -/
theorem current_none (h : s.Applied b t) (hne : ¬ b.Puts e) (hnone : s.current e = none) :
    t.current e = none := by
  have hdelete : ∀ {u : Store V} {e' : EntityId}, u.current e = none →
      (u.setCurrent e' none).current e = none := by
    intro u e' hu
    rw [current_setCurrent, update_apply]
    split
    · rfl
    · exact hu
  have hrels : ∀ {u : Store V} {ids : Finset Nat}, u.current e = none →
      (u.removeRels ids).current e = none := by
    intro u ids hu
    cases e with
    | node n => exact hu
    | rel n =>
      rw [current_removeRels_rel, hu, ite_self]
  cases h with
  | nodeDeleted => exact hdelete (hrels hnone)
  | nodeEnded =>
    refine hdelete (hrels ?_)
    rw [current_foldl_putHistoryRow]
    exact hnone
  | relDeleted | relEnded => exact hrels hnone
  | already | versionPut | truncated | trimmed => exact hnone
  | created | relCreated | replaced | superseded =>
    exact (update_of_ne (Ne.symm hne) _ _).trans hnone

/-- The history rows after a change: rows from before, and rows the change writes. -/
theorem mem_history (h : s.Applied b t) (hs : s.HistorySorted) (hy : y ∈ t.history e) :
    y ∈ s.history e ∨ (e, y.version) ∈ b.historyCells s := by
  have hput : ∀ {e' : EntityId} {x : Stored V}, y ∈ (s.putHistoryRow e' x).history e →
      y ∈ s.history e ∨ (e, y.version) = (e', x.version) := by
    intro e' x hy
    rcases (mem_putHistoryRow hs).mp hy with ⟨rfl, rfl⟩ | hy
    · exact .inr rfl
    · exact .inl hy.1
  have hfirst : ∀ {c : EntityId × Nat} {l : List (EntityId × Nat)}, (e, y.version) = c →
      (e, y.version) ∈ c :: l := fun heq => heq ▸ mem_cons_self
  have hset : ∀ {e' : EntityId} {rows : List (Stored V)}, rows.Sublist (s.history e') →
      y ∈ (s.setHistory e' rows).history e → y ∈ s.history e := by
    intro e' rows hsub hy
    rw [history_setHistory, update_apply] at hy
    split at hy
    · rename_i he
      subst he
      exact hsub.subset hy
    · exact hy
  cases h with
  | already | created | relCreated | replaced => exact .inl hy
  | superseded hcur =>
    refine (hput hy).imp_right fun heq => ?_
    rw [heq, reproduceSupersededTxTo_version, Change.historyCells, hcur]
    exact mem_cons_self
  | nodeDeleted => exact .inl hy
  | nodeEnded =>
    rcases mem_foldl_putHistoryRow (hs.putHistoryRow _ _) hy with hy | ⟨rt, hrt, heq⟩
    · exact (hput hy).imp_right hfirst
    · refine .inr (mem_cons_of_mem _ ?_)
      rw [heq, map_map]
      exact mem_map_of_mem (f := fun rt : RelTombstone V =>
        (EntityId.rel rt.id, rt.tombstone.version)) hrt
  | relDeleted => exact .inl hy
  | relEnded | versionPut => exact (hput hy).imp_right hfirst
  | truncated => exact .inl (hset (drop_sublist _ _) hy)
  | trimmed => exact .inl (hset filter_sublist hy)

/-- A history row that a change neither overwrites nor removes stays. -/
theorem mem_history_of_spares [DecidableEq V] (h : s.Applied b t) (hs : s.HistorySorted)
    (hy : y ∈ s.history e) (hne : (e, y.version) ∉ b.historyCells s) (hspares : b.Spares s e y) :
    y ∈ t.history e := by
  have hput : ∀ {e' : EntityId} {x : Stored V}, (e, y.version) ≠ (e', x.version) →
      y ∈ (s.putHistoryRow e' x).history e := fun hne =>
    (mem_putHistoryRow hs).mpr (.inr ⟨hy, hne⟩)
  cases h with
  | already | created | relCreated | replaced => exact hy
  | superseded hcur =>
    refine hput fun heq => hne ?_
    rw [heq, reproduceSupersededTxTo_version, Change.historyCells, hcur]
    exact mem_cons_self
  | nodeDeleted => exact hy
  | nodeEnded =>
    refine mem_foldl_putHistoryRow_of_ne (hs.putHistoryRow _ _)
      (hput fun heq => hne (heq ▸ mem_cons_self)) fun rt hrt heq => hne ?_
    rw [Change.historyCells, heq, map_map]
    exact mem_cons_of_mem _ (mem_map_of_mem (f := fun rt : RelTombstone V =>
      (EntityId.rel rt.id, rt.tombstone.version)) hrt)
  | relDeleted => exact hy
  | relEnded | versionPut => exact hput fun heq => hne (heq ▸ mem_cons_self)
  | truncated =>
    rw [history_setHistory, update_apply]
    split
    · rename_i he
      subst he
      exact hspares rfl
    · exact hy
  | trimmed =>
    rw [history_setHistory, update_apply]
    split
    · rename_i he
      subst he
      exact mem_filter.mpr ⟨hy, decide_eq_true (hspares rfl)⟩
    · exact hy

/-- A change that writes no history row of an entity does not add one. -/
theorem length_history_le (h : s.Applied b t) (hs : s.HistorySorted)
    (hne : ∀ c ∈ b.historyCells s, c.1 ≠ e) : (t.history e).length ≤ (s.history e).length := by
  have hnodup : (t.history e).Nodup :=
    (h.historySorted hs e).imp fun hlt heq => hlt.ne (congrArg Stored.version heq)
  refine (hnodup.subperm fun y hy => ?_).length_le
  exact (h.mem_history hs hy).resolve_right fun hcell => hne _ hcell rfl

/-- An accepted record is settled. -/
theorem settled (h : s.Applied b t) (hs : s.HistorySorted) : b.Settled t := by
  cases h with
  | already h => exact h
  | created | relCreated | replaced | superseded | nodeDeleted | nodeEnded =>
    exact update_self _ _ _
  | relDeleted | relEnded => exact if_pos (Finset.mem_singleton_self _)
  | versionPut => exact (mem_putHistoryRow hs).mpr (.inl ⟨rfl, rfl⟩)
  | truncated =>
    rw [Change.Settled, history_setHistory, update_self, length_drop]
    omega
  | trimmed =>
    intro x hx
    rw [history_setHistory, update_self] at hx
    exact of_decide_eq_true (mem_filter.mp hx).2

/-- What a record left stays as long as the next one leaves it alone. -/
theorem keeps_settled [DecidableEq V] (h : s.Applied b t) (hs : s.HistorySorted)
    (hkeeps : Change.Keeps s a b) (ha : a.Settled s) : a.Settled t := by
  cases a with
  | put e x wh => exact (h.current_of_not_setsCurrent hkeeps).trans ha
  | nodeDelete | relDelete => exact h.current_none hkeeps ha
  | historyVersion e version x => exact h.mem_history_of_spares hs ha hkeeps.1 hkeeps.2
  | historyTruncate e isTrim bound =>
    cases isTrim with
    | false => exact (h.length_history_le hs hkeeps).trans ha
    | true =>
      intro y hy
      rcases h.mem_history hs hy with hy | hcell
      · exact ha y hy
      · exact hkeeps _ hcell rfl

end Applied

variable [DecidableEq V]

/-- What the handler asks of the record itself. -/
theorem wellFormed_of_applyChange (h : s.applyChange b = .ok t) : b.WellFormed := by
  cases b with
  | put e x wh => trivial
  | nodeDelete id tombstone rels cascaded =>
    cases tombstone with
    | some tombstone => trivial
    | none =>
      rintro rfl
      cases h
  | relDelete id tombstone =>
    cases tombstone with
    | some tombstone => trivial
    | none =>
      rintro rfl
      cases h
  | historyVersion e version x =>
    obtain ⟨change, hcall⟩ := StoreResult.applied_eq_ok h
    unfold putVersion at hcall
    split at hcall
    · assumption
    · cases hcall
  | historyTruncate e isTrim bound =>
    unfold Change.WellFormed
    by_contra he
    cases isTrim with
    | false =>
      obtain ⟨change, hcall⟩ := StoreResult.applied_eq_ok h
      rw [truncateHistory, if_neg he] at hcall
      cases hcall
    | true =>
      obtain ⟨change, hcall⟩ := StoreResult.applied_eq_ok h
      rw [trimHistoryFrom, if_neg he] at hcall
      cases hcall

/-- **A settled record is taken for applied.** -/
theorem applyChange_of_settled (hs : s.HistorySorted) (hsettled : b.Settled s)
    (hform : b.WellFormed) : s.applyChange b = .ok s := by
  cases b with
  | put e x wh =>
    have hcur : s.current e = some x := hsettled
    simp only [applyChange, applyPut, hcur, if_true]
  | nodeDelete id tombstone rels cascaded =>
    have hnone : s.current (.node id) = none := hsettled
    cases tombstone with
    | some tombstone => simp only [applyChange, applyNodeDelete, hnone]
    | none =>
      have hid : id ≠ 0 := hform
      simp [applyChange, applyNodeDelete, deleteNodeCascade, deleted, hnone, hid]
  | relDelete id tombstone =>
    have hnone : s.current (.rel id) = none := hsettled
    cases tombstone with
    | some tombstone => simp only [applyChange, applyRelDelete, hnone]
    | none =>
      have hid : id ≠ 0 := hform
      simp [applyChange, applyRelDelete, deleteRelationship, deleted, hnone, hid]
  | historyVersion e version x =>
    have hvalid : validVersionSnapshot e version x = true := hform
    have hsame : s.putHistoryRow e x = s := by
      rw [putHistoryRow, Keyed.put_of_mem (hs e) hsettled, update_eq_self]
    simp only [applyChange, putVersion, hvalid, if_true, hsame, StoreResult.applied]
  | historyTruncate e isTrim bound =>
    have he : e.valid = true := hform
    cases isTrim with
    | false =>
      have hshort : (s.history e).length ≤ bound := hsettled
      simp [applyChange, truncateHistory, he, hshort, StoreResult.applied]
    | true =>
      have hall : ∀ x ∈ s.history e, x.version < bound := hsettled
      have hbelow : ¬ ((s.history e).any fun x => decide (bound ≤ x.version)) = true := by
        simpa [any_eq_true] using hall
      simp only [applyChange, trimHistoryFrom, he, if_true, if_neg hbelow, StoreResult.applied]

theorem HistorySorted.applyChanges {l : List (Change V)} (hs : s.HistorySorted)
    (h : s.applyChanges l = .ok t) : t.HistorySorted := by
  induction l generalizing s with
  | nil =>
    cases h
    exact hs
  | cons b l ih =>
    rw [Store.applyChanges] at h
    split at h
    · cases h
    · rename_i u hu
      exact ih ((applyChange_applied hu).historySorted hs) h

end Store

variable [DecidableEq V]

variable {l : List (Change V)}

theorem Lasting.settled (h : Lasting a s l) (hs : s.HistorySorted) (ha : a.Settled s)
    (happly : s.applyChanges l = .ok t) : a.Settled t := by
  induction l generalizing s with
  | nil =>
    cases happly
    exact ha
  | cons b l ih =>
    rw [Store.applyChanges] at happly
    split at happly
    · cases happly
    · rename_i u hu
      have happlied := Store.applyChange_applied hu
      exact ih (h.2 u hu) (happlied.historySorted hs) (happlied.keeps_settled hs h.1 ha) happly

/-- An undisturbed record changes nothing when it is delivered again. -/
theorem Undisturbed.redelivered {n : Nat} (h : Undisturbed s n l) (hs : s.HistorySorted)
    (happly : s.applyChanges l = .ok t) : ∀ a ∈ l.take n, t.applyChange a = .ok t := by
  induction l generalizing s n with
  | nil => simp
  | cons b l ih =>
    cases n with
    | zero => simp
    | succ n =>
      rw [Store.applyChanges] at happly
      split at happly
      · cases happly
      · rename_i u hu
        obtain ⟨hlast, hrest⟩ := h u hu
        have happlied := Store.applyChange_applied hu
        have hsu := happlied.historySorted hs
        intro a ha
        rcases mem_cons.mp ha with rfl | ha
        · exact Store.applyChange_of_settled (hsu.applyChanges happly)
            (hlast.settled hsu (happlied.settled hs) happly) (Store.wellFormed_of_applyChange hu)
        · exact ih hrest hsu happly a ha

end Settled

/-! ## A call -/

section Batch

variable [DecidableEq V] {s : Store V} {k prev : Nat}

variable {l : List (Change V)}

/-- The next record is neither out of order nor stale. -/
theorem applyBatch_cons {b : Change V} (hprev : prev ≤ k) :
    applyBatch s k prev (numbered (k + 1) (b :: l)) =
      match s.applyChange b with
      | .error e => (s, k, some (.apply e))
      | .ok s' => applyBatch s' (k + 1) (k + 1) (numbered (k + 1 + 1) l) := by
  rw [numbered, applyBatch, if_neg (by dsimp only; omega), if_neg (by dsimp only; omega)]

/-- Records that change nothing only move the last LSN. -/
theorem applyBatch_redelivered {m : List (Change V)} (hl : ∀ a ∈ l, s.applyChange a = .ok s)
    (hprev : prev ≤ k) : ∃ prev' ≤ k + l.length, applyBatch s k prev (numbered (k + 1) (l ++ m)) =
      applyBatch s (k + l.length) prev' (numbered (k + l.length + 1) m) := by
  induction l generalizing k prev with
  | nil => exact ⟨prev, hprev, rfl⟩
  | cons a l ih =>
    rw [cons_append, applyBatch_cons hprev, hl a mem_cons_self]
    obtain ⟨prev', hprev', heq⟩ :=
      ih (fun b hb => hl b (mem_cons_of_mem _ hb)) (le_refl (k + 1))
    rw [length_cons, ← Nat.add_assoc, Nat.add_right_comm]
    exact ⟨prev', hprev', heq⟩

/-- Records applied for the first time: a prefix of them is applied, and the record behind it is
refused when it is not all of them. -/
theorem applyBatch_new (m : List (Change V)) (hprev : prev ≤ k) :
    ∃ c s' err, applyBatch s k prev (numbered (k + 1) m) = (s', k + c, err) ∧ c ≤ m.length ∧
      s.applyChanges (m.take c) = .ok s' ∧
      ∀ x ∈ err, ∃ e b, x = .apply e ∧ m[c]? = some b ∧ s'.applyChange b = .error e := by
  induction m generalizing s k prev with
  | nil => exact ⟨0, s, none, rfl, le_rfl, rfl, nofun⟩
  | cons b m ih =>
    rw [applyBatch_cons hprev]
    cases hb : s.applyChange b with
    | error e =>
      refine ⟨0, s, _, rfl, Nat.zero_le _, rfl, fun x hx => ?_⟩
      cases hx
      exact ⟨e, b, rfl, rfl, hb⟩
    | ok u =>
      obtain ⟨c, s', err, heq, hle, happly, herr⟩ := ih (s := u) (le_refl (k + 1))
      refine ⟨c + 1, s', err, ?_, Nat.succ_le_succ hle, ?_, herr⟩
      · rw [Nat.add_comm c 1, ← Nat.add_assoc]
        exact heq
      · rw [take_succ_cons, Store.applyChanges, hb]
        exact happly

end Batch

namespace ReplicaGraph

variable [DecidableEq V] {feed : List (Change V)} {r : ReplicaGraph V}

/-- The store is the one that delivery once of the first `reached` records gives. -/
structure DeliveredOnce (feed : List (Change V)) (r : ReplicaGraph V) : Prop where
  applied_le : r.appliedLSN ≤ r.reached
  reached_le : r.reached ≤ feed.length
  rows : Store.empty.applyChanges (feed.take r.reached) = .ok r.store

/-- The error is the refusal of the next record, which the replica has never applied. -/
def RefusedFirst (feed : List (Change V)) (r : ReplicaGraph V) (err : ReplError) : Prop :=
  ∃ e b, err = .apply e ∧ feed[r.reached]? = some b ∧ r.store.applyChange b = .error e

omit [DecidableEq V] in
theorem historySorted_empty : (Store.empty : Store V).HistorySorted := fun _ => Pairwise.nil

variable {c : Call}

/-- The redelivered records of a call change nothing. -/
theorem DeliveredOnce.redelivered (h : r.DeliveredOnce feed) (hc : r.NotOvertaken feed c) :
    ∀ a ∈ ((feed.drop r.appliedLSN).take (r.reached - r.appliedLSN)).take c.size,
      r.store.applyChange a = .ok r.store := by
  have hrows := h.rows
  have hsplit : feed.take r.reached = feed.take r.appliedLSN ++
      (feed.drop r.appliedLSN).take (r.reached - r.appliedLSN) := by
    rw [← take_add, Nat.add_sub_cancel' h.applied_le]
  rw [hsplit] at hrows
  obtain ⟨u, hu, hrest⟩ := Store.applyChanges_append_ok hrows
  exact (hc u hu).redelivered (historySorted_empty.applyChanges hu) hrest

omit [DecidableEq V] in
/-- The records of a call: those the store has seen, then those it has not. -/
theorem take_drop_split {k h : Nat} (hle : k ≤ h) (n : Nat) : (feed.drop k).take n =
    ((feed.drop k).take (h - k)).take n ++ (feed.drop h).take (n - (h - k)) := by
  have hdrop : feed.drop h = (feed.drop k).drop (h - k) := by
    rw [drop_drop, Nat.add_sub_cancel' hle]
  rw [hdrop]
  rcases Nat.le_total n (h - k) with hn | hn
  · rw [take_take, Nat.min_eq_left hn, Nat.sub_eq_zero_of_le hn, take_zero,
      append_nil]
  · rw [take_take, Nat.min_eq_right hn, ← take_add, Nat.add_sub_cancel' hn]

/-- **One call** keeps the replica at the delivery once, and refuses no redelivered record. -/
theorem DeliveredOnce.applyChanges (h : r.DeliveredOnce feed) {n : Nat} {crash : Bool}
    (hc : r.NotOvertaken feed (.batch n crash)) :
    (r.call feed (.batch n crash)).1.DeliveredOnce feed ∧
      ∀ err ∈ (r.call feed (.batch n crash)).2,
        (r.call feed (.batch n crash)).1.RefusedFirst feed err := by
  have hle := h.applied_le
  have hlen := h.reached_le
  obtain ⟨prev', hprev', hold⟩ := applyBatch_redelivered
    (m := (feed.drop r.reached).take (n - (r.reached - r.appliedLSN))) (h.redelivered hc)
    (Nat.zero_le r.appliedLSN)
  obtain ⟨c, s', err, hnew, hcle, happly, herr⟩ := applyBatch_new (s := r.store)
    ((feed.drop r.reached).take (n - (r.reached - r.appliedLSN))) hprev'
  rw [hnew, Call.size, ← take_drop_split hle n] at hold
  simp only [call, ReplicaGraph.applyChanges, nextRecords, hold]
  simp only [length_take, length_drop] at hcle ⊢
  rcases Nat.lt_or_ge (r.reached - r.appliedLSN) n with hn | hn
  · -- the call reaches new records
    have hlast : r.appliedLSN + min n (min (r.reached - r.appliedLSN)
        (feed.length - r.appliedLSN)) + c = r.reached + c := by omega
    rw [hlast, Nat.max_eq_right (Nat.le_add_right _ _)]
    have hrows : Store.empty.applyChanges (feed.take (r.reached + c)) = .ok s' := by
      rw [take_take, Nat.min_eq_left (hcle.trans (Nat.min_le_left _ _))] at happly
      rw [take_add, Store.applyChanges_append h.rows, happly]
    refine ⟨⟨?_, by dsimp only; omega, hrows⟩, fun x hx => ?_⟩
    · dsimp only
      split <;> omega
    · obtain ⟨e, b, rfl, hb, hrefused⟩ := herr x hx
      refine ⟨e, b, rfl, ?_, hrefused⟩
      rw [getElem?_take] at hb
      split at hb
      · rwa [getElem?_drop] at hb
      · cases hb
  · -- every record of the call is redelivered
    rw [Nat.sub_eq_zero_of_le hn, take_zero] at happly herr
    have hc0 : c = 0 := by omega
    subst hc0
    cases happly
    have hlast : max r.reached (r.appliedLSN + min n (min (r.reached - r.appliedLSN)
        (feed.length - r.appliedLSN)) + 0) = r.reached := by omega
    rw [hlast]
    refine ⟨⟨?_, hlen, h.rows⟩, fun x hx => ?_⟩
    · dsimp only
      split <;> omega
    · obtain ⟨-, b, -, hb, -⟩ := herr x hx
      cases hb

/-- `ApplyChange` is a batch of one record. -/
theorem call_one (hle : r.appliedLSN ≤ r.reached) (crash : Bool) :
    r.call feed (.one crash) = r.call feed (.batch 1 crash) := by
  have hlen : ((feed.drop r.appliedLSN).take 1).length ≤ 1 := length_take_le _ _
  simp only [call, nextRecords]
  generalize (feed.drop r.appliedLSN).take 1 = recs at hlen
  rcases recs with _ | ⟨b, _ | ⟨b', recs⟩⟩
  · simp [numbered, ReplicaGraph.applyChanges, applyBatch, hle]
  · simp only [ReplicaGraph.applyChanges, applyBatch_cons (Nat.zero_le r.appliedLSN)]
    simp only [numbered, ReplicaGraph.applyChange, applyBatch]
    rw [if_neg (Nat.not_succ_le_self r.appliedLSN)]
    cases r.store.applyChange b with
    | error e => simp [hle]
    | ok s => rfl
  · simp only [length_cons] at hlen
    omega

theorem DeliveredOnce.call (h : r.DeliveredOnce feed) (hc : r.NotOvertaken feed c) :
    (r.call feed c).1.DeliveredOnce feed ∧
      ∀ err ∈ (r.call feed c).2, (r.call feed c).1.RefusedFirst feed err := by
  cases c with
  | one crash =>
    rw [call_one h.applied_le]
    exact h.applyChanges hc
  | batch n crash => exact h.applyChanges hc

end ReplicaGraph

end RhoTkg
