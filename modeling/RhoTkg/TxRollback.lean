import RhoTkg.TxRecords

/-!
# Rollback restores the state before the transaction

Every call of a transaction keeps `Undoable`: the rows of every chain are kept (`RowsKept`) and the
undo log restores them (`Recorded`).  A door that updates a chain has taken its snapshot, a create has
recorded the version it started at, a delete the rows it ended; the import of a deleted ID has made the
snapshots of the ID whole.  A run of calls that all meet `CallOk` ends in a state whose `Rollback`, when
it returns no error, gives back every current row and every history (`GraphTx.rollback_restores`).

The two kinds of calls left out are where `Rollback` goes wrong.  The relationships deleted on their own
are restored after those a node delete cascaded to, whatever the order of the calls, so a relationship
that was cascaded, imported again and then deleted alone comes back as it was imported
(`GraphTx.rollback_keeps_reimported`).  And a snapshot under the head entry trims at the version above
the highest, which wraps to zero when that is the highest version there is.
-/

namespace RhoTkg

open List UndoEntry GraphTx

variable {V : Type}

/-! ## The calls of a transaction -/

/-- The rows of a transaction that began in `s₀`, and its undo log. -/
structure Undoable (s₀ : Store V) (caps : TxCaps) (s : Store V) (tx : GraphTx V) : Prop where
  rows : ∀ e, RowsKept s₀ s e
  records : ∀ e, Recorded s₀ caps tx.undoEntries s e
  fresh : ∀ e version, .created e version ∈ tx.undoEntries → s₀.current e = none

namespace Undoable

variable {s₀ s s' : Store V} {caps : TxCaps} {tx tx' : GraphTx V} {e : EntityId}

theorem start (h : s₀.Distinct) : Undoable s₀ caps s₀ .new :=
  ⟨h.rowsKept, .begin s₀ caps, fun _ _ hmem => (nomatch hmem)⟩

theorem rows_wrote (h : Undoable s₀ caps s tx) (hw : s.Wrote e s') (e' : EntityId) :
    RowsKept s₀ s' e' := by
  by_cases he : e' = e
  · subst he
    exact (h.rows e').wrote hw
  · exact (h.rows e').same (hw.others e' he)

/-- A call that leaves the rows. -/
theorem same (h : Undoable s₀ caps s tx) (hsame : ∀ e, s.SameAt e s') : Undoable s₀ caps s' tx :=
  ⟨fun e => (h.rows e).same (hsame e), fun e => (h.records e).same (hsame e), h.fresh⟩

/-- A door writes an entity that has a record. -/
theorem again (h : Undoable s₀ caps s tx) (hw : s.Wrote e s')
    (hrecord : UndoEntry.lastOf e tx.undoEntries ≠ none) : Undoable s₀ caps s' tx := by
  refine ⟨h.rows_wrote hw, fun e' => ?_, h.fresh⟩
  by_cases he : e' = e
  · subst he
    exact (h.records e').keep (fun hnone => absurd hnone hrecord) hw.live
  · exact (h.records e').same (hw.others e' he)

/-- A door writes an entity that has none and records `a`. -/
theorem push (h : Undoable s₀ caps s tx) (hdist : s₀.Distinct) (hw : s.Wrote e s') {a : UndoEntry V}
    (hins : ∃ L M, tx.undoEntries = L ++ M ∧ tx'.undoEntries = L ++ ([a] ++ M)) (ha : a.entity = e)
    (hnone : UndoEntry.lastOf e tx.undoEntries = none) (hexact : a.Exact s₀) (hwrap : a.NoWrap caps)
    (hlive : s.current e ≠ none → s'.current e ≠ none)
    (hfresh : ∀ e version, a = .created e version → s₀.current e = none) :
    Undoable s₀ caps s' tx' := by
  obtain ⟨L, M, htx, htx'⟩ := hins
  refine ⟨h.rows_wrote hw, fun e' => ?_, fun e' version hmem => ?_⟩
  · have hrec := h.records e'
    rw [htx] at hrec hnone
    rw [htx']
    by_cases he : e' = e
    · subst he
      rw [lastOf_append, Option.or_eq_none_iff] at hnone
      refine hrec.insert (fun _ _ => hnone.2) (fun b hb _ => ?_) (fun _ b hb _ => ?_)
        (fun _ hne => ?_) fun hs hs' => absurd hs' (hlive hs)
      · cases mem_singleton.mp hb
        exact ⟨hexact.keeps (hdist.sorted _), hwrap⟩
      · cases mem_singleton.mp hb
        exact hexact
      · exact absurd ha (lastOf_eq_none.mp hne a (mem_singleton_self a))
    · refine hrec.insert_else (fun b hb => ?_) (hw.others e' he)
      cases mem_singleton.mp hb
      rw [ha]
      exact Ne.symm he
  · rw [htx', mem_append, mem_append, mem_singleton] at hmem
    rcases hmem with hmem | hmem | hmem
    · exact h.fresh e' version (by rw [htx]; exact mem_append_left _ hmem)
    · exact hfresh e' version hmem.symm
    · exact h.fresh e' version (by rw [htx]; exact mem_append_right _ hmem)

variable {x : Stored V} {id : Nat}

/-- The update of a live entity, with its snapshot when it has no record yet. -/
theorem snapshot (h : Undoable s₀ caps s tx) (hdist : s₀.Distinct) (hw : s.Wrote e s') {head : Bool}
    (hcur : s.current e = some x)
    (hwrap : UndoEntry.lastOf e tx.undoEntries = none → (Snapshot.ofUpdate caps head x (s.history
      e)).NoWrap caps) : Undoable s₀ caps s' (tx.snapshotCurrent caps head s e) := by
  unfold snapshotCurrent
  simp only [hcur]
  split
  · rename_i hrecord
    rw [Bool.or_eq_true, Bool.or_eq_true, or_assoc] at hrecord
    exact h.again hw (lastOf_undoEntries_ne_none.mpr hrecord)
  · rename_i hrecord
    rw [Bool.or_eq_true, Bool.or_eq_true, or_assoc, ← lastOf_undoEntries_ne_none,
      not_not] at hrecord
    obtain ⟨hcur₀, hhist₀⟩ := (h.records e).untouched hrecord
    refine h.push hdist hw (tx.undoEntries_updated e _) rfl hrecord ?_ (hwrap hrecord) hw.live
      nofun
    rw [hhist₀]
    exact exact_ofUpdate hdist (hcur₀ ▸ hcur)

/-- An accepted create. -/
theorem create (h : Undoable s₀ caps s tx) (hdist : s₀.Distinct) (hw : s.Wrote e s') {y : Stored V}
    (hcur : s.current e = none) (hmax : y.version ≤ maxUint32)
    (habove : ∀ r ∈ s.history e, r.version < y.version)
    (hnext : ∀ w < y.version, ∃ r ∈ s.history e, w ≤ r.version) :
    Undoable s₀ caps s' (tx.trackCreated e y.version) := by
  unfold trackCreated
  split
  · rename_i hrecord
    rw [Bool.or_eq_true] at hrecord
    exact h.again hw (lastOf_undoEntries_ne_none.mpr (.inr hrecord))
  · rename_i hrecord
    rw [Bool.or_eq_true, not_or, Bool.not_eq_true, Bool.not_eq_true] at hrecord
    have hdel : ∀ snap, .deleted e snap ∉ tx.undoEntries := fun snap hsnap =>
      Bool.noConfusion (hrecord.2.symm.trans (isDeleted_iff.mpr ⟨snap, hsnap⟩))
    have hcur₀ := (h.records e).current_eq_none hcur hdel
    have hnone : lastOf e tx.undoEntries = none := by
      by_contra hne
      obtain ⟨a, ha⟩ := Option.ne_none_iff_exists'.mp hne
      obtain ⟨hmem, rfl⟩ := mem_of_lastOf ha
      cases a with
      | deleted e snap => exact hdel snap hmem
      | updated e snap =>
        -- an update would have found the entity there before the transaction
        exact Option.some_ne_none _ (((h.records e).last _ ha).1.trans hcur₀)
      | created e version =>
        exact Bool.noConfusion (hrecord.1.symm.trans (isCreated_iff.mpr ⟨version, hmem⟩))
    obtain ⟨-, hhist₀⟩ := (h.records e).untouched hnone
    rw [hhist₀] at habove hnext
    refine h.push hdist hw (tx.undoEntries_created e y.version) rfl hnone
      (exact_created hdist hcur₀ habove hmax hnext) trivial hw.live fun e' version heq => ?_
    cases heq
    exact hcur₀

/-- A relationship delete. -/
theorem deleteRel (h : Undoable s₀ caps s tx) (hdist : s₀.Distinct)
    (hcur : s.current (.rel id) = some x) (hend : s.Ended (.rel id) s')
    (helse : ∀ e, e ≠ .rel id → s.SameAt e s')
    (hok : tx.isCascaded id = true → tx.isRelDeleted id = true ∨ tx.isUpdated (.rel id) = true ∨
      tx.isCreated (.rel id) = true) :
    Undoable s₀ caps s' { tx with deletedRels := tx.deletedRels ++
      [(id, .ofDelete caps x (s.history (.rel id)))] } := by
  obtain ⟨M, htx, hrels, htx'⟩ :=
    tx.undoEntries_deletedRel id (.ofDelete caps x (s.history (.rel id)))
  refine ⟨fun e => ?_, fun e => ?_, fun e version hmem => ?_⟩
  · by_cases he : e = .rel id
    · subst he
      exact (h.rows _).ended hend
    · exact (h.rows e).same (helse e he)
  · rw [htx']
    have hrec := h.records e
    rw [htx] at hrec
    by_cases he : e = .rel id
    · subst he
      refine hrec.delete hdist (h.rows _) hend
        (fun hnone _ => lastOf_deletedRel htx hrels hok hnone) (fun y hy => ?_)
        fun a ha _ => ⟨x, hcur, mem_singleton.mp ha⟩
      cases hcur.symm.trans hy
      exact mem_cons_self
    · refine hrec.insert_else (fun a ha hae => he ?_) (helse e he)
      cases mem_singleton.mp ha
      exact hae.symm
  · refine h.fresh e version ?_
    rw [htx'] at hmem
    rw [htx]
    simpa using hmem

/-- A node delete, with the relationships it cascades to. -/
theorem deleteNode (h : Undoable s₀ caps s tx) (hdist : s₀.Distinct)
    (hcur : s.current (.node id) = some x) (hend : s.Ended (.node id) s')
    (hrels : ∀ r ∈ s.relIDs id, s.Ended (.rel r) s')
    (helse : ∀ e, e ≠ .node id → (∀ r ∈ s.relIDs id, e ≠ .rel r) → s.SameAt e s') :
    Undoable s₀ caps s' { tx with deletedNodes := tx.deletedNodes ++
      [⟨id, .ofDelete caps x (s.history (.node id)), (s.cascadedRels id).map fun r =>
        (r.1, .ofDelete caps r.2 (s.history (.rel r.1)))⟩] } := by
  obtain ⟨M, htx, htx'⟩ := tx.undoEntries_deletedNode
    ⟨id, .ofDelete caps x (s.history (.node id)), (s.cascadedRels id).map fun r =>
      (r.1, .ofDelete caps r.2 (s.history (.rel r.1)))⟩
  have hnodes : ∀ r, lastOf (.rel r) tx.nodeEntries = none := fun r => by
    refine lastOf_eq_none.mpr fun a ha hae => ?_
    obtain ⟨d, -, rfl⟩ := mem_map.mp ha
    cases hae
  have hcascade : ∀ a ∈ ((s.cascadedRels id).map fun r =>
      (r.1, Snapshot.ofDelete caps r.2 (s.history (.rel r.1)))).map
        (fun r => deleted (.rel r.1) r.2),
      ∃ r ∈ s.relIDs id, ∃ y, s.current (.rel r) = some y ∧
        a = .deleted (.rel r) (.ofDelete caps y (s.history (.rel r))) := by
    intro a ha
    rw [map_map] at ha
    obtain ⟨⟨r, y⟩, hr, rfl⟩ := mem_map.mp ha
    obtain ⟨hr, hy⟩ := Store.mem_cascadedRels.mp hr
    exact ⟨r, hr, y, hy, rfl⟩
  refine ⟨fun e => ?_, fun e => ?_, fun e version hmem => ?_⟩
  · by_cases he : e = .node id
    · subst he
      exact (h.rows _).ended hend
    · by_cases hr : ∃ r ∈ s.relIDs id, e = .rel r
      · obtain ⟨r, hr, rfl⟩ := hr
        exact (h.rows _).ended (hrels r hr)
      · exact (h.rows e).same (helse e he fun r hmem heq => hr ⟨r, hmem, heq⟩)
  · rw [htx']
    have hrec := h.records e
    rw [htx] at hrec
    by_cases he : e = .node id
    · subst he
      refine Recorded.delete (L := []) (s := s) ?_ hdist (h.rows _) hend (fun _ _ => rfl)
        (fun y hy => ?_) fun a ha _ => ⟨x, hcur, mem_singleton.mp ha⟩
      · refine hrec.insert_else (fun a ha hae => ?_) ⟨rfl, rfl⟩
        obtain ⟨r, -, y, -, rfl⟩ := hcascade a ha
        cases hae
      · cases hcur.symm.trans hy
        exact mem_cons_self
    · have hnode : ∀ a ∈ [deleted (.node id)
          (Snapshot.ofDelete caps x (s.history (.node id)))], a.entity ≠ e := fun a ha hae => by
        cases mem_singleton.mp ha
        exact he hae.symm
      by_cases hr : ∃ r ∈ s.relIDs id, e = .rel r
      · obtain ⟨r, hr, rfl⟩ := hr
        refine Recorded.insert_else (L := []) (s := s') ?_ hnode ⟨rfl, rfl⟩
        refine hrec.delete hdist (h.rows _) (hrels r hr) (fun _ _ => hnodes r) (fun y hy => ?_)
          fun a ha hae => ?_
        · rw [map_map]
          exact mem_map.mpr ⟨(r, y), Store.mem_cascadedRels.mpr ⟨hr, hy⟩, rfl⟩
        · obtain ⟨r', -, y, hy, rfl⟩ := hcascade a ha
          cases hae
          exact ⟨y, hy, rfl⟩
      · have hsame := helse e he fun r hmem heq => hr ⟨r, hmem, heq⟩
        refine Recorded.insert_else (L := []) (s := s') ?_ hnode ⟨rfl, rfl⟩
        refine hrec.insert_else (fun a ha hae => hr ?_) hsame
        obtain ⟨r, hmem, y, -, rfl⟩ := hcascade a ha
        exact ⟨r, hmem, hae.symm⟩
  · refine h.fresh e version ?_
    rw [htx'] at hmem
    rw [htx]
    simpa using hmem

/-- A call that leaves the store. -/
theorem materialize (h : Undoable s₀ caps s tx) (e : EntityId) :
    Undoable s₀ caps s (tx.materialize s e) := by
  have hrows := h.rows e
  refine ⟨h.rows, fun e' => (h.records e').madeWhole
    (fun snap => ⟨hrows.sorted, hrows.kept, nofun⟩) (forall₂_materialize e),
    fun e' version hmem => h.fresh e' version (created_mem_of_materialize hmem)⟩

end Undoable

namespace GraphTx

/-- The call is the delete of a relationship that is back after a node delete of the transaction
took it along, and of which the transaction has no other record. -/
def RedeletesCascaded (st : Primary V × GraphTx V) (c : TxCall V) : Prop :=
  match c.door with
  | .deleteRel id _ _ => (st.1.store.current (.rel id)).isSome = true ∧ st.2.isCascaded id = true ∧
      ¬ (st.2.isRelDeleted id = true ∨ st.2.isUpdated (.rel id) = true ∨
        st.2.isCreated (.rel id) = true)
  | _ => False

instance (st : Primary V × GraphTx V) (c : TxCall V) : Decidable (RedeletesCascaded st c) := by
  unfold RedeletesCascaded
  split <;> infer_instance

variable [DecidableEq V] (cfg : GraphConfig) (caps : TxCaps)

/-- The call takes the snapshot of an entity whose highest row has the highest version there is, under
the head entry of the chain and on a store with the rollback trim. -/
def SnapshotsCeiling (st : Primary V × GraphTx V) (c : TxCall V) : Prop :=
  match c.door with
  | .chain e _ ev =>
    (e.accepts ev && ev.takesSnapshot (cfg.forEntity e) (st.1.store.chainState st.1.clock e)) = true ∧
      (st.2.isUpdated e || st.2.isCreated e || st.2.isDeleted e) = false ∧
      c.head = true ∧ caps.historyTrim = true ∧
      ((st.1.store.current e).any fun x => decide (x.version < maxUint32) &&
        decide (topVersion ((st.1.store.history e).map (·.row)) x.row = maxUint32)) = true
  | _ => False

/-- The calls whose records `Rollback` can take back. -/
def CallOk (st : Primary V × GraphTx V) (c : TxCall V) : Prop :=
  ¬ RedeletesCascaded st c ∧ ¬ SnapshotsCeiling cfg caps st c

instance (st : Primary V × GraphTx V) (c : TxCall V) : Decidable (SnapshotsCeiling cfg caps st c) := by
  unfold SnapshotsCeiling
  split <;> infer_instance

instance (st : Primary V × GraphTx V) (c : TxCall V) : Decidable (CallOk cfg caps st c) :=
  inferInstanceAs (Decidable (¬ _ ∧ ¬ _))

end GraphTx

section Calls

variable [DecidableEq V] {cfg : GraphConfig} {caps : TxCaps} {s₀ : Store V} {p : Primary V}
  {tx : GraphTx V}

/-- What a call of a transaction does to the graph: nothing, or its door runs. -/
theorem Primary.step_txCall (cfg : GraphConfig) (p : Primary V) (d : Door V) : p.step cfg (.txCall d) = p ∨
    d.inTx = true ∧ ∃ token, p.step cfg (.txCall d) = p.runDoor cfg token d := by
  rw [Primary.step]
  split
  · exact .inl rfl
  · split
    · rename_i hin
      exact .inr ⟨hin, _, rfl⟩
    · exact .inl rfl

variable {head : Bool} {e : EntityId} {ends : Option (Nat × Nat)} {ev : NodeEvent V} {c : TxCall V}
  {id : Nat} {spec : NodeState.TombstoneSpec} {wall : List Int64}

omit [DecidableEq V] in
/-- The snapshot of an update, but for the ceiling. -/
theorem Snapshot.noWrap_ofUpdate {x : Stored V} {history : List (Stored V)}
    (htop : topVersion (history.map (·.row)) x.row ≤ maxUint32)
    (h : head = true → caps.historyTrim = true → x.version < maxUint32 → topVersion (history.map
      (·.row)) x.row ≠ maxUint32) : (ofUpdate caps head x history).NoWrap caps := by
  intro htrim hlt
  unfold ofUpdate at hlt ⊢
  split at hlt
  · rename_i hhead
    rw [if_pos hhead]
    have hx : x.version < maxUint32 := lt_of_lt_of_le hlt htop
    exact lt_of_le_of_ne htop (h hhead htrim hx)
  · split_ifs at hlt <;> exact absurd hlt (Nat.not_lt_zero _)

/-- A door on the chain of an entity writes only the chain. -/
theorem Undoable.wrote_txCall (cfg : GraphConfig) (h : Undoable s₀ caps p.store tx) (hclock : ClockOk p.clock)
    (e : EntityId) (ends : Option (Nat × Nat)) (ev : NodeEvent V) :
    p.store.Wrote e (p.step cfg (.txCall (.chain e ends ev))).store := by
  obtain heq | ⟨-, token, heq⟩ := p.step_txCall cfg (.chain e ends ev) <;> rw [heq]
  · exact .refl (h.rows e).sorted
  · exact Primary.wrote_runDoor hclock (h.rows e).sorted (h.rows e).versions token

/-- A call that updates the chain of an entity, with its snapshot. -/
theorem Undoable.updateCall (h : Undoable s₀ caps p.store tx) (hdist : s₀.Distinct)
    (hclock : ClockOk p.clock) (hcreate : ev.isCreate = false)
    (hwrap : ∀ x, p.store.current e = some x → UndoEntry.lastOf e tx.undoEntries = none →
      (Snapshot.ofUpdate caps head x (p.store.history e)).NoWrap caps) :
    Undoable s₀ caps (p.step cfg (.txCall (.chain e ends ev))).store
      (tx.snapshotCurrent caps head p.store e) := by
  cases hcur : p.store.current e with
  | some x => exact h.snapshot hdist (h.wrote_txCall cfg hclock e ends ev) hcur (hwrap x hcur)
  | none =>
    have hstore : (p.step cfg (.txCall (.chain e ends ev))).store = p.store := by
      obtain heq | ⟨hin, token, heq⟩ := p.step_txCall cfg (.chain e ends ev) <;> rw [heq]
      exact Primary.store_of_noSnapshot hin hcreate (.inr hcur) token
    rw [hstore, snapshotCurrent, hcur]
    exact h

/-- A create, with its record. -/
theorem Undoable.createCall (h : Undoable s₀ caps p.store tx) (hdist : s₀.Distinct)
    (hclock : ClockOk p.clock) (hcreate : ev.isCreate = true) :
    Undoable s₀ caps (p.step cfg (.txCall (.chain e ends ev))).store
      (tx.after caps p.store (p.step cfg (.txCall (.chain e ends ev))).store (.chain e ends ev)) := by
  have hw := h.wrote_txCall cfg hclock e ends ev
  have hcreated : p.store.CreatedAt e (p.step cfg (.txCall (.chain e ends ev))).store := by
    obtain heq | ⟨-, token, heq⟩ := p.step_txCall cfg (.chain e ends ev) <;> rw [heq]
    · exact ⟨rfl, .inl rfl⟩
    · exact Primary.created_runDoor hcreate (h.rows e).versions token
  generalize (p.step cfg (.txCall (.chain e ends ev))).store = s' at hw hcreated
  obtain ⟨hhist, hcur⟩ := hcreated
  rcases hcur with hcur | ⟨hnone, y, hy, hmax, habove, hnext⟩
  · have hafter : tx.after caps p.store s' (.chain e ends ev) = tx := by
      rw [GraphTx.after, hcur]
      cases p.store.current e <;> rfl
    rw [hafter]
    refine h.same fun e' => ?_
    by_cases he : e' = e
    · subst he
      exact ⟨hcur, hhist⟩
    · exact hw.others e' he
  · rw [GraphTx.after, hnone, hy]
    dsimp only
    rw [if_pos hcreate]
    exact h.create hdist hw hnone hmax habove hnext

/-- A call on the chain of an entity. -/
theorem Undoable.chainCall (h : Undoable s₀ caps p.store tx) (hdist : s₀.Distinct)
    (hclock : ClockOk p.clock) (hdoor : c.door = .chain e ends ev)
    (hok : ¬ GraphTx.SnapshotsCeiling cfg caps (p, tx) c) :
    Undoable s₀ caps (GraphTx.call cfg caps (p, tx) c).1.store (GraphTx.call cfg caps (p, tx) c).2 := by
  have hafter : ev.isCreate = false → ∀ (tx' : GraphTx V) (s' : Store V),
      tx'.after caps p.store s' (.chain e ends ev) = tx' := fun hcreate tx' s' => by
    rw [GraphTx.after]
    split
    · rw [if_neg (by simp [hcreate])]
    · rfl
  have hcall : call cfg caps (p, tx) c = (p.step cfg (.txCall (.chain e ends ev)),
      (before cfg caps p tx c).after caps p.store
        (p.step cfg (.txCall (.chain e ends ev))).store (.chain e ends ev)) := by
    rw [call, hdoor]
  rw [hcall, before, hdoor]
  dsimp only
  split
  · rename_i hsnapshot
    have hcreate : ev.isCreate = false := by
      cases ev <;> first | rfl | simp [NodeEvent.takesSnapshot] at hsnapshot
    rw [hafter hcreate]
    refine h.updateCall hdist hclock hcreate fun x hx hnone => ?_
    refine Snapshot.noWrap_ofUpdate ?_ fun hhead htrim hlt htop => hok ?_
    · refine topVersion_le fun r hr => ?_
      rcases hr with hr | hr
      · obtain ⟨y, hy, rfl⟩ := mem_map.mp hr
        exact (h.rows e).versions y (.inl hy)
      · cases hr
        exact (h.rows e).versions x (.inr hx)
    · rw [SnapshotsCeiling, hdoor]
      refine ⟨hsnapshot, ?_, hhead, htrim, by simp [hx, hlt, htop]⟩
      have := mt lastOf_undoEntries_ne_none.mpr (not_not.mpr hnone)
      simpa [not_or, and_assoc] using this
  · rename_i hsnapshot
    split
    · rename_i himport
      rw [Bool.and_eq_true] at himport
      have hcreate : ev.isCreate = true := by
        cases ev <;> first | rfl | cases himport.1
      exact (h.materialize e).createCall hdist hclock hcreate
    · cases hcreate : ev.isCreate with
      | true => exact h.createCall hdist hclock hcreate
      | false =>
        rw [hafter hcreate]
        have hstore : (p.step cfg (.txCall (.chain e ends ev))).store = p.store := by
          obtain heq | ⟨hin, token, heq⟩ := p.step_txCall cfg (.chain e ends ev) <;> rw [heq]
          exact Primary.store_of_noSnapshot hin hcreate (.inl (Bool.eq_false_of_not_eq_true hsnapshot))
            token
        rw [hstore]
        exact h

omit [DecidableEq V] in
/-- A call that has not written records nothing after it. -/
theorem GraphTx.after_self (s : Store V) (d : Door V) : tx.after caps s s d = tx := by
  cases d with
  | chain e ends ev =>
    rw [after]
    cases s.current e <;> rfl
  | deleteNode id spec wall =>
    rw [after]
    cases s.current (.node id) <;> rfl
  | deleteRel id spec wall =>
    rw [after]
    cases s.current (.rel id) <;> rfl
  | updateInPlace | hardDeleteNode | hardDeleteNodeCascade | hardDeleteRel | truncateHistory
  | trimHistoryFrom => rfl

/-- The delete of a node, with its record. -/
theorem Undoable.deleteNodeCall (h : Undoable s₀ caps p.store tx) (hdist : s₀.Distinct)
    (hadj : p.store.Adjacent) :
    Undoable s₀ caps (p.step cfg (.txCall (.deleteNode id spec wall))).store
      (tx.after caps p.store (p.step cfg (.txCall (.deleteNode id spec wall))).store
        (.deleteNode id spec wall)) := by
  obtain heq | ⟨-, token, heq⟩ := p.step_txCall cfg (.deleteNode id spec wall) <;> rw [heq]
  · rw [after_self]
    exact h
  · obtain hsame | ⟨hend, hrels, helse⟩ := Primary.deletedNode_runDoor cfg hadj id spec wall token
    · rw [hsame, after_self]
      exact h
    · have hended := hend
      obtain ⟨x, -, hx, -, hnone, -⟩ := hended
      rw [GraphTx.after, hx, hnone]
      exact h.deleteNode hdist hx hend hrels helse

/-- The delete of a relationship, with its record. -/
theorem Undoable.deleteRelCall (h : Undoable s₀ caps p.store tx) (hdist : s₀.Distinct)
    (hok : p.store.current (.rel id) ≠ none → tx.isCascaded id = true → tx.isRelDeleted id = true ∨
      tx.isUpdated (.rel id) = true ∨ tx.isCreated (.rel id) = true) :
    Undoable s₀ caps (p.step cfg (.txCall (.deleteRel id spec wall))).store
      (tx.after caps p.store (p.step cfg (.txCall (.deleteRel id spec wall))).store
        (.deleteRel id spec wall)) := by
  obtain heq | ⟨-, token, heq⟩ := p.step_txCall cfg (.deleteRel id spec wall) <;> rw [heq]
  · rw [after_self]
    exact h
  · obtain hsame | ⟨hend, helse⟩ := Primary.deletedRel_runDoor cfg p id spec wall token
    · rw [hsame, after_self]
      exact h
    · have hended := hend
      obtain ⟨x, -, hx, -, hnone, -⟩ := hended
      rw [GraphTx.after, hx, hnone]
      exact h.deleteRel hdist hx hend helse (hok (by simp [hx]))

/-- The state of a transaction that began in `s₀`. -/
structure InTx (s₀ : Store V) (caps : TxCaps) (st : Primary V × GraphTx V) : Prop where
  clock : ClockOk st.1.clock
  adjacent : st.1.store.Adjacent
  undo : Undoable s₀ caps st.1.store st.2

/-- **A call of a transaction** whose records can be taken back. -/
theorem InTx.call {st : Primary V × GraphTx V} (h : InTx s₀ caps st) (hdist : s₀.Distinct)
    (hok : GraphTx.CallOk cfg caps st c) : InTx s₀ caps (GraphTx.call cfg caps st c) := by
  obtain ⟨p, tx⟩ := st
  refine ⟨?_, ?_, ?_⟩
  · show ClockOk (p.step cfg (.txCall c.door)).clock
    obtain heq | ⟨-, token, heq⟩ := p.step_txCall cfg c.door <;> rw [heq]
    · exact h.clock
    · rw [Primary.runDoor, Primary.clock_runCalls]
      exact Primary.doorCalls_clockOk h.clock c.door
  · show (p.step cfg (.txCall c.door)).store.Adjacent
    obtain heq | ⟨-, token, heq⟩ := p.step_txCall cfg c.door <;> rw [heq]
    · exact h.adjacent
    · exact Store.adjacent_runCalls (p := { p with clock := (p.doorCalls cfg c.door).1 }) h.adjacent token _
  · obtain ⟨d, head⟩ := c
    have hskip : d.inTx = false → before cfg caps p tx ⟨d, head⟩ = tx →
        Undoable s₀ caps (call cfg caps (p, tx) ⟨d, head⟩).1.store
          (call cfg caps (p, tx) ⟨d, head⟩).2 := fun hin hbefore => by
      obtain heq | ⟨hin', -⟩ := p.step_txCall cfg d
      · rw [call, heq, hbefore, after_self]
        exact h.undo
      · exact Bool.noConfusion (hin.symm.trans hin')
    cases d with
    | chain e ends ev => exact h.undo.chainCall hdist h.clock rfl hok.2
    | deleteNode id spec wall => exact h.undo.deleteNodeCall hdist h.adjacent
    | deleteRel id spec wall =>
      refine h.undo.deleteRelCall hdist fun hlive hcascaded => ?_
      by_contra hnone
      exact hok.1 ⟨Option.isSome_iff_ne_none.mpr hlive, hcascaded, hnone⟩
    -- a transaction has no other doors
    | updateInPlace | hardDeleteNode | hardDeleteNodeCascade | hardDeleteRel | truncateHistory
    | trimHistoryFrom => exact hskip rfl rfl

end Calls

/-! ## Rollback -/

section Rollback

variable [DecidableEq V] {cfg : GraphConfig} {caps : TxCaps} {p₀ : Primary V}

theorem InTx.beginTx (hclock : ClockOk p₀.clock) (hdist : p₀.store.Distinct) (wall : Int64) :
    InTx p₀.store caps (p₀.step cfg (.beginTx wall), .new) := by
  have hstore : (p₀.step cfg (.beginTx wall)).store = p₀.store := by
    rw [Primary.step]
    split <;> rfl
  refine ⟨?_, ?_, ?_⟩
  · show ClockOk (p₀.step cfg (.beginTx wall)).clock
    rw [Primary.step]
    split
    · exact hclock
    · exact (hclock.now (inRange_toInt wall).2).1
  · show (p₀.step cfg (.beginTx wall)).store.Adjacent
    rw [hstore]
    exact hdist.adjacent
  · show Undoable p₀.store caps (p₀.step cfg (.beginTx wall)).store .new
    rw [hstore]
    exact .start hdist

/-- **Rollback restores the state before the transaction**, when no call of the transaction deletes a
relationship alone whose only record is that of a cascade, and none snapshots a chain at the version
ceiling under its head entry. -/
theorem GraphTx.rollback_restores (hclock : ClockOk p₀.clock) (hdist : p₀.store.Distinct) {wall : Int64}
    {st : Primary V × GraphTx V}
    (hrun : Runs.Reachable (· = (p₀.step cfg (.beginTx wall), .new))
      (Runs.Guarded (GraphTx.call cfg caps) (GraphTx.CallOk cfg caps)) st)
    {s' : Store V} (hrollback : st.2.rollback caps st.1.store = (s', none)) (e : EntityId) :
    s'.current e = p₀.store.current e ∧ s'.history e = p₀.store.history e := by
  have hin : InTx p₀.store caps st := by
    refine hrun.invariant (fun st hst => ?_) fun st c st' _ hst hstep => ?_
    · rw [hst]
      exact .beginTx hclock hdist wall
    · obtain ⟨hok, rfl⟩ := hstep
      exact hst.call hdist hok
  refine restore_all hdist hin.adjacent pairwise_nodesLast (fun e => ?_) hin.undo.fresh hrollback e
  have hrows := hin.undo.rows e
  have hrec := hin.undo.records e
  exact ⟨hrows.sorted, hrows.kept, hrows.keptLive, hrec.keeps, hrec.last, hrec.untouched⟩

end Rollback

/-! ### Runs on fixed calls -/

/-- Two nodes and a relationship between them. -/
def linkedNodes : Primary Nat := Primary.runOf [.call (Primary.addNode 1 1), .call (Primary.addNode 2 2),
  .call (.chain (.rel 1) (some (1, 2)) (.add [1] [(1, 1)] none none 3))]

/-- The calls of a transaction that deletes a node and imports it and its relationship again. -/
def reimportLinked : List (TxCall Nat) :=
  [⟨.deleteNode 1 ⟨false, false⟩ [5], false⟩,
    ⟨.chain (.node 1) none (.reimport [1] [(1, 2)] none none 6), false⟩,
    ⟨.chain (.rel 1) (some (1, 2)) (.reimport [1] [(1, 2)] none none 7), false⟩]

/-- The state after calls of a transaction on `linkedNodes`, on a store with pager and trim. -/
def txOnLinked (cs : List (TxCall Nat)) : Primary Nat × GraphTx Nat :=
  cs.foldl (GraphTx.call Primary.legacyConfig ⟨true, true⟩)
    (linkedNodes.step Primary.legacyConfig (.beginTx 4), .new)

variable {cfg : GraphConfig} {p : Primary V}

theorem Store.Adjacent.step [DecidableEq V] (h : p.store.Adjacent) (ev : Primary.Event V) :
    (p.step cfg ev).store.Adjacent := by
  have hrun : ∀ token d, (p.runDoor cfg token d).store.Adjacent := fun token d =>
    Store.adjacent_runCalls (p := { p with clock := (p.doorCalls cfg d).1 }) h token _
  cases ev with
  | call d => exact hrun 0 d
  | beginTx wall =>
    rw [Primary.step]
    split <;> exact h
  | txCall d =>
    rw [Primary.step]
    split
    · exact h
    · split
      · exact hrun _ d
      · exact h
  | commit =>
    rw [Primary.step]
    split <;> exact h

theorem Primary.adjacent_foldl [DecidableEq V] (h : p.store.Adjacent)
    (evs : List (Primary.Event V)) : (evs.foldl (Primary.step cfg) p).store.Adjacent := by
  induction evs generalizing p with
  | nil => exact h
  | cons ev evs ih => exact ih (h.step ev)

/-- **No relationship dangles**: after any calls the indexes are those of the current relationships,
and their endpoints are current. -/
theorem Primary.adjacency_exact [DecidableEq V] (clock : Clock) (evs : List (Primary.Event V)) :
    (evs.foldl (Primary.step cfg) (.new clock)).store.Adjacent :=
  adjacent_foldl Store.adjacent_empty evs

theorem linkedNodes_distinct : linkedNodes.store.Distinct where
  sorted e := by
    have hhist : linkedNodes.store.history = fun _ => [] := rfl
    rw [hhist]
    exact Pairwise.nil
  fresh e x _ r hr := nomatch (hr : r ∈ ([] : List (Stored Nat)))
  versions e r hr := by
    have hcur : linkedNodes.store.current = Function.update (Function.update (Function.update
        (fun _ => none) (.node 1) (linkedNodes.store.current (.node 1)))
        (.node 2) (linkedNodes.store.current (.node 2)))
        (.rel 1) (linkedNodes.store.current (.rel 1)) := rfl
    have hfirst : ∀ e ∈ [EntityId.rel 1, .node 2, .node 1],
        ((linkedNodes.store.current e).all fun x => x.version == 0) = true := by decide +kernel
    have hzero : ∀ e ∈ [EntityId.rel 1, .node 2, .node 1], linkedNodes.store.current e = some r →
        r.version ≤ maxUint32 := fun e he hr => by
      have := hfirst e he
      rw [hr, Option.all_some, beq_iff_eq] at this
      omega
    rcases hr with hr | hr
    · exact nomatch (hr : r ∈ ([] : List (Stored Nat)))
    · rw [hcur] at hr
      simp only [Function.update_apply] at hr
      split_ifs at hr <;> exact hzero _ (by simp) hr
  adjacent := Primary.adjacent_foldl (p := .new .fresh) Store.adjacent_empty _

theorem linkedNodes_clockOk : ClockOk linkedNodes.clock :=
  ⟨by decide +kernel, by decide +kernel, by decide +kernel⟩

/-- The transaction that deletes a node and imports it and its relationship again. -/
theorem GraphTx.rollback_restores_linked :
    ((txOnLinked reimportLinked).2.rollback ⟨true, true⟩ (txOnLinked reimportLinked).1.store).2 = none ∧
      ∀ e, ((txOnLinked reimportLinked).2.rollback ⟨true, true⟩
          (txOnLinked reimportLinked).1.store).1.current e = linkedNodes.store.current e ∧
        ((txOnLinked reimportLinked).2.rollback ⟨true, true⟩
          (txOnLinked reimportLinked).1.store).1.history e = linkedNodes.store.history e := by
  have hnil : ((txOnLinked reimportLinked).2.rollback ⟨true, true⟩
      (txOnLinked reimportLinked).1.store).2 = none := by decide +kernel
  have hrun : Runs.Reachable (· = (linkedNodes.step Primary.legacyConfig (.beginTx 4), .new))
      (Runs.Guarded (call Primary.legacyConfig ⟨true, true⟩)
        (CallOk Primary.legacyConfig ⟨true, true⟩)) (txOnLinked reimportLinked) :=
    Runs.Reachable.foldl (.start rfl) (by decide +kernel)
  exact ⟨hnil, rollback_restores linkedNodes_clockOk linkedNodes_distinct hrun
    (Prod.ext rfl hnil)⟩

/-- The transaction that then deletes the relationship alone: `Rollback` returns no error and leaves
the relationship as it was imported. -/
theorem GraphTx.rollback_keeps_reimported :
    linkedNodes.store.Distinct ∧
      ((txOnLinked (reimportLinked ++ [⟨.deleteRel 1 ⟨false, false⟩ [8], false⟩])).2.rollback ⟨true, true⟩
        (txOnLinked (reimportLinked ++ [⟨.deleteRel 1 ⟨false, false⟩ [8], false⟩])).1.store).2 = none ∧
      ((txOnLinked (reimportLinked ++ [⟨.deleteRel 1 ⟨false, false⟩ [8], false⟩])).2.rollback ⟨true, true⟩
        (txOnLinked (reimportLinked ++ [⟨.deleteRel 1 ⟨false, false⟩ [8], false⟩])).1.store).1.current
          (.rel 1) ≠ linkedNodes.store.current (.rel 1) :=
  ⟨linkedNodes_distinct, by decide +kernel, by decide +kernel⟩

end RhoTkg
