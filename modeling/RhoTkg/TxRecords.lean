import RhoTkg.Rollback
import RhoTkg.TxDoors

/-!
# The undo log of a transaction

What a transaction has done to a chain and what its undo log says about it.  `RowsKept` is the first:
the doors write above the chain or at the version of the current row, so the history rows of before the
transaction stay, but for one at the version ceiling.  `Recorded` is the second: every record of an
entity brings its protected rows back, and the record `Rollback` takes last brings back all.  A call
adds records inside the log, in the phase they belong to (`Recorded.insert`), and the import of a
deleted ID makes its snapshots whole (`Recorded.madeWhole`).
-/

namespace RhoTkg

open List UndoEntry

variable {V : Type}

/-! ## The rows of a chain during a transaction -/

/-- The chain of `e` during a transaction that began in `s₀`. -/
structure RowsKept (s₀ s : Store V) (e : EntityId) : Prop where
  sorted : Keyed.Sorted Stored.version (s.history e)
  kept : AgreeOn (s₀.Untouchable e) (s.history e) (s₀.history e)
  keptLive : s.current e ≠ none → AgreeOn (s₀.Protected e) (s.history e) (s₀.history e)
  slot : ∀ x, s.current e = some x → ¬ s₀.Untouchable e x.version
  versions : s.VersionsOk e
  reaches : ∀ v, s₀.Protected e v → ∃ r, s.InChain e r ∧ v ≤ r.version

section RowsKept

variable {s₀ s t : Store V} {e : EntityId}

theorem Store.Distinct.rowsKept (h : s₀.Distinct) (e : EntityId) : RowsKept s₀ s₀ e where
  sorted := h.sorted e
  kept := .refl _ _
  keptLive _ := .refl _ _
  slot x hx hunt := hunt.1.1 x hx rfl
  versions := h.versions e
  reaches _ hv := hv.2

theorem RowsKept.same (h : RowsKept s₀ s e) (hsame : s.SameAt e t) : RowsKept s₀ t e := by
  obtain ⟨hcur, hhist⟩ := hsame
  have hchain : ∀ r, t.InChain e r ↔ s.InChain e r := fun r => by
    rw [Store.InChain, Store.InChain, hcur, hhist]
  exact ⟨by rw [hhist]; exact h.sorted, by rw [hhist]; exact h.kept,
    by rw [hhist, hcur]; exact h.keptLive, by rw [hcur]; exact h.slot,
    fun r hr => h.versions r ((hchain r).mp hr),
    fun v hv => (h.reaches v hv).imp fun r hr => ⟨(hchain r).mpr hr.1, hr.2⟩⟩

/-- A door does not write a protected version. -/
theorem RowsKept.not_writable (h : RowsKept s₀ s e) {v : Nat} (hv : s₀.Protected e v) :
    ¬ s.Writable e v := by
  rintro ⟨-, habove | ⟨cur, hcur, rfl, hlt⟩⟩
  · obtain ⟨r, hr, hle⟩ := h.reaches v hv
    exact absurd (habove r hr) (not_lt.mpr hle)
  · exact h.slot cur hcur ⟨hv, hlt⟩

theorem RowsKept.wrote (h : RowsKept s₀ s e) (hw : s.Wrote e t) : RowsKept s₀ t e := by
  have hmem : ∀ r, s₀.Protected e r.version → (r ∈ t.history e ↔ r ∈ s.history e) := fun r hr =>
    ⟨fun hrt => (hw.mem_history r hrt).resolve_right (h.not_writable hr),
      fun hrs => hw.kept r hrs (h.not_writable hr)⟩
  refine ⟨hw.sorted, fun r hr => (hmem r hr.1).trans (h.kept r hr), fun hlive r hr => ?_,
    fun x hx hunt => ?_, fun r hr => ?_, fun v hv => ?_⟩
  · refine (hmem r hr).trans ?_
    rcases hw.current with hsame | ⟨y, hy, hmax, hnew⟩
    · exact h.keptLive (hsame ▸ hlive) r hr
    · by_cases hs : s.current e = none
      · -- a create leaves no row at the version ceiling
        have habove := hnew.resolve_right fun hne => hne.1 hs
        obtain ⟨r', hr', hle⟩ := h.reaches _ hr
        exact h.kept r ⟨hr, by have := habove r' hr'; omega⟩
      · exact h.keptLive hs r hr
  · rcases hw.current with hsame | ⟨y, hy, hmax, hnew⟩
    · exact h.slot x (hsame ▸ hx) hunt
    · cases hx.symm.trans hy
      rcases hnew with habove | ⟨-, heq⟩
      · obtain ⟨r, hr, hle⟩ := h.reaches _ hunt.1
        exact absurd (habove r hr) (not_lt.mpr hle)
      · exact absurd hunt.2 (by omega)
  · rcases hr with hr | hr
    · rcases hw.mem_history r hr with hr | hr
      · exact h.versions r (.inl hr)
      · exact hr.1
    · rcases hw.current with hsame | ⟨y, hy, hmax, -⟩
      · exact h.versions r (.inr (hsame ▸ hr))
      · cases hr.symm.trans hy
        exact hmax
  · obtain ⟨r, hr, hle⟩ := h.reaches v hv
    obtain ⟨r', hr', hle'⟩ := hw.reaches r hr
    exact ⟨r', hr', hle.trans hle'⟩

theorem RowsKept.ended (h : RowsKept s₀ s e) (hend : s.Ended e t) : RowsKept s₀ t e := by
  obtain ⟨x, tombstone, hx, hver, hnone, hhist⟩ := hend
  have htomb : tombstone ∈ t.history e := by
    rw [hhist, Keyed.mem_put h.sorted]
    exact .inl rfl
  have hother : ∀ r ∈ s.history e, r.version ≠ x.version → r ∈ t.history e := fun r hr hne => by
    rw [hhist, Keyed.mem_put h.sorted, hver]
    exact .inr ⟨hr, hne⟩
  refine ⟨by rw [hhist]; exact Keyed.sorted_put h.sorted _, fun r hr => ?_,
    fun hlive => absurd hnone hlive, fun y hy => ?_, fun r hr => ?_, fun v hv => ?_⟩
  · have hne : r.version ≠ x.version := fun heq => h.slot x hx (heq ▸ hr)
    rw [← h.kept r hr]
    refine ⟨fun hrt => ?_, fun hrs => hother r hrs hne⟩
    rw [hhist] at hrt
    rcases Keyed.mem_of_mem_put hrt with rfl | hrs
    · exact absurd hver hne
    · exact hrs
  · cases hnone.symm.trans hy
  · rcases hr with hr | hr
    · rw [hhist] at hr
      rcases Keyed.mem_of_mem_put hr with rfl | hr
      · rw [hver]
        exact h.versions x (.inr hx)
      · exact h.versions r (.inl hr)
    · cases hnone.symm.trans hr
  · obtain ⟨r, hr, hle⟩ := h.reaches v hv
    by_cases heq : r.version = x.version
    · exact ⟨tombstone, .inl htomb, by omega⟩
    · rcases hr with hr | hr
      · exact ⟨r, .inl (hother r hr heq), hle⟩
      · cases hx.symm.trans hr
        exact absurd rfl heq

end RowsKept

/-! ## The records -/

namespace GraphTx

variable {tx : GraphTx V} {e : EntityId} {a : UndoEntry V}

/-- The deleted entities. -/
theorem isDeleted_iff : tx.isDeleted e = true ↔ ∃ snap, .deleted e snap ∈ tx.undoEntries := by
  simp only [mem_undoEntries]
  cases e with
  | node id => simp [isDeleted, @eq_comm ℕ id]
  | rel id =>
    simp only [isDeleted, isCascaded, isRelDeleted]
    simp only [Bool.or_eq_true, any_eq_true, beq_iff_eq, Prod.exists, exists_or]
    refine or_congr ⟨?_, ?_⟩ (by simp)
    · rintro ⟨d, hd, _, snap, hr, rfl⟩
      exact ⟨snap, d, hd, .inr ⟨_, _, hr, rfl⟩⟩
    · rintro ⟨snap, d, hd, h | ⟨_, _, hr, h⟩⟩ <;> cases h
      exact ⟨d, hd, _, snap, hr, rfl⟩

theorem isUpdated_iff : tx.isUpdated e = true ↔ ∃ snap, .updated e snap ∈ tx.undoEntries := by
  simp [isUpdated, mem_undoEntries]

theorem isCreated_iff : tx.isCreated e = true ↔ ∃ version, .created e version ∈ tx.undoEntries := by
  simp [isCreated, mem_undoEntries]

/-- The entities with a record. -/
theorem lastOf_undoEntries_ne_none :
    UndoEntry.lastOf e tx.undoEntries ≠ none ↔
      tx.isUpdated e = true ∨ tx.isCreated e = true ∨ tx.isDeleted e = true := by
  rw [Ne, lastOf_eq_none, isUpdated_iff, isCreated_iff, isDeleted_iff]
  constructor
  · intro h
    push Not at h
    obtain ⟨a, ha, rfl⟩ := h
    cases a with
    | deleted e snap => exact .inr (.inr ⟨snap, ha⟩)
    | updated e snap => exact .inl ⟨snap, ha⟩
    | created e version => exact .inr (.inl ⟨version, ha⟩)
  · rintro (⟨snap, h⟩ | ⟨version, h⟩ | ⟨snap, h⟩) hnone <;> exact hnone _ h rfl

/-- The undo of a created node comes last. -/
theorem pairwise_nodesLast : tx.undoEntries.Pairwise NodesLast := by
  have hlast : (tx.createdEntries false).Pairwise NodesLast := by
    refine pairwise_of_forall_mem_list fun a _ b hb n version _ => ?_
    obtain ⟨c, hc, rfl⟩ := mem_map.mp hb
    rw [mem_reverse, mem_filter, beq_iff_eq] at hc
    exact hc.2
  have happend : ∀ {l m : List (UndoEntry V)}, (∀ a ∈ l, ∀ b, NodesLast a b) →
      m.Pairwise NodesLast → (l ++ m).Pairwise NodesLast := fun hl hm =>
    pairwise_append.mpr ⟨pairwise_of_forall_mem_list fun a ha b _ => hl a ha b, hm,
      fun a ha b _ => hl a ha b⟩
  -- only the records of the last two phases are creates
  have hmap : ∀ {α : Type} {l : List α} {g : α → UndoEntry V},
      (∀ x n version, g x ≠ .created (.node n) version) → ∀ a ∈ l.map g, ∀ b, NodesLast a b := by
    rintro α l g hg _ ha b n version heq
    obtain ⟨x, -, rfl⟩ := mem_map.mp ha
    exact absurd heq (hg x n version)
  refine happend ?_ (happend ?_ (happend ?_ (happend ?_ (happend ?_ (happend ?_ hlast)))))
  · exact hmap fun _ _ _ h => nomatch h
  · intro a ha
    obtain ⟨d, -, hd⟩ := mem_flatMap.mp ha
    refine hmap ?_ a hd
    exact fun _ _ _ h => nomatch h
  · exact hmap fun _ _ _ h => nomatch h
  · exact hmap fun _ _ _ h => nomatch h
  · exact hmap fun _ _ _ h => nomatch h
  · intro a ha b n version heq
    obtain ⟨⟨e, v⟩, hc, rfl⟩ := mem_map.mp ha
    rw [mem_reverse, mem_filter, beq_iff_eq] at hc
    cases heq
    exact Bool.noConfusion hc.2

/-! ### Where a record goes in -/

theorem undoEntries_updated (tx : GraphTx V) (e : EntityId) (snap : Snapshot V) :
    ∃ L M, tx.undoEntries = L ++ M ∧ { tx with updated := tx.updated ++ [(e, snap)] }.undoEntries =
      L ++ ([.updated e snap] ++ M) := by
  cases hrel : e.isRel with
  | true =>
    refine ⟨tx.nodeEntries ++ (tx.cascadeEntries ++ tx.relEntries), tx.updatedEntries true ++
      (tx.updatedEntries false ++ (tx.createdEntries true ++ tx.createdEntries false)), ?_, ?_⟩
    · simp only [undoEntries, append_assoc]
    · simp [undoEntries, nodeEntries, cascadeEntries, relEntries, updatedEntries, createdEntries, hrel]
  | false =>
    refine ⟨tx.nodeEntries ++ (tx.cascadeEntries ++ (tx.relEntries ++ tx.updatedEntries true)),
      tx.updatedEntries false ++ (tx.createdEntries true ++ tx.createdEntries false), ?_, ?_⟩
    · simp only [undoEntries, append_assoc]
    · simp [undoEntries, nodeEntries, cascadeEntries, relEntries, updatedEntries, createdEntries, hrel]

theorem undoEntries_created (tx : GraphTx V) (e : EntityId) (version : Nat) :
    ∃ L M, tx.undoEntries = L ++ M ∧ { tx with created := tx.created ++ [(e, version)] }.undoEntries =
      L ++ ([.created e version] ++ M) := by
  cases hrel : e.isRel with
  | true =>
    refine ⟨tx.nodeEntries ++ (tx.cascadeEntries ++ (tx.relEntries ++ (tx.updatedEntries true ++
      tx.updatedEntries false))), tx.createdEntries true ++ tx.createdEntries false, ?_, ?_⟩
    · simp only [undoEntries, append_assoc]
    · simp [undoEntries, nodeEntries, cascadeEntries, relEntries, updatedEntries, createdEntries, hrel]
  | false =>
    refine ⟨tx.nodeEntries ++ (tx.cascadeEntries ++ (tx.relEntries ++ (tx.updatedEntries true ++
      (tx.updatedEntries false ++ tx.createdEntries true)))), tx.createdEntries false, ?_, ?_⟩
    · simp only [undoEntries, append_assoc]
    · simp [undoEntries, nodeEntries, cascadeEntries, relEntries, updatedEntries, createdEntries, hrel]

theorem undoEntries_deletedRel (tx : GraphTx V) (id : Nat) (snap : Snapshot V) :
    ∃ M, tx.undoEntries = (tx.nodeEntries ++ tx.cascadeEntries) ++ M ∧
      (∀ d ∈ tx.deletedRels, .deleted (.rel d.1) d.2 ∈ M) ∧
      { tx with deletedRels := tx.deletedRels ++ [(id, snap)] }.undoEntries =
        (tx.nodeEntries ++ tx.cascadeEntries) ++ ([.deleted (.rel id) snap] ++ M) := by
  refine ⟨tx.relEntries ++ (tx.updatedEntries true ++ (tx.updatedEntries false ++
    (tx.createdEntries true ++ tx.createdEntries false))), ?_, fun d hd => ?_, ?_⟩
  · simp only [undoEntries, append_assoc]
  · exact mem_append_left _ (mem_map.mpr ⟨d, mem_reverse.mpr hd, rfl⟩)
  · simp [undoEntries, nodeEntries, cascadeEntries, relEntries, updatedEntries, createdEntries]

/-- The records of the node deletes. -/
theorem mem_nodeEntries_cascadeEntries (h : a ∈ tx.nodeEntries ++ tx.cascadeEntries) :
    (∃ n snap, a = .deleted (.node n) snap) ∨
      ∃ id snap, a = .deleted (.rel id) snap ∧ tx.isCascaded id = true := by
  rcases mem_append.mp h with h | h
  · obtain ⟨d, -, rfl⟩ := mem_map.mp h
    exact .inl ⟨_, _, rfl⟩
  · obtain ⟨d, hd, h⟩ := mem_flatMap.mp h
    obtain ⟨r, hr, rfl⟩ := mem_map.mp h
    exact .inr ⟨_, _, rfl, any_eq_true.mpr
      ⟨d, mem_reverse.mp hd, any_eq_true.mpr ⟨r, hr, beq_self_eq_true _⟩⟩⟩

/-- A relationship delete is recorded before the first record of the relationship, unless that is the
record of a cascade and the only one. -/
theorem lastOf_deletedRel {id : Nat} {M : List (UndoEntry V)}
    (htx : tx.undoEntries = (tx.nodeEntries ++ tx.cascadeEntries) ++ M)
    (hrels : ∀ d ∈ tx.deletedRels, .deleted (.rel d.1) d.2 ∈ M)
    (hok : tx.isCascaded id = true → tx.isRelDeleted id = true ∨ tx.isUpdated (.rel id) = true ∨
      tx.isCreated (.rel id) = true)
    (hnone : UndoEntry.lastOf (.rel id) M = none) :
    UndoEntry.lastOf (.rel id) (tx.nodeEntries ++ tx.cascadeEntries) = none := by
  rw [lastOf_eq_none] at hnone
  refine lastOf_eq_none.mpr fun a ha hae => ?_
  obtain ⟨n, snap, rfl⟩ | ⟨id', snap, rfl, hcascaded⟩ := mem_nodeEntries_cascadeEntries ha
  · cases hae
  · cases hae
    rcases hok hcascaded with h | h | h
    · obtain ⟨d, hd, heq⟩ := any_eq_true.mp h
      cases beq_iff_eq.mp heq
      exact hnone _ (hrels d hd) rfl
    · obtain ⟨snap', h⟩ := isUpdated_iff.mp h
      rw [htx] at h
      rcases mem_append.mp h with h | h
      · obtain ⟨_, _, heq⟩ | ⟨_, _, heq, -⟩ := mem_nodeEntries_cascadeEntries h <;> cases heq
      · exact hnone _ h rfl
    · obtain ⟨version, h⟩ := isCreated_iff.mp h
      rw [htx] at h
      rcases mem_append.mp h with h | h
      · obtain ⟨_, _, heq⟩ | ⟨_, _, heq, -⟩ := mem_nodeEntries_cascadeEntries h <;> cases heq
      · exact hnone _ h rfl

theorem undoEntries_deletedNode (tx : GraphTx V) (d : DeletedNode V) :
    ∃ M, tx.undoEntries = tx.nodeEntries ++ M ∧
      { tx with deletedNodes := tx.deletedNodes ++ [d] }.undoEntries =
        [] ++ ([.deleted (.node d.id) d.node] ++
          (tx.nodeEntries ++ (d.rels.map (fun r => .deleted (.rel r.1) r.2) ++ M))) := by
  refine ⟨tx.cascadeEntries ++ (tx.relEntries ++ (tx.updatedEntries true ++
    (tx.updatedEntries false ++ (tx.createdEntries true ++ tx.createdEntries false)))), rfl, ?_⟩
  simp [undoEntries, nodeEntries, cascadeEntries, relEntries, updatedEntries, createdEntries]

end GraphTx

/-- The records restore the state before the transaction: all bring the protected rows of `e` back, the
last one everything; an entity without a record has not been written, and one that is gone has been
deleted. -/
structure Recorded (s₀ : Store V) (caps : TxCaps) (entries : List (UndoEntry V)) (s : Store V)
    (e : EntityId) : Prop where
  keeps : ∀ a ∈ entries, a.entity = e → a.Keeps s₀ ∧ a.NoWrap caps
  last : ∀ a, UndoEntry.lastOf e entries = some a → a.Exact s₀
  untouched : UndoEntry.lastOf e entries = none → s₀.SameAt e s
  alive : s₀.current e ≠ none → s.current e = none → ∃ snap, .deleted e snap ∈ entries

namespace Recorded

variable {s₀ s s' : Store V} {caps : TxCaps} {entries L new M : List (UndoEntry V)} {e : EntityId}

theorem begin (s₀ : Store V) (caps : TxCaps) (e : EntityId) :
    Recorded s₀ caps (GraphTx.new : GraphTx V).undoEntries s₀ e :=
  ⟨fun _ ha => (nomatch ha), fun _ ha => (nomatch ha), fun _ => ⟨rfl, rfl⟩, fun h h' => absurd h' h⟩

/-- A call that records `new`. -/
theorem insert (h : Recorded s₀ caps (L ++ M) s e)
    (hpos : UndoEntry.lastOf e M = none → UndoEntry.lastOf e new ≠ none → UndoEntry.lastOf e L = none)
    (hkeeps : ∀ a ∈ new, a.entity = e → a.Keeps s₀ ∧ a.NoWrap caps)
    (hexact : s₀.SameAt e s → ∀ a ∈ new, a.entity = e → a.Exact s₀)
    (hsame : UndoEntry.lastOf e (L ++ M) = none → UndoEntry.lastOf e new = none → s.SameAt e s')
    (hgone : s.current e ≠ none → s'.current e = none → ∃ snap, .deleted e snap ∈ new) :
    Recorded s₀ caps (L ++ (new ++ M)) s' e := by
  have hlast := lastOf_insert hpos
  have hmem : ∀ a, a ∈ L ++ (new ++ M) ↔ a ∈ new ∨ a ∈ L ++ M := fun a => by
    simp only [mem_append]
    exact or_left_comm
  refine ⟨fun a ha hae => ?_, fun a ha => ?_, fun hnone => ?_, fun hlive hdead => ?_⟩
  · exact ((hmem a).mp ha).elim (fun ha => hkeeps a ha hae) fun ha => h.keeps a ha hae
  · rw [hlast] at ha
    cases hold : lastOf e (L ++ M) with
    | some b =>
      rw [hold] at ha
      exact Option.some.inj ha ▸ h.last b hold
    | none =>
      rw [hold, Option.none_or] at ha
      obtain ⟨hmem, hae⟩ := mem_of_lastOf ha
      exact hexact (h.untouched hold) a hmem hae
  · rw [hlast, Option.or_eq_none_iff] at hnone
    obtain ⟨hcur, hhist⟩ := h.untouched hnone.1
    obtain ⟨hcur', hhist'⟩ := hsame hnone.1 hnone.2
    exact ⟨hcur'.trans hcur, hhist'.trans hhist⟩
  · by_cases hs : s.current e = none
    · obtain ⟨snap, hsnap⟩ := h.alive hlive hs
      exact ⟨snap, (hmem _).mpr (.inr hsnap)⟩
    · obtain ⟨snap, hsnap⟩ := hgone hs hdead
      exact ⟨snap, (hmem _).mpr (.inl hsnap)⟩

/-- An entity the call leaves. -/
theorem insert_else (h : Recorded s₀ caps (L ++ M) s e) (hnew : ∀ a ∈ new, a.entity ≠ e)
    (hsame : s.SameAt e s') : Recorded s₀ caps (L ++ (new ++ M)) s' e :=
  h.insert (fun _ hne => absurd (lastOf_eq_none.mpr hnew) hne)
    (fun a ha hae => absurd hae (hnew a ha)) (fun _ a ha hae => absurd hae (hnew a ha))
    (fun _ _ => hsame) fun hlive hdead => absurd (hsame.1.symm.trans hdead) hlive

/-- A call that records nothing, of an entity with a record or without writing it. -/
theorem keep (h : Recorded s₀ caps entries s e)
    (hsame : UndoEntry.lastOf e entries = none → s.SameAt e s')
    (hgone : s.current e ≠ none → s'.current e ≠ none) : Recorded s₀ caps entries s' e := by
  have hinsert : Recorded s₀ caps ([] ++ ([] ++ entries)) s' e :=
    Recorded.insert h (fun _ hne => absurd rfl hne) (fun _ ha => (nomatch ha))
      (fun _ _ ha => (nomatch ha)) (fun hnone _ => hsame hnone)
      fun hlive hdead => absurd hdead (hgone hlive)
  exact hinsert

theorem same (h : Recorded s₀ caps entries s e) (hsame : s.SameAt e s') :
    Recorded s₀ caps entries s' e :=
  h.keep (fun _ => hsame) fun hlive hdead => hlive (hsame.1.symm.trans hdead)

/-- A delete of the entity. -/
theorem delete (h : Recorded s₀ caps (L ++ M) s e) (hdist : s₀.Distinct) (hrows : RowsKept s₀ s e)
    (hend : s.Ended e s')
    (hpos : UndoEntry.lastOf e M = none → UndoEntry.lastOf e new ≠ none → UndoEntry.lastOf e L = none)
    (hnew : ∀ x, s.current e = some x → .deleted e (.ofDelete caps x (s.history e)) ∈ new)
    (hmem : ∀ a ∈ new, a.entity = e →
      ∃ x, s.current e = some x ∧ a = .deleted e (.ofDelete caps x (s.history e))) :
    Recorded s₀ caps (L ++ (new ++ M)) s' e := by
  obtain ⟨x, -, hx, -⟩ := hend
  refine h.insert hpos (fun a ha hae => ?_) (fun hsame a ha hae => ?_) (fun _ hnone => ?_)
    fun _ _ => ⟨_, hnew x hx⟩
  · obtain ⟨y, hy, rfl⟩ := hmem a ha hae
    exact ⟨keeps_ofDelete hrows.sorted (hrows.keptLive (by simp [hy]))
      (hrows.versions y (.inr hy)), trivial⟩
  · obtain ⟨y, hy, rfl⟩ := hmem a ha hae
    rw [hsame.2]
    exact exact_ofDelete hdist (hsame.1 ▸ hy)
  · exact absurd rfl (lastOf_eq_none.mp hnone _ (hnew x hx))

/-- An entity that is gone without having been deleted was not there before the transaction. -/
theorem current_eq_none (h : Recorded s₀ caps entries s e) (hcur : s.current e = none)
    (hdel : ∀ snap, .deleted e snap ∉ entries) : s₀.current e = none := by
  by_contra hlive
  obtain ⟨snap, hsnap⟩ := h.alive hlive hcur
  exact hdel snap hsnap

end Recorded

/-! ### Snapshots made whole -/

/-- The record is the same, or its snapshot made whole on the history `now` of the entity. -/
def UndoEntry.MadeWhole (e : EntityId) (now : List (Stored V)) (a b : UndoEntry V) : Prop :=
  b = a ∨ ∃ snap, a = .deleted e snap ∧ b = .deleted e (snap.materialize now)

section MadeWhole

variable {s₀ s : Store V} {caps : TxCaps} {e e' : EntityId} {now : List (Stored V)} {a b : UndoEntry V}
  {l l' : List (UndoEntry V)}

theorem UndoEntry.MadeWhole.entity (h : UndoEntry.MadeWhole e now a b) : b.entity = a.entity := by
  rcases h with rfl | ⟨snap, rfl, rfl⟩ <;> rfl

theorem UndoEntry.MadeWhole.keeps (h : UndoEntry.MadeWhole e now a b)
    (hnow : ∀ snap, (UndoEntry.deleted e snap).Finds s₀ now) (ha : a.Keeps s₀ ∧ a.NoWrap caps) :
    b.Keeps s₀ ∧ b.NoWrap caps := by
  rcases h with rfl | ⟨snap, rfl, rfl⟩
  · exact ha
  · exact ⟨keeps_materialize (hnow snap) ha.1, trivial⟩

theorem UndoEntry.MadeWhole.exact (h : UndoEntry.MadeWhole e now a b)
    (hnow : ∀ snap, (UndoEntry.deleted e snap).Finds s₀ now) (ha : a.Exact s₀) : b.Exact s₀ := by
  rcases h with rfl | ⟨snap, rfl, rfl⟩
  · exact ha
  · exact exact_materialize (hnow snap) ha

theorem UndoEntry.lastOf_madeWhole (e' : EntityId)
    (h : List.Forall₂ (UndoEntry.MadeWhole e now) l l') :
    Option.Rel (UndoEntry.MadeWhole e now) (UndoEntry.lastOf e' l) (UndoEntry.lastOf e' l') := by
  induction h with
  | nil => exact .none
  | @cons a b l l' hab _ ih =>
    rw [lastOf_cons, lastOf_cons, hab.entity]
    generalize lastOf e' l = x at ih
    generalize lastOf e' l' = y at ih
    cases ih with
    | some h => exact .some h
    | none =>
      by_cases he : a.entity = e'
      · rw [if_pos he, if_pos he]
        exact .some hab
      · rw [if_neg he, if_neg he]
        exact .none

theorem exists_mem_of_forall₂ {α β : Type*} {R : α → β → Prop} {l : List α} {m : List β}
    (h : List.Forall₂ R l m) {y : β} (hy : y ∈ m) : ∃ x ∈ l, R x y := by
  induction h with
  | nil => cases hy
  | cons hab _ ih =>
    rcases mem_cons.mp hy with rfl | hy
    · exact ⟨_, mem_cons_self, hab⟩
    · obtain ⟨x, hx, hxy⟩ := ih hy
      exact ⟨x, mem_cons_of_mem _ hx, hxy⟩

theorem Recorded.madeWhole (h : Recorded s₀ caps l s e')
    (hnow : ∀ snap, (UndoEntry.deleted e snap).Finds s₀ now)
    (hl : List.Forall₂ (UndoEntry.MadeWhole e now) l l') : Recorded s₀ caps l' s e' := by
  refine ⟨fun b hb hbe => ?_, fun b hb => ?_, fun hnone => ?_, fun hlive hdead => ?_⟩
  · obtain ⟨a, ha, hab⟩ := exists_mem_of_forall₂ hl hb
    exact hab.keeps hnow (h.keeps a ha (hab.entity ▸ hbe))
  · have hlast := lastOf_madeWhole e' hl
    rw [hb] at hlast
    generalize hx : lastOf e' l = x at hlast
    cases hlast with
    | some hab => exact hab.exact hnow (h.last _ hx)
  · have hlast := lastOf_madeWhole e' hl
    rw [hnone] at hlast
    generalize hx : lastOf e' l = x at hlast
    cases hlast with
    | none => exact h.untouched hx
  · obtain ⟨snap, hsnap⟩ := h.alive hlive hdead
    have hflip : Forall₂ (flip (MadeWhole e now)) l' l := .flip hl
    obtain ⟨b, hb, rfl | ⟨snap', heq, rfl⟩⟩ := exists_mem_of_forall₂ hflip hsnap
    · exact ⟨snap, hb⟩
    · cases heq
      exact ⟨_, hb⟩

end MadeWhole

namespace GraphTx

variable {tx : GraphTx V} {s : Store V}

/-- What `materializeNode` does to a deleted node. -/
theorem forall₂_materializeNode (id : Nat) (now : List (Stored V)) (ds : List (DeletedNode V)) :
    List.Forall₂ (fun d d' : DeletedNode V => d'.id = d.id ∧ d'.rels = d.rels ∧
      (d'.node = d.node ∨ d.id = id ∧ d'.node = d.node.materialize now))
      ds (materializeNode id now ds) := by
  induction ds with
  | nil => exact .nil
  | cons d ds ih =>
    rw [materializeNode]
    split
    · rename_i hd
      exact .cons ⟨rfl, rfl, .inr ⟨hd.1, rfl⟩⟩ (forall₂_same.mpr fun _ _ => ⟨rfl, rfl, .inl rfl⟩)
    · exact .cons ⟨rfl, rfl, .inl rfl⟩ ih

theorem forall₂_materializeRels (id : Nat) (now : List (Stored V)) (rels : List (Nat × Snapshot V)) :
    List.Forall₂ (UndoEntry.MadeWhole (.rel id) now) (rels.map fun r => .deleted (.rel r.1) r.2)
      ((materializeRels id now rels).map fun r => .deleted (.rel r.1) r.2) := by
  rw [materializeRels, map_map, forall₂_map_left_iff, forall₂_map_right_iff,
    forall₂_same]
  intro r _
  by_cases hr : r.1 = id
  · refine .inr ⟨r.2, by rw [hr], ?_⟩
    simp [hr]
  · refine .inl ?_
    simp [hr]

/-- The records of a transaction whose snapshots of `e` are made whole. -/
theorem forall₂_materialize (e : EntityId) :
    List.Forall₂ (UndoEntry.MadeWhole e (s.history e)) tx.undoEntries
      (tx.materialize s e).undoEntries := by
  have hrefl : ∀ l : List (UndoEntry V), Forall₂ (MadeWhole e (s.history e)) l l :=
    fun l => forall₂_same.mpr fun _ _ => .inl rfl
  cases e with
  | node id =>
    have hnodes := forall₂_materializeNode id (s.history (.node id)) tx.deletedNodes
    refine rel_append ?_ (rel_append ?_ (hrefl _))
    · refine rel_map ?_ (rel_reverse hnodes)
      rintro d d' ⟨hid, -, hnode | ⟨hd, hnode⟩⟩ <;> dsimp only
      · exact .inl (by rw [hid, hnode])
      · exact .inr ⟨d.node, by rw [hd], by rw [hid, hd, hnode]⟩
    · refine rel_flatMap (rel_reverse hnodes) ?_
      rintro d d' ⟨-, hrels, -⟩
      dsimp only
      rw [hrels]
      exact hrefl _
  | rel id =>
    refine rel_append ?_ (rel_append ?_ (rel_append ?_ (hrefl _)))
    · have hnodes : (tx.materialize s (.rel id)).nodeEntries = tx.nodeEntries := by
        simp [nodeEntries, materialize, ← map_reverse, Function.comp_def]
      show Forall₂ _ tx.nodeEntries _
      rw [hnodes]
      exact hrefl _
    · show Forall₂ _ (flatMap _ _) (flatMap _ (map _ _).reverse)
      rw [← map_reverse, flatMap_map]
      refine rel_flatMap (forall₂_same.mpr fun _ _ => rfl) ?_
      rintro d _ rfl
      exact forall₂_materializeRels id _ d.rels
    · have hrev : (materializeRels id (s.history (.rel id)) tx.deletedRels).reverse =
          materializeRels id (s.history (.rel id)) tx.deletedRels.reverse := map_reverse.symm
      show Forall₂ _ (map _ _) (map _ (materializeRels id _ tx.deletedRels).reverse)
      rw [hrev]
      exact forall₂_materializeRels id _ tx.deletedRels.reverse

theorem created_mem_of_materialize {e e' : EntityId} {version : Nat}
    (h : .created e' version ∈ (tx.materialize s e).undoEntries) :
    .created e' version ∈ tx.undoEntries := by
  obtain ⟨a, ha, heq | ⟨snap, -, heq⟩⟩ := exists_mem_of_forall₂ (forall₂_materialize e) h
  · exact heq ▸ ha
  · cases heq

end GraphTx

end RhoTkg
