import RhoTkg.ReplicaAgreement
import RhoTkg.TxWrites
import RhoTkg.Undo

/-!
# The restores of a rollback

`Rollback` takes the records of the undo log one after the other; an entity can have several, and the
last one decides.  A record `Keeps` the state before the transaction when it brings back the rows of
every version the transaction cannot have written, and is `Exact` when it brings back all.  If every
record keeps and the last of every entity is exact, the restores end in the state before the
transaction (`restore_all`).
-/

namespace RhoTkg

open List

variable {V : Type}

/-! ## The rows a transaction does not write -/

/-- The version lies under a row of the chain before the transaction, and is not the current row's. -/
def Store.Protected (s₀ : Store V) (e : EntityId) (v : Nat) : Prop :=
  (∀ x, s₀.current e = some x → v ≠ x.version) ∧ ∃ r, s₀.InChain e r ∧ v ≤ r.version

/-- The histories agree at the versions `P`. -/
def AgreeOn (P : Nat → Prop) (history history₀ : List (Stored V)) : Prop :=
  ∀ r, P r.version → (r ∈ history ↔ r ∈ history₀)

/-- The versions of a chain before the transaction, which the transaction never writes: it can write a
row at the version ceiling. -/
def Store.Untouchable (s₀ : Store V) (e : EntityId) (v : Nat) : Prop :=
  s₀.Protected e v ∧ v < maxUint32

/-- A graph state: the versions of every chain are distinct, also from the current row's, and the
adjacency is that of the rows. -/
structure Store.Distinct (s₀ : Store V) : Prop where
  sorted : ∀ e, Keyed.Sorted Stored.version (s₀.history e)
  fresh : ∀ e x, s₀.current e = some x → ∀ r ∈ s₀.history e, r.version ≠ x.version
  versions : ∀ e, s₀.VersionsOk e
  adjacent : s₀.Adjacent

section Histories

variable {s₀ : Store V} {e : EntityId}

theorem AgreeOn.refl (P : Nat → Prop) (history : List (Stored V)) : AgreeOn P history history :=
  fun _ _ => Iff.rfl

variable {history old : List (Stored V)} {r : Stored V} {version : Nat}

theorem AgreeOn.untouchable {history₀ : List (Stored V)}
    (h : AgreeOn (s₀.Protected e) history history₀) :
    AgreeOn (s₀.Untouchable e) history history₀ := fun r hr => h r hr.1

theorem Store.Distinct.protected (h : s₀.Distinct) (hr : r ∈ s₀.history e) :
    s₀.Protected e r.version :=
  ⟨fun x hx => h.fresh e x hx r hr, r, .inl hr, le_rfl⟩

/-- Rows from the trim point on are put behind those below. -/
theorem mem_restoredFrom (start : Nat) {above : List (Stored V)}
    (hsort : Keyed.Sorted Stored.version history) (habove : Keyed.Sorted Stored.version above)
    (hstart : ∀ r ∈ above, start ≤ r.version) :
    Keyed.Sorted Stored.version (restoredFrom start above history) ∧
      ∀ r, r ∈ restoredFrom start above history ↔
        (r ∈ history ∧ r.version < start) ∨ r ∈ above := by
  have hbelow : ∀ r ∈ historyBefore history start, r.version < start := fun r hr =>
    of_decide_eq_true (mem_filter.mp hr).2
  have hlt : ∀ x ∈ historyBefore history start, ∀ y ∈ above, x.version < y.version :=
    fun x hx y hy => (hbelow x hx).trans_le (hstart y hy)
  rw [restoredFrom, Keyed.foldl_put_eq_append habove hlt]
  refine ⟨pairwise_append.mpr ⟨sorted_historyBefore hsort start, habove, hlt⟩, fun r => ?_⟩
  rw [mem_append, historyBefore, mem_filter, decide_eq_true_eq]

theorem mem_historyFrom : r ∈ historyFrom history version ↔ r ∈ history ∧ version ≤ r.version := by
  rw [historyFrom, mem_filter, decide_eq_true_eq]

/-- The rows below the version of `x` as they are now and the rows of `old` from there on. -/
theorem mem_restoredFrom_historyFrom {x : Stored V} (hsort : Keyed.Sorted Stored.version history)
    (hold : Keyed.Sorted Stored.version old) :
    Keyed.Sorted Stored.version (restoredFrom x.version (historyFrom old x.version) history) ∧
      ∀ r, r ∈ restoredFrom x.version (historyFrom old x.version) history ↔
        (r ∈ history ∧ r.version < x.version) ∨ (r ∈ old ∧ x.version ≤ r.version) := by
  have habove : Keyed.Sorted Stored.version (historyFrom old x.version) := hold.filter _
  obtain ⟨hsorted, hmem⟩ := mem_restoredFrom x.version hsort habove
    fun r hr => (mem_historyFrom.mp hr).2
  refine ⟨hsorted, fun r => ?_⟩
  rw [hmem, mem_historyFrom]

/-- A trim snapshot with no rows from the trim point on. -/
theorem historyFrom_eq_nil (h : (historyFrom history version).isEmpty = true) :
    historyFrom history version = [] :=
  isEmpty_iff.mp h

/-- What the restore of a delete makes of a history: the rows from the trim point on, or all of
them, are those the delete found. -/
theorem Snapshot.deletedRows_ofDelete (caps : TxCaps) (x : Stored V)
    (hold : Keyed.Sorted Stored.version old) (history : List (Stored V)) :
    (ofDelete caps x old).deletedRows history =
        restoredFrom x.version (historyFrom old x.version) history ∨
      (ofDelete caps x old).deletedRows history = old := by
  have hcopied : (copied x old).deletedRows history = old := hold.foldl_put_nil
  unfold ofDelete
  split
  · exact .inl rfl
  · split
    · exact .inr hcopied
    · split
      · rename_i hempty
        rw [historyFrom_eq_nil hempty]
        exact .inl rfl
      · exact .inr hcopied

/-- The same for the update of an entity without a head entry. -/
theorem Snapshot.updatedRows_ofUpdate (caps : TxCaps) (x : Stored V)
    (hold : Keyed.Sorted Stored.version old) (history : List (Stored V)) :
    (ofUpdate caps false x old).updatedRows history =
        restoredFrom x.version (historyFrom old x.version) history ∨
      (ofUpdate caps false x old).updatedRows history = old := by
  have hcopied : (copied x old).updatedRows history = old := hold.foldl_put_nil
  have hnone : (trimmed x 0 []).updatedRows history = restoredFrom x.version [] history :=
    keepPreTxRows_of_le (Nat.zero_le _)
  unfold ofUpdate
  rw [if_neg Bool.false_ne_true]
  split
  · refine .inl ?_
    cases habove : historyFrom old x.version with
    | nil => exact hnone
    | cons r rows => rfl
  · split
    · rename_i hempty
      rw [historyFrom_eq_nil hempty]
      exact .inl hnone
    · exact .inr hcopied

/-- A snapshot made whole restores what it would have restored. -/
theorem Snapshot.deletedRows_materialize {snap : Snapshot V} {now : List (Stored V)}
    (hnow : Keyed.Sorted Stored.version now) (history : List (Stored V)) :
    (snap.materialize now).deletedRows history =
      if snap.useHistoryTrim then snap.deletedRows now else snap.deletedRows history := by
  unfold materialize
  split
  · rename_i htrim
    rw [deletedRows, if_neg (by simp), deletedRows, if_pos htrim, restoredFrom, foldl_append,
      (sorted_historyBefore hnow _).foldl_put_nil]
  · rfl

end Histories

/-! ## Records that restore -/

namespace UndoEntry

variable (s₀ : Store V) (a : UndoEntry V)

/-- The histories a restore finds: the transaction has not written the untouchable versions, and none
of the protected ones while the entity is live. -/
structure Finds (history : List (Stored V)) : Prop where
  sorted : Keyed.Sorted Stored.version history
  kept : AgreeOn (s₀.Untouchable a.entity) history (s₀.history a.entity)
  keptLive : a.isUpdate = true → AgreeOn (s₀.Protected a.entity) history (s₀.history a.entity)

/-- The restore brings the protected rows back. -/
def Keeps : Prop := ∀ history, a.Finds s₀ history →
  Keyed.Sorted Stored.version (a.rows history) ∧
    AgreeOn (s₀.Protected a.entity) (a.rows history) (s₀.history a.entity)

/-- The restore brings the state before the transaction back. -/
def Exact : Prop :=
  a.row = s₀.current a.entity ∧ ∀ history, a.Finds s₀ history → a.rows history = s₀.history a.entity

variable {s₀ a}

theorem Exact.keeps (hsort : Keyed.Sorted Stored.version (s₀.history a.entity)) (h : a.Exact s₀) :
    a.Keeps s₀ := fun history hfinds => by
  rw [h.2 history hfinds]
  exact ⟨hsort, .refl _ _⟩

variable {e : EntityId} {x : Stored V} {old : List (Stored V)}

variable {caps : TxCaps} {now : List (Stored V)} {snap : Snapshot V} {e : EntityId}
  {l : List (UndoEntry V)}

/-- A delete of a live entity can be restored. -/
theorem keeps_ofDelete (hold : Keyed.Sorted Stored.version old)
    (hkept : AgreeOn (s₀.Protected e) old (s₀.history e)) (hmax : x.version ≤ maxUint32) :
    (deleted e (.ofDelete caps x old)).Keeps s₀ := by
  intro history hfinds
  obtain ⟨hsorted, hmem⟩ := mem_restoredFrom_historyFrom (x := x) hfinds.sorted hold
  rcases Snapshot.deletedRows_ofDelete caps x hold history with heq | heq
  · show Keyed.Sorted Stored.version ((Snapshot.ofDelete caps x old).deletedRows history) ∧ _
    refine ⟨by rw [heq]; exact hsorted, fun r hr => ?_⟩
    show r ∈ (Snapshot.ofDelete caps x old).deletedRows history ↔ _
    rw [heq, hmem]
    by_cases hlt : r.version < x.version
    · rw [hfinds.kept r ⟨hr, hlt.trans_le hmax⟩]
      simp [hlt, not_le.mpr hlt]
    · rw [hkept r hr]
      simp [hlt, not_lt.mp hlt]
      rfl
  · show Keyed.Sorted Stored.version ((Snapshot.ofDelete caps x old).deletedRows history) ∧
      AgreeOn _ ((Snapshot.ofDelete caps x old).deletedRows history) _
    rw [heq]
    exact ⟨hold, hkept⟩

/-- The rows below the current row of before the transaction are still there. -/
theorem Finds.eq_history {history : List (Stored V)} (hfinds : a.Finds s₀ history)
    (hdist : s₀.Distinct) (hcur : s₀.current a.entity = some x) :
    restoredFrom x.version (historyFrom (s₀.history a.entity) x.version) history =
      s₀.history a.entity := by
  obtain ⟨hsorted, hmem⟩ :=
    mem_restoredFrom_historyFrom (x := x) hfinds.sorted (hdist.sorted a.entity)
  refine Keyed.Sorted.ext hsorted (hdist.sorted _) fun r => ?_
  rw [hmem]
  by_cases hlt : r.version < x.version
  · have hmax := hdist.versions a.entity x (.inr hcur)
    have huntouchable : s₀.Untouchable a.entity r.version :=
      ⟨⟨fun y hy => by
          cases hcur.symm.trans hy
          exact hlt.ne, x, .inr hcur, hlt.le⟩, hlt.trans_le hmax⟩
    rw [hfinds.kept r huntouchable]
    simp [hlt, not_le.mpr hlt]
  · simp [hlt, not_lt.mp hlt]

/-- The first delete of an entity restores it. -/
theorem exact_ofDelete (hdist : s₀.Distinct) (hcur : s₀.current e = some x) :
    (deleted e (.ofDelete caps x (s₀.history e))).Exact s₀ := by
  have hrow : (deleted e (.ofDelete caps x (s₀.history e))).row = s₀.current e := by
    rw [hcur]
    show some (Snapshot.ofDelete caps x (s₀.history e)).prev = some x
    unfold Snapshot.ofDelete
    split_ifs <;> rfl
  refine ⟨hrow, fun history hfinds => ?_⟩
  rcases Snapshot.deletedRows_ofDelete caps x (hdist.sorted e) history with h | h
  · exact h.trans (hfinds.eq_history hdist hcur)
  · exact h

theorem le_topVersion_iff {r : Nat} :
    r ≤ topVersion (old.map (·.row)) x.row ↔ ∃ y, (y ∈ old ∨ x = y) ∧ r ≤ y.version := by
  constructor
  · intro hle
    obtain ⟨row, hrow | hrow, heq⟩ := exists_version_eq_topVersion (old.map (·.row)) x.row
    · exact ⟨x, .inr rfl, by rw [← heq, hrow] at hle; exact hle⟩
    · obtain ⟨y, hy, rfl⟩ := mem_map.mp hrow
      exact ⟨y, .inl hy, by rwa [← heq] at hle⟩
  · rintro ⟨y, hy | rfl, hle⟩
    · exact hle.trans (version_le_topVersion (.inr (mem_map_of_mem hy)))
    · exact hle.trans (version_le_topVersion (.inl rfl))

/-- The first update of an entity restores it. -/
theorem exact_ofUpdate {head : Bool} (hdist : s₀.Distinct) (hcur : s₀.current e = some x) :
    (updated e (.ofUpdate caps head x (s₀.history e))).Exact s₀ := by
  have hrow : (updated e (.ofUpdate caps head x (s₀.history e))).row = s₀.current e := by
    rw [hcur]
    show some (Snapshot.ofUpdate caps head x (s₀.history e)).prev = some x
    unfold Snapshot.ofUpdate
    split_ifs <;> rfl
  refine ⟨hrow, fun history hfinds => ?_⟩
  cases head with
  | false =>
    rcases Snapshot.updatedRows_ofUpdate caps x (hdist.sorted e) history with h | h
    · exact h.trans (hfinds.eq_history hdist hcur)
    · exact h
  | true =>
    -- the rows up to the highest version, but for the current row's
    show keepPreTxRows history x.version (topVersion ((s₀.history e).map (·.row)) x.row) = _
    refine Keyed.Sorted.ext (sorted_keepPreTxRows hfinds.sorted _ _) (hdist.sorted e) fun r => ?_
    have hprot : r.version < x.version ∨ x.version < r.version ∧
        r.version ≤ topVersion ((s₀.history e).map (·.row)) x.row ↔ s₀.Protected e r.version := by
      rw [le_topVersion_iff]
      constructor
      · rintro (hlt | ⟨hlt, y, hy, hle⟩)
        · exact ⟨fun z hz => by cases (hcur.symm.trans hz); exact hlt.ne,
            x, .inr hcur, hlt.le⟩
        · refine ⟨fun z hz => by cases (hcur.symm.trans hz); exact hlt.ne',
            y, hy.imp_right fun h => ?_, hle⟩
          rw [hcur, h]
      · rintro ⟨hne, y, hy, hle⟩
        rcases lt_or_gt_of_ne (hne x hcur) with hlt | hlt
        · exact .inl hlt
        · exact .inr ⟨hlt, y, hy.imp_right fun h => Option.some.inj (hcur.symm.trans h), hle⟩
    rw [keepPreTxRows, mem_filter, Bool.or_eq_true, Bool.and_eq_true, decide_eq_true_eq,
      decide_eq_true_eq, decide_eq_true_eq, hprot]
    constructor
    · rintro ⟨hr, hp⟩
      exact (hfinds.keptLive rfl r hp).mp hr
    · intro hr
      exact ⟨(hfinds.keptLive rfl r (hdist.protected hr)).mpr hr, hdist.protected hr⟩

/-- A create above the rows of earlier lives is undone. -/
theorem exact_created {version : Nat} (hdist : s₀.Distinct) (hcur : s₀.current e = none)
    (habove : ∀ r ∈ s₀.history e, r.version < version) (hmax : version ≤ maxUint32)
    (hnext : ∀ w < version, ∃ r ∈ s₀.history e, w ≤ r.version) :
    (created e version : UndoEntry V).Exact s₀ := by
  refine ⟨hcur.symm, fun history hfinds => ?_⟩
  refine Keyed.Sorted.ext (sorted_historyBefore hfinds.sorted _) (hdist.sorted e) fun r => ?_
  show r ∈ historyBefore history version ↔ r ∈ s₀.history e
  rw [historyBefore, mem_filter, decide_eq_true_eq]
  have hunt : r.version < version → s₀.Untouchable e r.version := fun hlt => by
    obtain ⟨y, hy, hle⟩ := hnext _ hlt
    exact ⟨⟨(fun z hz => by rw [hcur] at hz; cases hz), y, .inl hy, hle⟩, hlt.trans_le hmax⟩
  constructor
  · rintro ⟨hr, hlt⟩
    exact (hfinds.kept r (hunt hlt)).mp hr
  · intro hr
    exact ⟨(hfinds.kept r (hunt (habove r hr))).mpr hr, habove r hr⟩

/-- A snapshot made whole. -/
theorem keeps_materialize (hnow : (deleted e snap).Finds s₀ now) (h : (deleted e snap).Keeps s₀) :
    (deleted e (snap.materialize now)).Keeps s₀ := by
  intro history hfinds
  show Keyed.Sorted Stored.version ((snap.materialize now).deletedRows history) ∧
    AgreeOn (s₀.Protected e) ((snap.materialize now).deletedRows history) (s₀.history e)
  rw [Snapshot.deletedRows_materialize hnow.sorted]
  split
  · exact h now hnow
  · exact h history ⟨hfinds.sorted, hfinds.kept, hfinds.keptLive⟩

theorem exact_materialize (hnow : (deleted e snap).Finds s₀ now) (h : (deleted e snap).Exact s₀) :
    (deleted e (snap.materialize now)).Exact s₀ := by
  refine ⟨?_, fun history hfinds => ?_⟩
  · refine Eq.trans ?_ h.1
    show some (snap.materialize now).prev = some snap.prev
    unfold Snapshot.materialize
    split <;> rfl
  · show (snap.materialize now).deletedRows history = s₀.history e
    rw [Snapshot.deletedRows_materialize hnow.sorted]
    split
    · exact h.2 now hnow
    · exact h.2 history ⟨hfinds.sorted, hfinds.kept, hfinds.keptLive⟩

/-! ### The last record of an entity -/

/-- The last record of an entity, the one its restores end with. -/
def lastOf (e : EntityId) (l : List (UndoEntry V)) : Option (UndoEntry V) :=
  (l.filter fun a => a.entity == e).getLast?

theorem lastOf_append (e : EntityId) (l m : List (UndoEntry V)) :
    lastOf e (l ++ m) = (lastOf e m).or (lastOf e l) := by
  rw [lastOf, filter_append, getLast?_append]
  rfl

theorem lastOf_cons (e : EntityId) (a : UndoEntry V) (l : List (UndoEntry V)) :
    lastOf e (a :: l) = (lastOf e l).or (if a.entity = e then some a else none) := by
  rw [← singleton_append, lastOf_append]
  by_cases h : a.entity = e <;> simp [lastOf, h]

theorem lastOf_eq_none : lastOf e l = none ↔ ∀ a ∈ l, a.entity ≠ e := by
  simp [lastOf]

theorem mem_of_lastOf {a : UndoEntry V} (h : lastOf e l = some a) : a ∈ l ∧ a.entity = e := by
  have hmem := mem_of_getLast? h
  rw [mem_filter, beq_iff_eq] at hmem
  exact hmem

/-- Records go in before others of the entity, or are the first. -/
theorem lastOf_insert {new m : List (UndoEntry V)}
    (h : lastOf e m = none → lastOf e new ≠ none → lastOf e l = none) :
    lastOf e (l ++ (new ++ m)) = (lastOf e (l ++ m)).or (lastOf e new) := by
  rw [lastOf_append, lastOf_append, lastOf_append]
  cases hm : lastOf e m with
  | some a => rfl
  | none =>
    cases hnew : lastOf e new with
    | none => simp
    | some a =>
      rw [h hm (by simp [hnew])]
      rfl

end UndoEntry

/-! ## The restores of a rollback -/

/-- The records of `entries` restore the state before the transaction in the store `s`. -/
structure Restorable (s₀ : Store V) (caps : TxCaps) (entries : List (UndoEntry V)) (s : Store V)
    (e : EntityId) : Prop where
  sorted : Keyed.Sorted Stored.version (s.history e)
  kept : AgreeOn (s₀.Untouchable e) (s.history e) (s₀.history e)
  keptLive : s.current e ≠ none → AgreeOn (s₀.Protected e) (s.history e) (s₀.history e)
  keeps : ∀ a ∈ entries, a.entity = e → a.Keeps s₀ ∧ a.NoWrap caps
  last : ∀ a, UndoEntry.lastOf e entries = some a → a.Exact s₀
  untouched : UndoEntry.lastOf e entries = none →
    s.current e = s₀.current e ∧ s.history e = s₀.history e

/-- The undo of a created node comes after the restores of the relationships. -/
def NodesLast (a b : UndoEntry V) : Prop :=
  ∀ n version, a = .created (.node n) version → b.entity.isRel = false

section Restore

variable {s₀ s s' : Store V} {caps : TxCaps} {a : UndoEntry V} {entries : List (UndoEntry V)}

/-- The entity of a restore has the rows of the record. -/
theorem Restorable.restored (h : Restorable s₀ caps (a :: entries) s a.entity)
    (hrestored : a.Restored s s') : Restorable s₀ caps entries s' a.entity := by
  have hfinds : a.Finds s₀ (s.history a.entity) :=
    ⟨h.sorted, h.kept, fun hu => h.keptLive (hrestored.live hu)⟩
  have hkeeps := (h.keeps a mem_cons_self rfl).1 _ hfinds
  rw [← hrestored.history] at hkeeps
  refine ⟨hkeeps.1, hkeeps.2.untouchable, fun _ => hkeeps.2,
    fun b hb => h.keeps b (mem_cons_of_mem _ hb), fun b hb => h.last b ?_, fun hnone => ?_⟩
  · rw [UndoEntry.lastOf_cons, hb]
    rfl
  · have hexact := h.last a (by rw [UndoEntry.lastOf_cons, hnone, if_pos rfl]; rfl)
    rw [hrestored.current, hrestored.history]
    exact ⟨hexact.1, hexact.2 _ hfinds⟩

/-- An entity whose rows stay. -/
theorem Restorable.other {e : EntityId} (h : Restorable s₀ caps (a :: entries) s e)
    (he : e ≠ a.entity) (hcur : s'.current e = s.current e) (hhist : s'.history e = s.history e) :
    Restorable s₀ caps entries s' e := by
  have hlast : UndoEntry.lastOf e (a :: entries) = UndoEntry.lastOf e entries := by
    rw [UndoEntry.lastOf_cons, if_neg he.symm, Option.or_none]
  refine ⟨by rw [hhist]; exact h.sorted, by rw [hhist]; exact h.kept,
    by rw [hhist, hcur]; exact h.keptLive, fun b hb => h.keeps b (mem_cons_of_mem _ hb),
    by rw [← hlast]; exact h.last, by rw [← hlast, hcur, hhist]; exact h.untouched⟩

/-- **The restores, one after the other**, end in the state before the transaction. -/
theorem restore_all (hdist : s₀.Distinct) (hadj : s.Adjacent) (hlast : entries.Pairwise NodesLast)
    (hall : ∀ e, Restorable s₀ caps entries s e)
    (hnew : ∀ e version, UndoEntry.created e version ∈ entries → s₀.current e = none)
    (hrun : Undo.captured (entries.flatMap (·.restores caps)) s = (s', none)) (e : EntityId) :
    s'.current e = s₀.current e ∧ s'.history e = s₀.history e := by
  induction entries generalizing s with
  | nil =>
    cases hrun
    exact (hall e).untouched rfl
  | cons a entries ih =>
    obtain ⟨t, hfirst, hrest⟩ := Undo.captured_append_ok hrun
    have hthis := hall a.entity
    have hrestored := UndoEntry.restores_ok hthis.sorted (hthis.keeps a mem_cons_self rfl).2 hfirst
    obtain ⟨hhead, htail⟩ := pairwise_cons.mp hlast
    refine ih (hrestored.adjacent hadj) htail (fun e => ?_)
      (fun e version hmem => hnew e version (mem_cons_of_mem _ hmem)) hrest
    by_cases he : e = a.entity
    · subst he
      exact hthis.restored hrestored
    · refine (hall e).other he (hrestored.current_else e he fun halong => ?_)
        (hrestored.history_else e he)
      -- a relationship of a created node would have been there before the transaction
      cases a with
      | deleted | updated => exact halong
      | created e' version =>
        cases e' with
        | rel => exact halong
        | node n =>
          cases e with
          | node => exact halong
          | rel r =>
            have hnone : UndoEntry.lastOf (.rel r) (.created (.node n) version :: entries) = none := by
              refine UndoEntry.lastOf_eq_none.mpr fun b hb heq => ?_
              rcases mem_cons.mp hb with rfl | hb
              · exact he heq.symm
              · have := hhead b hb n version rfl
                rw [heq] at this
                cases this
            obtain ⟨ends, hends, hn⟩ := hadj.mem_relIDs.mp halong
            rw [Store.relEnds, ((hall (.rel r)).untouched hnone).1] at hends
            have hlive := hdist.adjacent.live r ends hends
            have hgone := hnew (.node n) version mem_cons_self
            rcases hn with rfl | rfl
            · exact hlive.1 hgone
            · exact hlive.2 hgone

end Restore

end RhoTkg
