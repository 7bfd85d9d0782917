import RhoTkg.Adjacency
import RhoTkg.GraphTx

/-!
# What a restore does

A restore that returns no error has a plain effect, whatever capabilities the store has and however
many store calls it took: the history of its entity becomes a function of the history before
(`UndoEntry.rows`), its current row becomes the row of the record (`UndoEntry.row`), and every other
entity keeps its rows.  The one exception is the undo of a created node, which takes the relationships
of the node with it (`UndoEntry.restores_ok`).
-/

namespace RhoTkg

open List Function Store

variable {V : Type}

/-! ## Undos that return no error -/

namespace Undo

variable {s s' : Store V}

variable {c : StoreCall V} {u v : Undo V} {us : List (Undo V)}

theorem ofCall_ok (h : ofCall c s = (s', none)) : ∃ r, s.call c = .ok (s', r) := by
  unfold ofCall at h
  split at h
  · rename_i t r hcall
    cases h
    exact ⟨r, hcall⟩
  · cases h

theorem andThen_ok (h : u.andThen v s = (s', none)) : ∃ t, u s = (t, none) ∧ v t = (s', none) := by
  unfold andThen at h
  split at h
  · exact ⟨_, ‹_›, h⟩
  · cases h

theorem ofCalls_cons_ok {cs : List (StoreCall V)} (h : ofCalls (c :: cs) s = (s', none)) :
    ∃ t r, s.call c = .ok (t, r) ∧ ofCalls cs t = (s', none) := by
  obtain ⟨t, hc, hcs⟩ := andThen_ok h
  obtain ⟨r, hcall⟩ := ofCall_ok hc
  exact ⟨t, r, hcall, hcs⟩

theorem captured_cons_ok (h : captured (u :: us) s = (s', none)) :
    ∃ t, u s = (t, none) ∧ captured us t = (s', none) := by
  rw [captured, Prod.mk.injEq, Option.or_eq_none_iff] at h
  obtain ⟨rfl, hu, hus⟩ := h
  exact ⟨_, Prod.ext rfl hu, Prod.ext rfl hus⟩

theorem captured_append_ok {vs : List (Undo V)} (h : captured (us ++ vs) s = (s', none)) :
    ∃ t, captured us s = (t, none) ∧ captured vs t = (s', none) := by
  induction us generalizing s with
  | nil => exact ⟨s, rfl, h⟩
  | cons u us ih =>
    obtain ⟨t, hu, hrest⟩ := captured_cons_ok h
    obtain ⟨t', hus, hvs⟩ := ih hrest
    refine ⟨t', ?_, hvs⟩
    simp only [captured, hu, hus]
    rfl

theorem captured_pair_ok (h : captured [u, v] s = (s', none)) :
    ∃ t, u s = (t, none) ∧ v t = (s', none) := by
  obtain ⟨t, hu, hrest⟩ := captured_cons_ok h
  obtain ⟨t', hv, hnil⟩ := captured_cons_ok hrest
  cases hnil
  exact ⟨t, hu, hv⟩

end Undo

/-! ## Histories -/

section Histories

variable {s s' : Store V} {e : EntityId} {caps : TxCaps}

@[simp] theorem Store.setHistory_setHistory (a b : List (Stored V)) :
    (s.setHistory e a).setHistory e b = s.setHistory e b := by
  simp [Store.setHistory]

@[simp] theorem Store.setHistory_self : s.setHistory e (s.history e) = s := by
  simp [Store.setHistory]

@[simp] theorem Store.history_setHistory_self (rows : List (Stored V)) :
    (s.setHistory e rows).history e = rows := by
  simp [Store.setHistory]

theorem Store.truncateHistory_zero {r : Option (Change V)}
    (h : s.call (.truncateHistory e 0) = .ok (s', r)) : s' = s.setHistory e [] := by
  simp only [call, truncateHistory] at h
  split at h
  · split at h
    · rename_i hlen
      cases h
      rw [Nat.le_zero, length_eq_zero_iff] at hlen
      rw [← hlen, setHistory_self]
    · cases h
      simp
  · cases h

variable {start keepTo : Nat} {rows history : List (Stored V)} {snap : Snapshot V}

theorem Store.trimHistoryFrom_ok {r : Option (Change V)}
    (h : s.call (.trimHistoryFrom e start) = .ok (s', r)) :
    s' = s.setHistory e (historyBefore (s.history e) start) := by
  simp only [call, trimHistoryFrom] at h
  split at h
  · split at h
    · cases h
      rfl
    · rename_i hany
      cases h
      have hall : historyBefore (s.history e) start = s.history e := by
        refine filter_eq_self.mpr fun x hx => decide_eq_true ?_
        simp only [any_eq_true, decide_eq_true_eq, not_exists, not_and, not_le] at hany
        exact hany x hx
      rw [hall, setHistory_self]
  · cases h

theorem putVersions_ok (h : Undo.ofCalls (putVersions e rows) s = (s', none)) :
    s' = s.setHistory e (rows.foldl (Keyed.put Stored.version) (s.history e)) := by
  induction rows generalizing s with
  | nil =>
    cases h
    simp
  | cons x rows ih =>
    obtain ⟨t, r, hcall, hrest⟩ := Undo.ofCalls_cons_ok h
    simp only [Store.call, Store.putVersion] at hcall
    split at hcall
    · cases hcall
      have hput : s.putHistoryRow e x =
          s.setHistory e (Keyed.put Stored.version (s.history e) x) := rfl
      rw [ih hrest, hput]
      simp
    · cases hcall

theorem restoreHistory_ok (h : restoreHistory e rows s = (s', none)) :
    s' = s.setHistory e (rows.foldl (Keyed.put Stored.version) []) := by
  obtain ⟨t, r, hcall, hrest⟩ := Undo.ofCalls_cons_ok h
  rw [putVersions_ok hrest, truncateHistory_zero hcall]
  simp

/-- The rows below the trim point, and the copied rows. -/
def restoredFrom (start : Nat) (above history : List (Stored V)) : List (Stored V) :=
  above.foldl (Keyed.put Stored.version) (historyBefore history start)

theorem sorted_historyBefore (hsort : Keyed.Sorted Stored.version history) (start : Nat) :
    Keyed.Sorted Stored.version (historyBefore history start) := hsort.filter _

theorem restoreHistoryFrom_ok {above : List (Stored V)}
    (hsort : Keyed.Sorted Stored.version (s.history e))
    (h : restoreHistoryFrom caps e start above s = (s', none)) :
    s' = s.setHistory e (restoredFrom start above (s.history e)) := by
  unfold restoreHistoryFrom at h
  split at h
  · obtain ⟨t, r, hcall, hrest⟩ := Undo.ofCalls_cons_ok h
    rw [putVersions_ok hrest, trimHistoryFrom_ok hcall]
    simp [restoredFrom]
  · rw [restoreHistory_ok h, foldl_append, (sorted_historyBefore hsort start).foldl_put_nil]
    rfl

theorem sorted_keepPreTxRows (hsort : Keyed.Sorted Stored.version history) (start keepTo : Nat) :
    Keyed.Sorted Stored.version (keepPreTxRows history start keepTo) := hsort.filter _

theorem keepPreTxRows_of_le (hle : keepTo ≤ start) :
    keepPreTxRows history start keepTo = historyBefore history start := by
  refine filter_congr fun r _ => ?_
  have : (decide (start < r.version) && decide (r.version ≤ keepTo)) = false := by
    simp only [Bool.and_eq_false_iff, decide_eq_false_iff_not]
    omega
  rw [this, Bool.or_false]

/-- The rewrite of `removeTxRows` around the trim point. -/
theorem keepPreTxRows_eq (hsort : Keyed.Sorted Stored.version history) (hle : start ≤ keepTo) :
    (((historyBefore history (keepTo + 1)).filter fun r => decide (start < r.version)).foldl
        (Keyed.put Stored.version) (historyBefore (historyBefore history (keepTo + 1)) start)) =
      keepPreTxRows history start keepTo := by
  have hkept := sorted_historyBefore hsort (keepTo + 1)
  have hbelow := sorted_historyBefore hkept start
  have happend := Keyed.foldl_put_eq_append (hkept.filter fun r => decide (start < r.version))
    (l := historyBefore (historyBefore history (keepTo + 1)) start) (fun x hx y hy => by
      have hx := (mem_filter.mp hx).2
      have hy := (mem_filter.mp hy).2
      simp only [decide_eq_true_eq] at hx hy
      omega)
  have hmem : ∀ x, x ∈ historyBefore (historyBefore history (keepTo + 1)) start ++
      (historyBefore history (keepTo + 1)).filter (fun r => decide (start < r.version)) ↔
      x ∈ keepPreTxRows history start keepTo := by
    intro x
    simp only [mem_append, historyBefore, keepPreTxRows, mem_filter, Bool.or_eq_true,
      Bool.and_eq_true, decide_eq_true_eq]
    constructor
    · rintro (⟨⟨hx, -⟩, h⟩ | ⟨⟨hx, hle⟩, h⟩)
      · exact ⟨hx, .inl h⟩
      · exact ⟨hx, .inr ⟨h, by omega⟩⟩
    · rintro ⟨hx, h | ⟨h, hle⟩⟩
      · exact .inl ⟨⟨hx, by omega⟩, h⟩
      · exact .inr ⟨⟨hx, by omega⟩, h⟩
  rw [happend]
  refine Keyed.Sorted.ext ?_ (sorted_keepPreTxRows hsort start keepTo) hmem
  refine pairwise_append.mpr ⟨hbelow, hkept.filter _, fun x hx y hy => ?_⟩
  have hx := (mem_filter.mp hx).2
  have hy := (mem_filter.mp hy).2
  simp only [decide_eq_true_eq] at hx hy
  omega

/-- Without the wrap of `keepTo + 1`, the rows of before the transaction stay. -/
theorem removeTxRows_ok (hsort : Keyed.Sorted Stored.version (s.history e))
    (hwrap : caps.historyTrim = true → start < keepTo → keepTo < maxUint32)
    (h : removeTxRows caps e start keepTo s = (s', none)) :
    s' = s.setHistory e (keepPreTxRows (s.history e) start keepTo) := by
  unfold removeTxRows at h
  split at h
  · rw [restoreHistory_ok h, (sorted_keepPreTxRows hsort start keepTo).foldl_put_nil]
  · rename_i htrim
    rw [Bool.not_eq_false] at htrim
    split at h
    · rename_i hle
      obtain ⟨r, hcall⟩ := Undo.ofCall_ok h
      rw [trimHistoryFrom_ok hcall, keepPreTxRows_of_le hle]
    · obtain ⟨t, hfirst, hsecond⟩ := Undo.andThen_ok h
      obtain ⟨r, hcall⟩ := Undo.ofCall_ok hfirst
      have hmax := hwrap htrim (by omega)
      rw [Nat.mod_eq_of_lt (by omega)] at hcall
      have ht := trimHistoryFrom_ok hcall
      subst ht
      simp only [history_setHistory_self] at hsecond
      split at hsecond
      · obtain ⟨t, r, hcall, hrest⟩ := Undo.ofCalls_cons_ok hsecond
        rw [putVersions_ok hrest, trimHistoryFrom_ok hcall]
        simp only [history_setHistory_self, setHistory_setHistory]
        rw [keepPreTxRows_eq hsort (by omega)]
      · rename_i hany
        cases hsecond
        congr 1
        refine filter_congr fun r hr => ?_
        simp only [any_eq_true, not_exists, not_and, beq_iff_eq] at hany
        have hne : r.version < keepTo + 1 → r.version ≠ start := fun hlt' =>
          hany r (mem_filter.mpr ⟨hr, decide_eq_true hlt'⟩)
        rw [← Bool.decide_and, ← Bool.decide_or, decide_eq_decide]
        omega

/-- What `Rollback` leaves of a history for a deleted entity. -/
def Snapshot.deletedRows (snap : Snapshot V) (history : List (Stored V)) : List (Stored V) :=
  if snap.useHistoryTrim then restoredFrom snap.historyTrimFrom snap.above history
  else snap.history.foldl (Keyed.put Stored.version) []

/-- What `Rollback` leaves of a history for an updated entity. -/
def Snapshot.updatedRows (snap : Snapshot V) (history : List (Stored V)) : List (Stored V) :=
  if snap.useHistoryTrim && !snap.above.isEmpty then
    restoredFrom snap.historyTrimFrom snap.above history
  else if snap.useHistoryTrim then
    keepPreTxRows history snap.historyTrimFrom snap.historyKeepTo
  else snap.history.foldl (Keyed.put Stored.version) []

/-- The snapshot of an update does not make `keepTo + 1` wrap. -/
def Snapshot.NoWrap (caps : TxCaps) (snap : Snapshot V) : Prop :=
  caps.historyTrim = true → snap.historyTrimFrom < snap.historyKeepTo → snap.historyKeepTo < maxUint32

theorem restoreDeletedHistory_ok (hsort : Keyed.Sorted Stored.version (s.history e))
    (h : restoreDeletedHistory caps e snap s = (s', none)) :
    s' = s.setHistory e (snap.deletedRows (s.history e)) := by
  unfold restoreDeletedHistory at h
  unfold Snapshot.deletedRows
  split at h
  · rename_i htrim
    rw [if_pos htrim]
    exact restoreHistoryFrom_ok hsort h
  · rename_i htrim
    rw [if_neg htrim]
    exact restoreHistory_ok h

theorem restoreSnapshotHistory_ok (hsort : Keyed.Sorted Stored.version (s.history e))
    (hwrap : snap.NoWrap caps) (h : restoreSnapshotHistory caps e snap s = (s', none)) :
    s' = s.setHistory e (snap.updatedRows (s.history e)) := by
  unfold restoreSnapshotHistory at h
  unfold Snapshot.updatedRows
  split at h
  · rename_i habove
    rw [if_pos habove]
    exact restoreHistoryFrom_ok hsort h
  · rename_i habove
    rw [if_neg habove]
    split at h
    · rename_i htrim
      rw [if_pos htrim]
      exact removeTxRows_ok hsort hwrap h
    · rename_i htrim
      rw [if_neg htrim]
      exact restoreHistory_ok h

theorem removeCreatedHistory_ok (hsort : Keyed.Sorted Stored.version (s.history e))
    (h : removeCreatedHistory caps e start s = (s', none)) :
    s' = s.setHistory e (historyBefore (s.history e) start) := by
  unfold removeCreatedHistory at h
  split at h
  · rename_i hzero
    obtain ⟨r, hcall⟩ := Undo.ofCall_ok h
    rw [truncateHistory_zero hcall, hzero]
    simp [historyBefore]
  · split at h
    · obtain ⟨r, hcall⟩ := Undo.ofCall_ok h
      exact trimHistoryFrom_ok hcall
    · rw [restoreHistory_ok h, (sorted_historyBefore hsort start).foldl_put_nil]

end Histories

/-! ## Rows -/

/-- The current row of `e` becomes `x`, and nothing else changes but the adjacency. -/
structure RowSet (s : Store V) (e : EntityId) (x : Option (Stored V)) (s' : Store V) : Prop where
  current : s'.current = Function.update s.current e x
  history : s'.history = s.history
  adjacent : s.Adjacent → s'.Adjacent

section RowSets

variable {s s' t : Store V} {e : EntityId} {x y : Option (Stored V)}

theorem RowSet.refl : RowSet s e (s.current e) s := ⟨by simp, rfl, id⟩

theorem RowSet.trans (h : RowSet s e x t) (h' : RowSet t e y s') : RowSet s e y s' :=
  ⟨by rw [h'.current, h.current, update_idem], h'.history.trans h.history,
    fun hadj => h'.adjacent (h.adjacent hadj)⟩

/-- The store calls of a row restore. -/
theorem rowSet_of_call {c : StoreCall V} {r : Option (Change V)} (hcall : s.call c = .ok (s', r))
    (hcurrent : s'.current = Function.update s.current e x) (hhistory : s'.history = s.history) :
    RowSet s e x s' := ⟨hcurrent, hhistory, fun hadj => hadj.call hcall⟩

variable {x : Stored V}

theorem rowSet_put (h : Undo.ofCall (.put e x) s = (s', none)) : RowSet s e (some x) s' := by
  obtain ⟨r, hcall⟩ := Undo.ofCall_ok h
  refine rowSet_of_call hcall ?_ ?_ <;> cases call_effect hcall <;> rfl

theorem rowSet_replace (h : Undo.ofCall (.replace e x) s = (s', none)) :
    RowSet s e (some x) s' ∧ s.current e ≠ none := by
  obtain ⟨r, hcall⟩ := Undo.ofCall_ok h
  cases call_effect hcall with
  | replaced hcur => exact ⟨rowSet_of_call hcall rfl rfl, by simp [hcur]⟩

theorem rowSet_label {id : Nat} {lop : LabelOp}
    (h : Undo.ofCall (.changeNodeLabelToken id lop x) s = (s', none)) :
    RowSet s (.node id) (some x) s' := by
  obtain ⟨r, hcall⟩ := Undo.ofCall_ok h
  refine rowSet_of_call hcall ?_ ?_ <;> cases call_effect hcall <;> rfl

theorem rowSet_deleteRelationship {id : Nat} {r : Option (Change V)}
    (hcall : s.call (.deleteRelationship id) = .ok (s', r)) : RowSet s (.rel id) none s' := by
  refine rowSet_of_call hcall ?_ ?_ <;> cases call_effect hcall
  · funext e
    cases e with
    | node n => rw [update_of_ne (by simp)]; rfl
    | rel n =>
      rw [current_removeRels_rel, update_apply]
      simp
  · rfl

theorem rowSet_restoreLabelsLoop {id : Nat} {target : Stored V} {fuel : Nat} {working : Stored V}
    (h : restoreLabelsLoop id target fuel working s = (s', none)) :
    ∃ y, RowSet s (.node id) y s' := by
  induction fuel generalizing s working with
  | zero => cases h
  | succ fuel ih =>
    unfold restoreLabelsLoop at h
    split at h
    · cases h
      exact ⟨_, .refl⟩
    · cases hop : nextLabelOp working.row.labels target.row.labels with
      | none =>
        simp only [hop] at h
        cases h
      | some lop =>
        simp only [hop] at h
        obtain ⟨t, hlabel, hrest⟩ := Undo.andThen_ok h
        obtain ⟨y, hy⟩ := ih hrest
        exact ⟨y, (rowSet_label hlabel).trans hy⟩

theorem rowSet_replaceNodeRow {id : Nat} {current : Stored V}
    (h : replaceNodeRow id current x s = (s', none)) : RowSet s (.node id) (some x) s' := by
  obtain ⟨t, hlabels, hreplace⟩ := Undo.andThen_ok h
  have hfirst : ∃ y, RowSet s (.node id) y t := by
    split at hlabels
    · cases hlabels
      exact ⟨_, .refl⟩
    · unfold restoreNodeLabels at hlabels
      split at hlabels
      · cases hlabels
      · exact rowSet_restoreLabelsLoop hlabels
  obtain ⟨y, hy⟩ := hfirst
  exact hy.trans (rowSet_replace hreplace).1

theorem rowSet_restoreDeletedRow (h : restoreDeletedRow e x s = (s', none)) :
    RowSet s e (some x) s' := by
  unfold restoreDeletedRow at h
  split at h
  · exact rowSet_put h
  · rename_i current hcur
    cases e with
    | node id => exact rowSet_replaceNodeRow h
    | rel id =>
      by_cases hsame : current.row.labels = x.row.labels ∧ current.ends = x.ends
      · simp only [if_pos hsame] at h
        exact (rowSet_replace h).1
      · simp only [if_neg hsame] at h
        obtain ⟨t, r, hdelete, hrest⟩ := Undo.ofCalls_cons_ok h
        obtain ⟨t', r', hput, hnil⟩ := Undo.ofCalls_cons_ok hrest
        cases hnil
        refine (rowSet_deleteRelationship hdelete).trans (rowSet_put ?_)
        simp only [Undo.ofCall, hput]

theorem rowSet_restoreUpdatedRow (h : restoreUpdatedRow e x s = (s', none)) :
    RowSet s e (some x) s' ∧ s.current e ≠ none := by
  unfold restoreUpdatedRow at h
  split at h
  · split at h
    · cases h
    · rename_i hcur
      exact ⟨rowSet_replaceNodeRow h, by simp [hcur]⟩
  · exact rowSet_replace h

end RowSets

/-! ## Records -/

namespace UndoEntry

/-- The entity of a record. -/
def entity : UndoEntry V → EntityId
  | .deleted e _ => e
  | .updated e _ => e
  | .created e _ => e

/-- The current row after the restore. -/
def row : UndoEntry V → Option (Stored V)
  | .deleted _ snap => some snap.prev
  | .updated _ snap => some snap.prev
  | .created _ _ => none

/-- The history after the restore. -/
def rows : UndoEntry V → List (Stored V) → List (Stored V)
  | .deleted _ snap, history => snap.deletedRows history
  | .updated _ snap, history => snap.updatedRows history
  | .created _ version, history => historyBefore history version

/-- The record is of an updated entity. -/
def isUpdate : UndoEntry V → Bool
  | .updated .. => true
  | _ => false

/-- The restore does not wrap a version. -/
def NoWrap (caps : TxCaps) : UndoEntry V → Prop
  | .updated _ snap => snap.NoWrap caps
  | _ => True

/-- The restore takes the relationship with its node. -/
def TakesAlong (s : Store V) : UndoEntry V → EntityId → Prop
  | .created (.node n) _, .rel r => r ∈ s.relIDs n
  | _, _ => False

/-- What a restore has done. -/
structure Restored (a : UndoEntry V) (s s' : Store V) : Prop where
  current : s'.current a.entity = a.row
  history : s'.history a.entity = a.rows (s.history a.entity)
  live : a.isUpdate = true → s.current a.entity ≠ none
  current_else : ∀ e, e ≠ a.entity → ¬ a.TakesAlong s e → s'.current e = s.current e
  history_else : ∀ e, e ≠ a.entity → s'.history e = s.history e
  adjacent : s.Adjacent → s'.Adjacent

variable {s s' t : Store V}

theorem adjacent_setHistory {e : EntityId} {rows : List (Stored V)} (h : s.Adjacent) :
    (s.setHistory e rows).Adjacent := h.of_relEnds rfl rfl (fun _ => rfl) fun _ => id

variable {a : UndoEntry V}

/-- The row and then the history of one entity. -/
theorem Restored.of_rowSet (hrow : RowSet s a.entity a.row t)
    (hlive : a.isUpdate = true → s.current a.entity ≠ none)
    (hs' : s' = t.setHistory a.entity (a.rows (t.history a.entity))) : a.Restored s s' := by
  subst hs'
  refine ⟨?_, ?_, hlive, fun e he _ => ?_, fun e he => ?_, fun h => adjacent_setHistory (hrow.adjacent h)⟩
  · rw [current_setHistory, hrow.current, update_self]
  · rw [history_setHistory_self, hrow.history]
  · rw [current_setHistory, hrow.current, update_of_ne he]
  · rw [history_setHistory, update_of_ne he, hrow.history]

/-- **A restore that returns no error** gives its entity the row and the history of the record. -/
theorem restores_ok {caps : TxCaps} (hsort : Keyed.Sorted Stored.version (s.history a.entity))
    (hwrap : a.NoWrap caps) (h : Undo.captured (a.restores caps) s = (s', none)) :
    a.Restored s s' := by
  cases a with
  | deleted e snap =>
    obtain ⟨t, hrow, hhist⟩ := Undo.captured_pair_ok h
    have hset := rowSet_restoreDeletedRow hrow
    refine .of_rowSet hset nofun (restoreDeletedHistory_ok ?_ hhist)
    rwa [hset.history]
  | updated e snap =>
    obtain ⟨t, hrow, hhist⟩ := Undo.captured_pair_ok h
    obtain ⟨hset, hlive⟩ := rowSet_restoreUpdatedRow hrow
    refine .of_rowSet hset (fun _ => hlive) (restoreSnapshotHistory_ok ?_ hwrap hhist)
    rwa [hset.history]
  | created e version =>
    obtain ⟨t, hrow, hhist⟩ := Undo.captured_pair_ok h
    cases e with
    | rel id =>
      obtain ⟨r, hcall⟩ := Undo.ofCall_ok hrow
      have hset := rowSet_deleteRelationship hcall
      refine .of_rowSet hset nofun (removeCreatedHistory_ok ?_ hhist)
      rwa [hset.history]
    | node id =>
      obtain ⟨r, hcall⟩ := Undo.ofCall_ok hrow
      have hadj : s.Adjacent → t.Adjacent := fun hadj => hadj.call hcall
      cases call_effect hcall with
      | nodeCascaded hid hcur =>
        have hs' := removeCreatedHistory_ok (by exact hsort) hhist
        subst hs'
        refine ⟨?_, ?_, nofun, fun e he hspared => ?_, fun e he => ?_,
          fun h => adjacent_setHistory (hadj h)⟩
        · exact update_self ..
        · exact history_setHistory_self _
        · rw [entity] at he
          rw [current_setHistory, current_setCurrent, update_of_ne he]
          cases e with
          | node n => rfl
          | rel n => exact if_neg hspared
        · rw [entity] at he
          rw [history_setHistory, update_of_ne he]
          rfl

end UndoEntry

/-! ## The records -/

/-- The records of a transaction. -/
theorem GraphTx.mem_undoEntries {tx : GraphTx V} {a : UndoEntry V} : a ∈ tx.undoEntries ↔
    (∃ d ∈ tx.deletedNodes, a = .deleted (.node d.id) d.node ∨
      ∃ r ∈ d.rels, a = .deleted (.rel r.1) r.2) ∨
    (∃ d ∈ tx.deletedRels, a = .deleted (.rel d.1) d.2) ∨
    (∃ u ∈ tx.updated, a = .updated u.1 u.2) ∨ ∃ c ∈ tx.created, a = .created c.1 c.2 := by
  -- the phases of the relationships and of the nodes
  have hkinds : ∀ {α : Type} (isRel : α → Bool) (g : α → UndoEntry V) (l : List α),
      (∃ u ∈ l, a = g u) ↔ a ∈ (l.filter fun u => isRel u == true).reverse.map g ∨
        a ∈ (l.filter fun u => isRel u == false).reverse.map g := by
    intro α isRel g l
    simp only [mem_map, mem_reverse, mem_filter, beq_iff_eq]
    constructor
    · rintro ⟨u, hu, rfl⟩
      cases hrel : isRel u with
      | true => exact .inl ⟨u, ⟨hu, hrel⟩, rfl⟩
      | false => exact .inr ⟨u, ⟨hu, hrel⟩, rfl⟩
    · rintro (⟨u, hu, rfl⟩ | ⟨u, hu, rfl⟩) <;> exact ⟨u, hu.1, rfl⟩
  rw [hkinds fun u : EntityId × Snapshot V => u.1.isRel, hkinds fun c : EntityId × Nat => c.1.isRel]
  simp only [undoEntries, mem_append, nodeEntries, cascadeEntries, relEntries, updatedEntries,
    createdEntries, and_or_left, exists_or, or_assoc]
  simp only [mem_map, mem_flatMap, mem_reverse, eq_comm (a := a)]

end RhoTkg
