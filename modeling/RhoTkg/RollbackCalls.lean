import Mathlib.Data.List.Infix
import RhoTkg.NodeHistory
import RhoTkg.Undo

/-!
# The store calls of a rollback

`Rollback` runs restores one after the other and goes on when one fails.  Each restore makes a list of store
calls that is fixed by the store it finds (`Restore.calls`), up to the first that is refused; so a write
that fails, and a crash, leave an initial part of the list.  `runRestores` runs the restores with the parts
that reach the store and collects the stores on the way; with no fault it is `GraphTx.rollback`
(`GraphTx.rollback_eq`).

The rows a restore writes are those of its snapshot, history rows the store has, and the rows of the label
turns: the current row of the node with labels of its own and of the snapshot's row (`Restore.turn_row`).
-/

namespace RhoTkg

open List Undo

variable {V : Type}

/-! ## Undos as lists of calls -/

namespace Undo

variable (u v w : Undo V) (e : StoreError) (s : Store V)

theorem andThen_assoc : (u.andThen v).andThen w = u.andThen (v.andThen w) := by
  funext s
  unfold andThen
  rcases u s with ⟨t, _ | err⟩ <;> rfl

theorem skip_andThen : (skip : Undo V).andThen v = v := rfl

theorem andThen_skip : u.andThen skip = u := by
  funext s
  unfold andThen
  rcases u s with ⟨t, _ | err⟩ <;> rfl

theorem fail_andThen : (fail e : Undo V).andThen v = fail e := rfl

theorem fst_andThen_fail : (u.andThen (fail e) s).1 = (u s).1 := by
  unfold andThen
  rcases u s with ⟨t, _ | err⟩ <;> rfl

theorem ofCalls_singleton (c : StoreCall V) : ofCalls [c] = ofCall c := andThen_skip _

theorem ofCalls_append (cs ds : List (StoreCall V)) :
    ofCalls (cs ++ ds) = (ofCalls cs).andThen (ofCalls ds) := by
  induction cs with
  | nil => rfl
  | cons c cs ih =>
    rw [cons_append, ofCalls, ih, ofCalls, andThen_assoc]

end Undo

/-! ## The calls of a restore -/

section Calls

variable (caps : TxCaps) (e : EntityId)

/-- The calls of `restoreHistory`. -/
def historyCalls (history : List (Stored V)) : List (StoreCall V) :=
  .truncateHistory e 0 :: putVersions e history

/-- The calls of `restoreHistoryFrom`, on the history the store has. -/
def historyFromCalls (start : Nat) (above history : List (Stored V)) : List (StoreCall V) :=
  if caps.historyTrim then .trimHistoryFrom e start :: putVersions e above
  else historyCalls e (historyBefore history start ++ above)

/-- The calls of `removeTxRows`, on the history the store has. -/
def txRowsCalls (start keepTo : Nat) (history : List (Stored V)) : List (StoreCall V) :=
  if caps.historyTrim = false then historyCalls e (keepPreTxRows history start keepTo)
  else if keepTo ≤ start then [.trimHistoryFrom e start]
  else
    let stop := (keepTo + 1) % (maxUint32 + 1)
    .trimHistoryFrom e stop ::
      if (historyBefore history stop).any fun r => r.version == start then
        .trimHistoryFrom e start ::
          putVersions e ((historyBefore history stop).filter fun r => decide (start < r.version))
      else []

/-- The calls of the label loop, and whether it reaches the labels of the target. -/
def labelCalls (id : Nat) (target : Stored V) : Nat → Stored V → List (StoreCall V) × Bool
  | 0, _ => ([], false)
  | fuel + 1, working =>
    if working.row.labels = target.row.labels then ([], true)
    else
      match nextLabelOp working.row.labels target.row.labels with
      | none => ([], false)
      | some lop =>
        let r := labelCalls id target fuel (working.changeLabel lop)
        (.changeNodeLabelToken id lop (working.changeLabel lop) :: r.1, r.2)

/-- The calls of `replaceNodeRow`. -/
def nodeRowCalls (id : Nat) (current x : Stored V) : List (StoreCall V) :=
  if current.row.labels = x.row.labels then [.replace (.node id) x]
  else if x.row.labels.isEmpty then []
  else
    let r := labelCalls id x (current.row.labels.length + 2 * x.row.labels.length + 1) current
    r.1 ++ if r.2 then [.replace (.node id) x] else []

end Calls

/-- A restore of `Rollback`: the row or the history of a record of the undo log. -/
inductive Restore (V : Type) where
  | deletedRow (e : EntityId) (x : Stored V)
  | updatedRow (e : EntityId) (x : Stored V)
  | createdRow (e : EntityId)
  | deletedHistory (e : EntityId) (snap : Snapshot V)
  | snapshotHistory (e : EntityId) (snap : Snapshot V)
  | createdHistory (e : EntityId) (version : Nat)

/-- The restores of a record. -/
def UndoEntry.steps : UndoEntry V → List (Restore V)
  | .deleted e snap => [.deletedRow e snap.prev, .deletedHistory e snap]
  | .updated e snap => [.updatedRow e snap.prev, .snapshotHistory e snap]
  | .created e version => [.createdRow e, .createdHistory e version]

namespace Restore

variable (caps : TxCaps) (s : Store V)

/-- The restore as an undo. -/
def undo : Restore V → Undo V
  | .deletedRow e x => restoreDeletedRow e x
  | .updatedRow e x => restoreUpdatedRow e x
  | .createdRow e => undoCreate e
  | .deletedHistory e snap => restoreDeletedHistory caps e snap
  | .snapshotHistory e snap => restoreSnapshotHistory caps e snap
  | .createdHistory e version => removeCreatedHistory caps e version

/-- The store calls the restore makes on the store `s`. -/
def calls : Restore V → List (StoreCall V)
  | .deletedRow e x =>
    match s.current e with
    | none => [.put e x]
    | some current =>
      match e with
      | .node id => nodeRowCalls id current x
      | .rel id =>
        if current.row.labels = x.row.labels ∧ current.ends = x.ends then [.replace (.rel id) x]
        else [.deleteRelationship id, .put (.rel id) x]
  | .updatedRow (.node id) x =>
    match s.current (.node id) with
    | none => []
    | some current => nodeRowCalls id current x
  | .updatedRow (.rel id) x => [.replace (.rel id) x]
  | .createdRow (.node id) => [.deleteNodeCascade id]
  | .createdRow (.rel id) => [.deleteRelationship id]
  | .deletedHistory e snap =>
    if snap.useHistoryTrim then historyFromCalls caps e snap.historyTrimFrom snap.above (s.history e)
    else historyCalls e snap.history
  | .snapshotHistory e snap =>
    if snap.useHistoryTrim && !snap.above.isEmpty then
      historyFromCalls caps e snap.historyTrimFrom snap.above (s.history e)
    else if snap.useHistoryTrim then txRowsCalls caps e snap.historyTrimFrom snap.historyKeepTo (s.history e)
    else historyCalls e snap.history
  | .createdHistory e start =>
    if start = 0 then [.truncateHistory e 0]
    else if caps.historyTrim then [.trimHistoryFrom e start]
    else historyCalls e (historyBefore (s.history e) start)

end Restore

section Equations

variable {caps : TxCaps} {e : EntityId} {s : Store V}

theorem restoreHistoryFrom_eq (start : Nat) (above : List (Stored V)) :
    restoreHistoryFrom caps e start above s =
      Undo.ofCalls (historyFromCalls caps e start above (s.history e)) s := by
  unfold restoreHistoryFrom historyFromCalls
  split <;> rfl

theorem removeTxRows_eq (start keepTo : Nat) :
    removeTxRows caps e start keepTo s =
      Undo.ofCalls (txRowsCalls caps e start keepTo (s.history e)) s := by
  unfold removeTxRows txRowsCalls
  split
  · rfl
  split
  · rw [ofCalls_singleton]
  rw [ofCalls]
  unfold andThen ofCall
  cases hcall : s.call (.trimHistoryFrom e ((keepTo + 1) % (maxUint32 + 1))) with
  | error err => rfl
  | ok r =>
    dsimp only
    rw [Store.trimHistoryFrom_ok hcall, Store.history_setHistory_self]
    split <;> rfl

/-- The label loop makes its calls, and fails after them when it does not reach the target. -/
theorem restoreLabelsLoop_eq (id : Nat) (target : Stored V) (fuel : Nat) (working : Stored V) :
    restoreLabelsLoop id target fuel working =
      (Undo.ofCalls (labelCalls id target fuel working).1).andThen
        (if (labelCalls id target fuel working).2 then .skip else .fail .errInvalidStoreMutation) := by
  induction fuel generalizing working with
  | zero => rfl
  | succ fuel ih =>
    unfold restoreLabelsLoop labelCalls
    split
    · rfl
    cases nextLabelOp working.row.labels target.row.labels with
    | none => rfl
    | some lop =>
      dsimp only
      rw [ih, ofCalls, andThen_assoc]

theorem fst_replaceNodeRow (id : Nat) (current x : Stored V) :
    (replaceNodeRow id current x s).1 = (Undo.ofCalls (nodeRowCalls id current x) s).1 := by
  unfold replaceNodeRow nodeRowCalls
  split
  · rw [skip_andThen, ofCalls_singleton]
  unfold restoreNodeLabels
  split
  · rfl
  rw [restoreLabelsLoop_eq]
  dsimp only
  split
  · rw [andThen_skip, ofCalls_append, ofCalls_singleton]
  · rw [andThen_assoc, fail_andThen, fst_andThen_fail, append_nil]

/-- **A restore makes its calls.** -/
theorem Restore.fst_undo (r : Restore V) : (r.undo caps s).1 = (Undo.ofCalls (r.calls caps s) s).1 := by
  cases r with
  | deletedRow e x =>
    unfold undo calls restoreDeletedRow
    dsimp only
    cases hcur : s.current e with
    | none =>
      rw [ofCalls_singleton]
    | some current =>
      cases e with
      | node id => exact fst_replaceNodeRow _ _ _
      | rel id =>
        dsimp only
        split
        · rw [ofCalls_singleton]
        · rfl
  | updatedRow e x =>
    cases e with
    | node id =>
      unfold undo calls restoreUpdatedRow
      dsimp only
      cases s.current (.node id) with
      | none => rfl
      | some current => exact fst_replaceNodeRow _ _ _
    | rel id => exact congrArg (fun u : Undo V => (u s).1) (ofCalls_singleton _).symm
  | createdRow e =>
    cases e <;> exact congrArg (fun u : Undo V => (u s).1) (ofCalls_singleton _).symm
  | deletedHistory e snap =>
    unfold undo calls restoreDeletedHistory
    dsimp only
    split
    · rw [restoreHistoryFrom_eq]
    · rfl
  | snapshotHistory e snap =>
    unfold undo calls restoreSnapshotHistory
    dsimp only
    split
    · rw [restoreHistoryFrom_eq]
    split
    · rw [removeTxRows_eq]
    · rfl
  | createdHistory e start =>
    unfold undo calls removeCreatedHistory
    dsimp only
    split
    · rw [ofCalls_singleton]
    split
    · rw [ofCalls_singleton]
    · rfl

end Equations

/-! ## A rollback with failing writes -/

section Run

variable (caps : TxCaps)

/-- The calls of a restore that reach the store: all of them, or with a fault the first `n`. -/
def Restore.reached (fault : Option Nat) (s : Store V) (r : Restore V) : List (StoreCall V) :=
  match fault with
  | none => r.calls caps s
  | some n => (r.calls caps s).take n

/-- The restores in order, each with its fault if it has one: the stores on the way and the store at the
end. -/
def runRestores : List (Restore V) → List (Option Nat) → Store V → List (Store V) × Store V
  | [], _, s => ([], s)
  | r :: rs, faults, s =>
    let calls := r.reached caps faults.head?.join s
    let rest := runRestores rs faults.tail (Undo.ofCalls calls s).1
    (calls.inits.map (fun cs => (Undo.ofCalls cs s).1) ++ rest.1, rest.2)

/-- Every restore meets a condition on the store it finds. -/
def restoresMeet (ok : Store V → Restore V → Bool) : List (Restore V) → List (Option Nat) → Store V → Bool
  | [], _, _ => true
  | r :: rs, faults, s =>
    ok s r && restoresMeet ok rs faults.tail (Undo.ofCalls (r.reached caps faults.head?.join s) s).1

/-- The restores of `Rollback`. -/
def GraphTx.restores (tx : GraphTx V) : List (Restore V) := tx.undoEntries.flatMap UndoEntry.steps

/-- **Without a fault** the restores leave what `Rollback` leaves. -/
theorem GraphTx.rollback_eq (tx : GraphTx V) (s : Store V) :
    (runRestores caps tx.restores [] s).2 = (tx.rollback caps s).1 := by
  have hrun : ∀ (rs : List (Restore V)) (s : Store V),
      (runRestores caps rs [] s).2 = (captured (rs.map (Restore.undo caps)) s).1 := by
    intro rs
    induction rs with
    | nil => exact fun _ => rfl
    | cons r rs ih =>
      intro s
      rw [map_cons, captured]
      dsimp only
      rw [Restore.fst_undo, ← ih]
      rfl
  have hrestores : (tx.undoEntries.flatMap (·.restores caps)) = tx.restores.map (Restore.undo caps) := by
    rw [restores, map_flatMap]
    refine congrArg (fun f => flatMap f tx.undoEntries) (funext fun a => ?_)
    cases a <;> rfl
  rw [rollback, hrestores]
  exact hrun _ s

end Run

/-! ## The rows a restore writes -/

section Rows

variable {caps : TxCaps} {s : Store V} {P Q P' Q' : Nat → Row V → Prop} {id : Nat} {x : Stored V}

/-- The node whose row the restore puts back, and the row. -/
def Restore.target : Restore V → Option (Nat × Stored V)
  | .deletedRow (.node id) x => some (id, x)
  | .updatedRow (.node id) x => some (id, x)
  | _ => none

/-- The history rows of the snapshot of a node. -/
def Restore.keptRows : Restore V → Option (Nat × List (Stored V))
  | .deletedHistory (.node id) snap => some (id, snap.history ++ snap.above)
  | .snapshotHistory (.node id) snap => some (id, snap.history ++ snap.above)
  | _ => none

/-- The rows of a restore satisfy the predicates. -/
structure Restore.RowsOk (P Q : Nat → Row V → Prop) (r : Restore V) : Prop where
  target : ∀ id x, r.target = some (id, x) → P id x.row
  kept : ∀ id rows, r.keptRows = some (id, rows) → ∀ x ∈ rows, Q id x.row

/-- A turn of the label loop takes a label of the target or drops one. -/
theorem nextLabelOp_mem {labels target : List Nat} {lop : LabelOp}
    (h : nextLabelOp labels target = some lop) (hadd : lop.add = true) : lop.tok ∈ target := by
  have hget : ∀ {l : List Nat} {i : Nat}, (l[i]?).map (LabelOp.mk · false) ≠ some lop := by
    intro l i hmap
    obtain ⟨tok, -, rfl⟩ := Option.map_eq_some_iff.mp hmap
    cases hadd
  unfold nextLabelOp at h
  dsimp only at h
  split at h
  · obtain ⟨tok, htok, rfl⟩ := Option.map_eq_some_iff.mp h
    exact mem_of_getElem? htok
  split at h
  · split at h
    · cases h
    · exact absurd h hget
  split at h
  · cases h
  · exact absurd h hget

variable {c : StoreCall V} {target y : Stored V}

/-- The rows of the label loop: the row it starts with, with labels of its own and of the target. -/
theorem labelCalls_row {fuel : Nat} {working : Stored V}
    (hworking : working.row = { y.row with labels := working.row.labels })
    (hlabels : ∀ l ∈ working.row.labels, l ∈ y.row.labels ∨ l ∈ target.row.labels)
    (hc : c ∈ (labelCalls id target fuel working).1) :
    ∃ lop x, c = .changeNodeLabelToken id lop x ∧ x.row = { y.row with labels := x.row.labels } ∧
      ∀ l ∈ x.row.labels, l ∈ y.row.labels ∨ l ∈ target.row.labels := by
  induction fuel generalizing working with
  | zero => cases hc
  | succ fuel ih =>
    unfold labelCalls at hc
    split at hc
    · cases hc
    cases hop : nextLabelOp working.row.labels target.row.labels with
    | none =>
      rw [hop] at hc
      cases hc
    | some lop =>
      rw [hop] at hc
      have hrow : (working.changeLabel lop).row =
          { y.row with labels := (working.changeLabel lop).row.labels } := by
        rw [Stored.changeLabel, hworking]
      have hnext : ∀ l ∈ (working.changeLabel lop).row.labels,
          l ∈ y.row.labels ∨ l ∈ target.row.labels := by
        intro l hl
        simp only [Stored.changeLabel] at hl
        split at hl
        · rename_i hadd
          rcases mem_append.mp hl with hl | hl
          · exact hlabels l hl
          · rw [mem_singleton.mp hl]
            exact .inr (nextLabelOp_mem hop hadd)
        · exact hlabels l (mem_filter.mp hl).1
      rcases mem_cons.mp hc with rfl | hc
      · exact ⟨lop, _, rfl, hrow, hnext⟩
      · exact ih hrow hnext hc

/-- The calls that put a node's row back. -/
theorem nodeRowCalls_row (hc : c ∈ nodeRowCalls id y target) :
    c = .replace (.node id) target ∨
      ∃ lop x, c = .changeNodeLabelToken id lop x ∧ x.row = { y.row with labels := x.row.labels } ∧
        ∀ l ∈ x.row.labels, l ∈ y.row.labels ∨ l ∈ target.row.labels := by
  unfold nodeRowCalls at hc
  split at hc
  · exact .inl (mem_singleton.mp hc)
  split at hc
  · cases hc
  rcases mem_append.mp hc with hc | hc
  · exact .inr (labelCalls_row rfl (fun l hl => .inl hl) hc)
  · split at hc
    · exact .inl (mem_singleton.mp hc)
    · cases hc

/-- A row a restore gives a node: the snapshot's, or that of a label turn. -/
inductive Restore.SlotRow (s : Store V) (r : Restore V) (c : StoreCall V) (id : Nat) (x : Stored V) : Prop
  | target (h : r.target = some (id, x))
  | turn {y target : Stored V} {lop : LabelOp} (hc : c = .changeNodeLabelToken id lop x)
      (htarget : r.target = some (id, target)) (hy : s.nodes id = some y)
      (hrow : x.row = { y.row with labels := x.row.labels })
      (hlabels : ∀ l ∈ x.row.labels, l ∈ y.row.labels ∨ l ∈ target.row.labels)

/-- A call that writes no current row, and whose history row of a node satisfies `R`. -/
def HistoryCall (R : Nat → Stored V → Prop) (c : StoreCall V) : Prop :=
  c.slot = none ∧ ∀ id x, c.kept = some (id, x) → R id x

/-- The rows are rows of a relationship, or satisfy `R`. -/
def RowsOf (R : Nat → Stored V → Prop) (e : EntityId) (rows : List (Stored V)) : Prop :=
  ∀ id, e = .node id → ∀ x ∈ rows, R id x

section HistoryCalls

variable {e : EntityId} {R : Nat → Stored V → Prop} {rows : List (Stored V)} {c : StoreCall V}

theorem RowsOf.filter (h : RowsOf R e rows) (p : Stored V → Bool) : RowsOf R e (rows.filter p) :=
  fun id he x hx => h id he x (mem_filter.mp hx).1

/-- A cut of the history, then rows. -/
theorem historyCall_cons {cut : StoreCall V} (hslot : cut.slot = none) (hkept : cut.kept = none)
    (hrows : RowsOf R e rows) (hc : c ∈ cut :: putVersions e rows) : HistoryCall R c := by
  rcases mem_cons.mp hc with rfl | hc
  · exact ⟨hslot, fun _ _ h => nomatch hkept.symm.trans h⟩
  obtain ⟨y, hy, rfl⟩ := mem_map.mp hc
  refine ⟨rfl, fun id x hkept => ?_⟩
  cases e with
  | rel n => cases hkept
  | node n =>
    cases hkept
    exact hrows _ rfl _ hy

variable {history : List (Stored V)} {start : Nat}

theorem historyCall_historyFromCalls {above : List (Stored V)} (habove : RowsOf R e above)
    (hhistory : RowsOf R e history) (hc : c ∈ historyFromCalls caps e start above history) :
    HistoryCall R c := by
  unfold historyFromCalls at hc
  split at hc
  · exact historyCall_cons rfl rfl habove hc
  · refine historyCall_cons rfl rfl (fun id he x hx => ?_) hc
    rcases mem_append.mp hx with hx | hx
    · exact hhistory.filter _ id he x hx
    · exact habove id he x hx

theorem historyCall_txRowsCalls {keepTo : Nat} (hhistory : RowsOf R e history)
    (hc : c ∈ txRowsCalls caps e start keepTo history) : HistoryCall R c := by
  unfold txRowsCalls at hc
  split at hc
  · exact historyCall_cons rfl rfl (hhistory.filter _) hc
  split at hc
  · cases mem_singleton.mp hc
    exact ⟨rfl, fun _ _ h => nomatch h⟩
  rcases mem_cons.mp hc with rfl | hc
  · exact ⟨rfl, fun _ _ h => nomatch h⟩
  split at hc
  · exact historyCall_cons rfl rfl ((hhistory.filter _).filter _) hc
  · cases hc

end HistoryCalls

/-- What a call of a restore writes: a row of a node and no history row, or a history row of the snapshot or
of the store. -/
inductive Restore.Writes (s : Store V) (r : Restore V) (c : StoreCall V) : Prop
  | row (hkept : c.kept = none) (hslot : ∀ id x, c.slot = some (id, x) → r.SlotRow s c id x)
  | history (h : HistoryCall (fun id x => x ∈ s.history (.node id) ∨
      ∃ rows, r.keptRows = some (id, rows) ∧ x ∈ rows) c)

variable {c : StoreCall V} {r : Restore V} {cs : List (StoreCall V)}

theorem Restore.writes_nodeRowCalls {y target : Stored V} (htarget : r.target = some (id, target))
    (hy : s.nodes id = some y) (hc : c ∈ nodeRowCalls id y target) : r.Writes s c := by
  rcases nodeRowCalls_row hc with rfl | ⟨lop, x, rfl, hrow, hlabels⟩
  · refine .row rfl fun id' x' hslot => ?_
    cases hslot
    exact .target htarget
  · refine .row rfl fun id' x' hslot => ?_
    cases hslot
    exact .turn rfl htarget hy hrow hlabels

/-- A call on a relationship, or one that deletes. -/
theorem Restore.writes_else (hslot : c.slot = none) (hkept : c.kept = none) : r.Writes s c :=
  .row hkept fun _ _ h => nomatch hslot.symm.trans h

/-- **The rows a restore writes.** -/
theorem Restore.writes_of_mem (hc : c ∈ r.calls caps s) : r.Writes s c := by
  cases r with
  | deletedRow e z =>
    simp only [calls] at hc
    cases hcur : s.current e with
    | none =>
      rw [hcur] at hc
      cases mem_singleton.mp hc
      cases e with
      | rel n => exact writes_else rfl rfl
      | node n =>
        refine .row rfl fun id' x' hslot => ?_
        cases hslot
        exact .target rfl
    | some current =>
      rw [hcur] at hc
      cases e with
      | node n => exact writes_nodeRowCalls rfl hcur hc
      | rel n =>
        dsimp only at hc
        split at hc
        · cases mem_singleton.mp hc
          exact writes_else rfl rfl
        · rcases mem_cons.mp hc with rfl | hc
          · exact writes_else rfl rfl
          · cases mem_singleton.mp hc
            exact writes_else rfl rfl
  | updatedRow e z =>
    cases e with
    | rel n =>
      cases mem_singleton.mp hc
      exact writes_else rfl rfl
    | node n =>
      simp only [calls] at hc
      cases hcur : s.current (.node n) with
      | none =>
        rw [hcur] at hc
        cases hc
      | some current =>
        rw [hcur] at hc
        exact writes_nodeRowCalls rfl hcur hc
  | createdRow e =>
    cases e <;> cases mem_singleton.mp hc <;> exact writes_else rfl rfl
  | deletedHistory e snap =>
    have hsnap : ∀ x ∈ snap.history ++ snap.above, ∀ id, e = .node id → x ∈ s.history (.node id) ∨
        ∃ rows, (Restore.deletedHistory e snap).keptRows = some (id, rows) ∧ x ∈ rows := by
      rintro x hx id rfl
      exact .inr ⟨_, rfl, hx⟩
    simp only [calls] at hc
    split at hc
    · exact .history (historyCall_historyFromCalls
        (fun id he x hx => hsnap x (mem_append_right _ hx) id he)
        (fun id he x hx => .inl (he ▸ hx)) hc)
    · exact .history (historyCall_cons rfl rfl
        (fun id he x hx => hsnap x (mem_append_left _ hx) id he) hc)
  | snapshotHistory e snap =>
    have hsnap : ∀ x ∈ snap.history ++ snap.above, ∀ id, e = .node id → x ∈ s.history (.node id) ∨
        ∃ rows, (Restore.snapshotHistory e snap).keptRows = some (id, rows) ∧ x ∈ rows := by
      rintro x hx id rfl
      exact .inr ⟨_, rfl, hx⟩
    simp only [calls] at hc
    split at hc
    · exact .history (historyCall_historyFromCalls
        (fun id he x hx => hsnap x (mem_append_right _ hx) id he)
        (fun id he x hx => .inl (he ▸ hx)) hc)
    split at hc
    · exact .history (historyCall_txRowsCalls (fun id he x hx => .inl (he ▸ hx)) hc)
    · exact .history (historyCall_cons rfl rfl
        (fun id he x hx => hsnap x (mem_append_left _ hx) id he) hc)
  | createdHistory e start =>
    simp only [calls] at hc
    split at hc
    · cases mem_singleton.mp hc
      exact writes_else rfl rfl
    split at hc
    · cases mem_singleton.mp hc
      exact writes_else rfl rfl
    · exact .history (historyCall_cons rfl rfl
        (fun id he x hx => .inl (he ▸ (mem_filter.mp hx).1)) hc)

/-! ## The rows after a restore -/

theorem Store.NodeRows.ofCalls (h : s.NodeRows P Q)
    (hslot : ∀ c ∈ cs, ∀ t : Store V, t.NodeRows P Q → ∀ id x, c.slot = some (id, x) → SlotOk t c
      id x → P id x.row) (hkept : ∀ c ∈ cs, ∀ id x, c.kept = some (id, x) → Q id x.row) :
    (Undo.ofCalls cs s).1.NodeRows P Q := by
  induction cs generalizing s with
  | nil => exact h
  | cons c cs ih =>
    rw [ofCalls]
    unfold andThen ofCall
    cases hcall : s.call c with
    | error e => exact h
    | ok r =>
      refine ih (h.call hcall (hslot c mem_cons_self s h) (hkept c mem_cons_self))
        (fun c' hc' => hslot c' (mem_cons_of_mem _ hc'))
        fun c' hc' => hkept c' (mem_cons_of_mem _ hc')

/-- The label turns of a restore on the store `s` give the node good rows. -/
def Restore.TurnsOk (P Q : Nat → Row V → Prop) (s : Store V) (r : Restore V) : Prop :=
  ∀ (t : Store V) (id : Nat) (lop : LabelOp) (x y target : Stored V), t.NodeRows P Q →
    SlotOk t (.changeNodeLabelToken id lop x) id x → r.target = some (id, target) →
    s.nodes id = some y → x.row = { y.row with labels := x.row.labels } →
    (∀ l ∈ x.row.labels, l ∈ y.row.labels ∨ l ∈ target.row.labels) → P id x.row

/-- **A restore** keeps the rows good, wherever it stops. -/
theorem Store.NodeRows.restore (h : s.NodeRows P Q) (hr : r.RowsOk P Q) (hturns : r.TurnsOk P Q s)
    (hcs : ∀ c ∈ cs, c ∈ r.calls caps s) : (Undo.ofCalls cs s).1.NodeRows P Q := by
  refine h.ofCalls (fun c hc t ht id x hslot hok => ?_) fun c hc id x hkept => ?_
  · cases Restore.writes_of_mem (hcs c hc) with
    | row hkept hrow =>
      cases hrow id x hslot with
      | target htarget => exact hr.target id x htarget
      | turn hturn htarget hy hx hlabels =>
        subst hturn
        exact hturns t id _ x _ _ ht hok htarget hy hx hlabels
    | history hhist => exact nomatch hhist.1.symm.trans hslot
  · cases Restore.writes_of_mem (hcs c hc) with
    | row hnone => exact nomatch hnone.symm.trans hkept
    | history hhist =>
      rcases hhist.2 id x hkept with hx | ⟨rows, hrows, hx⟩
      · exact h.history id x hx
      · exact hr.kept id rows hrows x hx

/-- **A rollback** keeps the rows good, on its way too. -/
theorem Store.NodeRows.runRestores (h : s.NodeRows P Q) {rs : List (Restore V)}
    {faults : List (Option Nat)} (hrs : ∀ r ∈ rs, r.RowsOk P Q) {ok : Store V → Restore V → Bool}
    (hok : ∀ (t : Store V) (r : Restore V), t.NodeRows P Q → ok t r = true → r.TurnsOk P Q t)
    (hmeet : restoresMeet caps ok rs faults s = true) :
    (runRestores caps rs faults s).2.NodeRows P Q ∧
      ∀ t ∈ (runRestores caps rs faults s).1, t.NodeRows P Q := by
  induction rs generalizing s faults with
  | nil => exact ⟨h, fun _ ht => nomatch ht⟩
  | cons r rs ih =>
    rw [restoresMeet, Bool.and_eq_true] at hmeet
    have hturns := hok s r h hmeet.1
    have hsub : ∀ c ∈ r.reached caps faults.head?.join s, c ∈ r.calls caps s := by
      intro c hc
      unfold Restore.reached at hc
      split at hc
      · exact hc
      · exact mem_of_mem_take hc
    have hr := hrs r mem_cons_self
    obtain ⟨hend, hway⟩ := ih (h.restore hr hturns hsub) (fun r' hr' => hrs r' (mem_cons_of_mem _ hr'))
      hmeet.2
    refine ⟨hend, fun t ht => ?_⟩
    rcases mem_append.mp ht with ht | ht
    · obtain ⟨cs, hcs, rfl⟩ := mem_map.mp ht
      exact h.restore hr hturns fun c hc => hsub c ((mem_inits _ _).mp hcs |>.subset hc)
    · exact hway t ht

end Rows

/-! ## The rows of the undo log -/

section Records

variable {P Q P' Q' : Nat → Row V → Prop} {s s' : Store V} {tx : GraphTx V} {caps : TxCaps}

/-- The rows of a snapshot of the node `id`. -/
structure Snapshot.RowsOk (P Q : Nat → Row V → Prop) (id : Nat) (snap : Snapshot V) : Prop where
  prev : P id snap.prev.row
  history : ∀ x ∈ snap.history, Q id x.row
  above : ∀ x ∈ snap.above, Q id x.row

/-- The rows of the snapshots of a transaction. -/
structure GraphTx.RowsOk (P Q : Nat → Row V → Prop) (tx : GraphTx V) : Prop where
  updated : ∀ id snap, (EntityId.node id, snap) ∈ tx.updated → snap.RowsOk P Q id
  deleted : ∀ d ∈ tx.deletedNodes, d.node.RowsOk P Q d.id

variable {id : Nat} {snap : Snapshot V} {a : UndoEntry V} {history : List (Stored V)} {x : Stored V}

theorem Snapshot.RowsOk.mono (h : snap.RowsOk P Q id) (hP : ∀ id r, P id r → P' id r)
    (hQ : ∀ id r, Q id r → Q' id r) : snap.RowsOk P' Q' id :=
  ⟨hP _ _ h.prev, fun x hx => hQ _ _ (h.history x hx), fun x hx => hQ _ _ (h.above x hx)⟩

theorem GraphTx.RowsOk.mono (h : tx.RowsOk P Q) (hP : ∀ id r, P id r → P' id r)
    (hQ : ∀ id r, Q id r → Q' id r) : tx.RowsOk P' Q' :=
  ⟨fun id snap hu => (h.updated id snap hu).mono hP hQ, fun d hd => (h.deleted d hd).mono hP hQ⟩

theorem GraphTx.rowsOk_new : (GraphTx.new : GraphTx V).RowsOk P Q :=
  ⟨(fun _ _ h => nomatch h), (fun _ h => nomatch h)⟩

/-- The node a record is about, and its snapshot. -/
def UndoEntry.nodeSnapshot : UndoEntry V → Option (Nat × Snapshot V)
  | .deleted (.node id) snap => some (id, snap)
  | .updated (.node id) snap => some (id, snap)
  | _ => none

/-- The restores of a record write rows of its snapshot. -/
theorem UndoEntry.rowsOk_steps
    (h : ∀ id snap, a.nodeSnapshot = some (id, snap) → snap.RowsOk P Q id) :
    ∀ r ∈ a.steps, r.RowsOk P Q := by
  have hrow : ∀ {r : Restore V} {id : Nat} {snap : Snapshot V}, a.nodeSnapshot = some (id, snap) →
      r.target = some (id, snap.prev) → r.keptRows = none → r.RowsOk P Q := by
    intro r id snap ha htarget hkept
    refine ⟨fun id' x hx => ?_, fun _ _ hrows => nomatch hkept.symm.trans hrows⟩
    cases htarget.symm.trans hx
    exact (h id snap ha).prev
  have hhistory : ∀ {r : Restore V} {id : Nat} {snap : Snapshot V}, a.nodeSnapshot = some (id, snap) →
      r.target = none → r.keptRows = some (id, snap.history ++ snap.above) → r.RowsOk P Q := by
    intro r id snap ha htarget hkept
    refine ⟨(fun _ _ hx => nomatch htarget.symm.trans hx), fun id' rows hrows x hx => ?_⟩
    cases hkept.symm.trans hrows
    exact (mem_append.mp hx).elim ((h id snap ha).history x) ((h id snap ha).above x)
  have helse : ∀ {r : Restore V}, r.target = none → r.keptRows = none → r.RowsOk P Q :=
    fun htarget hkept => ⟨(fun _ _ hx => nomatch htarget.symm.trans hx),
      (fun _ _ hrows => nomatch hkept.symm.trans hrows)⟩
  intro r hr
  cases a with
  | deleted e snap =>
    rcases mem_cons.mp hr with rfl | hr
    · cases e with
      | rel n => exact helse rfl rfl
      | node n => exact hrow rfl rfl rfl
    · cases mem_singleton.mp hr
      cases e with
      | rel n => exact helse rfl rfl
      | node n => exact hhistory rfl rfl rfl
  | updated e snap =>
    rcases mem_cons.mp hr with rfl | hr
    · cases e with
      | rel n => exact helse rfl rfl
      | node n => exact hrow rfl rfl rfl
    · cases mem_singleton.mp hr
      cases e with
      | rel n => exact helse rfl rfl
      | node n => exact hhistory rfl rfl rfl
  | created e version =>
    rcases mem_cons.mp hr with rfl | hr
    · exact helse rfl rfl
    · cases mem_singleton.mp hr
      exact helse rfl rfl

/-- The records of the nodes in the undo log. -/
theorem GraphTx.nodeSnapshot_of_mem (ha : a ∈ tx.undoEntries)
    (hsnap : a.nodeSnapshot = some (id, snap)) :
    (EntityId.node id, snap) ∈ tx.updated ∨ ∃ d ∈ tx.deletedNodes, d.id = id ∧ d.node = snap := by
  obtain ⟨d, hd, rfl | ⟨r, -, rfl⟩⟩ | ⟨d, -, rfl⟩ | ⟨⟨e, snap'⟩, hu, rfl⟩ | ⟨c, -, rfl⟩ :=
    mem_undoEntries.mp ha
  · cases hsnap
    exact .inr ⟨d, hd, rfl, rfl⟩
  · cases hsnap
  · cases hsnap
  · cases e with
    | rel n => cases hsnap
    | node n =>
      cases hsnap
      exact .inl hu
  · cases hsnap

/-- The restores of a transaction write rows of its snapshots. -/
theorem GraphTx.RowsOk.restores (h : tx.RowsOk P Q) : ∀ r ∈ tx.restores, r.RowsOk P Q := by
  intro r hr
  obtain ⟨a, ha, hr⟩ := mem_flatMap.mp hr
  refine UndoEntry.rowsOk_steps (fun id snap hsnap => ?_) r hr
  rcases nodeSnapshot_of_mem ha hsnap with hu | ⟨d, hd, rfl, rfl⟩
  · exact h.updated id snap hu
  · exact h.deleted d hd

/-! ### What a call records -/

theorem Snapshot.rowsOk_ofUpdate (head : Bool) (hx : P id x.row)
    (hhistory : ∀ y ∈ history, Q id y.row) :
    (Snapshot.ofUpdate caps head x history).RowsOk P Q id := by
  have hfrom : ∀ y ∈ historyFrom history x.version, Q id y.row :=
    fun y hy => hhistory y (mem_filter.mp hy).1
  have hnil : ∀ y ∈ ([] : List (Stored V)), Q id y.row := forall_mem_nil _
  unfold ofUpdate
  split_ifs
  · exact ⟨hx, hnil, hnil⟩
  · exact ⟨hx, hnil, hfrom⟩
  · exact ⟨hx, hnil, hnil⟩
  · exact ⟨hx, hhistory, hnil⟩

theorem Snapshot.rowsOk_ofDelete (hx : P id x.row) (hhistory : ∀ y ∈ history, Q id y.row) :
    (Snapshot.ofDelete caps x history).RowsOk P Q id := by
  have hfrom : ∀ y ∈ historyFrom history x.version, Q id y.row :=
    fun y hy => hhistory y (mem_filter.mp hy).1
  have hnil : ∀ y ∈ ([] : List (Stored V)), Q id y.row := forall_mem_nil _
  unfold ofDelete
  split_ifs
  · exact ⟨hx, hnil, hfrom⟩
  · exact ⟨hx, hhistory, hnil⟩
  · exact ⟨hx, hnil, hnil⟩
  · exact ⟨hx, hhistory, hnil⟩

theorem Snapshot.RowsOk.materialize (h : snap.RowsOk P Q id)
    (hhistory : ∀ y ∈ history, Q id y.row) : (snap.materialize history).RowsOk P Q id := by
  unfold Snapshot.materialize
  split
  · refine ⟨h.prev, fun x hx => ?_, (fun _ h => nomatch h)⟩
    rcases mem_append.mp hx with hx | hx
    · exact hhistory x (mem_filter.mp hx).1
    · exact h.above x hx
  · exact h

theorem GraphTx.RowsOk.snapshotCurrent (h : tx.RowsOk P Q) (hs : s.NodeRows P Q) (head : Bool)
    (e : EntityId) : (tx.snapshotCurrent caps head s e).RowsOk P Q := by
  unfold GraphTx.snapshotCurrent
  split
  · exact h
  rename_i x hx
  split
  · exact h
  refine ⟨fun id snap hu => ?_, h.deleted⟩
  rcases mem_append.mp hu with hu | hu
  · exact h.updated id snap hu
  · cases mem_singleton.mp hu
    exact Snapshot.rowsOk_ofUpdate head (hs.current id x hx) (hs.history id)

theorem GraphTx.RowsOk.materialize (h : tx.RowsOk P Q) (hs : s.NodeRows P Q) (e : EntityId) :
    (tx.materialize s e).RowsOk P Q := by
  cases e with
  | node id =>
    refine ⟨h.updated, ?_⟩
    have hnodes : ∀ ds : List (DeletedNode V), (∀ d ∈ ds, d.node.RowsOk P Q d.id) →
        ∀ d ∈ materializeNode id (s.history (.node id)) ds, d.node.RowsOk P Q d.id := by
      intro ds
      induction ds with
      | nil => exact fun h => h
      | cons d ds ih =>
        intro hds d' hd'
        have hrest := ih fun d'' hd'' => hds d'' (mem_cons_of_mem _ hd'')
        unfold materializeNode at hd'
        split at hd'
        · rename_i hid
          rcases mem_cons.mp hd' with rfl | hd'
          · refine (hds d mem_cons_self).materialize ?_
            rw [hid.1]
            exact hs.history id
          · exact hds d' (mem_cons_of_mem _ hd')
        · rcases mem_cons.mp hd' with rfl | hd'
          · exact hds d' mem_cons_self
          · exact hrest d' hd'
    exact hnodes tx.deletedNodes h.deleted
  | rel id =>
    refine ⟨h.updated, fun d hd => ?_⟩
    obtain ⟨d', hd', rfl⟩ := mem_map.mp hd
    exact h.deleted d' hd'

theorem GraphTx.RowsOk.before [DecidableEq V] (h : tx.RowsOk P Q) {cfg : GraphConfig} {p : Primary V}
    (hs : p.store.NodeRows P Q) (c : TxCall V) : (GraphTx.before cfg caps p tx c).RowsOk P Q := by
  unfold GraphTx.before
  split
  · split
    · exact h.snapshotCurrent hs _ _
    split
    · exact h.materialize hs _
    · exact h
  · exact h

theorem GraphTx.RowsOk.after (h : tx.RowsOk P Q) (hs : s.NodeRows P Q) (d : Door V) :
    (GraphTx.after caps s s' tx d).RowsOk P Q := by
  unfold GraphTx.after
  split
  · split
    · split
      · unfold GraphTx.trackCreated
        split
        · exact h
        · exact ⟨h.updated, h.deleted⟩
      · exact h
    · exact h
  · split
    · rename_i x hx _
      refine ⟨h.updated, fun d hd => ?_⟩
      rcases mem_append.mp hd with hd | hd
      · exact h.deleted d hd
      · cases mem_singleton.mp hd
        exact Snapshot.rowsOk_ofDelete (hs.current _ x hx) (hs.history _)
    · exact h
  · split
    · exact ⟨h.updated, h.deleted⟩
    · exact h
  · exact h

end Records

end RhoTkg
