import RhoTkg.GraphStore

/-!
# Applying a change record

`applyChangeRecordLocked` takes one record of the primary's feed to the replica's store.  A put record
carries only the new row: the handler compares it with the replica's own current row and picks the
store door from the difference.  It takes an equal row for a redelivery, a changed label set for a
label door, and rebuilds the superseded row of a with-history put from the local row
(`reproduceSupersededNodeTxTo`).

Token and property checks, hash admission and the as-of column cache are left out: they do not change
a row.
-/

namespace RhoTkg

variable {V : Type}

/-- The errors of an apply. -/
inductive ApplyError where
  | store (e : StoreError)
  /-- A label change of more than one token. -/
  | notSingleTokenMutation
deriving DecidableEq, Repr

/-- What an apply returns. -/
abbrev ApplyResult (V : Type) := Except ApplyError (Store V)

/-- The store's result as the apply's. -/
def StoreResult.applied : StoreResult V → ApplyResult V
  | .ok r => .ok r.1
  | .error e => .error (.store e)

/-- `reproduceSupersededNodeTxTo`, `reproduceSupersededRelTxTo`. -/
def reproduceSupersededTxTo (prev next : Stored V) : Stored V :=
  if next.row.beliefTx = 0 then prev
  else { prev with row := prev.row.superseded next.row.beliefTx }

/-- `labelTokenDiff`: the tokens added and removed. -/
def labelTokenDiff (old new : Stored V) : List Nat × List Nat :=
  ((new.row.labels.filter (!old.row.labels.contains ·)).dedup,
    (old.row.labels.filter (!new.row.labels.contains ·)).dedup)

namespace Store

variable (s : Store V)

/-- `applyNodeLabelChangeLocked` of the label change `lop`. -/
def applyLabelOp (id : Nat) (lop : LabelOp) (old new : Stored V) (withHistory : Bool) :
    ApplyResult V :=
  if withHistory then
    (s.changeNodeLabelTokenWithHistory id lop new old.version
      (reproduceSupersededTxTo old new)).applied
  else (s.changeNodeLabelToken id lop new).applied

/-- `applyNodeLabelChangeLocked`. -/
def applyNodeLabelChange (id : Nat) (old new : Stored V) (withHistory : Bool) : ApplyResult V :=
  match labelTokenDiff old new with
  | ([tok], []) => s.applyLabelOp id ⟨tok, true⟩ old new withHistory
  | ([], [tok]) => s.applyLabelOp id ⟨tok, false⟩ old new withHistory
  | _ => .error .notSingleTokenMutation

/-- The end of `applyNodePutLocked` and `applyRelPutLocked`: a replacement. -/
def applyReplacement (e : EntityId) (old new : Stored V) (withHistory : Bool) : ApplyResult V :=
  if withHistory then
    (s.replaceWithHistory e new old.version (reproduceSupersededTxTo old new)).applied
  else (s.replace e new).applied

/-- `applyNodePutLocked`, `applyRelPutLocked`. -/
def applyPut [DecidableEq V] (e : EntityId) (wire : Stored V) (withHistory : Bool) : ApplyResult V :=
  match s.current e with
  | none => (s.put e wire).applied
  | some old =>
    -- `nodeWireMatches`, `relWireMatches`: already applied
    if old = wire then .ok s
    else
      match e with
      | .rel _ => s.applyReplacement e old wire withHistory
      | .node id =>
        if labelTokenDiff old wire = ([], []) then s.applyReplacement e old wire withHistory
        else s.applyNodeLabelChange id old wire withHistory

/-- The tombstones of a node delete under the versions of the local relationships. -/
def localTombstones : List (Nat × Stored V) → Except ApplyError (List (RelTombstone V))
  | [] => .ok []
  | (id, tombstone) :: rest =>
    match s.current (.rel id) with
    | none => .error (.store .errRelNotFound)
    | some old => (localTombstones rest).map (⟨id, old.version, tombstone⟩ :: ·)

/-- A delete that finds nothing to delete is applied already. -/
def deleted (notFound : StoreError) (r : StoreResult V) : ApplyResult V :=
  match r with
  | .ok r => .ok r.1
  | .error e => if e = notFound then .ok s else .error (.store e)

/-- `applyNodeDeleteLocked`. -/
def applyNodeDelete (id : Nat) (tombstone : Option (Stored V))
    (relTombstones : List (Nat × Stored V)) : ApplyResult V :=
  match tombstone with
  | none => s.deleted .errNodeNotFound (s.deleteNodeCascade id)
  | some tombstone =>
    match s.current (.node id) with
    | none => .ok s
    | some old =>
      match s.localTombstones relTombstones with
      | .error e => .error e
      | .ok rels => (s.deleteNodeWithHistory id old.version tombstone rels).applied

/-- `applyRelDeleteLocked`. -/
def applyRelDelete (id : Nat) (tombstone : Option (Stored V)) : ApplyResult V :=
  match tombstone with
  | none => s.deleted .errRelNotFound (s.deleteRelationship id)
  | some tombstone =>
    match s.current (.rel id) with
    | none => .ok s
    | some old => (s.deleteRelWithHistory id old.version tombstone).applied

/-- `applyChangeRecordLocked`. -/
def applyChange [DecidableEq V] : Change V → ApplyResult V
  | .put e wire withHistory => s.applyPut e wire withHistory
  | .nodeDelete id tombstone relTombstones _ => s.applyNodeDelete id tombstone relTombstones
  | .relDelete id tombstone => s.applyRelDelete id tombstone
  | .historyVersion e version wire => (s.putVersion e version wire).applied
  | .historyTruncate e isTrim bound =>
    if isTrim then (s.trimHistoryFrom e bound).applied else (s.truncateHistory e bound).applied

/-- Records applied in order, up to the first that is refused. -/
def applyChanges [DecidableEq V] : Store V → List (Change V) → ApplyResult V
  | s, [] => .ok s
  | s, c :: cs =>
    match s.applyChange c with
    | .error e => .error e
    | .ok s' => applyChanges s' cs

end Store

/-! ## What an apply does -/

/-- The store is as the change left it. -/
def Change.Settled (s : Store V) : Change V → Prop
  | .put e x _ => s.current e = some x
  | .nodeDelete id _ _ _ => s.current (.node id) = none
  | .relDelete id _ => s.current (.rel id) = none
  | .historyVersion e _ x => x ∈ s.history e
  | .historyTruncate e false keep => (s.history e).length ≤ keep
  | .historyTruncate e true minVersion => ∀ x ∈ s.history e, x.version < minVersion

/-- What a record the handler accepts does to the store. -/
inductive Store.Applied (s : Store V) : Change V → Store V → Prop
  | already {b : Change V} (h : b.Settled s) : Applied s b s
  | created {id : Nat} {x : Stored V} {wh : Bool} (hnone : s.current (.node id) = none) :
      Applied s (.put (.node id) x wh) (s.setCurrent (.node id) (some x))
  | relCreated {id : Nat} {x : Stored V} {wh : Bool} {ends : Nat × Nat}
      (hnone : s.current (.rel id) = none) :
      Applied s (.put (.rel id) x wh) ((s.setCurrent (.rel id) (some x)).addAdj id ends)
  | replaced {e : EntityId} {x old : Stored V} (hcur : s.current e = some old) :
      Applied s (.put e x false) (s.setCurrent e (some x))
  | superseded {e : EntityId} {x old : Stored V} (hcur : s.current e = some old) :
      Applied s (.put e x true)
        ((s.putHistoryRow e (reproduceSupersededTxTo old x)).setCurrent e (some x))
  | nodeDeleted {id : Nat} {rels : List (Nat × Stored V)} {cascaded : Finset Nat} :
      Applied s (.nodeDelete id none rels cascaded)
        ((s.removeRels (s.relIDs id)).setCurrent (.node id) none)
  | nodeEnded {id : Nat} {tombstone : Stored V} {rels : List (RelTombstone V)}
      {cascaded : Finset Nat} :
      Applied s (.nodeDelete id (some tombstone) (rels.map fun rt => (rt.id, rt.tombstone)) cascaded)
        (s.nodeDeleted id tombstone rels)
  | relDeleted {id : Nat} : Applied s (.relDelete id none) (s.removeRels {id})
  | relEnded {id : Nat} {tombstone : Stored V} :
      Applied s (.relDelete id (some tombstone))
        ((s.putHistoryRow (.rel id) tombstone).removeRels {id})
  | versionPut {e : EntityId} {version : Nat} {x : Stored V} (hversion : x.version = version) :
      Applied s (.historyVersion e version x) (s.putHistoryRow e x)
  | truncated {e : EntityId} {keep : Nat} :
      Applied s (.historyTruncate e false keep)
        (s.setHistory e ((s.history e).drop ((s.history e).length - keep)))
  | trimmed {e : EntityId} {minVersion : Nat} :
      Applied s (.historyTruncate e true minVersion)
        (s.setHistory e ((s.history e).filter fun x => decide (x.version < minVersion)))

section Applied

variable {s t : Store V}

variable {r : StoreResult V} {e : EntityId} {old x : Stored V} {wh : Bool} {id : Nat}
  {rels : List (Nat × Stored V)} {tombstone : Option (Stored V)}

theorem StoreResult.applied_eq_ok (h : r.applied = .ok t) : ∃ change, r = .ok (t, change) := by
  cases r with
  | error e => cases h
  | ok r =>
    cases h
    exact ⟨r.2, rfl⟩

theorem Store.deleted_eq_ok {notFound : StoreError} (h : s.deleted notFound r = .ok t) :
    (∃ change, r = .ok (t, change)) ∨ r = .error notFound ∧ t = s := by
  cases r with
  | error e =>
    simp only [deleted] at h
    split at h
    · rename_i he
      cases h
      exact .inr ⟨by rw [he], rfl⟩
    · cases h
  | ok r =>
    cases h
    exact .inl ⟨r.2, rfl⟩

theorem Store.Applied.replacing {valid : Stored V → Bool} {v : Nat} (hcur : s.current e = some old)
    (h : (if wh then (s.replaceRowWithHistory valid e x v (reproduceSupersededTxTo old x)).applied
      else (s.replaceRow valid e x).applied) = .ok t) : s.Applied (.put e x wh) t := by
  cases wh with
  | true =>
    obtain ⟨change, hcall⟩ := StoreResult.applied_eq_ok h
    obtain ⟨-, -, -, -, -, -, rfl, -⟩ := replaceRowWithHistory_ok hcall
    exact .superseded hcur
  | false =>
    obtain ⟨change, hcall⟩ := StoreResult.applied_eq_ok h
    obtain ⟨-, -, -, rfl, -⟩ := replaceRow_ok hcall
    exact .replaced hcur

theorem Store.applyReplacement_applied (hcur : s.current e = some old)
    (h : s.applyReplacement e old x wh = .ok t) : s.Applied (.put e x wh) t :=
  .replacing hcur h

theorem Store.applyLabelOp_applied {lop : LabelOp} (hcur : s.current (.node id) = some old)
    (h : s.applyLabelOp id lop old x wh = .ok t) : s.Applied (.put (.node id) x wh) t :=
  .replacing hcur h

theorem Store.applyPut_applied [DecidableEq V] (h : s.applyPut e x wh = .ok t) :
    s.Applied (.put e x wh) t := by
  unfold applyPut at h
  split at h
  · rename_i hnone
    obtain ⟨change, hcall⟩ := StoreResult.applied_eq_ok h
    cases put_effect hcall with
    | putNode => exact .created hnone
    | putRel => exact .relCreated hnone
  · rename_i old hcur
    split at h
    · rename_i heq
      cases h
      exact .already (by rw [Change.Settled, hcur, heq])
    · split at h
      · exact applyReplacement_applied hcur h
      · split at h
        · exact applyReplacement_applied hcur h
        · unfold applyNodeLabelChange at h
          split at h
          · exact applyLabelOp_applied hcur h
          · exact applyLabelOp_applied hcur h
          · cases h

/-- The local tombstones are the record's. -/
theorem Store.localTombstones_ok {rts : List (RelTombstone V)}
    (h : s.localTombstones rels = .ok rts) : rels = rts.map fun rt => (rt.id, rt.tombstone) := by
  induction rels generalizing rts with
  | nil =>
    cases h
    rfl
  | cons x rels ih =>
    rw [localTombstones] at h
    split at h
    · cases h
    · obtain ⟨rest, hrest, h⟩ := Runs.bind_eq_ok.mp h
      cases h
      rw [ih hrest]
      rfl

theorem Store.applyNodeDelete_applied {cascaded : Finset Nat}
    (h : s.applyNodeDelete id tombstone rels = .ok t) :
    s.Applied (.nodeDelete id tombstone rels cascaded) t := by
  unfold applyNodeDelete at h
  split at h
  · obtain ⟨change, hcall⟩ | ⟨hcall, rfl⟩ := deleted_eq_ok h
    · cases call_effect (c := .deleteNodeCascade id) hcall
      exact .nodeDeleted
    · refine .already ?_
      unfold deleteNodeCascade at hcall
      split at hcall
      · cases hcall
      · split at hcall
        · rename_i hnone
          simpa [Change.Settled] using hnone
        · cases hcall
  · split at h
    · rename_i hnone
      cases h
      exact .already hnone
    · rename_i old _
      split at h
      · cases h
      · rename_i rts hlocal
        obtain ⟨change, hcall⟩ := StoreResult.applied_eq_ok h
        generalize old.version = v at hcall
        cases deleteNodeWithHistory_effect hcall
        rw [localTombstones_ok hlocal]
        exact .nodeEnded

theorem Store.applyRelDelete_applied (h : s.applyRelDelete id tombstone = .ok t) :
    s.Applied (.relDelete id tombstone) t := by
  unfold applyRelDelete at h
  split at h
  · obtain ⟨change, hcall⟩ | ⟨hcall, rfl⟩ := deleted_eq_ok h
    · cases call_effect (c := .deleteRelationship id) hcall
      exact .relDeleted
    · refine .already ?_
      unfold deleteRelationship at hcall
      split at hcall
      · cases hcall
      · split at hcall
        · rename_i hnone
          simpa [Change.Settled] using hnone
        · cases hcall
  · split at h
    · rename_i hnone
      cases h
      exact .already hnone
    · rename_i old _
      obtain ⟨change, hcall⟩ := StoreResult.applied_eq_ok h
      generalize old.version = v at hcall
      cases deleteRelWithHistory_effect hcall
      exact .relEnded

/-- **The inversion lemma** of an apply. -/
theorem Store.applyChange_applied [DecidableEq V] {b : Change V} (h : s.applyChange b = .ok t) :
    s.Applied b t := by
  cases b with
  | put e x wh => exact applyPut_applied h
  | nodeDelete id tombstone rels cascaded => exact applyNodeDelete_applied h
  | relDelete id tombstone => exact applyRelDelete_applied h
  | historyVersion e version x =>
    obtain ⟨change, hcall⟩ := StoreResult.applied_eq_ok h
    cases call_effect (c := .putVersion e version x) hcall with
    | versionPut hvalid =>
      simp only [validVersionSnapshot, Bool.and_eq_true, beq_iff_eq] at hvalid
      exact .versionPut hvalid.2
  | historyTruncate e isTrim bound =>
    cases isTrim with
    | false =>
      obtain ⟨change, hcall⟩ := StoreResult.applied_eq_ok h
      unfold truncateHistory at hcall
      split at hcall
      · split at hcall
        · cases hcall
          exact .already ‹_›
        · cases hcall
          exact .truncated
      · cases hcall
    | true =>
      obtain ⟨change, hcall⟩ := StoreResult.applied_eq_ok h
      unfold trimHistoryFrom at hcall
      split at hcall
      · split at hcall
        · cases hcall
          exact .trimmed
        · rename_i hnone
          cases hcall
          refine .already fun x hx => ?_
          simp only [List.any_eq_true, decide_eq_true_eq, not_exists, not_and, not_le] at hnone
          exact hnone x hx
      · cases hcall

end Applied

end RhoTkg
