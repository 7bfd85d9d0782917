import RhoTkg.Doors
import Mathlib.Data.Finset.Basic
import Mathlib.Logic.Function.Basic

/-!
# The memory store and its change records

The store keeps, for every node and relationship, one current row and the history rows under their
versions, and for every node the relationships that start and end there.  Each of its doors checks
its arguments, changes the rows and returns the change record it logs; a refused call changes nothing.

Nodes and relationships go through the same doors up to two differences.  A relationship row has
endpoints, which must exist when it is stored, and it is entered in the adjacency of both; a node row
has a label set, which only the label doors change.  A `Stored` row is therefore a row with its
endpoints, none for a node; the one label token of a relationship row is the relationship's type.

The property, vector and temporal indexes, the watermarks and the epochs follow the rows and are left
out, with the integrity hashes.
-/

namespace RhoTkg

variable {V : Type}

/-! ## Rows and keys -/

/-- The ID of a node or of a relationship. -/
inductive EntityId where
  | node (id : Nat)
  | rel (id : Nat)
deriving DecidableEq, Repr

/-- A stored row: the endpoints of a relationship, and the row. -/
structure Stored (V : Type) where
  ends : Option (Nat × Nat)
  row : Row V
deriving DecidableEq, Repr

/-- `Node.Version`, `Relationship.Version`. -/
def Stored.version (x : Stored V) : Nat := x.row.version

/-- The store's errors. -/
inductive StoreError where
  | errNodeNotFound
  | errRelNotFound
  | errNodeExists
  | errRelExists
  | errInvalidStoreMutation
deriving DecidableEq, Repr

/-- The error of a door that finds no current row. -/
def EntityId.notFound : EntityId → StoreError
  | .node _ => .errNodeNotFound
  | .rel _ => .errRelNotFound

/-- The error of a create that finds a current row. -/
def EntityId.exists : EntityId → StoreError
  | .node _ => .errNodeExists
  | .rel _ => .errRelExists

/-- `ValidateNodeID`, `ValidateRelID`. -/
def EntityId.valid : EntityId → Bool
  | .node id => id != 0
  | .rel id => id != 0

/-- `memory.Store`: the current rows, the history rows in version order, and the adjacency. -/
structure Store (V : Type) where
  current : EntityId → Option (Stored V)
  history : EntityId → List (Stored V)
  outIdx : Nat → Finset Nat
  inIdx : Nat → Finset Nat

/-- A store without rows. -/
def Store.empty : Store V := ⟨fun _ => none, fun _ => [], fun _ => ∅, fun _ => ∅⟩

/-- The tombstone of a relationship a node delete cascades to (`store.RelTombstone`). -/
structure RelTombstone (V : Type) where
  id : Nat
  prevVersion : Nat
  tombstone : Stored V
deriving DecidableEq, Repr

/-! ## Change records -/

/-- The bodies of the change records: `NodePutBody` and `RelPutBody`, `NodeDeleteBody`,
`RelDeleteBody`, the two `HistoryVersion` bodies and `HistoryTruncateBody`.  A delete is with history
when it carries a tombstone. -/
inductive Change (V : Type) where
  | put (e : EntityId) (wire : Stored V) (withHistory : Bool)
  | nodeDelete (id : Nat) (tombstone : Option (Stored V)) (relTombstones : List (Nat × Stored V))
      (cascadedRelIDs : Finset Nat)
  | relDelete (id : Nat) (tombstone : Option (Stored V))
  | historyVersion (e : EntityId) (version : Nat) (wire : Stored V)
  | historyTruncate (e : EntityId) (isTrim : Bool) (bound : Nat)
deriving DecidableEq

/-- What a store door returns: the store after the call and the record it logs. -/
abbrev StoreResult (V : Type) := Except StoreError (Store V × Option (Change V))

/-! ## Validation -/

/-- `ValidateNodeWrite` and `ValidateNodeHistorySnapshot`, `ValidateRelationshipWrite` and
`ValidateRelationshipHistorySnapshot`: the row can be stored under the key. -/
def validSnapshot (e : EntityId) (x : Stored V) : Bool :=
  e.valid && storable x.row &&
    match e, x.ends with
    | .node _, none => !x.row.labels.isEmpty && x.row.labels.all (· != 0)
    | .rel _, some ends => ends.1 != 0 && ends.2 != 0 && x.row.labels.length == 1 &&
        x.row.labels.all (· != 0)
    | _, _ => false

/-- `ValidateNodeHistoryVersionSnapshot`, `ValidateRelationshipHistoryVersionSnapshot`. -/
def validVersionSnapshot (e : EntityId) (version : Nat) (x : Stored V) : Bool :=
  validSnapshot e x && x.version == version

/-- `ValidateNodeReplacement`, `ValidateRelationshipReplacement`: the fields that back the indexes
stay. -/
def validReplacement (e : EntityId) (old new : Stored V) : Bool :=
  validSnapshot e new && new.row.labels == old.row.labels && new.ends == old.ends

/-- `ValidateNodeLabelAddition`. -/
def validLabelAddition (e : EntityId) (old new : Stored V) (tok : Nat) : Bool :=
  validSnapshot e new && tok != 0 && !old.row.labels.contains tok && new.row.labels.contains tok &&
    new.row.labels.length == old.row.labels.length + 1 &&
    old.row.labels.all (new.row.labels.contains ·)

/-- `ValidateNodeLabelRemoval`. -/
def validLabelRemoval (e : EntityId) (old new : Stored V) (tok : Nat) : Bool :=
  validSnapshot e new && tok != 0 && old.row.labels.contains tok && !new.row.labels.contains tok &&
    new.row.labels.length == old.row.labels.length - 1 &&
    old.row.labels.all fun l => l == tok || new.row.labels.contains l

/-- A change of a node's label set: the token and whether it is added. -/
def validLabelChange (e : EntityId) (old new : Stored V) (lop : LabelOp) : Bool :=
  if lop.add then validLabelAddition e old new lop.tok else validLabelRemoval e old new lop.tok

namespace Store

variable (s : Store V)

/-! ## The parts of the doors -/

/-- Set the current row. -/
def setCurrent (e : EntityId) (x : Option (Stored V)) : Store V :=
  { s with current := Function.update s.current e x }

/-- `putNodeHistoryRowLocked`, `putRelHistoryRowLocked`. -/
def putHistoryRow (e : EntityId) (x : Stored V) : Store V :=
  { s with history := Function.update s.history e (Keyed.put Stored.version (s.history e) x) }

/-- `addAdjLocked` of a relationship at both endpoints. -/
def addAdj (id : Nat) (ends : Nat × Nat) : Store V :=
  { s with
    outIdx := Function.update s.outIdx ends.1 (insert id (s.outIdx ends.1))
    inIdx := Function.update s.inIdx ends.2 (insert id (s.inIdx ends.2)) }

/-- `removeRelLocked` for each of the relationships `ids`; one without a row is purged from the
adjacency (`deleteRelOrPurgeOrphanLocked`). -/
def removeRels (ids : Finset Nat) : Store V :=
  { s with
    current := fun e => match e with
      | .rel id => if id ∈ ids then none else s.current e
      | .node _ => s.current e
    outIdx := fun n => s.outIdx n \ ids
    inIdx := fun n => s.inIdx n \ ids }

/-- The relationships that start or end at a node. -/
def relIDs (id : Nat) : Finset Nat := s.outIdx id ∪ s.inIdx id

/-- The relationships of a node that have a current row. -/
def cascadedRelIDs (id : Nat) : Finset Nat :=
  (s.relIDs id).filter fun r => (s.current (.rel r)).isSome = true

section Fields

variable (e : EntityId) (x : Option (Stored V)) (y : Stored V) (id n : Nat) (ends : Nat × Nat)
  (ids : Finset Nat)

@[simp] theorem current_setCurrent :
    (s.setCurrent e x).current = Function.update s.current e x := rfl
@[simp] theorem current_putHistoryRow : (s.putHistoryRow e y).current = s.current := rfl
theorem history_putHistoryRow : (s.putHistoryRow e y).history =
    Function.update s.history e (Keyed.put Stored.version (s.history e) y) := rfl
@[simp] theorem current_addAdj : (s.addAdj id ends).current = s.current := rfl
@[simp] theorem current_removeRels_node :
    (s.removeRels ids).current (.node n) = s.current (.node n) := rfl
@[simp] theorem current_removeRels_rel : (s.removeRels ids).current (.rel n) =
    if n ∈ ids then none else s.current (.rel n) := rfl
@[simp] theorem history_removeRels : (s.removeRels ids).history = s.history := rfl

end Fields

/-! ## Creates and replacements -/

/-- `PutNode`, `PutRelationship`. -/
def put (e : EntityId) (x : Stored V) : StoreResult V :=
  if validSnapshot e x then
    match e, x.ends with
    | .rel id, some ends =>
      if (s.current (.node ends.1)).isNone || (s.current (.node ends.2)).isNone then
        .error .errNodeNotFound
      else if (s.current e).isSome then .error e.exists
      else .ok ((s.setCurrent e (some x)).addAdj id ends, some (.put e x false))
    | _, _ =>
      if (s.current e).isSome then .error e.exists
      else .ok (s.setCurrent e (some x), some (.put e x false))
  else .error .errInvalidStoreMutation

/-- A door that exchanges the current row under a check: `ReplaceNode`, `ReplaceRelationship` and
the label doors without history. -/
def replaceRow (valid : Stored V → Bool) (e : EntityId) (x : Stored V) : StoreResult V :=
  if validSnapshot e x then
    match s.current e with
    | none => .error e.notFound
    | some old =>
      if valid old then .ok (s.setCurrent e (some x), some (.put e x false))
      else .error .errInvalidStoreMutation
  else .error .errInvalidStoreMutation

/-- The doors that also write the superseded row to history: `ReplaceNodeWithHistory`,
`ReplaceRelWithHistory` and the label doors with history. -/
def replaceRowWithHistory (valid : Stored V → Bool) (e : EntityId) (x : Stored V) (prevVersion : Nat)
    (prevState : Stored V) : StoreResult V :=
  if validSnapshot e x && validVersionSnapshot e prevVersion prevState then
    match s.current e with
    | none => .error e.notFound
    | some old =>
      -- `ValidateNodeLiveVersion`, `ValidateRelationshipLiveVersion`
      if old.version == prevVersion && valid old && validReplacement e old prevState then
        .ok ((s.putHistoryRow e prevState).setCurrent e (some x), some (.put e x true))
      else .error .errInvalidStoreMutation
  else .error .errInvalidStoreMutation

/-- `ReplaceNode`, `ReplaceRelationship`. -/
def replace (e : EntityId) (x : Stored V) : StoreResult V :=
  s.replaceRow (validReplacement e · x) e x

/-- `ReplaceNodeWithHistory`, `ReplaceRelWithHistory`. -/
def replaceWithHistory (e : EntityId) (x : Stored V) (prevVersion : Nat) (prevState : Stored V) :
    StoreResult V :=
  s.replaceRowWithHistory (validReplacement e · x) e x prevVersion prevState

/-- `AddNodeLabelToken`, `RemoveNodeLabelToken`. -/
def changeNodeLabelToken (id : Nat) (lop : LabelOp) (x : Stored V) : StoreResult V :=
  s.replaceRow (validLabelChange (.node id) · x lop) (.node id) x

/-- `AddNodeLabelTokenWithHistory`, `RemoveNodeLabelTokenWithHistory`. -/
def changeNodeLabelTokenWithHistory (id : Nat) (lop : LabelOp) (x : Stored V) (prevVersion : Nat)
    (prevState : Stored V) : StoreResult V :=
  s.replaceRowWithHistory (validLabelChange (.node id) · x lop) (.node id) x prevVersion prevState

/-! ## History -/

/-- `PutNodeVersion`, `PutRelVersion`. -/
def putVersion (e : EntityId) (version : Nat) (x : Stored V) : StoreResult V :=
  if validVersionSnapshot e version x then
    .ok (s.putHistoryRow e x, some (.historyVersion e version x))
  else .error .errInvalidStoreMutation

/-- Set the history rows. -/
def setHistory (e : EntityId) (rows : List (Stored V)) : Store V :=
  { s with history := Function.update s.history e rows }

@[simp] theorem current_setHistory (e : EntityId) (rows : List (Stored V)) :
    (s.setHistory e rows).current = s.current := rfl

theorem history_setHistory (e : EntityId) (rows : List (Stored V)) :
    (s.setHistory e rows).history = Function.update s.history e rows := rfl

/-- `TruncateNodeHistory`, `TruncateRelHistory`: only the `keep` newest rows stay.  Nothing is logged
when nothing is removed. -/
def truncateHistory (e : EntityId) (keep : Nat) : StoreResult V :=
  if e.valid then
    if (s.history e).length ≤ keep then .ok (s, none)
    else .ok (s.setHistory e ((s.history e).drop ((s.history e).length - keep)),
      some (.historyTruncate e false keep))
  else .error .errInvalidStoreMutation

/-- `TrimNodeHistoryFrom`, `TrimRelHistoryFrom`: the rows from `minVersion` on go. -/
def trimHistoryFrom (e : EntityId) (minVersion : Nat) : StoreResult V :=
  if e.valid then
    if (s.history e).any fun x => decide (minVersion ≤ x.version) then
      .ok (s.setHistory e ((s.history e).filter fun x => decide (x.version < minVersion)),
        some (.historyTruncate e true minVersion))
    else .ok (s, none)
  else .error .errInvalidStoreMutation

/-! ## Deletes -/

/-- `DeleteRelationship`. -/
def deleteRelationship (id : Nat) : StoreResult V :=
  if id = 0 then .error .errInvalidStoreMutation
  else if (s.current (.rel id)).isNone then .error .errRelNotFound
  else .ok (s.removeRels {id}, some (.relDelete id none))

/-- `DeleteRelWithHistory`. -/
def deleteRelWithHistory (id prevVersion : Nat) (tombstone : Stored V) : StoreResult V :=
  if validVersionSnapshot (.rel id) prevVersion tombstone then
    match s.current (.rel id) with
    | none => .error .errRelNotFound
    | some old =>
      if old.version == prevVersion && validReplacement (.rel id) old tombstone then
        .ok ((s.putHistoryRow (.rel id) tombstone).removeRels {id},
          some (.relDelete id (some tombstone)))
      else .error .errInvalidStoreMutation
  else .error .errInvalidStoreMutation

/-- `DeleteNode`: refused while relationships are connected. -/
def deleteNode (id : Nat) : StoreResult V :=
  if id = 0 then .error .errInvalidStoreMutation
  else if (s.current (.node id)).isNone then .error .errNodeNotFound
  else if (s.relIDs id).Nonempty then .error .errInvalidStoreMutation
  else .ok (s.setCurrent (.node id) none, some (.nodeDelete id none [] ∅))

/-- `DeleteNodeCascade`. -/
def deleteNodeCascade (id : Nat) : StoreResult V :=
  if id = 0 then .error .errInvalidStoreMutation
  else if (s.current (.node id)).isNone then .error .errNodeNotFound
  else .ok ((s.removeRels (s.relIDs id)).setCurrent (.node id) none,
    some (.nodeDelete id none [] (s.cascadedRelIDs id)))

/-- The checks of one relationship tombstone of a node delete. -/
def relTombstoneError (id : Nat) (rt : RelTombstone V) : Option StoreError :=
  if rt.id ∈ s.relIDs id then
    match s.current (.rel rt.id) with
    | none => some .errRelNotFound
    | some old =>
      if old.version == rt.prevVersion && validReplacement (.rel rt.id) old rt.tombstone then none
      else some .errInvalidStoreMutation
  else some .errInvalidStoreMutation

/-- `DeleteNodeWithHistory`: every connected relationship needs its tombstone. -/
def deleteNodeWithHistory (id prevVersion : Nat) (tombstone : Stored V)
    (relTombstones : List (RelTombstone V)) : StoreResult V :=
  if validVersionSnapshot (.node id) prevVersion tombstone &&
      relTombstones.all fun rt => validVersionSnapshot (.rel rt.id) rt.prevVersion rt.tombstone then
    match s.current (.node id) with
    | none => .error .errNodeNotFound
    | some old =>
      if (old.version == prevVersion && validReplacement (.node id) old tombstone) = false ∨
          ¬ (relTombstones.map (·.id)).Nodup then .error .errInvalidStoreMutation
      else
        match relTombstones.findSome? (s.relTombstoneError id) with
        | some e => .error e
        | none =>
          if ∀ r ∈ s.cascadedRelIDs id, r ∈ relTombstones.map (·.id) then
            .ok (((relTombstones.foldl (fun s rt => s.putHistoryRow (.rel rt.id) rt.tombstone)
                (s.putHistoryRow (.node id) tombstone)).removeRels (s.relIDs id)).setCurrent
                  (.node id) none,
              some (.nodeDelete id (some tombstone)
                (relTombstones.map fun rt => (rt.id, rt.tombstone)) ∅))
          else .error .errInvalidStoreMutation
  else .error .errInvalidStoreMutation

end Store

/-! ## Calls -/

/-- The doors of the store with their arguments. -/
inductive StoreCall (V : Type) where
  | put (e : EntityId) (x : Stored V)
  | replace (e : EntityId) (x : Stored V)
  | replaceWithHistory (e : EntityId) (x : Stored V) (prevVersion : Nat) (prevState : Stored V)
  | changeNodeLabelToken (id : Nat) (lop : LabelOp) (x : Stored V)
  | changeNodeLabelTokenWithHistory (id : Nat) (lop : LabelOp) (x : Stored V) (prevVersion : Nat)
      (prevState : Stored V)
  | putVersion (e : EntityId) (version : Nat) (x : Stored V)
  | truncateHistory (e : EntityId) (keep : Nat)
  | trimHistoryFrom (e : EntityId) (minVersion : Nat)
  | deleteRelationship (id : Nat)
  | deleteRelWithHistory (id prevVersion : Nat) (tombstone : Stored V)
  | deleteNode (id : Nat)
  | deleteNodeCascade (id : Nat)
  | deleteNodeWithHistory (id prevVersion : Nat) (tombstone : Stored V)
      (relTombstones : List (RelTombstone V))

/-- The door a call names. -/
def Store.call (s : Store V) : StoreCall V → StoreResult V
  | .put e x => s.put e x
  | .replace e x => s.replace e x
  | .replaceWithHistory e x prevVersion prevState => s.replaceWithHistory e x prevVersion prevState
  | .changeNodeLabelToken id lop x => s.changeNodeLabelToken id lop x
  | .changeNodeLabelTokenWithHistory id lop x prevVersion prevState =>
    s.changeNodeLabelTokenWithHistory id lop x prevVersion prevState
  | .putVersion e version x => s.putVersion e version x
  | .truncateHistory e keep => s.truncateHistory e keep
  | .trimHistoryFrom e minVersion => s.trimHistoryFrom e minVersion
  | .deleteRelationship id => s.deleteRelationship id
  | .deleteRelWithHistory id prevVersion tombstone => s.deleteRelWithHistory id prevVersion tombstone
  | .deleteNode id => s.deleteNode id
  | .deleteNodeCascade id => s.deleteNodeCascade id
  | .deleteNodeWithHistory id prevVersion tombstone relTombstones =>
    s.deleteNodeWithHistory id prevVersion tombstone relTombstones

/-! ## What an accepted call does -/

/-- The store after a node delete with history. -/
def Store.nodeDeleted (s : Store V) (id : Nat) (tombstone : Stored V)
    (relTombstones : List (RelTombstone V)) : Store V :=
  ((relTombstones.foldl (fun s rt => s.putHistoryRow (.rel rt.id) rt.tombstone)
    (s.putHistoryRow (.node id) tombstone)).removeRels (s.relIDs id)).setCurrent (.node id) none

@[simp] theorem Store.current_foldl_putHistoryRow (s : Store V) (rels : List (RelTombstone V)) :
    (rels.foldl (fun s rt => s.putHistoryRow (.rel rt.id) rt.tombstone) s).current = s.current := by
  induction rels generalizing s with
  | nil => rfl
  | cons rt rels ih => exact ih _

/-- What a call the store accepts does, the record it logs, and what it has checked. -/
inductive Store.Effect (s : Store V) : StoreCall V → Store V → Option (Change V) → Prop
  | putNode {id : Nat} {x : Stored V} (hvalid : validSnapshot (.node id) x = true)
      (hnone : s.current (.node id) = none) :
      Effect s (.put (.node id) x) (s.setCurrent (.node id) (some x))
        (some (.put (.node id) x false))
  | putRel {id : Nat} {x : Stored V} {ends : Nat × Nat} (hvalid : validSnapshot (.rel id) x = true)
      (hends : x.ends = some ends) (hstart : (s.current (.node ends.1)).isSome = true)
      (hend : (s.current (.node ends.2)).isSome = true) (hnone : s.current (.rel id) = none) :
      Effect s (.put (.rel id) x) ((s.setCurrent (.rel id) (some x)).addAdj id ends)
        (some (.put (.rel id) x false))
  | replaced {e : EntityId} {x old : Stored V} (hcur : s.current e = some old)
      (hvalid : validReplacement e old x = true) :
      Effect s (.replace e x) (s.setCurrent e (some x)) (some (.put e x false))
  | labelled {id : Nat} {lop : LabelOp} {x old : Stored V} (hcur : s.current (.node id) = some old)
      (hvalid : validLabelChange (.node id) old x lop = true) :
      Effect s (.changeNodeLabelToken id lop x) (s.setCurrent (.node id) (some x))
        (some (.put (.node id) x false))
  | superseded {e : EntityId} {x prev old : Stored V} (hcur : s.current e = some old)
      (hprev : validVersionSnapshot e old.version prev = true)
      (hvalid : validReplacement e old x = true) (hkept : validReplacement e old prev = true) :
      Effect s (.replaceWithHistory e x old.version prev)
        ((s.putHistoryRow e prev).setCurrent e (some x)) (some (.put e x true))
  | labelSuperseded {id : Nat} {lop : LabelOp} {x prev old : Stored V}
      (hcur : s.current (.node id) = some old)
      (hprev : validVersionSnapshot (.node id) old.version prev = true)
      (hvalid : validLabelChange (.node id) old x lop = true)
      (hkept : validReplacement (.node id) old prev = true) :
      Effect s (.changeNodeLabelTokenWithHistory id lop x old.version prev)
        ((s.putHistoryRow (.node id) prev).setCurrent (.node id) (some x))
        (some (.put (.node id) x true))
  | versionPut {e : EntityId} {version : Nat} {x : Stored V}
      (hvalid : validVersionSnapshot e version x = true) :
      Effect s (.putVersion e version x) (s.putHistoryRow e x) (some (.historyVersion e version x))
  | truncated {e : EntityId} {keep : Nat} (he : e.valid = true)
      (hlong : keep < (s.history e).length) :
      Effect s (.truncateHistory e keep)
        (s.setHistory e ((s.history e).drop ((s.history e).length - keep)))
        (some (.historyTruncate e false keep))
  | notTruncated {e : EntityId} {keep : Nat} : Effect s (.truncateHistory e keep) s none
  | trimmed {e : EntityId} {minVersion : Nat} (he : e.valid = true)
      (hany : ((s.history e).any fun x => decide (minVersion ≤ x.version)) = true) :
      Effect s (.trimHistoryFrom e minVersion)
        (s.setHistory e ((s.history e).filter fun x => decide (x.version < minVersion)))
        (some (.historyTruncate e true minVersion))
  | notTrimmed {e : EntityId} {minVersion : Nat} : Effect s (.trimHistoryFrom e minVersion) s none
  | relDeleted {id : Nat} (hid : id ≠ 0) (hcur : s.current (.rel id) ≠ none) :
      Effect s (.deleteRelationship id) (s.removeRels {id}) (some (.relDelete id none))
  | relEnded {id : Nat} {tombstone old : Stored V} (hcur : s.current (.rel id) = some old)
      (hvalid : validVersionSnapshot (.rel id) old.version tombstone = true)
      (hkept : validReplacement (.rel id) old tombstone = true) :
      Effect s (.deleteRelWithHistory id old.version tombstone)
        ((s.putHistoryRow (.rel id) tombstone).removeRels {id})
        (some (.relDelete id (some tombstone)))
  | nodeDeleted {id : Nat} (hid : id ≠ 0) (hcur : s.current (.node id) ≠ none)
      (hrels : s.relIDs id = ∅) :
      Effect s (.deleteNode id) (s.setCurrent (.node id) none) (some (.nodeDelete id none [] ∅))
  | nodeCascaded {id : Nat} (hid : id ≠ 0) (hcur : s.current (.node id) ≠ none) :
      Effect s (.deleteNodeCascade id) ((s.removeRels (s.relIDs id)).setCurrent (.node id) none)
        (some (.nodeDelete id none [] (s.cascadedRelIDs id)))
  | nodeEnded {id : Nat} {tombstone old : Stored V} {rels : List (RelTombstone V)}
      (hcur : s.current (.node id) = some old)
      (hrels : rels.findSome? (s.relTombstoneError id) = none) :
      Effect s (.deleteNodeWithHistory id old.version tombstone rels)
        (s.nodeDeleted id tombstone rels)
        (some (.nodeDelete id (some tombstone) (rels.map fun rt => (rt.id, rt.tombstone)) ∅))

section Effect

variable {s s' : Store V} {r : Option (Change V)}

variable {e : EntityId} {x tombstone : Stored V} {valid : Stored V → Bool} {v id : Nat}
  {c : StoreCall V}

theorem Store.put_effect (h : s.put e x = .ok (s', r)) : s.Effect (.put e x) s' r := by
  unfold Store.put at h
  split at h
  swap
  · cases h
  rename_i hvalid
  cases e with
  | node id =>
    simp only at h
    split at h
    · cases h
    · rename_i hnone
      cases h
      exact .putNode hvalid (by simpa using hnone)
  | rel id =>
    cases hends : x.ends with
    | none => simp [validSnapshot, hends] at hvalid
    | some ends =>
      simp only [hends] at h
      split at h
      · cases h
      · rename_i hnodes
        rw [Bool.or_eq_true, not_or] at hnodes
        split at h
        · cases h
        · rename_i hnone
          cases h
          exact .putRel hvalid hends (by simpa [Option.isSome_iff_ne_none] using hnodes.1)
            (by simpa [Option.isSome_iff_ne_none] using hnodes.2) (by simpa using hnone)

theorem Store.replaceRow_ok (h : s.replaceRow valid e x = .ok (s', r)) :
    ∃ old, s.current e = some old ∧ valid old = true ∧ s' = s.setCurrent e (some x) ∧
      r = some (.put e x false) := by
  unfold Store.replaceRow at h
  split at h
  · split at h
    · cases h
    · rename_i old hcur
      split at h
      · cases h
        exact ⟨old, hcur, ‹_›, rfl, rfl⟩
      · cases h
  · cases h

theorem Store.replaceRowWithHistory_ok {prev : Stored V}
    (h : s.replaceRowWithHistory valid e x v prev = .ok (s', r)) :
    ∃ old, s.current e = some old ∧ v = old.version ∧ validVersionSnapshot e v prev = true ∧
      valid old = true ∧ validReplacement e old prev = true ∧
      s' = (s.putHistoryRow e prev).setCurrent e (some x) ∧ r = some (.put e x true) := by
  unfold Store.replaceRowWithHistory at h
  split at h
  · rename_i hvalid
    split at h
    · cases h
    · rename_i old hcur
      split at h
      · rename_i hok
        simp only [Bool.and_eq_true, beq_iff_eq] at hvalid hok
        cases h
        exact ⟨old, hcur, hok.1.1.symm, hvalid.2, hok.1.2, hok.2, rfl, rfl⟩
      · cases h
  · cases h

theorem Store.truncateHistory_effect {keep : Nat} (h : s.truncateHistory e keep = .ok (s', r)) :
    s.Effect (.truncateHistory e keep) s' r := by
  unfold Store.truncateHistory at h
  split at h
  · split at h
    · cases h
      exact .notTruncated
    · cases h
      exact .truncated ‹_› (by omega)
  · cases h

theorem Store.trimHistoryFrom_effect {minVersion : Nat}
    (h : s.trimHistoryFrom e minVersion = .ok (s', r)) :
    s.Effect (.trimHistoryFrom e minVersion) s' r := by
  unfold Store.trimHistoryFrom at h
  split at h
  · split at h
    · cases h
      exact .trimmed ‹_› ‹_›
    · cases h
      exact .notTrimmed
  · cases h

theorem Store.deleteRelWithHistory_effect
    (h : s.deleteRelWithHistory id v tombstone = .ok (s', r)) :
    s.Effect (.deleteRelWithHistory id v tombstone) s' r := by
  unfold Store.deleteRelWithHistory at h
  split at h
  · rename_i hvalid
    split at h
    · cases h
    · rename_i old hcur
      split at h
      · rename_i hok
        simp only [Bool.and_eq_true, beq_iff_eq] at hok
        cases h
        cases hok.1
        exact .relEnded hcur hvalid hok.2
      · cases h
  · cases h

theorem Store.deleteNode_effect (h : s.deleteNode id = .ok (s', r)) :
    s.Effect (.deleteNode id) s' r := by
  unfold Store.deleteNode at h
  split at h
  · cases h
  · split at h
    · cases h
    · split at h
      · cases h
      · cases h
        exact .nodeDeleted ‹_› (by simpa using ‹¬(s.current (.node id)).isNone = true›)
          (Finset.not_nonempty_iff_eq_empty.mp ‹_›)

theorem Store.deleteNodeWithHistory_effect {rels : List (RelTombstone V)}
    (h : s.deleteNodeWithHistory id v tombstone rels = .ok (s', r)) :
    s.Effect (.deleteNodeWithHistory id v tombstone rels) s' r := by
  unfold Store.deleteNodeWithHistory at h
  split at h
  · split at h
    · cases h
    · rename_i old hcur
      split at h
      · cases h
      · rename_i hok
        rw [not_or, Bool.not_eq_false, Bool.and_eq_true, beq_iff_eq] at hok
        split at h
        · cases h
        · rename_i hrels
          split at h
          · cases h
            cases hok.1.1
            exact .nodeEnded hcur hrels
          · cases h
  · cases h

/-- **The inversion lemma** of the store: what an accepted call does. -/
theorem Store.call_effect (h : s.call c = .ok (s', r)) : s.Effect c s' r := by
  cases c with
  | put e x => exact put_effect h
  | replace e x =>
    obtain ⟨old, hcur, hvalid, rfl, rfl⟩ := replaceRow_ok h
    exact .replaced hcur hvalid
  | replaceWithHistory e x v prev =>
    obtain ⟨old, hcur, rfl, hprev, hvalid, hkept, rfl, rfl⟩ := replaceRowWithHistory_ok h
    exact .superseded hcur hprev hvalid hkept
  | changeNodeLabelToken id lop x =>
    obtain ⟨old, hcur, hvalid, rfl, rfl⟩ := replaceRow_ok h
    exact .labelled hcur hvalid
  | changeNodeLabelTokenWithHistory id lop x v prev =>
    obtain ⟨old, hcur, rfl, hprev, hvalid, hkept, rfl, rfl⟩ := replaceRowWithHistory_ok h
    exact .labelSuperseded hcur hprev hvalid hkept
  | putVersion e version x =>
    simp only [call, putVersion] at h
    split at h
    · cases h
      exact .versionPut ‹_›
    · cases h
  | truncateHistory e keep => exact truncateHistory_effect h
  | trimHistoryFrom e minVersion => exact trimHistoryFrom_effect h
  | deleteRelationship id =>
    simp only [call, deleteRelationship] at h
    split at h
    · cases h
    · split at h
      · cases h
      · cases h
        exact .relDeleted ‹_› (by simpa using ‹¬(s.current (.rel id)).isNone = true›)
  | deleteRelWithHistory id v tombstone => exact deleteRelWithHistory_effect h
  | deleteNode id => exact deleteNode_effect h
  | deleteNodeCascade id =>
    simp only [call, deleteNodeCascade] at h
    split at h
    · cases h
    · split at h
      · cases h
      · cases h
        exact .nodeCascaded ‹_› (by simpa using ‹¬(s.current (.node id)).isNone = true›)
  | deleteNodeWithHistory id v tombstone rels => exact deleteNodeWithHistory_effect h

/-- A call that logs nothing changes nothing. -/
theorem Store.call_unlogged (h : s.call c = .ok (s', none)) : s' = s := by
  cases Store.call_effect h <;> rfl

end Effect

end RhoTkg
