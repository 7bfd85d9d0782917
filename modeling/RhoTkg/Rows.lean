import RhoTkg.Instant

/-!
# Rows, valid axes and the transaction-time filter

One stored version of an entity is a `Row`: a version number, an optional temporal block and its
content.  A store records valid time on one of two axes, fixed when the store opens: on the
*legacy* axis a stored `ValidFrom` or `ValidTo` of 0 means "no claim" and "open end"; on the
*literal* axis every stored value is the instant it names and `math.MaxInt64` is the open end.

## Dictionary

* `ValidAxis.start` is THE start rule of a row: its claimed `ValidFrom`, else the untimed start
  (`TxFrom`, then `UpdatedAt`, then the instant the ID was minted).
* `nodeRowAtTx` is the transaction-time filter for one row: rows recorded after the pin are gone,
  and delete stamps recorded after the pin are taken back (`normalizeTemporalVisibleAtTxTime`).
* Of the temporal block the fields no modelled function reads (`CreatedAt`, `CreatedBy`,
  `UpdatedBy`, `baseEntityID`) are left out.

The minting instant is a property of the entity's ID, shared by all rows of a chain; it is a field
of `Core` here, with the axis and the migration flag of the graph.
-/

namespace RhoTkg

/-- `types.ValidAxis`: the two values the type has. -/
inductive ValidAxis where
  | legacy
  | literal
deriving DecidableEq, Repr

namespace ValidAxis

/-- The stored `ValidFrom` of a row without a start claim. -/
def unclaimed : ValidAxis → Int
  | .legacy => 0
  | .literal => maxInt64

/-- The stored `ValidTo` of an open end. -/
def openEnd : ValidAxis → Int
  | .legacy => 0
  | .literal => maxInt64

/-- The `ValidFrom` a write without a start claim stores. -/
def noClaimStart : ValidAxis → Int
  | .legacy => 0
  | .literal => minInt64

/-- `ValidAxis.Open`: the stored `ValidTo` is the open end. -/
def isOpen (a : ValidAxis) (vt : Int) : Bool := vt == a.openEnd

/-- `ValidAxis.End`: the stored `ValidTo` as an instant. -/
def endInstant (a : ValidAxis) (vt : Int) : Int := if a.isOpen vt then maxInt64 else vt

/-- `ValidAxis.Claimed`: the stored `ValidFrom` is a start claim. -/
def claimed (a : ValidAxis) (vf : Int) : Bool := vf != a.unclaimed

@[simp] theorem isOpen_eq_true {a : ValidAxis} {vt : Int} : a.isOpen vt = true ↔ vt = a.openEnd :=
  beq_iff_eq

@[simp] theorem isOpen_eq_false {a : ValidAxis} {vt : Int} :
    a.isOpen vt = false ↔ vt ≠ a.openEnd :=
  beq_eq_false_iff_ne

@[simp] theorem claimed_eq_true {a : ValidAxis} {vf : Int} :
    a.claimed vf = true ↔ vf ≠ a.unclaimed :=
  bne_iff_ne

end ValidAxis

/-- `storeutil.IntervalCovers`: the interval `[s, e)`, open when `e` is the axis's open end, holds
at `t`. -/
def intervalCovers (a : ValidAxis) (s e t : Int) : Bool := s ≤ t && (a.isOpen e || t < e)

theorem intervalCovers_iff {a : ValidAxis} {s e t : Int} :
    intervalCovers a s e t = true ↔ s ≤ t ∧ (e = a.openEnd ∨ t < e) := by
  simp [intervalCovers]

/-- `types.TemporalMetadata`. -/
structure TemporalMetadata where
  validFrom : Int
  validTo : Int
  txFrom : Int
  txTo : Int := 0
  updatedAt : Int := 0
  deletedAt : Int := 0
  retracted : Bool := false
  void : Bool := false
  deleteKeptValidTo : Bool := false
deriving DecidableEq, Repr

namespace TemporalMetadata

/-- `TemporalMetadata.UntimedValidFrom` of a block that is present. -/
def untimedValidFrom (tm : TemporalMetadata) (mint : Int) : Int :=
  if tm.txFrom ≠ 0 then tm.txFrom
  else if tm.updatedAt ≠ 0 then tm.updatedAt
  else mint

/-- `TemporalMetadata.DeleteWroteValidTo`: the tombstone's `ValidTo` was written by its delete. -/
def deleteWroteValidTo (tm : TemporalMetadata) : Bool :=
  tm.deletedAt != 0 && !tm.deleteKeptValidTo && tm.validTo == tm.deletedAt

end TemporalMetadata

/-- `ValidAxis.Start`. -/
def ValidAxis.start (a : ValidAxis) (tm : Option TemporalMetadata) (mint : Int) : Int :=
  match tm with
  | none => mint
  | some tm => if tm.validFrom ≠ a.unclaimed then tm.validFrom else tm.untimedValidFrom mint

/-- `ValidAxis.ValidToAtTxTime`: a row's own valid end as believed at `pin`. -/
def ValidAxis.validToAtTxTime (a : ValidAxis) (tm : Option TemporalMetadata) (pin : Int) : Int :=
  match tm with
  | none => a.openEnd
  | some tm =>
    if tm.deletedAt = 0 then tm.validTo
    else if pin < tm.deletedAt then
      if tm.deleteWroteValidTo then a.openEnd else tm.validTo
    else if tm.deleteKeptValidTo then tm.deletedAt
    else tm.validTo

/-- `storeutil.NormalizeTemporalVisibleAtTxTime`: the block as believed at `txTime`. -/
def normalizeTemporalVisibleAtTxTime (a : ValidAxis) (tm : TemporalMetadata) (txTime : Int) :
    TemporalMetadata :=
  let tm := if txTime < tm.txTo then { tm with txTo := 0 } else tm
  if txTime < tm.deletedAt then
    { tm with
      validTo := if tm.deleteWroteValidTo then a.openEnd else tm.validTo
      deletedAt := 0
      retracted := false
      deleteKeptValidTo := false }
  else tm

/-- One stored version of a node.  Labels and property keys are registry tokens; `V` is the type
of property values. -/
structure Row (V : Type) where
  version : Nat
  temporal : Option TemporalMetadata
  labels : List Nat
  properties : List (Nat × V)
deriving DecidableEq, Repr

namespace Row

variable {V : Type}

/-- `beliefTx`: the transaction instant of the row's belief, 0 when unstamped. -/
def beliefTx (r : Row V) : Int := (r.temporal.map (·.txFrom)).getD 0

/-- The row's `TxTo`, 0 when unstamped. -/
def txTo (r : Row V) : Int := (r.temporal.map (·.txTo)).getD 0

/-- The row's `DeletedAt`, 0 when the row is no tombstone. -/
def deletedAt (r : Row V) : Int := (r.temporal.map (·.deletedAt)).getD 0

/-- The row is a tombstone a retraction wrote. -/
def retracted (r : Row V) : Bool := (r.temporal.map (·.retracted)).getD false

/-- `isVoidRow`: a void piece of an excise. -/
def isVoid (r : Row V) : Bool := (r.temporal.map (·.void)).getD false

/-- The row's own stored valid end. -/
def validTo (a : ValidAxis) (r : Row V) : Int := (r.temporal.map (·.validTo)).getD a.openEnd

end Row

/-- The parts of a `Core` the resolvers read, and the minting instant of the entity's ID. -/
structure Core where
  axis : ValidAxis
  bitemporalMigrated : Bool
  mint : Int
deriving DecidableEq, Repr

variable {V : Type}

/-- `Core.nodeValidFrom`: the start of a row, the resolver's sort key. -/
def Core.nodeValidFrom (c : Core) (n : Row V) : Int := c.axis.start n.temporal c.mint

/-- `versionVisibleAtTx`: the version was recorded by `txAt` (0: no filter). -/
def versionVisibleAtTx (tm : Option TemporalMetadata) (txAt : Int) : Bool :=
  if txAt = 0 then true
  else
    match tm with
    | none => true
    | some tm => !(tm.txFrom != 0 && txAt < tm.txFrom)

/-- `nodeRowAtTx`: the row as believed at `txAt`, gone when it was recorded later. -/
def nodeRowAtTx (a : ValidAxis) (entry : Row V) (txAt : Int) : Option (Row V) :=
  if versionVisibleAtTx entry.temporal txAt then
    match entry.temporal with
    | none => some entry
    | some tm =>
      if txAt < tm.deletedAt then
        some { entry with temporal := some (normalizeTemporalVisibleAtTxTime a tm txAt) }
      else some entry
  else none

/-- `filterNodeChainByTxAt`. -/
def filterNodeChainByTxAt (a : ValidAxis) (chain : List (Row V)) (txAt : Int) : List (Row V) :=
  if txAt = 0 then chain else chain.filterMap (nodeRowAtTx a · txAt)

/-- `Core.nodeOwnBounds`: the row's own asserted interval. -/
def Core.nodeOwnBounds (c : Core) (n : Row V) : Int × Int :=
  (c.nodeValidFrom n, n.validTo c.axis)

end RhoTkg
