import RhoTkg.Rows
import Mathlib.Data.List.Sort
import Mathlib.Data.List.Chain

/-!
# Chains: write order and lives

A chain is the list of an entity's stored rows.  A hard delete ends a *life*; a later re-import of
the ID starts another one.  `chainWriteOrder` sorts a chain by life and version,
`chainLifeEnds` collects the instants at which lives ended, and `dropRetractedLives` removes the
rows of every life a retraction ended.

The source keeps life ends in a map from rows to instants.  A row's entry depends only on the
instant it was recorded at --- the first delete at or after it --- so `lifeEnds` here is the sorted
list of deletes, and `lifeEndOf` is the lookup.  No delete (`nil` in the source) is the empty list.
-/

namespace RhoTkg

variable {V : Type}

/-- The deletes a chain holds. -/
def chainDeaths (chain : List (Row V)) : List Int :=
  (chain.map Row.deletedAt).filter (· ≠ 0)

/-- The life of a row: the number of deletes recorded before it. -/
def lifeOf (deaths : List Int) (r : Row V) : Nat := deaths.countP (· < r.beliefTx)

/-- `chainWriteOrder`: by life, then ascending version. -/
def chainWriteOrder (deaths : List Int) (a b : Row V) : Prop :=
  lifeOf deaths a < lifeOf deaths b ∨ (lifeOf deaths a = lifeOf deaths b ∧ a.version ≤ b.version)

instance (deaths : List Int) : DecidableRel (chainWriteOrder (V := V) deaths) := fun _ _ =>
  inferInstanceAs (Decidable (_ ∨ _))

/-- `versionOrdered`: the chain in write order, the chain itself when it already is. -/
def versionOrdered (chain : List (Row V)) : List (Row V) :=
  if chain.IsChain (chainWriteOrder (chainDeaths chain)) then chain
  else chain.insertionSort (chainWriteOrder (chainDeaths chain))

/-- `chainOf`: the history rows as stored, then the current row when there is one. -/
def chainOf (history : List (Row V)) (current : Option (Row V)) : List (Row V) :=
  history ++ current.toList

/-- `preCorrectionChain`. -/
def preCorrectionChain (history : List (Row V)) (current : Row V) : List (Row V) :=
  versionOrdered (chainOf history (some current))

/-- `chainLifeEnds`: the deletes of a chain, ascending. -/
def chainLifeEnds (chain : List (Row V)) : List Int := (chainDeaths chain).insertionSort (· ≤ ·)

/-- The entry of a row in the source's map: the first delete recorded at or after it. -/
def lifeEndOf (caps : List Int) (r : Row V) : Option Int := caps.find? (r.beliefTx ≤ ·)

/-- `lifeEnds.end`: the valid end `vEnd` of a row, capped at its life end. -/
def lifeEndsEnd (a : ValidAxis) (caps : List Int) (r : Row V) (vEnd : Int) : Int :=
  match lifeEndOf caps r with
  | some lifeEnd => if a.isOpen vEnd || lifeEnd < vEnd then lifeEnd else vEnd
  | none => vEnd

/-- `chainDeath`: one delete a chain holds and whether it was a retraction. -/
structure ChainDeath where
  at_ : Int
  retracted : Bool
deriving DecidableEq, Repr

/-- The deletes of a chain with their retraction marks. -/
def chainDeathMarks (chain : List (Row V)) : List ChainDeath :=
  (chain.filter (·.deletedAt ≠ 0)).map fun r => ⟨r.deletedAt, r.retracted⟩

/-- The row belongs to a life whose delete, the first recorded at or after it, is a retraction. -/
def inRetractedLife (deaths : List ChainDeath) (r : Row V) : Bool :=
  match deaths.find? (r.beliefTx ≤ ·.at_) with
  | some d => d.retracted
  | none => false

/-- `dropRetractedLives`. -/
def dropRetractedLives (chain : List (Row V)) : List (Row V) :=
  let deaths := chainDeathMarks chain
  if deaths.any (·.retracted) then
    let sorted := deaths.insertionSort (·.at_ ≤ ·.at_)
    chain.filter fun r => !inRetractedLife sorted r
  else chain

/-! ## Write order -/

instance (deaths : List Int) : Std.Total (chainWriteOrder (V := V) deaths) :=
  ⟨fun a b => by unfold chainWriteOrder; omega⟩

instance (deaths : List Int) : IsTrans (Row V) (chainWriteOrder deaths) :=
  ⟨fun a b c => by unfold chainWriteOrder; omega⟩

theorem versionOrdered_eq_insertionSort (chain : List (Row V)) :
    versionOrdered chain = chain.insertionSort (chainWriteOrder (chainDeaths chain)) := by
  unfold versionOrdered
  split
  · rename_i h
    exact (List.isChain_iff_pairwise.mp h).insertionSort_eq.symm
  · rfl

theorem versionOrdered_perm (chain : List (Row V)) : (versionOrdered chain).Perm chain := by
  rw [versionOrdered_eq_insertionSort]
  exact List.perm_insertionSort _ _

end RhoTkg
