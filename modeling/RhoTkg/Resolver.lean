import RhoTkg.Supersession

/-!
# The point resolver

`resolveNodeChain` answers which row of a chain holds at a valid instant, as believed at a
transaction-time pin.  The chain is put in write order, filtered by the pin, freed of retracted
lives, and classified by `sortNodeChainForResolve`.  A *tiling* chain takes the positional arm: a
row ends where the next one starts, and the last covering row wins.  Every other chain takes the
own-bounds arm: rows keep their own intervals, capped by supersession, and the newest belief wins.
Where a void row wins the entity is absent.

The error `ErrNoVersionValidAt` is `none` here.
-/

namespace RhoTkg

variable {V : Type}

/-- `endsNoEarlier`: the valid end `next` lies at or after `prev`. -/
def endsNoEarlier (a : ValidAxis) (next prev : Int) : Bool :=
  if a.isOpen next then true
  else if a.isOpen prev then false
  else decide (prev ≤ next)

/-- `tilesWithNext`: the positional arm answers for `prev`, starting at `pa`, and the next row,
starting at `pb`, like the own-bounds arm. -/
def tilesWithNext (a : ValidAxis) (prev next : Row V) (pa pb : Int) : Bool :=
  if pa < pb then true else endsNoEarlier a (next.validTo a) (prev.validTo a)

namespace Core

variable (c : Core)

/-- The order `sortNodeChainForResolve` sorts by: start, then version. -/
def resolveOrder (x y : Row V) : Prop :=
  c.nodeValidFrom x < c.nodeValidFrom y ∨
    (c.nodeValidFrom x = c.nodeValidFrom y ∧ x.version ≤ y.version)

instance : DecidableRel (c.resolveOrder (V := V)) := fun _ _ => inferInstanceAs (Decidable (_ ∨ _))

/-- The scan of `sortNodeChainForResolve`: whether the rows tile, `none` at the first pair out of
order. -/
def tilesScan : List (Row V) → Bool → Option Bool
  | x :: y :: rest, tiles =>
    if c.resolveOrder x y then
      tilesScan (y :: rest)
        (tiles && tilesWithNext c.axis x y (c.nodeValidFrom x) (c.nodeValidFrom y))
    else none
  | _, tiles => some tiles

/-- `Core.sortNodeChainForResolve`: the chain the arms read, and whether the resolver must take its
own-bounds arm. -/
def sortNodeChainForResolve (chain : List (Row V)) : List (Row V) × Bool :=
  match c.tilesScan chain true with
  | some tiles => (chain, !tiles)
  | none => (chain.insertionSort c.resolveOrder, true)

/-- The start of a row without its valid-from claim (`storeutil.UntimedValidFrom`). -/
def untimedValidFrom (n : Row V) : Int :=
  (n.temporal.map (·.untimedValidFrom c.mint)).getD c.mint

end Core

/-- `nodeInheritedValidFrom`, the pre-migration heuristic; `prev` is the row before, if any. -/
def nodeInheritedValidFrom (prev : Option (Row V)) (tm : TemporalMetadata) : Bool :=
  match prev.bind (·.temporal) with
  | some prevTM =>
    tm.updatedAt != 0 && prevTM.validFrom != 0 && prevTM.validFrom != minInt64 &&
      prevTM.validFrom == tm.validFrom
  | none => false

namespace Core

variable (c : Core)

/-- The start `nodeVersionBounds` gives a row after `prev`. -/
def versionStart (prev : Option (Row V)) (entry : Row V) : Int :=
  match entry.temporal with
  | some tm =>
    if c.axis.claimed tm.validFrom && (c.bitemporalMigrated || !nodeInheritedValidFrom prev tm)
    then tm.validFrom
    else c.untimedValidFrom entry
  | none => c.untimedValidFrom entry

/-- The end `nodeVersionBounds` gives a row before `next`: its own when it is bounded, else the
next row's start. -/
def versionEnd (entry : Row V) (next : Option (Row V)) : Int :=
  if c.axis.isOpen (entry.validTo c.axis) then
    (next.map c.nodeValidFrom).getD c.axis.openEnd
  else entry.validTo c.axis

/-- `Core.nodeVersionBounds`: the positional interval of `chain[i]`. -/
def nodeVersionBounds (chain : List (Row V)) (i : Nat) : Int × Int :=
  match chain[i]? with
  | some entry =>
    (c.versionStart (if i = 0 then none else chain[i - 1]?) entry,
      c.versionEnd entry chain[i + 1]?)
  | none => (0, c.axis.openEnd)

end Core

/-- The answer a winning row gives: an excised piece wins as absence. -/
def Row.answer (r : Row V) : Option (Row V) := if r.isVoid then none else some r

namespace Core

variable (c : Core)

/-- The backward scan of `resolveNodePositional` over the first `n` rows. -/
def positionalScan (chain : List (Row V)) (t : Int) (caps : List Int) : Nat → Option (Row V)
  | 0 => none
  | i + 1 =>
    match chain[i]? with
    | some entry =>
      let b := c.nodeVersionBounds chain i
      if intervalCovers c.axis b.1 (lifeEndsEnd c.axis caps entry b.2) t then entry.answer
      else positionalScan chain t caps i
    | none => positionalScan chain t caps i

/-- `Core.resolveNodePositional`. -/
def resolveNodePositional (chain : List (Row V)) (t : Int) (caps : List Int) : Option (Row V) :=
  c.positionalScan chain t caps
    (if c.bitemporalMigrated then
      Search.search chain.length fun i => decide (t < (c.nodeVersionBounds chain i).1)
    else chain.length)

end Core

/-- `nodeBeliefNewerThan`: a strictly later belief, by `TxFrom`, then version. -/
def nodeBeliefNewerThan (x y : Row V) : Bool :=
  if x.beliefTx ≠ y.beliefTx then decide (y.beliefTx < x.beliefTx)
  else decide (y.version < x.version)

namespace Core

variable (c : Core)

/-- The interval of `chain[i]` in the own-bounds arm, `none` when supersession leaves nothing. -/
def ownInterval (superseded : List (Option Int)) (caps : List Int) (i : Nat) (entry : Row V) :
    Option (Int × Int) :=
  (superCapsEnd c.axis superseded i (c.nodeValidFrom entry) (entry.validTo c.axis)).map fun vEnd =>
    (c.nodeValidFrom entry, lifeEndsEnd c.axis caps entry vEnd)

/-- One round of the own-bounds scan: the newest belief so far. -/
def ownBoundsStep (superseded : List (Option Int)) (caps : List Int) (t : Int)
    (best : Option (Row V)) (e : Row V × Nat) : Option (Row V) :=
  match c.ownInterval superseded caps e.2 e.1 with
  | none => best
  | some b =>
    if intervalCovers c.axis b.1 b.2 t then
      match best with
      | none => some e.1
      | some x => if nodeBeliefNewerThan e.1 x then some e.1 else some x
    else best

/-- `Core.resolveNodeOwnBounds`. -/
def resolveNodeOwnBounds (chain : List (Row V)) (t : Int) (caps : List Int) : Option (Row V) :=
  (chain.zipIdx.foldl (c.ownBoundsStep (c.supersessionCaps chain) caps t) none).bind
    Row.answer

/-- `Core.resolveNodeVersionAtCapped`. -/
def resolveNodeVersionAtCapped (chain : List (Row V)) (t : Int) (caps : List Int) :
    Option (Row V) :=
  match c.sortNodeChainForResolve chain with
  | (sorted, true) => c.resolveNodeOwnBounds sorted t caps
  | (sorted, false) => c.resolveNodePositional sorted t caps

/-- The rows of a chain the resolver reads at pin `tx`. -/
def visibleChain (chain : List (Row V)) (tx : Int) : List (Row V) :=
  dropRetractedLives (filterNodeChainByTxAt c.axis (versionOrdered chain) tx)

/-- `Core.resolveNodeChain` for a point probe. -/
def resolveNodeChain (chain : List (Row V)) (validAt tx : Int) : Option (Row V) :=
  match c.visibleChain chain tx with
  | [] => none
  | visible => c.resolveNodeVersionAtCapped visible validAt (chainLifeEnds visible)

end Core
end RhoTkg
