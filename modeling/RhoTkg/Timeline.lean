import RhoTkg.Resolver
import RhoTkg.Library.MaxHeap
import Mathlib.Data.List.Dedup

/-!
# The effective timeline

`effectivePieces` answers the point resolver for every valid instant at once.  Every row's covering
interval in the arm the resolver takes is computed once (`sweepIntervals`); one sweep over the
interval bounds, with a max-heap by priority and lazy deletion of ended intervals, then yields the
pieces (`sweepPieces`).

A piece carries its row and the row's position in the resolver-ordered chain.  The position stands
for the identity of the row, which the source compares by pointer when it merges touching pieces;
the index of the row in the caller's chain (`src`) is left out, no modelled function reads it.
-/

namespace RhoTkg

variable {V : Type}

/-- `effInterval`: one row's covering interval with its position and its selection priority. -/
@[ext]
structure EffInterval where
  s : Int
  e : Int
  pos : Nat
  prio : Nat
deriving DecidableEq, Repr

/-- `effPiece`: a row that answers over `[vFrom, vTo)`. -/
structure EffPiece (V : Type) where
  vFrom : Int
  vTo : Int
  row : Row V
  pos : Nat
deriving DecidableEq, Repr

/-- The interval covers no instant. -/
def coversNothing (a : ValidAxis) (s e : Int) : Bool := !a.isOpen e && decide (e ≤ s)

namespace Core

variable (c : Core)

/-- The covering interval of `arr[i]` in the arm the resolver takes. -/
def rowInterval (arr : List (Row V)) (superseded : List (Option Int)) (caps : List Int)
    (cascade : Bool) (i : Nat) (r : Row V) : Option (Int × Int) :=
  if cascade then c.ownInterval superseded caps i r
  else
    let b := c.nodeVersionBounds arr i
    some (b.1, lifeEndsEnd c.axis caps r b.2)

/-- `sweepIntervals`: the resolver-ordered rows, the covering intervals of those that cover
anything, and whether the resolver takes its own-bounds arm. -/
def sweepIntervals (filtered : List (Row V)) (caps : List Int) :
    List (Row V) × List EffInterval × Bool :=
  let arr := (c.sortNodeChainForResolve filtered).1
  let cascade := (c.sortNodeChainForResolve filtered).2
  let superseded := if cascade then c.supersessionCaps arr else []
  let ivs := arr.zipIdx.filterMap fun (r, i) =>
    match c.rowInterval arr superseded caps cascade i r with
    | some (s, e) => if coversNothing c.axis s e then none else some ⟨s, e, i, i⟩
    | none => none
  (arr, ivs, cascade)

end Core

/-- The order of `newerBelief`: an older or equal belief, among equals the later position. -/
def beliefOrder (arr : List (Row V)) (x y : EffInterval) : Prop :=
  let tx := fun (iv : EffInterval) => (arr[iv.pos]?.map Row.beliefTx).getD 0
  let version := fun (iv : EffInterval) => (arr[iv.pos]?.map Row.version).getD 0
  tx x < tx y ∨ (tx x = tx y ∧
    (version x < version y ∨ (version x = version y ∧ y.pos ≤ x.pos)))

instance (arr : List (Row V)) : DecidableRel (beliefOrder arr) := fun _ _ =>
  inferInstanceAs (Decidable (_ ∨ _))

/-- `rankBeliefs`: every interval's priority becomes its rank by `newerBelief`. -/
def rankBeliefs (arr : List (Row V)) (ivs : List EffInterval) : List EffInterval :=
  let ranked := ivs.insertionSort (beliefOrder arr)
  ivs.map fun iv => { iv with prio := ranked.idxOf iv }

/-- Push every interval that has started by `at_`. -/
def pushStarted (at_ : Int) : List EffInterval → List EffInterval →
    List EffInterval × List EffInterval
  | h, [] => (h, [])
  | h, iv :: rest =>
    if iv.s ≤ at_ then pushStarted at_ (MaxHeap.push EffInterval.prio h iv) rest
    else (h, iv :: rest)

/-- Pop the root while it has ended by `at_`. -/
def popEnded (a : ValidAxis) (at_ : Int) : Nat → List EffInterval → List EffInterval
  | 0, h => h
  | fuel + 1, h =>
    match h with
    | [] => []
    | iv :: _ =>
      if !a.isOpen iv.e && decide (iv.e ≤ at_) then
        popEnded a at_ fuel (MaxHeap.pop EffInterval.prio h)
      else h

/-- Append the piece `[vFrom, vTo)` of the row `w`, or extend the last piece when it is the same row
and touches; `out` is newest first. -/
def appendPiece (out : List (EffPiece V)) (p : EffPiece V) : List (EffPiece V) :=
  match out with
  | last :: rest =>
    if last.pos = p.pos ∧ last.vTo = p.vFrom then { last with vTo := p.vTo } :: rest
    else p :: out
  | [] => [p]

/-- The loop of `sweepPieces` over the cut points. -/
def sweepLoop (a : ValidAxis) (arr : List (Row V)) (keepVoid : Bool) :
    List Int → List EffInterval → List EffInterval → List (EffPiece V) → List (EffPiece V)
  | [], _, _, out => out.reverse
  | at_ :: cuts, h, ivs, out =>
    let started := pushStarted at_ h ivs
    let h := popEnded a at_ started.1.length started.1
    match h with
    | [] => sweepLoop a arr keepVoid cuts h started.2 out
    | top :: _ =>
      match arr[top.pos]? with
      | none => sweepLoop a arr keepVoid cuts h started.2 out
      | some w =>
        if w.isVoid && !keepVoid then sweepLoop a arr keepVoid cuts h started.2 out
        else
          sweepLoop a arr keepVoid cuts h started.2
            (appendPiece out ⟨at_, cuts.head?.getD a.openEnd, w, top.pos⟩)

/-- The cut points: the starts and bounded ends of the intervals, ascending, without repetition. -/
def sweepCuts (a : ValidAxis) (ivs : List EffInterval) : List Int :=
  ((ivs.flatMap fun iv => if a.isOpen iv.e then [iv.s] else [iv.s, iv.e]).insertionSort
    (· ≤ ·)).dedup

/-- `sweepPieces`. -/
def sweepPieces (a : ValidAxis) (arr : List (Row V)) (ivs : List EffInterval)
    (cascade keepVoid : Bool) : List (EffPiece V) :=
  let ivs := if cascade then rankBeliefs arr ivs else ivs
  sweepLoop a arr keepVoid (sweepCuts a ivs) [] (ivs.insertionSort (·.s ≤ ·.s)) []

namespace Core

variable (c : Core)

/-- `effectiveSweep`: the point resolver's answer over a filtered chain for every valid instant. -/
def effectiveSweep (filtered : List (Row V)) (caps : List Int) (keepVoid : Bool) :
    List (EffPiece V) :=
  let (arr, ivs, cascade) := c.sweepIntervals filtered caps
  sweepPieces c.axis arr ivs cascade keepVoid

/-- `effectivePieces`' shortcut for an entity without history: its one row's positional interval,
capped by its own life end. -/
def effectivePiece (row : Row V) (pin : Int) : List (EffPiece V) :=
  match nodeRowAtTx c.axis row pin with
  | none => []
  | some r =>
    if r.deletedAt ≠ 0 ∧ r.retracted = true then []
    else
      let b := c.nodeVersionBounds [r] 0
      let e := lifeEndsEnd c.axis (chainLifeEnds [r]) r b.2
      if coversNothing c.axis b.1 e then [] else [⟨b.1, e, r, 0⟩]

/-- `effectivePieces`. -/
def effectivePieces (chain : List (Row V)) (pin : Int) : List (EffPiece V) :=
  match chain with
  | [row] => c.effectivePiece row pin
  | chain =>
    let ordered := chain.insertionSort (chainWriteOrder (chainDeaths chain))
    let filtered := dropRetractedLives (ordered.filterMap (nodeRowAtTx c.axis · pin))
    match filtered with
    | [] => []
    | filtered => c.effectiveSweep filtered (chainLifeEnds filtered) false

end Core
end RhoTkg
