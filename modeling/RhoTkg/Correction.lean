import RhoTkg.Timeline
import RhoTkg.Writes

/-!
# Planning a correction

`planMiss` plans a correction of `[newVF, newVT)` on the whole pre-correction chain: the resumption
source (the winner at `newVT`) with its end (the next own bound of any row), and the segments of the
target between the instants where the winner can change.  The chain is prepared once by
`sweepIntervals` without life-end caps and without dropping retracted lives.

Rows of a plan are told apart by their versions where the source compares pointers: the versions of
a chain the doors write are distinct.
-/

namespace RhoTkg

variable {V : Type}

/-- `correctionSegment`: a maximal piece of the target with one patch base. -/
structure CorrectionSegment (V : Type) where
  vFrom : Int
  vTo : Int
  base : Row V
  gap : Bool
deriving DecidableEq, Repr

/-- `correctionChain`: a pre-correction chain prepared once. -/
structure CorrectionChain (V : Type) where
  chain : List (Row V)
  arr : List (Row V)
  ivs : List EffInterval
  cascade : Bool

/-- `prepareCorrection`. -/
def Core.prepareCorrection (c : Core) (preChain : List (Row V)) : CorrectionChain V :=
  let s := c.sweepIntervals preChain []
  ⟨preChain, s.1, s.2.1, s.2.2⟩

namespace CorrectionChain

variable (p : CorrectionChain V)

/-- `correctionChain.beats`. -/
def beats (x y : EffInterval) : Bool :=
  if p.cascade then decide (¬ beliefOrder p.arr x y) else decide (y.pos < x.pos)

/-- `correctionChain.winner`: a void row wins as no version. -/
def winner (best : Option EffInterval) : Option (Row V) :=
  best.bind fun iv => p.arr[iv.pos]?.bind Row.answer

/-- The interval `winnerAt` keeps after the scan. -/
def bestAt (a : ValidAxis) (t : Int) : Option EffInterval :=
  p.ivs.foldl (fun best iv =>
    if intervalCovers a iv.s iv.e t && best.all (p.beats iv) then some iv else best) none

/-- `correctionChain.winnerAt`. -/
def winnerAt (a : ValidAxis) (t : Int) : Option (Row V) := p.winner (p.bestAt a t)

/-- The loop of `correctionChain.sweep` over the instants `ts`, ascending. -/
def sweepRows (a : ValidAxis) : List Int → List EffInterval → List EffInterval →
    List (Option (Row V))
  | [], _, _ => []
  | t :: ts, h, ivs =>
    let started := pushStarted t h ivs
    let h := popEnded a t started.1.length started.1
    p.winner h.head? :: sweepRows a ts h started.2

/-- `correctionChain.sweep`. -/
def sweep (a : ValidAxis) (ts : List Int) : List (Option (Row V)) :=
  let ivs := if p.cascade then rankBeliefs p.arr p.ivs else p.ivs
  p.sweepRows a ts [] (ivs.insertionSort (·.s ≤ ·.s))

end CorrectionChain

/-- `correctionCuts`. -/
def correctionCuts (a : ValidAxis) (bounds : List Int) (newVF newVT : Int) : List Int :=
  ((bounds.filter fun b => !a.isOpen b && decide (newVF < b) &&
    (a.isOpen newVT || decide (b < newVT))).insertionSort (· ≤ ·)).dedup

/-- `correctionScanMax`. -/
def correctionScanMax : Nat := 8

/-- Append the piece, or extend the last segment when it has the same base; `segs` is newest
first. -/
def appendSegment (splitGaps : Bool) (segs : List (CorrectionSegment V))
    (s : CorrectionSegment V) : List (CorrectionSegment V) :=
  match segs with
  | last :: rest =>
    if last.base.version = s.base.version ∧ (splitGaps = false ∨ last.gap = s.gap) then
      { last with vTo := s.vTo } :: rest
    else s :: segs
  | [] => [s]

/-- The loop of `segmentsAt`: the pieces between consecutive cuts with the winner at each start. -/
def segmentsLoop (template : Row V) (newVT : Int) (splitGaps : Bool) :
    Int → List Int → List (Option (Row V)) → List (CorrectionSegment V) →
    List (CorrectionSegment V)
  | vFrom, cuts, winners, segs =>
    let winner := winners.headD none
    let piece := fun vTo : Int => (⟨vFrom, vTo, winner.getD template, winner.isNone⟩ :
      CorrectionSegment V)
    match cuts with
    | [] => (appendSegment splitGaps segs (piece newVT)).reverse
    | cut :: cuts =>
      segmentsLoop template newVT splitGaps cut cuts winners.tail
        (appendSegment splitGaps segs (piece cut))

/-- `correctionChain.segmentsAt`: the winners by one sweep, or by a scan each. -/
def CorrectionChain.segmentsAt (p : CorrectionChain V) (a : ValidAxis) (template : Row V)
    (newVF newVT : Int) (cuts : List Int) (splitGaps sweep : Bool) : List (CorrectionSegment V) :=
  let starts := newVF :: cuts
  let winners := if sweep then p.sweep a starts else starts.map (p.winnerAt a)
  segmentsLoop template newVT splitGaps newVF cuts winners []

namespace Core

variable (c : Core)

/-- The bounds `segments` cuts at: every row's own bounds and its positional bounds. -/
def correctionBounds (chain : List (Row V)) : List Int :=
  chain.zipIdx.flatMap fun (r, i) =>
    let own := c.nodeOwnBounds r
    let pos := c.nodeVersionBounds chain i
    [own.1, own.2, pos.1, pos.2]

/-- `correctionChain.segments`. -/
def segments (p : CorrectionChain V) (template : Row V) (newVF newVT : Int) (splitGaps : Bool) :
    List (CorrectionSegment V) :=
  let cuts := correctionCuts c.axis (c.correctionBounds p.chain) newVF newVT
  p.segmentsAt c.axis template newVF newVT cuts splitGaps
    (decide (correctionScanMax < cuts.length + 1))

/-- The bounds a resumption can end at: every row's start, and its end when bounded. -/
def resumptionBounds (preChain : List (Row V)) : List Int :=
  preChain.flatMap fun r =>
    let b := c.nodeOwnBounds r
    if c.axis.isOpen b.2 then [b.1] else [b.1, b.2]

/-- `nodeResumptionEnd`: the smallest own bound after `newVT`, the open end without one. -/
def nodeResumptionEnd (preChain : List (Row V)) (newVT : Int) : Int :=
  (c.resumptionBounds preChain).foldl (fun vEnd b =>
    if newVT < b ∧ (c.axis.isOpen vEnd = true ∨ b < vEnd) then b else vEnd) c.axis.openEnd

end Core

/-- `headChain`: what a correction reads of the pre-correction chain. -/
structure HeadChain (V : Type) where
  maxVersion : Nat
  src : Option (Row V)
  srcEnd : Int
  segments : List (CorrectionSegment V)
  voidFree : Bool

/-- `planMiss`. -/
def Core.planMiss (c : Core) (history : List (Row V)) (current : Row V) (newVF newVT : Int)
    (splitGaps : Bool) : HeadChain V :=
  let preChain := preCorrectionChain history current
  let prep := c.prepareCorrection preChain
  { maxVersion := topVersion history current
    src := if c.axis.isOpen newVT then none else prep.winnerAt c.axis newVT
    srcEnd := c.nodeResumptionEnd preChain newVT
    segments := c.segments prep current newVF newVT splitGaps
    voidFree := !preChain.any Row.isVoid }

end RhoTkg
