import RhoTkg.Writes

/-!
# The as-of selection

`selectAsOfWithCurrent` is the canonical as-of rule over an entity's chain: the newest row recorded
by the pin, or absence.  `selectAsOfScan` is the same rule as the badger store runs it, over the
history visited newest version first, with a callback that may stop the scan.

A row without a temporal block has the window `(0, 0)`.  The rows of a scan are decoded here; the
errors of a store read are left out.
-/

namespace RhoTkg

variable {V : Type}

/-- `storeutil.OwnOpenAtTxTime` of a row. -/
def ownOpenAtTxTime (a : ValidAxis) (pin : Int) (r : Row V) : Bool :=
  a.isOpen (a.validToAtTxTime r.temporal pin)

/-- `retractedAtTxTime`: the row was superseded or deleted by the pin. -/
def rowRetractedAtTxTime (pin : Int) (r : Row V) : Bool :=
  (r.txTo != 0 && decide (r.txTo ≤ pin)) || (r.deletedAt != 0 && decide (r.deletedAt ≤ pin))

/-- The loop of `openInWrite` over the rows from the newest of a write on. -/
def openScan (a : ValidAxis) (pin tx : Int) : List (Row V) → Option (Row V)
  | [] => none
  | r :: rest =>
    if r.temporal.isSome && r.beliefTx == tx then
      if ownOpenAtTxTime a pin r then some r else openScan a pin tx rest
    else none

/-- `openInWrite`: the answer among the rows written together with `newest`, which `rest` follows. -/
def openInWrite (a : ValidAxis) (pin : Int) (newest : Row V) (rest : List (Row V)) : Row V :=
  (openScan a pin newest.beliefTx (newest :: rest)).getD newest

/-- The row carries a `TxTo` at or after its `TxFrom`: it held the current slot. -/
def heldSlot (r : Row V) : Bool := r.txTo != 0 && decide (r.beliefTx ≤ r.txTo)

/-- `lifeEndedAtTxTime` over the rows below the newest one, recorded at `newest`. -/
def lifeEndedAtTxTime (pin newest : Int) : List (Row V) → Bool
  | [] => false
  | h :: rest =>
    if heldSlot h then
      h.deletedAt != 0 && decide (newest < h.deletedAt) && decide (h.deletedAt ≤ pin)
    else lifeEndedAtTxTime pin newest rest

/-- The current arm's loop over the rows above the current version, newest first. -/
def aboveScan (a : ValidAxis) (pin : Int) (current : Row V) : List (Row V) → Option (Row V)
  | [] => some current
  | h :: rest =>
    if h.temporal.isSome = false ∨ h.beliefTx < current.beliefTx ∨ pin < h.beliefTx then
      aboveScan a pin current rest
    else
      let ans := openInWrite a pin h (rest ++ [current])
      if rowRetractedAtTxTime pin ans then none else some ans

/-- The history arm's loop, newest first. -/
def historyScan (a : ValidAxis) (pin : Int) : List (Row V) → Option (Row V)
  | [] => none
  | h :: rest =>
    if h.temporal.isSome = false ∨ h.beliefTx = 0 ∨ pin < h.beliefTx then historyScan a pin rest
    else
      let ans := openInWrite a pin h rest
      if rowRetractedAtTxTime pin ans || lifeEndedAtTxTime pin h.beliefTx rest then none
      else some ans

/-- The current row takes the current arm: recorded by the pin and not superseded. -/
def currentCandidate (pin : Int) (current : Row V) : Bool :=
  current.temporal.isSome && decide (0 < current.beliefTx) && decide (current.beliefTx ≤ pin) &&
    current.txTo == 0

/-- The order of the scan: newest version first. -/
def newestFirst (x y : Row V) : Prop := y.version ≤ x.version

instance : DecidableRel (newestFirst (V := V)) := fun x y =>
  inferInstanceAs (Decidable (y.version ≤ x.version))

instance : Std.Total (newestFirst (V := V)) := ⟨fun x y => le_total y.version x.version⟩

instance : IsTrans (Row V) newestFirst := ⟨fun _ _ _ hxy hyz => le_trans hyz hxy⟩

/-- `SelectAsOfWithCurrent`. -/
def selectAsOfWithCurrent (a : ValidAxis) (history : List (Row V)) (current : Option (Row V))
    (pin : Int) : Option (Row V) :=
  let desc := (history.filter (!·.isVoid)).insertionSort newestFirst
  match current.filter (currentCandidate pin) with
  | some current =>
    let above := desc.filter fun h => decide (current.version < h.version)
    if above.any heldSlot then some current else aboveScan a pin current above
  | none => historyScan a pin desc

/-! ## The badger scan -/

/-- `asOfPick`. -/
inductive AsOfPick (V : Type) where
  | absent
  | fromCurrent
  | fromHistory (row : Row V)

/-- The row of a pick. -/
def AsOfPick.row (current : Option (Row V)) : AsOfPick V → Option (Row V)
  | .absent => none
  | .fromCurrent => current
  | .fromHistory r => some r

/-- A history scan: the callback takes the rows in turn and says when to stop. -/
def scanHistory {σ : Type} (consider : σ → Row V → σ × Bool) : σ → List (Row V) → σ
  | s, [] => s
  | s, r :: rest =>
    let t := consider s r
    if t.2 then t.1 else scanHistory consider t.1 rest

/-- `answer`: the pick within a run, with the temporal block it is checked by. -/
def runAnswer (a : ValidAxis) (pin : Int) (current : Option (Row V)) (run : List (Row V))
    (withCur : Bool) : AsOfPick V × Option (Row V) :=
  match run.find? (fun r => r.temporal.isSome && ownOpenAtTxTime a pin r) with
  | some r => (.fromHistory r, some r)
  | none =>
    if withCur && current.all (ownOpenAtTxTime a pin) then (.fromCurrent, current)
    else
      match run.head? with
      | some r => (.fromHistory r, some r)
      | none => (.absent, none)

/-- `void`: a row without a `TxTo` is decoded. -/
def scanVoid (r : Row V) : Bool := r.txTo == 0 && r.isVoid

/-- The pick of a run, absent when it was retracted by the pin. -/
def pickUnlessRetracted (pin : Int) (ans : AsOfPick V × Option (Row V)) : AsOfPick V :=
  if ans.2.any (rowRetractedAtTxTime pin) then .absent else ans.1

/-- The state of the current arm's scan. -/
structure AboveScan (V : Type) where
  run : List (Row V)
  broken : Bool
  earlierLife : Bool

/-- The callback of the current arm's scan. -/
def considerAbove (pin : Int) (current : Row V) (s : AboveScan V) (r : Row V) : AboveScan V × Bool :=
  if r.version ≤ current.version then (s, true)
  else if heldSlot r then ({ s with earlierLife := true }, true)
  else if scanVoid r then (s, false)
  else
    match s.run.head? with
    | none =>
      if current.beliefTx ≤ r.beliefTx ∧ r.beliefTx ≤ pin then ({ s with run := [r] }, false)
      else (s, false)
    | some newest =>
      if s.broken = false ∧ r.beliefTx = newest.beliefTx then ({ s with run := s.run ++ [r] }, false)
      else ({ s with broken := true }, false)

/-- The state of the history arm's scan. -/
structure HistoryScan (V : Type) where
  run : List (Row V)
  inRun : Bool
  slotDecided : Bool
  lifeEnded : Bool
  newestTxFrom : Int

/-- The part of the history arm's callback that looks for the row that held the slot. -/
def considerSlot (pin : Int) (s : HistoryScan V) (r : Row V) : HistoryScan V × Bool :=
  let s :=
    if s.slotDecided = false ∧ heldSlot r = true then
      { s with
        slotDecided := true
        lifeEnded := s.lifeEnded ||
          (decide (s.newestTxFrom < r.txTo) && decide (r.txTo ≤ pin) && r.deletedAt != 0 &&
            decide (s.newestTxFrom < r.deletedAt) && decide (r.deletedAt ≤ pin)) }
    else s
  (s, s.slotDecided && !s.inRun)

/-- The callback of the history arm's scan. -/
def considerHistory (pin : Int) (s : HistoryScan V) (r : Row V) : HistoryScan V × Bool :=
  if s.run.isEmpty then
    if r.beliefTx = 0 ∨ pin < r.beliefTx then (s, false)
    else if scanVoid r then (s, false)
    else ({ s with run := [r], newestTxFrom := r.beliefTx }, false)
  else if s.inRun = true ∧ r.beliefTx = s.newestTxFrom then
    if scanVoid r then (s, false)
    else considerSlot pin { s with run := s.run ++ [r] } r
  else considerSlot pin { s with inRun := false } r

/-- `selectAsOfScan` over the rows the scan visits, newest version first; `above` is the probe for a
row above a version. -/
def selectAsOfScan (a : ValidAxis) (visited : List (Row V)) (current : Option (Row V)) (pin : Int)
    (above : Nat → Bool) : AsOfPick V :=
  match current.filter (currentCandidate pin) with
  | some cur =>
    if cur.version = maxUint32 then .fromCurrent
    else if above cur.version = false then .fromCurrent
    else
      let s := scanHistory (considerAbove pin cur) ⟨[], false, false⟩ visited
      match s.run.head? with
      | none => .fromCurrent
      | some newest =>
        if s.earlierLife then .fromCurrent
        else pickUnlessRetracted pin
          (runAnswer a pin (some cur) s.run (!s.broken && cur.beliefTx == newest.beliefTx))
  | none =>
    let s := scanHistory (considerHistory pin) ⟨[], true, false, false, 0⟩ visited
    if s.run.isEmpty || s.lifeEnded then .absent
    else pickUnlessRetracted pin (runAnswer a pin none s.run false)

end RhoTkg
