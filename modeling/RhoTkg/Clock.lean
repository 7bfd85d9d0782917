import RhoTkg.Instant
import RhoTkg.Library.Runs
import Mathlib.Data.List.Basic
import Mathlib.Tactic.Ring

/-!
# The commit clock

`Core.now` hands out the stamps of transaction time.  It is the wall clock with a per-`Core`
monotonic floor `lastInstant`: a reading at or below the floor is replaced by the floor plus one.
The floor is also raised from outside --- `advanceClockFloor` (a peer's stamp, bounded against the
wall), `advanceInstantFloor` (a stamp that entered the store by another path) --- and it survives a
restart in two ways: `Close` persists it as a watermark that `seedInstantFloor` reads back under a
plausibility bound, and the store's own commit floor, kept with the rows, is read by
`seedCommitFloor`.

The register is an atomic compare-and-swap: a failed attempt changes nothing and is retried, so a
call takes effect at its successful swap and the model makes each call one step.

At the ceiling `math.MaxInt64` there is no next instant.  `now` raises `clockExhausted` when it
hands the ceiling out, and `checkWritable` refuses every write from then on.
-/

namespace RhoTkg

/-- The clock fields of a `Core`. -/
structure Clock where
  lastInstant : Int
  clockExhausted : Bool
  floorSeedUnreadable : Bool
deriving DecidableEq, Repr

/-- The errors of the clock's doors. -/
inductive ClockError where
  | errGraphClosed
  | errReadOnlyReplica
  | errCommitClockExhausted
  | errInvalidClockAdvance
deriving DecidableEq, Repr

namespace Clock

/-- The clock of a `Core` that `New` has just built. -/
def fresh : Clock := ⟨0, false, false⟩

/-- `Core.now`'s successful swap: the floor becomes the instant handed out, and the ceiling marks
the clock exhausted. -/
def handOut (c : Clock) (next : Int) : Clock × Int :=
  ({ c with lastInstant := next, clockExhausted := c.clockExhausted || next == maxInt64 }, next)

/-- `Core.now` on the wall clock reading `observed`. -/
def now (c : Clock) (observed : Int) : Clock × Int :=
  if observed ≤ c.lastInstant then
    if c.lastInstant = maxInt64 then ({ c with clockExhausted := true }, maxInt64)
    else c.handOut (wrap64 (c.lastInstant + 1))
  else c.handOut observed

/-- `maxClockAdvanceSkewMillis`: ten years of milliseconds. -/
def maxClockAdvanceSkewMillis : Int := 10 * 365 * 24 * 60 * 60 * 1000

/-- The loop shared by the two doors that raise the floor: never down. -/
def raise (c : Clock) (target : Int) : Clock :=
  if target ≤ c.lastInstant then c else { c with lastInstant := target }

/-- `Core.advanceClockFloor`. -/
def advanceClockFloor (c : Clock) (wall target : Int) : Except ClockError (Clock × Int) :=
  if wrap64 (wall + maxClockAdvanceSkewMillis) < target then .error .errInvalidClockAdvance
  else .ok (c.raise target, (c.raise target).lastInstant)

/-- `Core.advanceInstantFloor`. -/
def advanceInstantFloor (c : Clock) (inst : Int) : Clock :=
  if inst ≤ 0 then c else c.raise inst

/-- `Core.plausibleForeignStamp`. -/
def plausibleForeignStamp (wall inst : Int) : Bool :=
  0 < inst && inst ≤ wrap64 (wall + maxClockAdvanceSkewMillis)

/-- `Core.checkWritable`. -/
def checkWritable (c : Clock) (closed readOnlyReplica : Bool) : Except ClockError Unit :=
  if closed then .error .errGraphClosed
  else if readOnlyReplica then .error .errReadOnlyReplica
  else if c.clockExhausted then .error .errCommitClockExhausted
  else .ok ()

/-! ## The watermark -/

/-- The `k` low bytes of `n`, most significant first. -/
def bigEndian (n : Nat) : Nat → List UInt8
  | 0 => []
  | k + 1 => UInt8.ofNat (n / 256 ^ k % 256) :: bigEndian n k

/-- `binary.BigEndian.PutUint64` of a floor. -/
def putUint64 (floor : Int) : List UInt8 := bigEndian floor.toNat 8

/-- `types.Instant(binary.BigEndian.Uint64(v))`. -/
def uint64 (v : List UInt8) : Int :=
  wrap64 (v.foldl (fun n b => n * 256 + b.toNat) 0 : Nat)

/-- `Core.seedInstantFloor` on what `MetaGet` answers: `none` for a read error, the empty blob for
an absent key. -/
def seedInstantFloor (c : Clock) (wall : Int) (v : Option (List UInt8)) : Clock :=
  match v with
  | none => { c with floorSeedUnreadable := true }
  | some v =>
    if v.length ≠ 8 then c
    else if uint64 v ≤ 0 then c
    else if plausibleForeignStamp wall (uint64 v) then c.advanceInstantFloor (uint64 v)
    else { c with floorSeedUnreadable := true }

/-- `Core.writeInstantFloor`: the watermark after the write, `none` when `MetaSet` fails. -/
def writeInstantFloor (c : Clock) (metaSet : Bool) (watermark : List UInt8) :
    Option (List UInt8) :=
  if c.lastInstant ≤ 0 then some watermark
  else if metaSet then some (putUint64 c.lastInstant)
  else none

/-- `Core.persistInstantFloor`: the watermark `Close` leaves. -/
def persistInstantFloor (c : Clock) (metaSet : Bool) (watermark : List UInt8) : List UInt8 :=
  if c.floorSeedUnreadable then watermark
  else (c.writeInstantFloor metaSet watermark).getD watermark

/-- `Core.restoreInstantFloorAfterReset`, run after `Clear` has wiped the watermark. -/
def restoreInstantFloorAfterReset (c : Clock) (metaSet : Bool) : Clock × List UInt8 :=
  match c.writeInstantFloor metaSet [] with
  | some v => ({ c with floorSeedUnreadable := false }, v)
  | none => (c, [])

/-! ## Facts about single calls -/

theorem foldl_bigEndian (n : Nat) : ∀ k acc : Nat,
    (bigEndian n k).foldl (fun n b => n * 256 + b.toNat) acc = acc * 256 ^ k + n % 256 ^ k
  | 0, acc => by simp [bigEndian, Nat.mod_one]
  | k + 1, acc => by
    have hbyte : (UInt8.ofNat (n / 256 ^ k % 256)).toNat = n / 256 ^ k % 256 := by
      rw [UInt8.toNat_ofNat']
      exact Nat.mod_mod _ _
    have hmod : n % 256 ^ (k + 1) = n % 256 ^ k + 256 ^ k * (n / 256 ^ k % 256) := by
      rw [pow_succ, Nat.mod_mul]
    rw [bigEndian, List.foldl_cons, foldl_bigEndian n k, hbyte, hmod, pow_succ]
    ring

theorem uint64_putUint64 {floor : Int} (hlo : 0 ≤ floor) (hhi : floor ≤ maxInt64) :
    uint64 (putUint64 floor) = floor := by
  have hsmall : floor.toNat % 256 ^ 8 = floor.toNat := by
    simp only [maxInt64] at hhi
    exact Nat.mod_eq_of_lt (by omega)
  have hnat : ((floor.toNat : Nat) : Int) = floor := Int.toNat_of_nonneg hlo
  rw [uint64, putUint64, foldl_bigEndian, hsmall, Nat.zero_mul, Nat.zero_add, hnat]
  exact wrap64_of_inRange ⟨by simp only [minInt64]; omega, hhi⟩

@[simp] theorem length_putUint64 (floor : Int) : (putUint64 floor).length = 8 := rfl

@[simp] theorem raise_lastInstant (c : Clock) (target : Int) :
    (c.raise target).lastInstant = max c.lastInstant target := by
  unfold raise
  split
  · rw [max_eq_left ‹_›]
  · rw [max_eq_right (by omega)]

@[simp] theorem raise_clockExhausted (c : Clock) (target : Int) :
    (c.raise target).clockExhausted = c.clockExhausted := by
  unfold raise
  split <;> rfl

end Clock
end RhoTkg
