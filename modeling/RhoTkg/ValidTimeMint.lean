import RhoTkg.Instant
import Mathlib.Data.Nat.Bitwise
import Mathlib.Order.Lattice

/-!
# Minting IDs at valid time

With `MintAtValidFrom` the tiered store mints the IDs of event nodes and relationships at their
valid time.  An ID is a counter `c` --- microseconds since the epoch, ten bits of step --- around the
node field that is reserved for it.  Each calendar window has two cursors `lo` and `hi` that bound
every ID it has handed out, nodes and relationships alike: an instant outside them is taken as it
is, one inside gives `hi + 1`, or `lo - 1` once `hi` stands at the window's end.

The cursors are leased.  The lease that is durable in the reference shard's meta is extended, on
the side that needs it, before an ID beyond it is returned; a restart forgets the cursors and takes
the whole durable lease for used.

A `time.Time` is here the nanoseconds since `idlayout.Epoch`.
-/

namespace RhoTkg
namespace ValidTimeMint

/-! ## Counters and IDs -/

/-- `t.Sub(idlayout.Epoch)`, which saturates at the ends of `time.Duration`. -/
def subEpoch (t : Int) : Int := max minInt64 (min t maxInt64)

/-- `vtMaxMicros`. -/
def vtMaxMicros : Int := 281474976710655

/-- `vtLease`: the steps a lease covers past the ID that takes it. -/
def vtLease : Int := 1048576

/-- `vtCounter`: `t`'s counter at step 0.  The shift is one of `int64`. -/
def vtCounter (t : Int) : Int := wrap64 ((subEpoch t).tdiv 1000 * 1024)

/-- `vtInIDRange`: an ID can carry `t`. -/
def vtInIDRange (t : Int) : Bool := 0 ≤ t && (subEpoch t).tdiv 1000 ≤ vtMaxMicros

/-- `vtID`.  Counters are never negative, so their bits are those of a natural number. -/
def vtID (c : Int) : Nat := (c.toNat >>> 10) <<< 15 ||| 31 <<< 10 ||| c.toNat &&& 1023

/-- `Layout.CreatedAt`: the time field of an ID, in nanoseconds since the epoch. -/
def createdAt (id : Nat) : Int := (id >>> 15 : Nat) * 1000

/-- The counter an ID was placed from. -/
def counterOf (id : Nat) : Int := ((id >>> 15) * 1024 + id % 1024 : Nat)

/-- `ws.UnixMilli()`, the key of a window. -/
def unixMilli (t : Int) : Int := t / 1000000 + 1767225600000

theorem vtID_eq (c : Int) : vtID c = c.toNat / 1024 * 32768 + 31744 + c.toNat % 1024 := by
  have hmod : c.toNat &&& 1023 = c.toNat % 1024 := Nat.and_two_pow_sub_one_eq_mod _ 10
  have hfield : (c.toNat >>> 10) <<< 15 ||| 31744 = (c.toNat >>> 10) <<< 15 + 31744 :=
    (Nat.shiftLeft_add_eq_or_of_lt (by decide : 31744 < 2 ^ 15) _).symm
  have hhigh : (c.toNat >>> 10) <<< 15 + 31744 = ((c.toNat >>> 10) * 32 + 31) <<< 10 := by
    simp only [Nat.shiftLeft_eq]; omega
  have hlow : c.toNat % 1024 < 2 ^ 10 := Nat.mod_lt _ (by decide)
  calc vtID c = ((c.toNat >>> 10) * 32 + 31) <<< 10 ||| c.toNat % 1024 := by
        rw [vtID, hmod, show 31 <<< 10 = 31744 from rfl, hfield, hhigh]
    _ = ((c.toNat >>> 10) * 32 + 31) <<< 10 + c.toNat % 1024 :=
        (Nat.shiftLeft_add_eq_or_of_lt hlow _).symm
    _ = c.toNat / 1024 * 32768 + 31744 + c.toNat % 1024 := by
        simp only [Nat.shiftLeft_eq, Nat.shiftRight_eq_div_pow]; omega

/-- A counter is read back from its ID. -/
@[simp] theorem counterOf_vtID {c : Int} (hc : 0 ≤ c) : counterOf (vtID c) = c := by
  rw [counterOf, vtID_eq, Nat.shiftRight_eq_div_pow]; omega

theorem createdAt_vtID {c : Int} (hc : 0 ≤ c) : createdAt (vtID c) = c / 1024 * 1000 := by
  rw [createdAt, vtID_eq, Nat.shiftRight_eq_div_pow]; omega

/-! ## Windows -/

/-- The calendar windows of a configuration whose windows partition the time axis: what
`shardWindowStart` and `shardWindowEnd` answer.  A window begins at a whole millisecond: `New`
refuses a `ShardWindow` that is not one, and a calendar day begins at a whole second. -/
structure ShardWindows where
  shardWindowStart : Int → Int
  shardWindowEnd : Int → Int
  start_le : ∀ t, shardWindowStart t ≤ t
  lt_end : ∀ t, t < shardWindowEnd t
  partitions : ∀ t u, shardWindowStart t ≤ u → u < shardWindowEnd t →
    shardWindowStart u = shardWindowStart t ∧ shardWindowEnd u = shardWindowEnd t
  wholeMillis : ∀ t, shardWindowStart t % 1000000 = 0

/-- Windows shorter than a day: `t.Truncate(window)`, which counts from the first instant of the
year 1. -/
def ShardWindows.truncate (window : Int) (hpos : 0 < window) (hmillis : window % 1000000 = 0) :
    ShardWindows where
  shardWindowStart t := t - (t + 63902822400000000000) % window
  shardWindowEnd t := t - (t + 63902822400000000000) % window + window
  start_le t := by have := Int.emod_nonneg (t + 63902822400000000000) hpos.ne'; omega
  lt_end t := by have := Int.emod_lt_of_pos (t + 63902822400000000000) hpos; omega
  partitions t u hle hlt := by
    have ht := Int.mul_ediv_add_emod (t + 63902822400000000000) window
    -- `u` has the quotient of `t`, so its remainder is the rest
    have hu : (u + 63902822400000000000) % window =
        u - (t - (t + 63902822400000000000) % window) :=
      ((Int.ediv_emod_unique (q := (t + 63902822400000000000) / window) hpos).mpr
        ⟨by omega, by omega, by omega⟩).2
    constructor <;> omega
  wholeMillis t := by
    have ht := Int.mul_ediv_add_emod (t + 63902822400000000000) window
    have hdvd : (1000000 : Int) ∣ window * ((t + 63902822400000000000) / window) :=
      Dvd.dvd.mul_right (Int.dvd_of_emod_eq_zero hmillis) _
    omega

/-- `vtWindow`: one window's cursors and the lease the store knows to be durable. -/
structure VtWindow where
  loaded : Bool
  used : Bool
  start : Int
  end_ : Int
  lo : Int
  hi : Int
  leaseLo : Int
  leaseHi : Int
deriving DecidableEq, Repr

/-- How a `saveVTLease` ends.  A failed one may have stored the lease. -/
inductive SaveOutcome where
  | saved
  | failedStored
  | failedLost
deriving DecidableEq, Repr

/-- The errors of a mint. -/
inductive MintError where
  | errValidFromOutsideIDRange
  | errWindowFull
  | readLease
  | saveLease
deriving DecidableEq, Repr

namespace VtWindow

/-- The counters `[start, end)` of the window `[ws, we)`, which must hold one. -/
def bounds (ws we : Int) : Option (Int × Int) :=
  let start := max (vtCounter ws) 0
  let end_ := min (vtCounter we) ((vtMaxMicros + 1) * 1024)
  if end_ ≤ start then none else some (start, end_)

/-- The cursors `vtWindowFor` makes on first use. -/
def make (b : Int × Int) : VtWindow := ⟨false, false, b.1, b.2, 0, 0, 0, 0⟩

/-- `loadVTWindow`: every ID of the durable lease may have been handed out. -/
def loadVTWindow (w : VtWindow) : Option (Int × Int) → VtWindow
  | none => { w with loaded := true }
  | some (lo, hi) =>
    { w with leaseLo := lo, leaseHi := hi, lo := lo, hi := hi, used := true, loaded := true }

/-- The free counter `mintAt` settles on for the instant `c` of the window. -/
def place (w : VtWindow) (c : Int) : Option Int :=
  if !w.used || w.hi < c || c < w.lo then some c
  else if w.hi + 1 < w.end_ then some (w.hi + 1)
  else if w.start ≤ w.lo - 1 then some (w.lo - 1)
  else none

/-- The counter lies outside the lease. -/
def needsLease (w : VtWindow) (c : Int) : Bool := !w.used || w.leaseHi < c || c < w.leaseLo

/-- The lease `mintAt` saves for `c`: extended past `c` on the side where `c` lies. -/
def extendLease (w : VtWindow) (c : Int) : Int × Int :=
  let lo := if w.used then w.leaseLo else c
  let hi := if w.used then w.leaseHi else c
  (if c ≤ lo then max (c - vtLease) w.start else lo,
    if hi ≤ c then min (c + vtLease) (w.end_ - 1) else hi)

/-- The cursors after handing out `c`. -/
def handOut (w : VtWindow) (c : Int) : VtWindow :=
  { w with
    lo := if w.used then min w.lo c else c, hi := if w.used then max w.hi c else c, used := true }

/-- The locked part of `mintAt` on loaded cursors and the durable lease: the cursors, the durable
lease and the counter handed out. -/
def mint (w : VtWindow) (durable : Option (Int × Int)) (t : Int) (save : SaveOutcome) :
    VtWindow × Option (Int × Int) × Except MintError Int :=
  -- the clamp is for a relationship's instant outside its home window
  match w.place (min (max (vtCounter t) w.start) (w.end_ - 1)) with
  | none => (w, durable, .error .errWindowFull)
  | some c =>
    if w.needsLease c then
      let lease := w.extendLease c
      match save with
      | .saved =>
        (handOut { w with leaseLo := lease.1, leaseHi := lease.2 } c, some lease, .ok c)
      | .failedStored => (w, some lease, .error .saveLease)
      | .failedLost => (w, durable, .error .saveLease)
    else (w.handOut c, durable, .ok c)

end VtWindow

/-! ## The store -/

/-- A successful mint, for the statements about runs: the ID, the instant whose window it was
minted for, and the durable lease of that window when the ID was returned. -/
structure Mint where
  id : Nat
  anchor : Int
  lease : Option (Int × Int)
deriving DecidableEq, Repr

/-- The mint of a store: the cursors in memory and the durable leases, both by window start.  No
step reads `minted`. -/
structure MintStore where
  vtWindows : Int → Option VtWindow
  leases : Int → Option (Int × Int)
  minted : List Mint

namespace MintStore

/-- A new store. -/
def empty : MintStore := ⟨fun _ => none, fun _ => none, []⟩

/-- The cursors of window `key` written back, with its durable lease. -/
def put (st : MintStore) (key : Int) (w : VtWindow) (lease : Option (Int × Int)) : MintStore :=
  { st with
    vtWindows := fun k => if k = key then some w else st.vtWindows k
    leases := fun k => if k = key then lease else st.leases k }

/-- `vtWindowFor`. -/
def vtWindowFor (st : MintStore) (ws we : Int) : Option VtWindow :=
  match st.vtWindows (unixMilli ws) with
  | some w => some w
  | none => (VtWindow.bounds ws we).map VtWindow.make

/-- `mintAt` with the instant `t` and the home instant; `readFails` and `save` are the outcomes of
the meta reads and writes it makes. -/
def mintAt (cfg : ShardWindows) (st : MintStore) (t : Int) (home : Option Int) (readFails : Bool)
    (save : SaveOutcome) : MintStore × Except MintError Nat :=
  let anchor := home.getD t
  let ws := cfg.shardWindowStart anchor
  let key := unixMilli ws
  if home.isNone && !vtInIDRange t then (st, .error .errValidFromOutsideIDRange)
  else
    match st.vtWindowFor ws (cfg.shardWindowEnd anchor) with
    | none => (st, .error .errValidFromOutsideIDRange)
    | some w =>
      if !w.loaded && readFails then (st.put key w (st.leases key), .error .readLease)
      else
        let w := if w.loaded then w else w.loadVTWindow (st.leases key)
        let r := w.mint (st.leases key) t save
        (st.put key r.1 r.2.1, r.2.2.map vtID)

end MintStore

/-- What happens to a store: a mint, or a close or crash followed by an open. -/
inductive MintEvent where
  | mintAt (t : Int) (home : Option Int) (readFails : Bool) (save : SaveOutcome)
  | restart
deriving DecidableEq, Repr

/-- One event.  `w.mu` is held over a whole mint, so mints of a window are one step each; a crash
inside one is a failed save and a restart. -/
def MintStore.step (cfg : ShardWindows) (st : MintStore) : MintEvent → MintStore
  | .mintAt t home readFails save =>
    let r := st.mintAt cfg t home readFails save
    match r.2 with
    | .ok id =>
      let anchor := home.getD t
      { r.1 with
        minted := st.minted ++ [⟨id, anchor, r.1.leases (unixMilli (cfg.shardWindowStart anchor))⟩] }
    | .error _ => r.1
  | .restart => { st with vtWindows := fun _ => none }

end ValidTimeMint
end RhoTkg
