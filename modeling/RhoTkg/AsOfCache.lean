import RhoTkg.Library.Runs
import Mathlib.Logic.Function.Basic

/-!
# The as-of cache as a step system

The as-of cache keeps what readers built from the state recorded at a transaction pin: column sets
(`put`), state cuts (`putCut`) and memoised values (`memoPut`).  An entry has the epoch its builder
loaded before it read, and is used only while the epoch is the same.  A writer that changes the state at
pins some builder may have read bumps the epoch; the others leave it.

Every step below is one access to what the threads share: the pin bound, an epoch, one entity of the
store, the cache.  Of a reader nothing is left but the condition under which it takes an entry.

* Builders register the pin, load the epoch (for relationships the sum of two), and read the entities
  one by one.  A cut is built only when `pinLanded` says that every write stamped at or below the pin has
  landed, and a memoised value is stored only then; a column set is built without asking.
* Forward writers hold the graph lock shared, draw a stamp from the commit clock and store changes at
  pins from the stamp on.  They report nothing.
* Past-dated writers and history rewrites store changes and then bump the epoch, all of it or the part of
  the relationships.
* Applies of a replica and rollbacks hold the graph lock alone.  They report by `noteWriteAt`, which bumps
  only when some registered pin reaches the stamp, or by `bump`, before or after they store.

Which entities a builder reads, and the order of evictions, are left to the events.  The state at a pin
is a function of the entity; a change by a writer stamped `t` leaves it at every pin below `t`.
-/

namespace RhoTkg
namespace AsOf

/-- The three caches: `asOfColumnCache.put`, `putCut`, `memoPut`. -/
inductive Path where
  | columns
  | cut
  | memo
deriving DecidableEq, Repr

/-- The key of an entry: the cache, the label, type or value it is about, the kind and the pin. -/
structure Key where
  path : Path
  slot : Nat
  rel : Bool
  pin : Int
deriving DecidableEq, Repr

/-- A cached value: the entities the builder read, what it read, and the epoch it loaded before. -/
structure Entry (κ α : Type) where
  ids : List κ
  values : List α
  epoch : Nat
deriving DecidableEq, Repr

/-- A builder between two of its accesses.  `loading` has the first half of the epoch; in `reading` the
values belong to the first entities of `ids`, and `landed` is the answer of `pinLanded`. -/
inductive Builder (κ α : Type) where
  | idle
  | noted (key : Key) (ids : List κ)
  | loading (key : Key) (ids : List κ) (low : Nat)
  | ready (key : Key) (ids : List κ) (epoch : Nat)
  | reading (key : Key) (ids : List κ) (epoch : Nat) (landed : Bool) (values : List α)
  | rechecking (key : Key) (entry : Entry κ α) (landed : Bool) (low : Nat)
  | checked (key : Key) (entry : Entry κ α) (landed : Bool)

/-- How a past-dated writer or a history rewrite reports: `bump`, `bumpRelCuts`, `clear`. -/
inductive Report where
  | bump
  | bumpRel
  | clear
deriving DecidableEq, Repr

/-- A past-dated writer, with the stamp its changes start at, or a history rewrite, which changes any
pin. -/
structure PastWriter where
  stamp : Option Int
  report : Report
  stored : Bool
deriving DecidableEq, Repr

/-- Where the holder of the graph lock is with its report; `toBump` is between the two accesses of
`noteWriteAt`. -/
inductive NotePhase where
  | toNote
  | toBump
  | noted
deriving DecidableEq, Repr

/-- The stamp of a recorded row. -/
abbrev Stamp := { t : Int // 0 < t }

/-- A writer that holds the graph lock alone: one that reports by `noteWriteAt stamp`, or, with no stamp,
by `bump`. -/
structure LockedWriter where
  stamp : Option Stamp
  note : NotePhase
  stored : Bool
deriving DecidableEq, Repr

/-- What the threads share, and where each of them is. -/
structure State (κ α : Type) where
  epoch : Nat
  relCutEpoch : Nat
  maxPin : Int
  maxAppliedTx : Int
  lastInstant : Int
  openTxStart : Option Int
  stateAt : Bool → κ → Int → α
  cache : Key → Option (Entry κ α)
  builders : Nat → Builder κ α
  forwards : List Int
  pasts : List PastWriter
  locked : Option LockedWriter

/-- A change from `stamp` on is seen at `pin`. -/
def reaches (stamp : Option Int) (pin : Int) : Bool := stamp.all fun t => decide (t ≤ pin)

namespace State

variable {κ α : Type} (st : State κ α)

/-- The state before any thread runs. -/
def init (lastInstant : Int) (stateAt : Bool → κ → Int → α) : State κ α :=
  ⟨0, 0, 0, 0, lastInstant, none, stateAt, fun _ => none, fun _ => .idle, [], [], none⟩

/-- `asOfColumnCache.cutEpoch`. -/
def cutEpoch (rel : Bool) : Nat := st.epoch + if rel then st.relCutEpoch else 0

/-- `asOfColumnCache.bump`. -/
def bump : State κ α := { st with epoch := st.epoch + 1 }

/-- `asOfColumnCache.notePin`: the swap that succeeds. -/
def notePin (pin : Int) : State κ α := { st with maxPin := max st.maxPin pin }

/-- `Core.pinLanded`; `busy` when some other thread holds the graph lock, or the graph is closed. -/
def pinLanded (pin : Int) (busy : Bool) : Bool :=
  !busy && st.locked.isNone && st.forwards.isEmpty && decide (pin ≤ st.lastInstant) &&
    (st.openTxStart.all fun start => decide (pin ≤ start))

/-- The state with a change that starts at `stamp`, or anywhere. -/
def write (kinds : Bool → Bool) (stamp : Option Int) (change : Bool → κ → Int → Option α) :
    State κ α :=
  { st with stateAt := fun rel k pin =>
      if kinds rel && reaches stamp pin then (change rel k pin).getD (st.stateAt rel k pin)
      else st.stateAt rel k pin }

/-- A builder moves. -/
def setBuilder (b : Nat) (x : Builder κ α) : State κ α :=
  { st with builders := Function.update st.builders b x }

end State

/-- Where the changes of the holder of the lock start. -/
def LockedWriter.start (w : LockedWriter) : Option Int := w.stamp.map Subtype.val

/-- The kinds a writer changes: a relationship purge (`bumpRelCuts`) only relationships. -/
def PastWriter.kinds (w : PastWriter) (rel : Bool) : Bool := rel || w.report != .bumpRel

/-- The accesses of the threads. -/
inductive Event (κ α : Type) where
  | notePin (b : Nat) (key : Key) (ids : List κ)
  | loadEpoch (b : Nat)
  | loadRelEpoch (b : Nat)
  | checkLanded (b : Nat) (busy : Bool)
  | read (b : Nat)
  | reloadEpoch (b : Nat)
  | reloadRelEpoch (b : Nat)
  | put (b : Nat)
  | abandon (b : Nat)
  | evict (key : Key)
  | draw (stamp : Int)
  | storeForward (stamp : Int) (change : Bool → κ → Int → Option α)
  | finish (stamp : Int)
  | beginTx (start : Int)
  | endTx
  | startPast (stamp : Option Int) (report : Report)
  | storePast (w : PastWriter) (change : Bool → κ → Int → Option α)
  | reportPast (w : PastWriter)
  | lock (stamp : Option Stamp)
  | noteApplied
  | noteLoad
  | noteBump
  | storeLocked (change : Bool → κ → Int → Option α)
  | unlock

section Step

variable {κ α : Type} (st : State κ α)

/-- The steps of a builder.  `checkLanded` ends the call of a cut when the pin has not landed, only
remembers the answer for a memoised value, and is no access at all for columns. -/
def stepBuilder (b : Nat) : Event κ α → State κ α
  | .notePin _ key ids =>
    match st.builders b with
    | .idle =>
      if key.path = .columns ∧ key.rel = true then st
      else (st.notePin key.pin).setBuilder b (.noted key ids)
    | _ => st
  | .loadEpoch _ =>
    match st.builders b with
    | .noted key ids => st.setBuilder b (.loading key ids st.epoch)
    | _ => st
  | .loadRelEpoch _ =>
    match st.builders b with
    | .loading key ids low =>
      st.setBuilder b (.ready key ids (low + if key.rel then st.relCutEpoch else 0))
    | _ => st
  | .checkLanded _ busy =>
    match st.builders b with
    | .ready key ids epoch =>
      match key.path with
      | .columns => st.setBuilder b (.reading key ids epoch false [])
      | .cut =>
        if st.pinLanded key.pin busy then st.setBuilder b (.reading key ids epoch true [])
        else st.setBuilder b .idle
      | .memo => st.setBuilder b (.reading key ids epoch (st.pinLanded key.pin busy) [])
    | _ => st
  | .read _ =>
    match st.builders b, st.locked with
    | .reading key ids epoch landed values, none =>
      match ids[values.length]? with
      | some k =>
        st.setBuilder b (.reading key ids epoch landed (values ++ [st.stateAt key.rel k key.pin]))
      | none => st
    | _, _ => st
  | .reloadEpoch _ =>
    match st.builders b with
    | .reading key ids epoch landed values =>
      if values.length = ids.length then
        st.setBuilder b (.rechecking key ⟨ids, values, epoch⟩ landed st.epoch)
      else st
    | _ => st
  | .reloadRelEpoch _ =>
    match st.builders b with
    | .rechecking key entry landed low =>
      if low + (if key.rel then st.relCutEpoch else 0) = entry.epoch then
        st.setBuilder b (.checked key entry landed)
      else
        match key.path with
        | .memo => st.setBuilder b (.noted key entry.ids)
        | _ => st.setBuilder b .idle
    | _ => st
  | .put _ =>
    match st.builders b with
    | .checked key entry landed =>
      if key.path = .memo ∧ landed = false then st.setBuilder b .idle
      else { st.setBuilder b .idle with cache := Function.update st.cache key (some entry) }
    | _ => st
  | .abandon _ => st.setBuilder b .idle
  | _ => st

/-- The steps of the forward writers and of the transactions, whose calls are forward writers. -/
def stepForward : Event κ α → State κ α
  | .draw stamp =>
    if st.lastInstant < stamp ∧ st.locked = none then
      { st with lastInstant := stamp, forwards := stamp :: st.forwards }
    else st
  | .storeForward stamp change =>
    if stamp ∈ st.forwards then st.write (fun _ => true) (some stamp) change else st
  | .finish stamp => { st with forwards := st.forwards.erase stamp }
  | .beginTx start =>
    if st.lastInstant < start ∧ st.openTxStart = none then
      { st with lastInstant := start, openTxStart := some start }
    else st
  | .endTx => { st with openTxStart := none }
  | _ => st

/-- The steps of the past-dated writers and history rewrites. -/
def stepPast : Event κ α → State κ α
  | .startPast stamp report => { st with pasts := ⟨stamp, report, false⟩ :: st.pasts }
  | .storePast w change =>
    if w ∈ st.pasts ∧ st.locked = none then
      { st.write w.kinds w.stamp change with pasts := { w with stored := true } :: st.pasts.erase w }
    else st
  | .reportPast w =>
    if w ∈ st.pasts then
      let st' := { st with pasts := st.pasts.erase w }
      match w.report with
      | .bump => st'.bump
      | .bumpRel => { st' with relCutEpoch := st'.relCutEpoch + 1 }
      | .clear => { st'.bump with cache := fun _ => none }
    else st
  | _ => st

/-- The steps of the writer that holds the graph lock alone: `noteAppliedTx`, the two accesses of
`noteWriteAt`, or `bump`, and its stores. -/
def stepLocked : Event κ α → State κ α
  | .lock stamp =>
    if st.locked = none ∧ st.forwards = [] then
      { st with locked := some ⟨stamp, .toNote, false⟩ }
    else st
  | .noteApplied =>
    match st.locked with
    | some ⟨some t, _, _⟩ =>
      if t.val ≤ 0 then st
      else if t.val < st.maxAppliedTx then st.bump
      else { st with maxAppliedTx := t.val }
    | _ => st
  | .noteLoad =>
    match st.locked with
    | some ⟨some t, .toNote, stored⟩ =>
      let note : NotePhase := if 0 < t.val ∧ t.val ≤ st.maxPin then .toBump else .noted
      { st with locked := some ⟨some t, note, stored⟩ }
    | _ => st
  | .noteBump =>
    match st.locked with
    | some ⟨some t, .toBump, stored⟩ => { st.bump with locked := some ⟨some t, .noted, stored⟩ }
    | some ⟨none, _, stored⟩ => { st.bump with locked := some ⟨none, .noted, stored⟩ }
    | _ => st
  | .storeLocked change =>
    match st.locked with
    | some w =>
      { st.write (fun _ => true) w.start change with locked := some { w with stored := true } }
    | none => st
  | .unlock =>
    match st.locked with
    | some ⟨_, .noted, _⟩ => { st with locked := none }
    | some ⟨_, .toNote, false⟩ => { st with locked := none }
    | _ => st
  | _ => st

/-- One access. -/
def step (e : Event κ α) : State κ α :=
  match e with
  | .notePin b _ _ | .loadEpoch b | .loadRelEpoch b | .checkLanded b _ | .read b | .reloadEpoch b
  | .reloadRelEpoch b | .put b | .abandon b => stepBuilder st b e
  | .evict key => { st with cache := Function.update st.cache key none }
  | .draw _ | .storeForward _ _ | .finish _ | .beginTx _ | .endTx => stepForward st e
  | .startPast _ _ | .storePast _ _ | .reportPast _ => stepPast st e
  | .lock _ | .noteApplied | .noteLoad | .noteBump | .storeLocked _ | .unlock => stepLocked st e

end Step

end AsOf
end RhoTkg
