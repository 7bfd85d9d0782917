import RhoTkg.Library.LastWrite
import RhoTkg.Library.PrefixCode
import Mathlib.Data.List.AList

/-!
# Staged flushes

A flush that fits one badger transaction commits as one.  A larger one is staged: every entry is
written under `KeyFlushStage` with a fresh sequence, one small transaction sets the marker and raises
the store format marker --- the commit point ---, the entries are applied, the marker is deleted, and
the staging keys are deleted.  At open `recoverStagedFlush` re-applies a marked staging and deletes
an unmarked one.

Of badger the model takes what the protocol rests on.  A transaction is one atomic step that writes
nothing when it fails.  A write batch is a sequence of atomic steps in the order of its writes, so
that a failure or a crash leaves the first `n` of them, for some `n`.  `Io` is how one call ends,
and a run is given by the ends of its calls.
-/

namespace RhoTkg
namespace StagedFlush

open PrefixCode (Bytes bigEndian ofBigEndian)

/-! ## The database -/

/-- One key a flush writes or deletes. -/
structure FlushEntry where
  key : Bytes
  value : Bytes
  del : Bool
deriving DecidableEq, Repr

/-- What the key holds after the entry. -/
def FlushEntry.content (e : FlushEntry) : Option Bytes := if e.del then none else some e.value

/-- The entry as a write. -/
def FlushEntry.write (e : FlushEntry) : Bytes × Option Bytes := (e.key, e.content)

/-- A badger database. -/
abbrev KV := AList fun _ : Bytes => Bytes

namespace KV

/-- The content of a key. -/
def get (kv : KV) (k : Bytes) : Option Bytes := kv.lookup k

/-- One write. -/
def put (kv : KV) (e : FlushEntry) : KV :=
  if e.del then kv.erase e.key else kv.insert e.key e.value

/-- A list of writes. -/
def putAll (kv : KV) (es : List FlushEntry) : KV := es.foldl put kv

end KV

/-- How a call to badger ends: it succeeds, it fails, or the process dies in it.  `n` counts the
writes of a batch that were committed; a transaction of which one was is committed whole. -/
inductive Io where
  | ok
  | fail (n : ℕ)
  | crash (n : ℕ)
deriving DecidableEq, Repr

/-- What the caller sees of a call. -/
inductive CallEnd where
  | ok
  | err
  | crashed
deriving DecidableEq, Repr

/-- `WriteBatch.Flush`. -/
def KV.flush (kv : KV) (es : List FlushEntry) : Io → KV × CallEnd
  | .ok => (kv.putAll es, .ok)
  | .fail n => (kv.putAll (es.take n), .err)
  | .crash n => (kv.putAll (es.take n), .crashed)

/-- `Txn.Commit`. -/
def KV.commit (kv : KV) (es : List FlushEntry) : Io → KV × CallEnd
  | .ok => (kv.putAll es, .ok)
  | .fail _ => (kv, .err)
  | .crash n => (if n = 0 then kv else kv.putAll es, .crashed)

/-! ## Keys and values -/

/-- `KeyFlushStage`. -/
def keyFlushStage : UInt8 := 0x0E

/-- `MetaKey` of a name, given by its bytes. -/
def metaKey (name : Bytes) : Bytes := 0x0F :: name

/-- `FlushStageMarkerKey`: `"flush_stage"`. -/
def flushStageMarkerKey : Bytes :=
  metaKey [0x66, 0x6C, 0x75, 0x73, 0x68, 0x5F, 0x73, 0x74, 0x61, 0x67, 0x65]

/-- `WireFormatVersionKey`: `"wire_format_version"`. -/
def wireFormatVersionKey : Bytes :=
  metaKey [0x77, 0x69, 0x72, 0x65, 0x5F, 0x66, 0x6F, 0x72, 0x6D, 0x61, 0x74, 0x5F, 0x76, 0x65, 0x72,
    0x73, 0x69, 0x6F, 0x6E]

/-- `commitFloorKey`: `"tx_commit_floor"`. -/
def commitFloorKey : Bytes :=
  metaKey [0x74, 0x78, 0x5F, 0x63, 0x6F, 0x6D, 0x6D, 0x69, 0x74, 0x5F, 0x66, 0x6C, 0x6F, 0x6F, 0x72]

/-- `StagedFlushStoreFormatVersion`. -/
def stagedFlushStoreFormatVersion : ℕ := 9

/-- `stagePrefix` of a sequence, before a key. -/
def stageKey (seq : ℕ) (k : Bytes) : Bytes := keyFlushStage :: (bigEndian 8 seq ++ k)

/-- The key lies under `KeyFlushStage`. -/
def isStaging (k : Bytes) : Bool := k.head? == some keyFlushStage

/-- The keys the store's readers see: no staging key and not the marker. -/
def Outside (k : Bytes) : Prop := isStaging k = false ∧ k ≠ flushStageMarkerKey

instance (k : Bytes) : Decidable (Outside k) := inferInstanceAs (Decidable (_ ∧ _))

/-- The value an entry is staged with: `writeOpSet` or `writeOpDelete`, then the value of a set. -/
def stagedValue (e : FlushEntry) : Bytes := if e.del then [2] else 1 :: e.value

/-- The marker: sequence, entry count, flags. -/
def markerValue (seq count : ℕ) (syncWrites : Bool) : Bytes :=
  bigEndian 8 seq ++ (bigEndian 8 count ++ [if syncWrites then 1 else 0])

/-- `formatMarkerValue`. -/
def formatMarkerValue (v : ℕ) : Bytes := bigEndian 2 v

/-- The entry sets the store format marker to a number. -/
def setsFormatMarker (e : FlushEntry) : Bool :=
  !e.del && e.value.length == 2 && e.key == wireFormatVersionKey

/-! ## The flush -/

/-- `flushState`. -/
inductive FlushState where
  | flushNotCommitted
  | flushCommittedNotApplied
  | flushApplied
deriving DecidableEq, Repr

/-- How a flush ends: it returns, or the process dies in it. -/
inductive FlushEnd where
  | crashed
  | returned (state : FlushState)
deriving DecidableEq, Repr

/-- What is left of a flush.  No step reads `committed`: the transaction that is its commit point
was committed. -/
structure FlushRun where
  kv : KV
  committed : Bool
  result : FlushEnd

/-- The ends of the calls of a flush: the one transaction, or the five steps of a staged flush with
up to three attempts of the apply. -/
structure FlushIo where
  single : Io
  stage : Io
  mark : Io
  apply : ℕ → Io
  unmark : Io
  clean : Io

/-- `writtenFormatMarkers`: a format-marker entry is rewritten to the tracker's value, which it
raises. -/
def writtenFormatMarkers : ℕ → List FlushEntry → ℕ × List FlushEntry
  | tracker, [] => (tracker, [])
  | tracker, e :: es =>
    if setsFormatMarker e then
      let raised := max tracker (ofBigEndian e.value)
      let rest := writtenFormatMarkers raised es
      (rest.1, { e with value := formatMarkerValue raised } :: rest.2)
    else
      let rest := writtenFormatMarkers tracker es
      (rest.1, e :: rest.2)

/-- `dedupFlushEntries`. -/
def dedupFlushEntries (es : List FlushEntry) : List FlushEntry := LastWrite.dedupLast FlushEntry.key es

/-- A staged format marker is at least the one the marker transaction stores. -/
def raiseFormatMarker (staged : ℕ) (e : FlushEntry) : FlushEntry :=
  if setsFormatMarker e && ofBigEndian e.value < staged then
    { e with value := formatMarkerValue staged }
  else e

/-- The entry under its staging key. -/
def stageEntry (seq : ℕ) (e : FlushEntry) : FlushEntry := ⟨stageKey seq e.key, stagedValue e, false⟩

/-- A delete of a key. -/
def deleteEntry (k : Bytes) : FlushEntry := ⟨k, [], true⟩

/-- The deletes of `deleteAllStaging`. -/
def stagingDeletes (kv : KV) : List FlushEntry := (kv.keys.filter isStaging).map deleteEntry

/-- The apply of a staged flush, retried in place. -/
def applyAttempts (es : List FlushEntry) : List Io → KV → KV × CallEnd
  | [], kv => (kv, .err)
  | io :: ios, kv =>
    match kv.flush es io with
    | (kv, .err) => applyAttempts es ios kv
    | r => r

/-- `commitStaged`, steps 3 to 5, behind the commit point. -/
def finishStaged (es : List FlushEntry) (io : FlushIo) (kv : KV) : FlushRun :=
  match applyAttempts es [io.apply 0, io.apply 1, io.apply 2] kv with
  | (kv, .crashed) => ⟨kv, true, .crashed⟩
  | (kv, .err) => ⟨kv, true, .returned .flushCommittedNotApplied⟩
  | (kv, .ok) =>
    match kv.commit [deleteEntry flushStageMarkerKey] io.unmark with
    | (kv, .crashed) => ⟨kv, true, .crashed⟩
    | (kv, .err) => ⟨kv, true, .returned .flushCommittedNotApplied⟩
    | (kv, .ok) =>
      match kv.flush (stagingDeletes kv) io.clean with
      | (kv, .crashed) => ⟨kv, true, .crashed⟩
      | (kv, _) => ⟨kv, true, .returned .flushApplied⟩

/-- The entries `commitStaged` stages and applies. -/
def stagedEntries (staged : ℕ) (es : List FlushEntry) : List FlushEntry :=
  (dedupFlushEntries es).map (raiseFormatMarker staged)

/-- The transaction of the commit point: the marker and the format marker. -/
def markEntries (seq count staged : ℕ) (syncWrites : Bool) : List FlushEntry :=
  [⟨flushStageMarkerKey, markerValue seq count syncWrites, false⟩,
    ⟨wireFormatVersionKey, formatMarkerValue staged, false⟩]

/-- `commitStaged`. -/
def commitStaged (tracker seq : ℕ) (syncWrites : Bool) (es : List FlushEntry) (io : FlushIo)
    (kv : KV) : FlushRun :=
  let staged := max tracker stagedFlushStoreFormatVersion
  let es := stagedEntries staged es
  match kv.flush (es.map (stageEntry seq)) io.stage with
  | (kv, .crashed) => ⟨kv, false, .crashed⟩
  | (kv, .err) => ⟨kv, false, .returned .flushNotCommitted⟩
  | (kv, .ok) =>
    match kv.commit (markEntries seq es.length staged syncWrites) io.mark with
    | (kv, .crashed) => ⟨kv, io.mark != .crash 0, .crashed⟩
    | (kv, .err) => ⟨kv, false, .returned .flushNotCommitted⟩
    | (kv, .ok) => finishStaged es io kv

/-- `commitFlushEntries`; `fits` when no write outgrows the transaction. -/
def commitFlushEntries (tracker seq : ℕ) (syncWrites fits : Bool) (es : List FlushEntry)
    (io : FlushIo) (kv : KV) : FlushRun :=
  let written := writtenFormatMarkers tracker es
  if fits then
    match kv.commit written.2 io.single with
    | (kv, .crashed) => ⟨kv, io.single != .crash 0, .crashed⟩
    | (kv, .err) => ⟨kv, false, .returned .flushNotCommitted⟩
    | (kv, .ok) => ⟨kv, true, .returned .flushApplied⟩
  else commitStaged written.1 seq syncWrites written.2 io kv

/-! ## The recovery -/

/-- How a recovery ends: the process dies in it, it returns an error, or the open goes on. -/
inductive OpenEnd where
  | crashed
  | failed
  | opened
deriving DecidableEq, Repr

/-- The ends of the calls of a recovery. -/
structure RecoverIo where
  read : Io
  floor : Io
  apply : Io
  unmark : Io
  clean : Io

/-- The staged entries of a sequence: keys without their stage and values as they stand. -/
def stagedUnder (kv : KV) (seq : ℕ) : List (Bytes × Bytes) :=
  (kv.entries.filter fun p => (stageKey seq []).isPrefixOf p.1).map fun p => (p.1.drop 9, p.2)

/-- A staged value read back; an empty one is damage. -/
def readStaged (p : Bytes × Bytes) : Option FlushEntry :=
  match p.2 with
  | [] => none
  | op :: value => some ⟨p.1, value, op == 2⟩

/-- The last steps of a recovery: the staging keys are deleted. -/
def cleanStaging (kv : KV) (io : Io) : KV × OpenEnd :=
  match kv.flush (stagingDeletes kv) io with
  | (kv, .crashed) => (kv, .crashed)
  | (kv, .err) => (kv, .failed)
  | (kv, .ok) => (kv, .opened)

/-- A transaction of the recovery, and what follows it. -/
def afterCall (r : KV × CallEnd) (next : KV → KV × OpenEnd) : KV × OpenEnd :=
  match r with
  | (kv, .crashed) => (kv, .crashed)
  | (kv, .err) => (kv, .failed)
  | (kv, .ok) => next kv

/-- The counters `discardStagedFlush` drops with the marker: the keys of the node and relationship
counts. -/
def counterKeys : List Bytes :=
  [metaKey [0x6E, 0x6F, 0x64, 0x65, 0x5F, 0x63, 0x6F, 0x75, 0x6E, 0x74],
    metaKey [0x72, 0x65, 0x6C, 0x5F, 0x63, 0x6F, 0x75, 0x6E, 0x74]]

/-- `discardStagedFlush`. -/
def discardStagedFlush (io : RecoverIo) (kv : KV) : KV × OpenEnd :=
  afterCall (kv.commit ((flushStageMarkerKey :: counterKeys).map deleteEntry) io.unmark) fun kv =>
    cleanStaging kv io.clean

/-- The re-apply of a marked staging: the commit floor first, in a transaction of its own. -/
def reapply (es : List FlushEntry) (io : RecoverIo) (kv : KV) : KV × OpenEnd :=
  let rest := es.filter fun e => e.key != commitFloorKey
  let floor := es.filter fun e => e.key == commitFloorKey
  -- the floor is set whatever its entry says
  let afterFloor := match floor with
    | [] => (kv, CallEnd.ok)
    | e :: _ => kv.commit [⟨e.key, e.value, false⟩] io.floor
  afterCall afterFloor fun kv =>
    afterCall (kv.flush rest io.apply) fun kv =>
      afterCall (kv.commit [deleteEntry flushStageMarkerKey] io.unmark) fun kv =>
        cleanStaging kv io.clean

/-- `recoverStagedFlush` of a writable open. -/
def recoverStagedFlush (io : RecoverIo) (kv : KV) : KV × OpenEnd :=
  match io.read with
  | .crash _ => (kv, .crashed)
  | .fail _ => (kv, .failed)
  | .ok =>
    match kv.get flushStageMarkerKey with
    | none => cleanStaging kv io.clean
    | some marker =>
      if marker.length != 17 then (kv, .failed)
      else
        let seq := ofBigEndian (marker.take 8)
        let want := ofBigEndian ((marker.drop 8).take 8)
        let synced := marker.getLast? == some 1
        match (stagedUnder kv seq).mapM readStaged with
        | none => (kv, .failed)
        | some es =>
          if es.length < want && !synced then discardStagedFlush io kv
          else if es.length != want then (kv, .failed)
          else reapply es io kv

end StagedFlush
end RhoTkg
