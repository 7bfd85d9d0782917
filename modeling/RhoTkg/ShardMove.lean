import Mathlib.Logic.Function.Basic
import RhoTkg.Library.Faults
import RhoTkg.Library.Runs

/-!
# Moving a shard between volumes

`moveClosedShard` copies a closed shard into the directory of another volume, saves the catalog
with the new volume, which is the commit point, and removes the source.  Any operation of it may
fail and the machine may stop at any of them; the next open drops, by `removeMoveOrphans`, what a
stopped move left.  The storage of a volume is the directory that holds the shard's copy and the
copies being made; the catalog is a file of its own.

A failed save is undone by writing the old catalog back, and the move then removes the new copy.
When the save failed only in the sync of its rename and writing back fails too, the catalog file
may already name the new volume: the copy it names is the one removed (`lost_after_rollback`).
In every run without such a save the shard is kept (`shard_kept`).
-/

namespace RhoTkg.ShardMove

open Faults

/-- The volumes of a store. -/
inductive Volume
  | hot
  | warm
  | cold
deriving DecidableEq, Repr

/-- The order in which an open visits them. -/
def volumes : List Volume := [.hot, .warm, .cold]

/-- How much of the shard's files a directory holds. -/
inductive Copy
  | absent
  | part
  | complete
deriving DecidableEq, Repr

/-- The directory of one volume: the shard's own copy and the number of copies being made
(`*.moving-*`). -/
structure Dir where
  copy : Copy
  moving : Nat
deriving DecidableEq, Repr

/-- The catalog file, by the volume it names for the shard, and the volumes. -/
structure Disk where
  catalog : Cell Volume
  dirs : Volume → Cell Dir

/-- `Save` writes the catalog file, and writes the old one back when that failed. -/
inductive Stage
  | save
  | rollback
deriving DecidableEq, Repr

/-- The operations of a move and of an open. -/
inductive Op
  | statRoot
  | mkdirParent
  | syncRoot
  | removeStale
  | drawNonce
  | copyShardDir
  | removeTmp
  | rename
  | syncParent
  | updateShardVolume
  | removeDst
  /-- the catalog is validated and encoded, the old file read -/
  | encode
  | writeTemp (stage : Stage)
  | renameTemp (stage : Stage)
  | syncCatalog (stage : Stage)
  | removeSrc
  | syncSrc
  | readDir (v : Volume)
  | statNamed (v : Volume)
  | removeOrphan (v : Volume)
  | removeMoving (v : Volume)
deriving DecidableEq, Repr

/-- What happens to the operations of one call: their verdicts, whether an operation that did not
finish had begun to change the directory, and what a crash at its end keeps. -/
structure Script where
  verdict : Op → Verdict
  begun : Op → Bool
  catalogKept : Nat
  dirKept : Volume → Nat

inductive Outcome
  | moved
  /-- an error before the catalog save -/
  | refused
  /-- the error of the catalog save -/
  | unsaved
  /-- the store is open; `clean` when the sweep met no error -/
  | opened (clean : Bool)
  /-- the catalog names a volume that the configuration does not map -/
  | unmapped
deriving DecidableEq, Repr

namespace Disk

def change (v : Volume) (f : Cell Dir → Cell Dir) (d : Disk) : Disk :=
  { d with dirs := Function.update d.dirs v (f (d.dirs v)) }

@[simp] theorem change_dirs_self (v : Volume) (f : Cell Dir → Cell Dir) (d : Disk) :
    (d.change v f).dirs v = f (d.dirs v) := Function.update_self ..

theorem change_dirs_of_ne {u v : Volume} (h : u ≠ v) (f : Cell Dir → Cell Dir) (d : Disk) :
    (d.change v f).dirs u = d.dirs u := Function.update_of_ne h ..

def crash (sc : Script) (d : Disk) : Disk :=
  ⟨d.catalog.crash sc.catalogKept, fun v => (d.dirs v).crash (sc.dirKept v)⟩

end Disk

/-! ## The code -/

/-- `RemoveAll` of the shard's copy that stopped short. -/
def removePart (begun : Bool) (c : Cell Dir) : Cell Dir :=
  if begun ∧ c.now.copy ≠ .absent then c.write { c.now with copy := .part } else c

/-- `RemoveAll` of the shard's copy. -/
def removeAll (c : Cell Dir) : Cell Dir :=
  if c.now.copy = .absent then c else (removePart true c).write { c.now with copy := .absent }

/-- The copies being made, changed to a number of them. -/
def setMoving (f : Nat → Nat) (c : Cell Dir) : Cell Dir :=
  c.write { c.now with moving := f c.now.moving }

/-- The finished copy of the shard on `src` becomes the shard's directory on `vol`. -/
def publish (src vol : Volume) (d : Disk) : Disk :=
  d.change vol fun c => c.write ⟨(d.dirs src).now.copy, c.now.moving - 1⟩

def setCatalog (v : Volume) (d : Disk) : Disk := { d with catalog := d.catalog.write v }

def syncCatalog (d : Disk) : Disk := { d with catalog := d.catalog.sync }

section Move

variable (sc : Script)

/-- The temporary file is written, synced and renamed over the catalog, and the directory synced. -/
def atomicWriteFile (stage : Stage) (v : Volume) (failed next : Prog Disk Outcome) :
    Prog Disk Outcome :=
  attempt (sc.verdict (.writeTemp stage)) id id failed <|
  attempt (sc.verdict (.renameTemp stage)) (setCatalog v) id failed <|
  attempt (sc.verdict (.syncCatalog stage)) syncCatalog id failed next

def restoreShardCatalogFile (old : Volume) (failed : Prog Disk Outcome) : Prog Disk Outcome :=
  atomicWriteFile sc .rollback old failed failed

def save (old new : Volume) (failed next : Prog Disk Outcome) : Prog Disk Outcome :=
  attempt (sc.verdict .encode) id id failed <|
  atomicWriteFile sc .save new (restoreShardCatalogFile sc old failed) next

/-- The error returns: what the removal of the copy meets is joined to the error. -/
def removeDst (vol : Volume) (o : Outcome) : Prog Disk Outcome :=
  attempt (sc.verdict .removeDst) (Disk.change vol removeAll)
    (Disk.change vol (removePart (sc.begun .removeDst))) (ret o) (ret o)

def removeTmp (vol : Volume) : Prog Disk Outcome :=
  attempt (sc.verdict .removeTmp) (Disk.change vol (setMoving (· - 1))) id
    (ret .refused) (ret .refused)

/-- Committed: what removing the source meets is only logged. -/
def removeSrc (src : Volume) : Prog Disk Outcome :=
  attempt (sc.verdict .removeSrc) (Disk.change src removeAll)
    (Disk.change src (removePart (sc.begun .removeSrc))) (ret .moved) <|
  attempt (sc.verdict .syncSrc) (Disk.change src Cell.sync) id (ret .moved) (ret .moved)

/-- The part of a move before its catalog save. -/
def copyShard (src vol : Volume) (next : Prog Disk Outcome) : Prog Disk Outcome :=
  attempt (sc.verdict .statRoot) id id (ret .refused) <|
  attempt (sc.verdict .mkdirParent) id id (ret .refused) <|
  attempt (sc.verdict .syncRoot) id id (ret .refused) <|
  -- a copy already there is one left by a move that stopped before its catalog save
  attempt (sc.verdict .removeStale) (Disk.change vol removeAll)
    (Disk.change vol (removePart (sc.begun .removeStale))) (ret .refused) <|
  attempt (sc.verdict .drawNonce) id id (ret .refused) <|
  attempt (sc.verdict .copyShardDir) (Disk.change vol (setMoving (· + 1)))
    (Disk.change vol (setMoving (· + (sc.begun .copyShardDir).toNat))) (removeTmp sc vol) <|
  attempt (sc.verdict .rename) (publish src vol) id (removeTmp sc vol) <|
  attempt (sc.verdict .syncParent) (Disk.change vol Cell.sync) id (removeDst sc vol .refused) <|
  attempt (sc.verdict .updateShardVolume) id id (removeDst sc vol .refused) next

/-- The move of the shard from `src`, the volume of its catalog entry, to `vol`. -/
def moveClosedShard (src vol : Volume) : Prog Disk Outcome :=
  copyShard sc src vol <| save sc src vol (removeDst sc vol .unsaved) (removeSrc sc src)

end Move

section Open

variable (sc : Script) (mapped : Volume → Bool) (named v : Volume)

/-- The shard's copy on a volume its catalog entry does not name is removed, once the named copy
is there. -/
def removeOrphanCopy (clean : Bool) (next : Bool → Prog Disk Outcome) : Prog Disk Outcome := fun d =>
  if v = named ∨ (d.dirs v).now.copy = .absent then next clean d
  else if (d.dirs named).now.copy = .absent then next false d
  else
    (attempt (sc.verdict (.statNamed v)) id id (next false) <|
      attempt (sc.verdict (.removeOrphan v)) (Disk.change v removeAll)
        (Disk.change v (removePart (sc.begun (.removeOrphan v)))) (next false) (next clean)) d

/-- The copies being made go in any case. -/
def removeMovingCopies (clean : Bool) (next : Bool → Prog Disk Outcome) : Prog Disk Outcome := fun d =>
  if (d.dirs v).now.moving = 0 then next clean d
  else
    attempt (sc.verdict (.removeMoving v)) (Disk.change v (setMoving fun _ => 0))
      (Disk.change v (setMoving (· - (sc.begun (.removeMoving v)).toNat))) (next false) (next clean) d

def removeOrphansIn (clean : Bool) (next : Bool → Prog Disk Outcome) : Prog Disk Outcome :=
  attempt (sc.verdict (.readDir v)) id id (next false) <|
  removeOrphanCopy sc named v clean fun clean => removeMovingCopies sc v clean next

/-- What the sweep cannot remove it logs: `clean` is lost and the next directory is visited. -/
def removeMoveOrphans : List Volume → Bool → Prog Disk Outcome
  | [], clean => ret (.opened clean)
  | v :: vs, clean =>
    if mapped v then removeOrphansIn sc named v clean (removeMoveOrphans vs)
    else removeMoveOrphans vs clean

def openStore : Prog Disk Outcome := fun d =>
  if mapped d.catalog.now then removeMoveOrphans sc mapped d.catalog.now volumes true d
  else (some .unmapped, d)

end Open

/-! ## Runs -/

/-- An open store: the volume of the shard's catalog entry in memory, and the configuration. -/
structure Session where
  volume : Volume
  mapped : Volume → Bool

structure State where
  disk : Disk
  session : Option Session

inductive Event
  | move (vol : Volume) (sc : Script)
  | openWith (mapped : Volume → Bool) (sc : Script)
  | close
  | crash (sc : Script)

/-- A store after a call: when the machine stopped in it, the disk is what the crash kept. -/
def State.after (s : State) (sc : Script) (session : Outcome → Option Session) :
    Option Outcome × Disk → State
  | (none, d) => { s with disk := d.crash sc, session := none }
  | (some o, d) => { s with disk := d, session := session o }

def step (s : State) : Event → State
  | .move vol sc =>
    match s.session with
    | none => s
    | some e =>
      if e.mapped vol ∧ e.volume ≠ vol then
        -- a failed save puts the entry in memory back
        s.after sc (fun o => some { e with volume := if o = .moved then vol else e.volume })
          (moveClosedShard sc e.volume vol s.disk)
      else s
  | .openWith mapped sc =>
    match s.session with
    | some _ => s
    | none =>
      s.after sc (fun o => if o = .unmapped then none else some ⟨s.disk.catalog.now, mapped⟩)
        (openStore sc mapped s.disk)
  | .close => { s with session := none }
  | .crash sc => ⟨s.disk.crash sc, none⟩

/-- The operations of a move before its catalog save. -/
def copyOps : List Op :=
  [.statRoot, .mkdirParent, .syncRoot, .removeStale, .drawNonce, .copyShardDir, .rename,
    .syncParent, .updateShardVolume]

/-- The operations of the save before its sync. -/
def saveOps : List Op := [.encode, .writeTemp .save, .renameTemp .save]

def rollbackOps : List Op := [.writeTemp .rollback, .renameTemp .rollback, .syncCatalog .rollback]

/-- The catalog save fails in the sync of its rename, and writing the old catalog back fails. -/
def Script.Torn (sc : Script) : Prop :=
  (∀ op ∈ copyOps ++ saveOps, sc.verdict op = .ok) ∧ sc.verdict (.syncCatalog .save) = .fails ∧
    (rollbackOps.map sc.verdict).find? (· ≠ .ok) = some .fails

instance (sc : Script) : Decidable sc.Torn := by unfold Script.Torn; infer_instance

/-- No save of the event is torn. -/
def Event.Undone : Event → Prop
  | .move _ sc => ¬ sc.Torn
  | _ => True

instance : (e : Event) → Decidable e.Undone
  | .move _ sc => inferInstanceAs (Decidable (¬ sc.Torn))
  | .openWith .. | .close | .crash _ => inferInstanceAs (Decidable True)

/-- The copy on the volume that the catalog names is complete, whatever a crash keeps of the
catalog and of the directory. -/
def Disk.NamedComplete (d : Disk) : Prop :=
  d.catalog.Always fun v => (d.dirs v).Always (·.copy = .complete)

/-- A closed store whose catalog, and the shard's copy it names, are durable; the other volumes
hold anything. -/
def Initial (s : State) : Prop :=
  s.session = none ∧ s.disk.catalog.before = [] ∧
    s.disk.dirs s.disk.catalog.now = ⟨⟨.complete, 0⟩, []⟩

/-- Nothing of a move is left on `v`. -/
def Swept (named v : Volume) (d : Disk) : Prop :=
  (d.dirs v).now.moving = 0 ∧ (v ≠ named → (d.dirs v).now.copy = .absent)

/-! ## A move -/

/-- The catalog names `v`, durably, and the copy there is complete. -/
def Settled (v : Volume) (d : Disk) : Prop :=
  d.catalog.Always (· = v) ∧ (d.dirs v).Always (·.copy = .complete)

theorem Settled.namedComplete {v : Volume} {d : Disk} (h : Settled v d) : d.NamedComplete :=
  fun _ hu => h.1 _ hu ▸ h.2

theorem Settled.change {u v : Volume} {d : Disk} (h : Settled u d) (hne : u ≠ v)
    (f : Cell Dir → Cell Dir) : Settled u (d.change v f) :=
  ⟨h.1, (Disk.change_dirs_of_ne hne f d).symm ▸ h.2⟩

/-- A crash settles what was complete under every catalog it may keep. -/
theorem Disk.NamedComplete.crash {d : Disk} (h : d.NamedComplete) (sc : Script) :
    Settled (d.crash sc).catalog.now (d.crash sc) := by
  refine ⟨Cell.always_sync (c := (d.crash sc).catalog) rfl, ?_⟩
  exact (h _ (d.catalog.crash_now_mem sc.catalogKept)).crash _

section Move

variable {sc : Script} {src vol : Volume} {post : Option Outcome → Disk → Prop}
  {failed next : Prog Disk Outcome} {d : Disk}

/-- What the part before the save leaves alone. -/
def Frame (d : Disk) (src : Volume) (x : Disk) : Prop :=
  x.catalog = d.catalog ∧ x.dirs src = d.dirs src

theorem Frame.change {x : Disk} (h : Frame d src x) (hne : src ≠ vol) (f : Cell Dir → Cell Dir) :
    Frame d src (x.change vol f) :=
  ⟨h.1, (Disk.change_dirs_of_ne hne f x).trans h.2⟩

/-- Besides, the volume has a durable copy of the source. -/
def Copied (d : Disk) (src vol : Volume) (x : Disk) : Prop :=
  Frame d src x ∧ (x.dirs vol).Always (·.copy = (d.dirs src).now.copy)

/-- **The rule of the part before the save**: it stops or is refused with the catalog and the
source as they were, or goes on with a durable copy of the source on the volume. -/
theorem copyShard_rule (hne : src ≠ vol) (hstops : ∀ x, Frame d src x → post none x)
    (hrefused : ∀ x, Frame d src x → post (some .refused) x)
    (hnext : (∀ op ∈ copyOps, sc.verdict op = .ok) →
      Triple (Copied d src vol) next post) :
    Triple (Frame d src) (copyShard sc src vol next) post := by
  have hid : ∀ x, Frame d src x → Frame d src (id x) := fun _ hx => hx
  have hchange : ∀ f x, Frame d src x → Frame d src (x.change vol f) := fun f _ hx =>
    hx.change hne f
  have hret : Triple (Frame d src) (ret Outcome.refused) post := .ret hrefused
  have htmp : Triple (Frame d src) (removeTmp sc vol) post :=
    .attempt_keep (hchange _) hid hstops (fun _ => hret) fun _ => hret
  have hdst : Triple (Frame d src) (removeDst sc vol .refused) post :=
    .attempt_keep (hchange _) (hchange _) hstops (fun _ => hret) fun _ => hret
  refine .attempt_keep hid hid hstops (fun _ => hret) fun h₁ => ?_
  refine .attempt_keep hid hid hstops (fun _ => hret) fun h₂ => ?_
  refine .attempt_keep hid hid hstops (fun _ => hret) fun h₃ => ?_
  refine .attempt_keep (hchange _) (hchange _) hstops (fun _ => hret) fun h₄ => ?_
  refine .attempt_keep hid hid hstops (fun _ => hret) fun h₅ => ?_
  refine .attempt_keep (hchange _) (hchange _) hstops (fun _ => htmp) fun h₆ => ?_
  -- the rename puts the copy of the source in place, the sync makes it durable
  have hpublish : ∀ x, Frame d src x → Frame d src (publish src vol x) ∧
      ((publish src vol x).dirs vol).now.copy = (d.dirs src).now.copy := by
    refine fun x hx => ⟨hx.change hne _, ?_⟩
    rw [publish, Disk.change_dirs_self, hx.2]
    rfl
  refine .attempt (fun x => Frame d src x ∧ (x.dirs vol).now.copy = (d.dirs src).now.copy) hpublish
    hid hstops (fun _ => htmp) fun h₇ => ?_
  have hsync : ∀ x, (Frame d src x ∧ (x.dirs vol).now.copy = (d.dirs src).now.copy) →
      Copied d src vol (x.change vol Cell.sync) := by
    refine fun x hx => ⟨hx.1.change hne _, ?_⟩
    rw [Disk.change_dirs_self]
    exact Cell.always_sync hx.2
  refine .attempt _ hsync (fun x hx => hx.1) hstops (fun _ => hdst) fun h₈ => ?_
  refine .attempt _ (fun x hx => hx) (fun x hx => hx.1) hstops (fun _ => hdst) fun h₉ => hnext ?_
  simp [copyOps, h₁, h₂, h₃, h₄, h₅, h₆, h₇, h₈, h₉]

/-- During the save both copies are complete, and the catalog names one of the two. -/
def Both (src vol : Volume) (d : Disk) : Prop :=
  d.catalog.Always (fun v => v = src ∨ v = vol) ∧ (d.dirs src).Always (·.copy = .complete) ∧
    (d.dirs vol).Always (·.copy = .complete)

theorem Both.namedComplete (h : Both src vol d) : d.NamedComplete := fun u hu =>
  (h.1 u hu).elim (fun e => e ▸ h.2.1) fun e => e ▸ h.2.2

theorem Both.setCatalog (h : Both src vol d) {v : Volume} (hv : v = src ∨ v = vol) :
    Both src vol (setCatalog v d) :=
  ⟨h.1.write hv, h.2⟩

/-- Both copies are complete and the catalog names the source. -/
def Uncommitted (src vol : Volume) (d : Disk) : Prop :=
  d.catalog.Always (· = src) ∧ (d.dirs src).Always (·.copy = .complete) ∧
    (d.dirs vol).Always (·.copy = .complete)

theorem Uncommitted.both (h : Uncommitted src vol d) : Both src vol d :=
  ⟨fun u hu => .inl (h.1 u hu), h.2⟩

/-- Writing the old catalog back where the new one was never renamed in changes nothing. -/
theorem restore_unrenamed (hfailed : Triple (Uncommitted src vol) failed post)
    (hstops : ∀ x, Both src vol x → post none x) :
    Triple (Uncommitted src vol) (restoreShardCatalogFile sc src failed) post := by
  have hid : ∀ x, Uncommitted src vol x → Uncommitted src vol (id x) := fun _ hx => hx
  have hstops : ∀ x, Uncommitted src vol x → post none x := fun x hx => hstops x hx.both
  refine .attempt_keep hid hid hstops (fun _ => hfailed) fun _ => ?_
  refine .attempt_keep (fun x hx => ⟨hx.1.write rfl, hx.2⟩) hid hstops (fun _ => hfailed) fun _ => ?_
  refine .attempt_keep (fun x hx => ⟨Cell.always_sync hx.1.now, hx.2⟩) hid hstops
    (fun _ => hfailed) fun _ => hfailed

/-- After the rename the old catalog is back only once its own rename is synced. -/
theorem restore_renamed (hsc : (rollbackOps.map sc.verdict).find? (· ≠ .ok) ≠ some .fails)
    (hfailed : Triple (Uncommitted src vol) failed post)
    (hstops : ∀ x, Both src vol x → post none x) :
    Triple (Both src vol) (restoreShardCatalogFile sc src failed) post := by
  have hid : ∀ x, Both src vol x → Both src vol (id x) := fun _ hx => hx
  refine .attempt_keep hid hid hstops (fun h => ?_) fun h₁ => ?_
  · exact absurd (by simp [rollbackOps, h]) hsc
  have hrename : ∀ x, Both src vol x → Both src vol (setCatalog src x) ∧
      (setCatalog src x).catalog.now = src := fun x hx => ⟨hx.setCatalog (.inl rfl), rfl⟩
  refine .attempt (fun x => Both src vol x ∧ x.catalog.now = src) hrename hid hstops
    (fun h => ?_) fun h₂ => ?_
  · exact absurd (by simp [rollbackOps, h₁, h]) hsc
  have hsync : ∀ x, (Both src vol x ∧ x.catalog.now = src) →
      Uncommitted src vol (syncCatalog x) := fun x hx => ⟨Cell.always_sync hx.2, hx.1.2⟩
  refine .attempt _ hsync (fun x hx => hx.1) hstops (fun h => ?_) fun _ => hfailed
  exact absurd (by simp [rollbackOps, h₁, h₂, h]) hsc

/-- **The rule of the save**, which is not torn: it fails with the catalog on the source, or it
goes on with the catalog on the volume. -/
theorem save_rule (hbefore : ∀ op ∈ copyOps, sc.verdict op = .ok) (hsc : ¬ sc.Torn)
    (hfailed : Triple (Uncommitted src vol) failed post)
    (hnext : Triple (fun x => Both src vol x ∧ x.catalog.Always (· = vol)) next post)
    (hstops : ∀ x, Both src vol x → post none x) :
    Triple (Uncommitted src vol) (save sc src vol failed next) post := by
  have hid : ∀ x, Uncommitted src vol x → Uncommitted src vol (id x) := fun _ hx => hx
  have hstops' : ∀ x, Uncommitted src vol x → post none x := fun x hx => hstops x hx.both
  have hundo : Triple (Uncommitted src vol) (restoreShardCatalogFile sc src failed) post :=
    restore_unrenamed hfailed hstops
  refine .attempt_keep hid hid hstops' (fun _ => hfailed) fun h₁ => ?_
  refine .attempt_keep hid hid hstops' (fun _ => hundo) fun h₂ => ?_
  have hrename : ∀ x, Uncommitted src vol x → Both src vol (setCatalog vol x) ∧
      (setCatalog vol x).catalog.now = vol := fun x hx => ⟨hx.both.setCatalog (.inr rfl), rfl⟩
  refine .attempt (fun x => Both src vol x ∧ x.catalog.now = vol) hrename hid hstops'
    (fun _ => hundo) fun h₃ => ?_
  have hsync : ∀ x, (Both src vol x ∧ x.catalog.now = vol) →
      Both src vol (syncCatalog x) ∧ (syncCatalog x).catalog.Always (· = vol) := fun x hx =>
    ⟨⟨Cell.always_sync (.inr hx.2), hx.1.2⟩, Cell.always_sync hx.2⟩
  refine .attempt _ hsync (fun x hx => hx.1) hstops (fun h₄ => ?_) fun _ => hnext
  have hsave : ∀ op ∈ saveOps, sc.verdict op = .ok := by simp [saveOps, h₁, h₂, h₃]
  exact restore_renamed
    (fun h => hsc ⟨List.forall_mem_append.mpr ⟨hbefore, hsave⟩, h₄, h⟩) hfailed hstops

/-- How a move ends: the shard is where the outcome says, and when the machine stopped it is
complete under every catalog the crash may keep. -/
def Ended (src vol : Volume) : Option Outcome → Disk → Prop
  | none, x => x.NamedComplete
  | some o, x => Settled (if o = .moved then vol else src) x

theorem moveClosedShard_ended (hne : src ≠ vol) (hsc : ¬ sc.Torn) (h : Settled src d) :
    Triple (Frame d src) (moveClosedShard sc src vol) (Ended src vol) := by
  have hframe : ∀ x, Frame d src x → Settled src x := fun x hx =>
    ⟨hx.1.symm ▸ h.1, hx.2.symm ▸ h.2⟩
  refine copyShard_rule hne (fun x hx => (hframe x hx).namedComplete) hframe fun hbefore => ?_
  have hpre : ∀ x, Copied d src vol x → Uncommitted src vol x := fun x hx =>
    ⟨(hframe x hx.1).1, (hframe x hx.1).2, fun y hy => (hx.2 y hy).trans h.2.now⟩
  refine Triple.weaken (save_rule hbefore hsc ?_ ?_ fun x hx => hx.namedComplete) hpre
  · -- the new copy goes, and the catalog does not name it
    have hsettled : ∀ f x, Uncommitted src vol x → Settled src (x.change vol f) := fun f x hx =>
      Settled.change ⟨hx.1, hx.2.1⟩ hne f
    exact .attempt _ (hsettled _) (hsettled _) (fun x hx => hx.namedComplete)
      (fun _ => .ret fun x hx => hx) fun _ => .ret fun x hx => hx
  · have hsettled : ∀ f x, (Both src vol x ∧ x.catalog.Always (· = vol)) →
        Settled vol (x.change src f) := fun f x hx =>
      Settled.change ⟨hx.2, hx.1.2.2⟩ hne.symm f
    refine .attempt _ (hsettled _) (hsettled _) (fun x hx => hx.namedComplete)
      (fun _ => .ret fun x hx => hx) fun _ => ?_
    exact .attempt_keep (fun x hx => hx.change hne.symm _) (fun x hx => hx)
      (fun x hx => hx.namedComplete) (fun _ => .ret fun x hx => hx) fun _ => .ret fun x hx => hx

/-- The save of which nothing is asked. -/
theorem save_rule_any (hstops : ∀ x, post none x) (hfailed : Triple (fun _ => True) failed post)
    (hnext : Triple (fun _ => True) next post) :
    Triple (fun _ => True) (save sc src vol failed next) post := by
  have hundo : Triple (fun _ => True) (restoreShardCatalogFile sc src failed) post :=
    .attempt_any hstops hfailed (.attempt_any hstops hfailed (.attempt_any hstops hfailed hfailed))
  exact .attempt_any hstops hfailed (.attempt_any hstops hundo (.attempt_any hstops hundo
    (.attempt_any hstops hundo hnext)))

/-- An error before the save leaves the catalog file alone, whatever the script. -/
theorem moveClosedShard_refused (hne : src ≠ vol)
    (h : (moveClosedShard sc src vol d).1 = some .refused) :
    (moveClosedShard sc src vol d).2.catalog = d.catalog := by
  let post (o : Option Outcome) (x : Disk) : Prop := o = some .refused → x.catalog = d.catalog
  have hstops : ∀ x, post none x := nofun
  have hunsaved : Triple (fun _ => True) (ret .unsaved) post := nofun
  have hmoved : Triple (fun _ => True) (ret .moved) post := nofun
  have hrule : Triple (Frame d src) (moveClosedShard sc src vol) post := by
    refine copyShard_rule hne (fun x hx _ => hx.1) (fun x hx _ => hx.1) fun _ => ?_
    -- from the save on no return is a refusal
    refine Triple.weaken (save_rule_any hstops (.attempt_any hstops hunsaved hunsaved) ?_)
      fun _ _ => trivial
    exact .attempt_any hstops hmoved (.attempt_any hstops hmoved hmoved)
  exact hrule d ⟨rfl, rfl⟩ h

end Move

/-! ## An open -/

section Open

variable {sc : Script} {mapped : Volume → Bool} {named v : Volume} {I : Disk → Prop}
  {post : Option Outcome → Disk → Prop} {clean : Bool} {next : Bool → Prog Disk Outcome}

/-- What the sweep does to a directory keeps `I`. -/
structure KeptBySweep (named : Volume) (I : Disk → Prop) : Prop where
  removeAll : ∀ v x, v ≠ named → I x → I (x.change v removeAll)
  removePart : ∀ v b x, v ≠ named → I x → I (x.change v (removePart b))
  setMoving : ∀ v f x, f 0 = 0 → I x → I (x.change v (setMoving f))

theorem removeMovingCopies_rule (hI : ∀ f x, f 0 = 0 → I x → I (x.change v (setMoving f)))
    (hstops : ∀ x, I x → post none x) (hfalse : Triple I (next false) post)
    (hnext : Triple (fun x => I x ∧ (x.dirs v).now.moving = 0) (next clean) post) :
    Triple I (removeMovingCopies sc v clean next) post := by
  intro x hx
  unfold removeMovingCopies
  split
  · next h0 => exact hnext x ⟨hx, h0⟩
  · refine Triple.attempt _ (fun y hy => ⟨hI (fun _ => 0) y rfl hy, ?_⟩)
      (fun y hy => hI (· - _) y (Nat.zero_sub _) hy) hstops (fun _ => hfalse) (fun _ => hnext) x hx
    rw [Disk.change_dirs_self]
    rfl

theorem removeAll_now_copy (c : Cell Dir) : (removeAll c).now.copy = .absent := by
  unfold removeAll
  split
  · assumption
  · rfl

/-- **The rule of one directory of the sweep**: it goes on clean only with nothing left there. -/
theorem removeOrphansIn_rule (hI : KeptBySweep named I) (hstops : ∀ x, I x → post none x)
    (hfalse : Triple I (next false) post)
    (hnext : Triple (fun x => I x ∧ Swept named v x) (next clean) post) :
    Triple I (removeOrphansIn sc named v clean next) post := by
  -- the copies being made, once the shard's own copy is gone and where it stays
  have hgone : Triple (fun x => I x ∧ (v ≠ named → (x.dirs v).now.copy = .absent))
      (removeMovingCopies sc v clean next) post := by
    refine removeMovingCopies_rule (fun f x hf hx => ⟨hI.setMoving v f x hf hx.1, ?_⟩)
      (fun x hx => hstops x hx.1) (hfalse.weaken fun x hx => hx.1)
      (hnext.weaken fun x hx => ⟨hx.1.1, hx.2, hx.1.2⟩)
    rw [Disk.change_dirs_self]
    exact hx.2
  have hstays : Triple I (removeMovingCopies sc v false next) post :=
    removeMovingCopies_rule (hI.setMoving v) hstops hfalse (hfalse.weaken fun x hx => hx.1)
  refine .attempt_keep (fun _ hx => hx) (fun _ hx => hx) hstops (fun _ => hfalse) fun _ x hx => ?_
  unfold removeOrphanCopy
  split
  · next h => exact hgone x ⟨hx, h.resolve_left⟩
  · next h =>
    have hv : v ≠ named := fun e => h (.inl e)
    split
    · exact hstays x hx
    · refine Triple.attempt_keep (fun _ hx => hx) (fun _ hx => hx) hstops (fun _ => hstays)
        (fun _ => ?_) x hx
      refine .attempt _ (fun y hy => ⟨hI.removeAll v y hv hy, fun _ => ?_⟩)
        (fun y hy => hI.removePart v _ y hv hy) hstops (fun _ => hstays) fun _ => hgone
      rw [Disk.change_dirs_self]
      exact removeAll_now_copy _

/-- **The rule of the whole sweep.** -/
theorem removeMoveOrphans_rule (hI : KeptBySweep named I) (hstops : ∀ x, I x → post none x)
    (hend : ∀ b x, I x → post (some (.opened b)) x) (vs : List Volume) (clean : Bool) :
    Triple I (removeMoveOrphans sc mapped named vs clean) post := by
  induction vs generalizing clean with
  | nil => exact .ret (hend clean)
  | cons v vs ih =>
    unfold removeMoveOrphans
    split
    · exact removeOrphansIn_rule hI hstops (ih false) ((ih clean).weaken fun x hx => hx.1)
    · exact ih clean

/-- The sweep leaves a settled store settled. -/
theorem keptBySweep_settled : KeptBySweep named (Settled named) where
  removeAll v x hv hx := hx.change hv.symm _
  removePart v b x hv hx := hx.change hv.symm _
  setMoving v f x _ hx := by
    by_cases hv : named = v
    · subst hv
      refine ⟨hx.1, ?_⟩
      rw [Disk.change_dirs_self]
      exact hx.2.write hx.2.now
    · exact hx.change hv _

/-- What the sweep cleared it does not bring back. -/
theorem keptBySweep_swept (u : Volume) : KeptBySweep named (Swept named u) := by
  have hchange : ∀ (v : Volume) (f : Cell Dir → Cell Dir) (x : Disk), Swept named u x →
      (∀ c : Cell Dir, c.now.moving = 0 → (f c).now.moving = 0) →
      (v ≠ named → ∀ c : Cell Dir, c.now.copy = .absent → (f c).now.copy = .absent) →
      Swept named u (x.change v f) := by
    intro v f x hx hmoving hcopy
    by_cases hv : u = v
    · subst hv
      rw [Swept, Disk.change_dirs_self]
      exact ⟨hmoving _ hx.1, fun hu => hcopy hu _ (hx.2 hu)⟩
    · rwa [Swept, Disk.change_dirs_of_ne hv]
  refine ⟨fun v x _ hx => hchange v _ x hx ?_ ?_, fun v b x _ hx => hchange v _ x hx ?_ ?_,
    fun v f x hf hx => hchange v _ x hx ?_ ?_⟩
  · intro c hc
    unfold removeAll
    split <;> exact hc
  · exact fun _ c _ => removeAll_now_copy c
  · intro c hc
    unfold removePart
    split <;> exact hc
  · intro _ c hc
    simp [removePart, hc]
  · intro c hc
    show f c.now.moving = 0
    rw [hc, hf]
  · exact fun _ c hc => hc

/-- A sweep that met an error does not end clean. -/
theorem removeMoveOrphans_false (vs : List Volume) :
    Triple (fun _ => True) (removeMoveOrphans sc mapped named vs false)
      (fun o _ => o ≠ some (.opened true)) := by
  induction vs with
  | nil => exact .ret nofun
  | cons v vs ih =>
    unfold removeMoveOrphans
    split
    · exact removeOrphansIn_rule ⟨fun _ _ _ h => h, fun _ _ _ _ h => h, fun _ _ _ _ h => h⟩
        nofun ih (ih.weaken fun _ _ => trivial)
    · exact ih

/-- **A clean sweep leaves nothing of a move** on the volumes it visits. -/
theorem removeMoveOrphans_clean (vs : List Volume) (I : Disk → Prop) (hI : KeptBySweep named I) :
    Triple I (removeMoveOrphans sc mapped named vs true)
      (fun o x => o = some (.opened true) →
        I x ∧ ∀ v ∈ vs, mapped v = true → Swept named v x) := by
  -- along the list `I` takes up what the directories visited so far are promised
  induction vs generalizing I with
  | nil => exact .ret fun x hx _ => ⟨hx, nofun⟩
  | cons v vs ih =>
    unfold removeMoveOrphans
    split
    · have hI' : KeptBySweep named fun x => I x ∧ Swept named v x :=
        ⟨fun u x hu hx => ⟨hI.removeAll u x hu hx.1, (keptBySweep_swept v).removeAll u x hu hx.2⟩,
          fun u b x hu hx =>
            ⟨hI.removePart u b x hu hx.1, (keptBySweep_swept v).removePart u b x hu hx.2⟩,
          fun u f x hf hx =>
            ⟨hI.setMoving u f x hf hx.1, (keptBySweep_swept v).setMoving u f x hf hx.2⟩⟩
      refine removeOrphansIn_rule hI nofun
        (fun x _ h => absurd h (removeMoveOrphans_false vs x trivial)) fun x hx hend => ?_
      obtain ⟨⟨hIx, hv⟩, hvs⟩ := ih _ hI' x hx hend
      exact ⟨hIx, List.forall_mem_cons.mpr ⟨fun _ => hv, hvs⟩⟩
    · next hv =>
      intro x hx hend
      obtain ⟨hIx, hvs⟩ := ih I hI x hx hend
      exact ⟨hIx, List.forall_mem_cons.mpr ⟨fun h => absurd h hv, hvs⟩⟩

end Open

/-! ## Every run -/

/-- The catalog and the copy it names are durable and the entry in memory agrees with them. -/
def Sound (s : State) : Prop :=
  Settled s.disk.catalog.now s.disk ∧ ∀ e ∈ s.session, e.volume = s.disk.catalog.now

theorem Settled.sound {v : Volume} {d : Disk} (h : Settled v d) {session : Option Session}
    (hsession : ∀ e ∈ session, e.volume = v) : Sound ⟨d, session⟩ := by
  have hnow : d.catalog.now = v := h.1.now
  exact ⟨by rw [hnow]; exact h, fun e he => (hsession e he).trans hnow.symm⟩

theorem sound_crash {d : Disk} (h : d.NamedComplete) (sc : Script) : Sound ⟨d.crash sc, none⟩ :=
  (h.crash sc).sound nofun

theorem sound_step {s : State} {e : Event} (h : Sound s) (he : e.Undone) : Sound (step s e) := by
  obtain ⟨d, session⟩ := s
  cases e with
  | move vol sc =>
    cases session with
    | none => exact h
    | some e =>
      have hvol : e.volume = d.catalog.now := h.2 e rfl
      unfold step
      dsimp only
      split
      · next hmove =>
        have hended : Ended e.volume vol (moveClosedShard sc e.volume vol d).1
            (moveClosedShard sc e.volume vol d).2 :=
          moveClosedShard_ended hmove.2 he (d := d) (hvol ▸ h.1) d ⟨rfl, rfl⟩
        generalize moveClosedShard sc e.volume vol d = r at hended
        obtain ⟨_ | o, x⟩ := r
        · exact sound_crash hended sc
        · exact Settled.sound hended fun _ he => Option.some.inj he ▸ rfl
      · exact h
  | openWith mapped sc =>
    cases session with
    | some e => exact h
    | none =>
      have hopen : Ended d.catalog.now d.catalog.now (openStore sc mapped d).1
          (openStore sc mapped d).2 := by
        unfold openStore
        split
        · refine removeMoveOrphans_rule keptBySweep_settled (fun x hx => hx.namedComplete)
            (fun b x hx => ?_) volumes true d h.1
          simpa [Ended] using hx
        · simpa [Ended] using h.1
      unfold step
      dsimp only
      generalize openStore sc mapped d = r at hopen
      obtain ⟨_ | o, x⟩ := r
      · exact sound_crash hopen sc
      · refine Settled.sound (v := d.catalog.now) (by simpa [Ended] using hopen) fun e he => ?_
        dsimp only at he
        split at he
        · exact nomatch he
        · exact Option.some.inj he ▸ rfl
  | close => exact ⟨h.1, nofun⟩
  | crash sc => exact sound_crash h.1.namedComplete sc

/-- **The shard is kept.**  In every state of a run without a torn save the copy that the catalog
names is complete, whatever a crash keeps; a move refused before its save leaves the catalog
entry, in the file and in memory; and an open that met no error leaves no other copy on a mapped
volume. -/
theorem shard_kept {s : State}
    (h : Runs.Reachable Initial (Runs.Guarded step fun _ e => e.Undone) s) :
    s.disk.NamedComplete ∧
    (∀ e ∈ s.session, ∀ vol sc, e.mapped vol = true → e.volume ≠ vol →
      (moveClosedShard sc e.volume vol s.disk).1 = some .refused →
        (step s (.move vol sc)).disk.catalog = s.disk.catalog ∧
        (step s (.move vol sc)).session = s.session) ∧
    (s.session = none → ∀ mapped sc, (openStore sc mapped s.disk).1 = some (.opened true) →
      ∀ v, mapped v = true →
        Swept s.disk.catalog.now v (step s (.openWith mapped sc)).disk) := by
  refine ⟨?_, ?_, ?_⟩
  · have hsound : Sound s := by
      refine h.invariant (fun s hs => ?_) fun s e s' _ hs hstep => hstep.2 ▸ sound_step hs hstep.1
      obtain ⟨hclosed, hbefore, hdir⟩ := hs
      refine ⟨⟨?_, ?_⟩, fun e he => ?_⟩
      · rintro v hv
        rw [Cell.kept, hbefore] at hv
        exact List.mem_singleton.mp hv
      · rw [hdir]
        exact Cell.always_sync (c := (⟨⟨.complete, 0⟩, []⟩ : Cell Dir)) rfl
      · rw [hclosed] at he
        exact nomatch he
    exact hsound.1.namedComplete
  · intro e he vol sc hmapped hne hrefused
    have hcatalog := moveClosedShard_refused hne hrefused
    have hsession : s.session = some e := he
    unfold step
    rw [hsession]
    dsimp only
    rw [if_pos ⟨hmapped, hne⟩]
    generalize moveClosedShard sc e.volume vol s.disk = r at hrefused hcatalog
    obtain ⟨o, x⟩ := r
    obtain rfl : o = some .refused := hrefused
    exact ⟨hcatalog, rfl⟩
  · intro hclosed mapped sc hend v hv
    have hsweep : Swept s.disk.catalog.now v (openStore sc mapped s.disk).2 := by
      unfold openStore at hend ⊢
      split at hend
      · next hnamed =>
        rw [if_pos hnamed]
        obtain ⟨-, hclean⟩ := removeMoveOrphans_clean volumes (fun _ => True)
          ⟨fun _ _ _ h => h, fun _ _ _ _ h => h, fun _ _ _ _ h => h⟩ s.disk trivial hend
        exact hclean v (by cases v <;> decide) hv
      · exact nomatch hend
    unfold step
    rw [hclosed]
    dsimp only
    generalize openStore sc mapped s.disk = r at hend hsweep
    obtain ⟨o, x⟩ := r
    obtain rfl : o = some (.opened true) := hend
    exact hsweep

/-- A call in which nothing fails. -/
def fine : Script := ⟨fun _ => .ok, fun _ => false, 0, fun _ => 0⟩

/-- The shard on the hot volume, with the rest of an old copy on the cold one. -/
def onHot : State :=
  ⟨⟨⟨.hot, []⟩, fun
    | .hot => ⟨⟨.complete, 0⟩, []⟩
    | .warm => ⟨⟨.absent, 0⟩, []⟩
    | .cold => ⟨⟨.part, 1⟩, []⟩⟩, none⟩

theorem initial_onHot : Initial onHot := ⟨rfl, rfl, rfl⟩

/-- A move whose save fails in its sync and is written back. -/
def writtenBack : Script :=
  { fine with verdict := fun op => if op = .syncCatalog .save then .fails else .ok }

/-- An open, a move that is undone, one that stops while the source is removed, an open. -/
def keptRun : List Event :=
  [.openWith (fun _ => true) fine, .move .warm writtenBack,
    .move .cold { fine with verdict := fun op => if op = .removeSrc then .stops else .ok },
    .openWith (fun _ => true) fine]

theorem shard_kept_keptRun : (keptRun.foldl step onHot).disk.NamedComplete :=
  (shard_kept (.foldl (.start initial_onHot) (by decide +kernel))).1

/-- The same, but the old catalog cannot be written back. -/
def torn : Script :=
  { fine with
    verdict := fun op =>
      if op = .syncCatalog .save ∨ op = .writeTemp .rollback then .fails else .ok }

/-- **The shard lost.**  The save of a move to the warm volume renames the new catalog into place,
cannot sync the directory and cannot write the old catalog back; the move then removes its copy.
After a crash the catalog names the warm volume, where nothing is. -/
theorem lost_after_rollback :
    let s := [Event.openWith (fun _ => true) fine, .move .warm torn, .crash fine].foldl step onHot
    Runs.Reachable Initial (Runs.Guarded step fun _ _ => True) s ∧ s.disk.catalog.now = .warm ∧
      (s.disk.dirs .warm).now.copy = .absent ∧ ¬ s.disk.NamedComplete := by
  refine ⟨.foldl (.start initial_onHot) ⟨trivial, trivial, trivial, trivial⟩, by decide +kernel,
    by decide +kernel, fun h => ?_⟩
  exact absurd (h.now.now) (by decide +kernel)

end RhoTkg.ShardMove
