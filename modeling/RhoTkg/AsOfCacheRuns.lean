import Mathlib.Data.Int.Order.Basic
import Mathlib.Order.Lattice
import RhoTkg.AsOfCache

/-!
# Cached answers at a pin along every interleaving

`Good` is what an entry, and a build that may become one, keeps in every step: the pin is registered, the
epoch is not ahead, and as long as the epoch is the current one the values read so far are the state at
the pin, or some writer that will advance the epoch has stored and not yet reported.  Two more facts make
it inductive.  Once a value is read, every write stamped at or below the pin has landed (`Landed`), which
keeps forward writers away from the pin.  And while a writer that has made its report holds the lock,
a build of the current epoch at a pin the writer reaches has read nothing: such a build registered its pin
after the report looked, so it waits for the lock.

Cuts and memoised values get `Landed` from `pinLanded`.  Columns are built without that question, so
`ColumnsLanded` asks it of each of their reads; `stale_columns_above_clock` is a run in which it fails.
-/

namespace RhoTkg

open List Function Option
namespace AsOf

variable {κ α : Type} {st st' : State κ α} {key : Key} {entry : Entry κ α} {landed : Bool}

/-- Every write stamped at or below the pin has landed: the commit clock has passed the pin, and the
forward writers in flight are stamped above it. -/
def Landed (st : State κ α) (pin : Int) : Prop :=
  pin ≤ st.lastInstant ∧ ∀ t ∈ st.forwards, pin < t

/-- The values read so far are the state at the pin. -/
def Fresh (st : State κ α) (key : Key) (entry : Entry κ α) : Prop :=
  entry.values = (entry.ids.take entry.values.length).map fun k => st.stateAt key.rel k key.pin

/-- Some writer has stored and will advance the epoch. -/
def Unreported (st : State κ α) (key : Key) : Prop :=
  (∃ w ∈ st.pasts, w.stored = true ∧ w.kinds key.rel = true) ∨
    ∃ w, st.locked = some w ∧ w.stored = true ∧ w.note ≠ .noted ∧ reaches w.start key.pin = true

/-- Nothing was read at a pin that the holder of the lock may still change without a report. -/
def Waits (st : State κ α) (key : Key) (entry : Entry κ α) : Prop :=
  ∀ w, st.locked = some w → w.note = .noted → reaches w.start key.pin = true → entry.values = []

/-- What an entry, or a build with the entry it may become, keeps in every step. -/
structure Good (st : State κ α) (key : Key) (entry : Entry κ α) (landed : Bool) : Prop where
  pinNoted : key.pin ≤ st.maxPin
  epoch_le : entry.epoch ≤ st.cutEpoch key.rel
  current : entry.epoch = st.cutEpoch key.rel → Fresh st key entry ∨ Unreported st key
  hasLanded : landed = true ∨ entry.values ≠ [] → Landed st key.pin
  waits : entry.epoch = st.cutEpoch key.rel → Waits st key entry

variable {epoch : Nat} {ids : List κ} {change : Bool → κ → Int → Option α} {pin : Int}
  {x : Builder κ α} {w : LockedWriter}

/-- A build that has read nothing is good. -/
theorem Good.nil (hpin : key.pin ≤ st.maxPin) (hepoch : epoch ≤ st.cutEpoch key.rel)
    (hlanded : landed = true → Landed st key.pin) :
    Good st key ⟨ids, [], epoch⟩ landed where
  pinNoted := hpin
  epoch_le := hepoch
  current := fun _ => .inl rfl
  hasLanded := fun h => hlanded (h.resolve_right fun hne => hne rfl)
  waits := fun _ _ _ _ _ => rfl

/-- **The step rule.**  A step that lowers nothing keeps an entry good when, should the epoch stay, it
keeps the last two facts. -/
theorem Good.step (h : Good st key entry landed) (hpin : st.maxPin ≤ st'.maxPin)
    (hepoch : st.cutEpoch key.rel ≤ st'.cutEpoch key.rel)
    (hlanded : Landed st key.pin → Landed st' key.pin)
    (hcurrent : st'.cutEpoch key.rel = st.cutEpoch key.rel → Fresh st key entry ∨ Unreported st key →
      Fresh st' key entry ∨ Unreported st' key)
    (hwaits : st'.cutEpoch key.rel = st.cutEpoch key.rel → Waits st key entry → Waits st' key entry) :
    Good st' key entry landed where
  pinNoted := h.pinNoted.trans hpin
  epoch_le := h.epoch_le.trans hepoch
  current := fun heq => by
    have hsame : st'.cutEpoch key.rel = st.cutEpoch key.rel := by have := h.epoch_le; omega
    exact hcurrent hsame (h.current (heq.trans hsame))
  hasLanded := fun hl => hlanded (h.hasLanded hl)
  waits := fun heq => by
    have hsame : st'.cutEpoch key.rel = st.cutEpoch key.rel := by have := h.epoch_le; omega
    exact hwaits hsame (h.waits (heq.trans hsame))

/-- A step that advances the epoch of the kind keeps every entry good: it is used no more. -/
theorem Good.advance (h : Good st key entry landed) (hpin : st.maxPin ≤ st'.maxPin)
    (hepoch : st.cutEpoch key.rel < st'.cutEpoch key.rel)
    (hlanded : Landed st key.pin → Landed st' key.pin) : Good st' key entry landed :=
  h.step hpin hepoch.le hlanded (fun heq => absurd heq hepoch.ne') fun heq => absurd heq hepoch.ne'

/-- The values at a pin are read from the state at the pin alone. -/
theorem Fresh.of_stateAt (h : Fresh st key entry)
    (hstate : ∀ k, st'.stateAt key.rel k key.pin = st.stateAt key.rel k key.pin) :
    Fresh st' key entry := by
  unfold Fresh at *
  simpa only [hstate] using h

theorem Fresh.of_nil (h : entry.values = []) : Fresh st key entry := by
  rw [Fresh, h]
  rfl

/-- A write leaves the state at a pin it does not reach, and of a kind it does not change. -/
theorem State.stateAt_write {kinds : Bool → Bool} {stamp : Option Int} {rel : Bool}
    (h : ¬(kinds rel = true ∧ reaches stamp pin = true)) (k : κ) :
    (st.write kinds stamp change).stateAt rel k pin = st.stateAt rel k pin := by
  simp only [State.write]
  rw [if_neg (by simpa only [Bool.and_eq_true] using h)]

/-- A build stores its result: a memoised value only when the pin had landed. -/
def Stores (key : Key) (landed : Bool) : Prop := key.path = .memo → landed = true

/-- What a builder keeps in every step of the others. -/
def BuilderOk (st : State κ α) : Builder κ α → Prop
  | .idle => True
  | .noted key _ => key.pin ≤ st.maxPin
  | .loading key _ low => key.pin ≤ st.maxPin ∧ low ≤ st.epoch
  | .ready key ids epoch => Good st key ⟨ids, [], epoch⟩ false
  | .reading key ids epoch landed values =>
    key.pin ≤ st.maxPin ∧ (key.path = .cut → landed = true) ∧
      (Stores key landed → Good st key ⟨ids, values, epoch⟩ landed)
  | .rechecking key entry landed _ | .checked key entry landed =>
    key.pin ≤ st.maxPin ∧ entry.values.length = entry.ids.length ∧
      (Stores key landed → Good st key entry landed)

/-- The invariant of the cache. -/
structure Inv (st : State κ α) : Prop where
  builders : ∀ b, BuilderOk st (st.builders b)
  cache : ∀ key entry, st.cache key = some entry →
    Good st key entry false ∧ entry.values.length = entry.ids.length

/-- Every entry that was good is good after the step, and no pin or epoch is lowered. -/
structure Keeps (st st' : State κ α) : Prop where
  maxPin : st.maxPin ≤ st'.maxPin
  epoch : st.epoch ≤ st'.epoch
  good : ∀ {key entry landed}, Good st key entry landed → Good st' key entry landed

theorem Keeps.builderOk (h : Keeps st st') (hx : BuilderOk st x) : BuilderOk st' x := by
  cases x with
  | idle => trivial
  | noted key ids => exact le_trans hx h.maxPin
  | loading key ids low => exact ⟨hx.1.trans h.maxPin, hx.2.trans h.epoch⟩
  | ready key ids epoch => exact h.good hx
  | reading | rechecking | checked =>
    exact ⟨hx.1.trans h.maxPin, hx.2.1, fun hs => h.good (hx.2.2 hs)⟩

/-- A step of a writer keeps the invariant when it keeps the good entries. -/
theorem Inv.keeps (h : Inv st) (hkeeps : Keeps st st') (hbuilders : st'.builders = st.builders)
    (hcache : ∀ key entry, st'.cache key = some entry → st.cache key = some entry) : Inv st' where
  builders := fun b => hkeeps.builderOk (hbuilders ▸ h.builders b)
  cache := fun key entry hentry =>
    let hold := h.cache key entry (hcache key entry hentry)
    ⟨hkeeps.good hold.1, hold.2⟩

/-- The steps of a builder change nothing a good entry depends on but the pin bound. -/
theorem Keeps.of_builder (hpin : st.maxPin ≤ st'.maxPin) (hepoch : st'.epoch = st.epoch)
    (hrel : st'.relCutEpoch = st.relCutEpoch) (hinstant : st'.lastInstant = st.lastInstant)
    (hstate : st'.stateAt = st.stateAt) (hforwards : st'.forwards = st.forwards)
    (hpasts : st'.pasts = st.pasts) (hlocked : st'.locked = st.locked) : Keeps st st' where
  maxPin := hpin
  epoch := hepoch.ge
  good := fun {key entry landed} h => by
    refine h.step hpin ?_ ?_ ?_ ?_
    · rw [State.cutEpoch, State.cutEpoch, hepoch, hrel]
    · simp only [Landed, hinstant, hforwards]
      exact id
    · simp only [Fresh, Unreported, hstate, hpasts, hlocked]
      exact fun _ => id
    · simp only [Waits, hlocked]
      exact fun _ => id

/-- A builder moves: what is left is the invariant of its new place. -/
theorem Inv.setBuilder (h : Inv st) {b : Nat} (hx : BuilderOk st x) : Inv (st.setBuilder b x) := by
  have hkeeps : Keeps st (st.setBuilder b x) := .of_builder le_rfl rfl rfl rfl rfl rfl rfl rfl
  refine ⟨fun b' => ?_, fun key entry hentry => ?_⟩
  · simp only [State.setBuilder]
    by_cases hb : b' = b
    · rw [hb, update_self]
      exact hkeeps.builderOk hx
    · rw [update_of_ne hb]
      exact hkeeps.builderOk (h.builders b')
  · exact ⟨hkeeps.good (h.cache key entry hentry).1, (h.cache key entry hentry).2⟩

/-! ### The writers -/

/-- A step that leaves the epochs, the pin bound and the landed pins. -/
theorem Keeps.of_sameEpoch (hpin : st'.maxPin = st.maxPin) (hepoch : st'.epoch = st.epoch)
    (hrel : st'.relCutEpoch = st.relCutEpoch)
    (hlanded : ∀ pin, Landed st pin → Landed st' pin)
    (hcurrent : ∀ {key entry landed}, Good st key entry landed → Waits st key entry →
      Fresh st key entry ∨ Unreported st key → Fresh st' key entry ∨ Unreported st' key)
    (hwaits : ∀ {key entry landed}, Good st key entry landed → Waits st key entry →
      Waits st' key entry) : Keeps st st' where
  maxPin := hpin.ge
  epoch := hepoch.ge
  good := fun {key entry landed} h => by
    have hsame : st'.cutEpoch key.rel = st.cutEpoch key.rel := by
      rw [State.cutEpoch, State.cutEpoch, hepoch, hrel]
    refine ⟨hpin ▸ h.pinNoted, hsame ▸ h.epoch_le, fun heq => ?_, fun hl => hlanded _ (h.hasLanded hl),
      fun heq => ?_⟩
    · exact hcurrent h (h.waits (heq.trans hsame)) (h.current (heq.trans hsame))
    · exact hwaits h (h.waits (heq.trans hsame))

/-- A bump of the epoch keeps everything. -/
theorem Keeps.of_bump (hpin : st'.maxPin = st.maxPin) (hepoch : st'.epoch = st.epoch + 1)
    (hrel : st'.relCutEpoch = st.relCutEpoch) (hinstant : st'.lastInstant = st.lastInstant)
    (hforwards : st'.forwards = st.forwards) : Keeps st st' where
  maxPin := hpin.ge
  epoch := by omega
  good := fun {key entry landed} h => by
    refine h.advance hpin.ge ?_ ?_
    · simp only [State.cutEpoch, hepoch, hrel]
      omega
    · simp only [Landed, hinstant, hforwards]
      exact id

/-- A forward writer stores at pins no good entry has read. -/
theorem Keeps.storeForward {stamp : Int} (hmem : stamp ∈ st.forwards) :
    Keeps st (st.write (fun _ => true) (some stamp) change) := by
  refine .of_sameEpoch rfl rfl rfl (fun _ => id) ?_ (fun _ => id)
  intro key entry landed h _ hcur
  refine hcur.imp_left fun hfresh => ?_
  by_cases hnil : entry.values = []
  · exact .of_nil hnil
  · refine hfresh.of_stateAt (State.stateAt_write ?_)
    have habove : key.pin < stamp := (h.hasLanded (.inr hnil)).2 stamp hmem
    simp only [reaches, all_some, decide_eq_true_eq]
    omega

/-- A past-dated writer that stores owes a report to every kind it changes. -/
theorem Keeps.storePast {w : PastWriter} :
    Keeps st { st.write w.kinds w.stamp change with
      pasts := { w with stored := true } :: st.pasts.erase w } := by
  refine .of_sameEpoch rfl rfl rfl (fun _ => id) ?_ (fun _ => id)
  intro key entry landed _ _ hcur
  by_cases hkind : w.kinds key.rel = true
  · exact .inr (.inl ⟨{ w with stored := true }, mem_cons_self, rfl, hkind⟩)
  · refine hcur.imp (fun hfresh => ?_) (Or.imp_left ?_)
    · exact hfresh.of_stateAt (State.stateAt_write fun h => hkind h.1)
    · rintro ⟨v, hv, hstored, hkinds⟩
      have hne : v ≠ w := fun heq => hkind (heq ▸ hkinds)
      exact ⟨v, mem_cons_of_mem _ ((mem_erase_of_ne hne).mpr hv), hstored, hkinds⟩

/-- `bumpRelCuts` advances the epoch of the relationships, and its writer changed no node. -/
theorem Keeps.reportRel {w : PastWriter} (hw : w.report = .bumpRel) :
    Keeps st { st with pasts := st.pasts.erase w, relCutEpoch := st.relCutEpoch + 1 } where
  maxPin := le_rfl
  epoch := le_rfl
  good := fun {key entry landed} h => by
    cases hrel : key.rel with
    | true =>
      refine h.advance le_rfl ?_ id
      simp only [State.cutEpoch, hrel, if_true]
      omega
    | false =>
      refine h.step le_rfl ?_ id (fun _ => Or.imp_right (Or.imp_left ?_)) (fun _ => id)
      · simp only [State.cutEpoch, hrel]
        exact le_rfl
      · rintro ⟨v, hv, hstored, hkinds⟩
        have hne : v ≠ w := by
          rintro rfl
          simp [PastWriter.kinds, hw, hrel] at hkinds
        exact ⟨v, (mem_erase_of_ne hne).mpr hv, hstored, hkinds⟩

theorem keeps_stepForward (e : Event κ α) : Keeps st (stepForward st e) := by
  have hself : Keeps st st := ⟨le_rfl, le_rfl, id⟩
  cases e with
  | draw stamp =>
    simp only [stepForward]
    split_ifs with h
    · refine .of_sameEpoch rfl rfl rfl (fun pin hl => ⟨(hl.1.trans_lt h.1).le, ?_⟩)
        (fun _ _ => id) (fun _ => id)
      exact forall_mem_cons.mpr ⟨hl.1.trans_lt h.1, hl.2⟩
    · exact hself
  | storeForward stamp change =>
    simp only [stepForward]
    split_ifs with h
    · exact .storeForward h
    · exact hself
  | finish stamp =>
    exact .of_sameEpoch rfl rfl rfl (fun pin hl => ⟨hl.1, fun t ht => hl.2 t (mem_of_mem_erase ht)⟩)
      (fun _ _ => id) (fun _ => id)
  | beginTx start =>
    simp only [stepForward]
    split_ifs with h
    · exact .of_sameEpoch rfl rfl rfl (fun pin hl => ⟨(hl.1.trans_lt h.1).le, hl.2⟩)
        (fun _ _ => id) (fun _ => id)
    · exact hself
  | endTx => exact .of_sameEpoch rfl rfl rfl (fun _ => id) (fun _ _ => id) (fun _ => id)
  | _ => exact hself

theorem keeps_stepPast (e : Event κ α) : Keeps st (stepPast st e) := by
  have hself : Keeps st st := ⟨le_rfl, le_rfl, id⟩
  cases e with
  | startPast stamp report =>
    refine .of_sameEpoch rfl rfl rfl (fun _ => id) (fun _ _ => Or.imp_right (Or.imp_left ?_)) (fun _ => id)
    rintro ⟨v, hv, hrest⟩
    exact ⟨v, mem_cons_of_mem _ hv, hrest⟩
  | storePast w change =>
    simp only [stepPast]
    split_ifs
    · exact .storePast
    · exact hself
  | reportPast w =>
    simp only [stepPast]
    split_ifs
    · cases hw : w.report with
      | bump => exact .of_bump rfl rfl rfl rfl rfl
      | bumpRel => exact .reportRel hw
      | clear => exact .of_bump rfl rfl rfl rfl rfl
    · exact hself
  | _ => exact hself

/-- The first access of `noteWriteAt`: no good entry is at a pin the stamp reaches, or the bump follows. -/
theorem Keeps.noteLoad {t : Stamp} {stored : Bool} {note : NotePhase}
    (hlocked : st.locked = some ⟨some t, .toNote, stored⟩)
    (hnote : 0 < t.val ∧ t.val ≤ st.maxPin → note ≠ .noted) :
    Keeps st { st with locked := some ⟨some t, note, stored⟩ } := by
  have hbelow : ∀ {key : Key} {entry : Entry κ α} {landed : Bool}, Good st key entry landed →
      reaches (some t.val) key.pin = true → 0 < t.val ∧ t.val ≤ st.maxPin := by
    intro key entry landed h hreach
    simp only [reaches, all_some, decide_eq_true_eq] at hreach
    exact ⟨t.property, hreach.trans h.pinNoted⟩
  refine .of_sameEpoch rfl rfl rfl (fun _ => id) ?_ ?_
  · intro key entry landed h _
    refine Or.imp_right (Or.imp_right ?_)
    rintro ⟨w, hw, hstored, -, hreach⟩
    obtain rfl : _ = w := some.inj (hlocked.symm.trans hw)
    exact ⟨_, rfl, hstored, hnote (hbelow h hreach), hreach⟩
  · intro key entry landed h _ w hw hnoted hreach
    obtain rfl := some.inj hw
    exact absurd hnoted (hnote (hbelow h hreach))

/-- The holder of the lock stores: after its report only where nothing was read, before it owing one. -/
theorem Keeps.storeLocked (hlocked : st.locked = some w) :
    Keeps st { st.write (fun _ => true) w.start change with
      locked := some { w with stored := true } } := by
  refine .of_sameEpoch rfl rfl rfl (fun _ => id) ?_ ?_
  · intro key entry landed _ hwaits hcur
    by_cases hreach : reaches w.start key.pin = true
    · by_cases hnoted : w.note = .noted
      · exact .inl (.of_nil (hwaits w hlocked hnoted hreach))
      · exact .inr (.inr ⟨_, rfl, rfl, hnoted, hreach⟩)
    · refine hcur.imp (fun hfresh => ?_) (Or.imp_right ?_)
      · have hkeep : ∀ k, (st.write (fun _ => true) w.start change).stateAt key.rel k key.pin =
            st.stateAt key.rel k key.pin := State.stateAt_write fun h => hreach h.2
        exact hfresh.of_stateAt hkeep
      · rintro ⟨v, hv, -, -, hv'⟩
        obtain rfl : w = v := some.inj (hlocked.symm.trans hv)
        exact absurd hv' hreach
  · intro key entry landed _ hwaits v hv hnoted hreach
    obtain rfl := some.inj hv
    exact hwaits w hlocked hnoted hreach

/-- The holder of the lock leaves with nothing to report. -/
theorem Keeps.unlock (hlocked : st.locked = some w) (hdone : w.note = .noted ∨ w.stored = false) :
    Keeps st { st with locked := none } := by
  refine .of_sameEpoch rfl rfl rfl (fun _ => id) (fun _ _ => Or.imp_right (Or.imp_right ?_)) ?_
  · rintro ⟨v, hv, hstored, hnote, -⟩
    obtain rfl : w = v := some.inj (hlocked.symm.trans hv)
    rcases hdone with hnoted | hnot
    · exact absurd hnoted hnote
    · exact absurd hstored (by simp [hnot])
  · intro key entry landed _ _ v hv
    cases hv

theorem keeps_stepLocked (e : Event κ α) : Keeps st (stepLocked st e) := by
  have hself : Keeps st st := ⟨le_rfl, le_rfl, id⟩
  cases e with
  | lock stamp =>
    simp only [stepLocked]
    split_ifs with h
    · refine .of_sameEpoch rfl rfl rfl (fun _ => id) (fun _ _ => Or.imp_right (Or.imp_right ?_)) ?_
      · rintro ⟨w, hw, -⟩
        exact nomatch h.1.symm.trans hw
      · intro key entry landed _ _ w hw hnoted
        obtain rfl := some.inj hw
        cases hnoted
    · exact hself
  | noteApplied =>
    simp only [stepLocked]
    split
    · split_ifs
      · exact hself
      · exact .of_bump rfl rfl rfl rfl rfl
      · exact .of_builder le_rfl rfl rfl rfl rfl rfl rfl rfl
    · exact hself
  | noteLoad =>
    simp only [stepLocked]
    split
    · next t stored heq =>
      refine .noteLoad heq fun hpin => ?_
      rw [if_pos hpin]
      nofun
    · exact hself
  | noteBump =>
    simp only [stepLocked]
    split
    · exact .of_bump rfl rfl rfl rfl rfl
    · exact .of_bump rfl rfl rfl rfl rfl
    · exact hself
  | storeLocked change =>
    simp only [stepLocked]
    split
    · next w heq => exact .storeLocked heq
    · exact hself
  | unlock =>
    simp only [stepLocked]
    split
    · next heq => exact .unlock heq (.inl rfl)
    · next heq => exact .unlock heq (.inr rfl)
    · exact hself
  | _ => exact hself

/-! ### The builders -/

/-- Reading one more entity. -/
theorem Good.read {values : List α} {k : κ} (h : Good st key ⟨ids, values, epoch⟩ landed)
    (hk : ids[values.length]? = some k) (hlocked : st.locked = none) (hlanded : Landed st key.pin) :
    Good st key ⟨ids, values ++ [st.stateAt key.rel k key.pin], epoch⟩ landed where
  pinNoted := h.pinNoted
  epoch_le := h.epoch_le
  current := fun heq => (h.current heq).imp_left fun hfresh => by
    have htake : ids.take (values.length + 1) = ids.take values.length ++ [k] := by
      rw [take_add_one, hk]
      rfl
    simp only [Fresh, length_append, length_singleton, htake, map_append,
      map_singleton]
    exact congrArg (· ++ _) hfresh
  hasLanded := fun _ => hlanded
  waits := fun _ w hw => nomatch hlocked.symm.trans hw

/-- The condition under which columns are fresh: each of their reads is made when the pin has landed. -/
def ColumnsLanded (st : State κ α) : Event κ α → Prop
  | .read b =>
    match st.builders b with
    | .reading key _ _ _ _ => key.path = .columns → Landed st key.pin
    | _ => True
  | _ => True

theorem landed_of_pinLanded {busy : Bool} (h : st.pinLanded pin busy = true) : Landed st pin := by
  simp only [State.pinLanded, Bool.and_eq_true, decide_eq_true_eq, List.isEmpty_iff] at h
  refine ⟨h.1.2, fun t ht => ?_⟩
  rw [h.1.1.2] at ht
  cases ht

/-- A build that stores its result makes a good entry. -/
theorem Inv.put (h : Inv st) (hgood : Good st key entry landed)
    (hlen : entry.values.length = entry.ids.length) :
    Inv { st with cache := Function.update st.cache key (some entry) } := by
  have hkeeps : Keeps st { st with cache := update st.cache key (some entry) } :=
    .of_builder le_rfl rfl rfl rfl rfl rfl rfl rfl
  refine ⟨fun b => hkeeps.builderOk (h.builders b), fun key' entry' hentry => ?_⟩
  by_cases hkey : key' = key
  · subst hkey
    have hentry : update st.cache key' (some entry) key' = some entry' := hentry
    rw [update_self] at hentry
    obtain rfl := some.inj hentry
    exact ⟨{ hkeeps.good hgood with hasLanded := fun hl => hgood.hasLanded (.inr (hl.resolve_left nofun)) },
      hlen⟩
  · have hentry : update st.cache key (some entry) key' = some entry' := hentry
    rw [update_of_ne hkey] at hentry
    exact ⟨hkeeps.good (h.cache key' entry' hentry).1, (h.cache key' entry' hentry).2⟩

theorem Inv.stepBuilder (h : Inv st) (b : Nat) (e : Event κ α)
    (hb : ∀ b', e = .read b' → b' = b ∧ ColumnsLanded st e) : Inv (stepBuilder st b e) := by
  have hat := h.builders b
  cases e with
  | notePin b' key ids =>
    simp only [AsOf.stepBuilder]
    split
    · split_ifs
      · exact h
      · have hkeeps : Keeps st (st.notePin key.pin) :=
          .of_builder (le_max_left _ _) rfl rfl rfl rfl rfl rfl rfl
        exact (h.keeps hkeeps rfl fun _ _ => id).setBuilder (le_max_right _ _)
    · exact h
  | loadEpoch b' =>
    simp only [AsOf.stepBuilder]
    split
    · next key ids heq =>
      rw [heq] at hat
      exact h.setBuilder ⟨hat, le_rfl⟩
    · exact h
  | loadRelEpoch b' =>
    simp only [AsOf.stepBuilder]
    split
    · next key ids low heq =>
      rw [heq] at hat
      refine h.setBuilder (Good.nil hat.1 ?_ nofun)
      exact Nat.add_le_add_right hat.2 _
    · exact h
  | checkLanded b' busy =>
    simp only [AsOf.stepBuilder]
    split
    · next key ids epoch heq =>
      rw [heq] at hat
      have hgood : ∀ l, (l = true → st.pinLanded key.pin busy = true) →
          Good st key ⟨ids, [], epoch⟩ l := fun l hl =>
        Good.nil hat.pinNoted hat.epoch_le fun htrue => landed_of_pinLanded (hl htrue)
      split
      · next hpath =>
        exact h.setBuilder ⟨hat.pinNoted, fun hcut => absurd (hpath.symm.trans hcut) nofun,
          fun _ => hgood false nofun⟩
      · split_ifs with hl
        · exact h.setBuilder ⟨hat.pinNoted, fun _ => rfl, fun _ => hgood true fun _ => hl⟩
        · exact h.setBuilder trivial
      · next hpath =>
        exact h.setBuilder ⟨hat.pinNoted, fun hcut => absurd (hpath.symm.trans hcut) nofun,
          fun _ => hgood _ id⟩
    · exact h
  | read b' =>
    obtain ⟨rfl, hcols⟩ := hb b' rfl
    simp only [AsOf.stepBuilder]
    split
    · next key ids epoch landed values heq hlocked =>
      rw [heq] at hat
      simp only [ColumnsLanded, heq] at hcols
      split
      · next k hk =>
        refine h.setBuilder ⟨hat.1, hat.2.1, fun hs => ?_⟩
        have hgood := hat.2.2 hs
        refine hgood.read hk hlocked ?_
        cases hpath : key.path with
        | columns => exact hcols hpath
        | cut => exact hgood.hasLanded (.inl (hat.2.1 hpath))
        | memo => exact hgood.hasLanded (.inl (hs hpath))
      · exact h
    · exact h
  | reloadEpoch b' =>
    simp only [AsOf.stepBuilder]
    split
    · next key ids epoch landed values heq =>
      rw [heq] at hat
      split_ifs with hlen
      · exact h.setBuilder ⟨hat.1, hlen, hat.2.2⟩
      · exact h
    · exact h
  | reloadRelEpoch b' =>
    simp only [AsOf.stepBuilder]
    split
    · next key entry landed low heq =>
      rw [heq] at hat
      by_cases heq' : low + (if key.rel then st.relCutEpoch else 0) = entry.epoch
      · rw [if_pos heq']
        exact h.setBuilder hat
      · rw [if_neg heq']
        split
        · exact h.setBuilder hat.1
        · exact h.setBuilder trivial
    · exact h
  | put b' =>
    simp only [AsOf.stepBuilder]
    split
    · next key entry landed heq =>
      rw [heq] at hat
      have hidle : Inv (st.setBuilder b .idle) := h.setBuilder trivial
      split_ifs with hdrop
      · exact hidle
      · have hstores : Stores key landed := fun hmemo =>
          Bool.not_eq_false _ ▸ fun hfalse => hdrop ⟨hmemo, hfalse⟩
        have hkeeps : Keeps st (st.setBuilder b .idle) :=
          .of_builder le_rfl rfl rfl rfl rfl rfl rfl rfl
        exact hidle.put (hkeeps.good (hat.2.2 hstores)) hat.2.1
    · exact h
  | abandon b' => exact h.setBuilder trivial
  | _ => exact h

/-! ### Every interleaving -/

/-- No step of a writer moves a builder or puts an entry in the cache. -/
theorem stepForward_frame (e : Event κ α) :
    (stepForward st e).builders = st.builders ∧ (stepForward st e).cache = st.cache := by
  cases e with
  | draw | storeForward | beginTx =>
    simp only [stepForward]
    split <;> exact ⟨rfl, rfl⟩
  | _ => exact ⟨rfl, rfl⟩

theorem stepPast_frame (e : Event κ α) : (stepPast st e).builders = st.builders ∧
    ∀ key entry, (stepPast st e).cache key = some entry → st.cache key = some entry := by
  cases e with
  | storePast w change =>
    simp only [stepPast]
    split_ifs <;> exact ⟨rfl, fun _ _ => id⟩
  | reportPast w =>
    simp only [stepPast]
    split_ifs
    · cases w.report with
      | bump | bumpRel => exact ⟨rfl, fun _ _ => id⟩
      | clear => exact ⟨rfl, nofun⟩
    · exact ⟨rfl, fun _ _ => id⟩
  | _ => exact ⟨rfl, fun _ _ => id⟩

theorem stepLocked_frame (e : Event κ α) :
    (stepLocked st e).builders = st.builders ∧ (stepLocked st e).cache = st.cache := by
  cases e with
  | lock | noteLoad | noteBump | storeLocked | unlock =>
    simp only [stepLocked]
    split <;> exact ⟨rfl, rfl⟩
  | noteApplied =>
    simp only [stepLocked]
    split
    · split_ifs <;> exact ⟨rfl, rfl⟩
    · exact ⟨rfl, rfl⟩
  | _ => exact ⟨rfl, rfl⟩

/-- One step of any thread keeps the invariant. -/
theorem Inv.step (h : Inv st) {e : Event κ α} (hok : ColumnsLanded st e) : Inv (step st e) := by
  have hbuilder : ∀ b, (∀ b', e ≠ .read b') → Inv (AsOf.stepBuilder st b e) := fun b hne =>
    h.stepBuilder b e fun b' hb' => absurd hb' (hne b')
  have hforward : Inv (stepForward st e) := by
    refine h.keeps (keeps_stepForward e) (stepForward_frame e).1 fun _ _ hc => ?_
    rwa [(stepForward_frame e).2] at hc
  have hpast : Inv (stepPast st e) :=
    h.keeps (keeps_stepPast e) (stepPast_frame e).1 (stepPast_frame e).2
  have hlocked : Inv (stepLocked st e) := by
    refine h.keeps (keeps_stepLocked e) (stepLocked_frame e).1 fun _ _ hc => ?_
    rwa [(stepLocked_frame e).2] at hc
  cases e with
  | notePin b | loadEpoch b | loadRelEpoch b | checkLanded b | reloadEpoch b | reloadRelEpoch b
  | put b | abandon b => exact hbuilder b (fun _ => nofun)
  | read b =>
    refine h.stepBuilder b (.read b) fun b' hb' => ⟨?_, hok⟩
    exact (Event.read.inj hb').symm
  | evict key =>
    have hkeeps : Keeps st { st with cache := update st.cache key none } :=
      .of_builder le_rfl rfl rfl rfl rfl rfl rfl rfl
    refine h.keeps hkeeps rfl fun key' entry hentry => ?_
    have hentry : update st.cache key none key' = some entry := hentry
    by_cases hkey : key' = key
    · rw [hkey, update_self] at hentry
      cases hentry
    · rwa [update_of_ne hkey] at hentry
  | draw | storeForward | finish | beginTx | endTx => exact hforward
  | startPast | storePast | reportPast => exact hpast
  | lock | noteApplied | noteLoad | noteBump | storeLocked | unlock => exact hlocked

/-- The states before any thread runs. -/
def IsInit (st : State κ α) : Prop := ∃ lastInstant stateAt, st = State.init lastInstant stateAt

theorem inv_of_reachable (h : Runs.Reachable IsInit (Runs.Guarded step ColumnsLanded) st) :
    Inv st := by
  refine h.invariant ?_ ?_
  · rintro s ⟨lastInstant, stateAt, rfl⟩
    exact ⟨fun _ => trivial, nofun⟩
  · rintro s e s' - hinv ⟨hok, rfl⟩
    exact hinv.step hok

/-- No writer is between its store and its report. -/
def Quiet (st : State κ α) : Prop :=
  (∀ w ∈ st.pasts, w.stored = false) ∧ ∀ w ∈ st.locked, w.stored = false ∨ w.note = .noted

theorem Quiet.not_unreported (h : Quiet st) : ¬Unreported st key := by
  rintro (⟨w, hw, hstored, -⟩ | ⟨w, hw, hstored, hnote, -⟩)
  · exact absurd hstored (by simp [h.1 w hw])
  · rcases h.2 w hw with hnot | hnoted
    · exact absurd hstored (by simp [hnot])
    · exact hnote hnoted

/-- **Cached answers at a pin are not stale**, along every interleaving in which columns are read when
the pin has landed: whenever no writer is between its store and its report, an entry of the current epoch
holds the state at its pin. -/
theorem cached_entry_fresh (st : State κ α)
    (hreach : Runs.Reachable IsInit (Runs.Guarded step ColumnsLanded) st) (hquiet : Quiet st)
    (key : Key) (entry : Entry κ α) (hentry : st.cache key = some entry)
    (hepoch : entry.epoch = st.cutEpoch key.rel) :
    entry.values = entry.ids.map fun k => st.stateAt key.rel k key.pin := by
  obtain ⟨hgood, hlen⟩ := (inv_of_reachable hreach).cache key entry hentry
  have hfresh := (hgood.current hepoch).resolve_right hquiet.not_unreported
  rwa [Fresh, hlen, take_length] at hfresh

/-- The accesses of one column build with a single entity. -/
def buildColumns (pin : Int) : List (Event Unit Nat) :=
  [.notePin 0 ⟨.columns, 1, false, pin⟩ [()], .loadEpoch 0, .loadRelEpoch 0, .checkLanded 0 false,
    .read 0, .reloadEpoch 0, .reloadRelEpoch 0, .put 0]

/-- A forward writer from its stamp to its end. -/
def writeForward (stamp : Int) : List (Event Unit Nat) :=
  [.draw stamp, .storeForward stamp (fun _ _ _ => some 1), .finish stamp]

instance (pin : Int) (st : State κ α) : Decidable (Landed st pin) :=
  inferInstanceAs (Decidable (_ ∧ _))

instance (st : State κ α) : Decidable (Quiet st) := inferInstanceAs (Decidable (_ ∧ _))

instance (st : State κ α) (e : Event κ α) : Decidable (ColumnsLanded st e) := by
  unfold ColumnsLanded
  split
  · split <;> infer_instance
  · infer_instance

/-- A column set built at the clock's instant stays right when the next write is stored. -/
theorem cached_entry_fresh_atClock :
    let st := (buildColumns 5 ++ writeForward 6).foldl step (State.init 5 fun _ _ _ => 0)
    st.cache ⟨.columns, 1, false, 5⟩ = some ⟨[()], [0], 0⟩ ∧
      [0] = [()].map fun k => st.stateAt false k 5 := by
  refine ⟨by decide +kernel, ?_⟩
  exact cached_entry_fresh _ (.foldl (.start ⟨5, _, rfl⟩) (by decide +kernel))
    (by decide +kernel) ⟨.columns, 1, false, 5⟩ ⟨[()], [0], 0⟩ (by decide +kernel) (by decide +kernel)

/-- A column set built at a pin above the clock is cached, and the next write is stamped below the pin
and reports nothing: the entry is of the current epoch and no longer the state at its pin. -/
theorem stale_columns_above_clock :
    let st := (buildColumns 100 ++ writeForward 6).foldl step (State.init 5 fun _ _ _ => 0)
    Runs.Reachable IsInit (Runs.Guarded step fun _ _ => True) st ∧ Quiet st ∧
      st.cache ⟨.columns, 1, false, 100⟩ = some ⟨[()], [0], 0⟩ ∧ st.cutEpoch false = 0 ∧
      [0] ≠ [()].map fun k => st.stateAt false k 100 := by
  refine ⟨.foldl (.start ⟨5, _, rfl⟩) ?_, ?_, ?_, ?_, ?_⟩
  all_goals decide +kernel

end AsOf
end RhoTkg
