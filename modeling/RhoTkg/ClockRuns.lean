import RhoTkg.Clock

/-!
# Runs of the commit clock

A `System` is a store's durable watermark and at most one open session.  Its events are the calls
that touch the clock, `Close`, `Reset`, a crash between any two of them, and a reopen under any
answer of `MetaGet`.  Two history variables record what the guarantee speaks about: `issued`, the
instants the session has handed out, oldest first, and `covered`, the stamps its instants have to
exceed --- those of the rows that survived, and after a clean close whose watermark was read back,
every instant of the session before.

The invariant is `Session.Inv`: the floor bounds everything handed out and everything covered, so
the next instant is above both, except at the ceiling.  There the reopened clock is not marked
exhausted, and its first write repeats the stamp `math.MaxInt64`.
-/

namespace RhoTkg

open List

/-- What `now` does to the floor: it hands out an instant above it, or the floor is the ceiling
and the ceiling is handed out again. -/
theorem Clock.now_cases (c : Clock) {observed : Int} (hc : InRange c.lastInstant)
    (ho : observed ≤ maxInt64) :
    (c.lastInstant < (c.now observed).2 ∧ (c.now observed).2 ≤ maxInt64 ∧
      (c.now observed).1.lastInstant = (c.now observed).2) ∨
    (c.lastInstant = maxInt64 ∧ (c.now observed).2 = maxInt64 ∧
      (c.now observed).1.lastInstant = maxInt64) := by
  unfold now
  by_cases hle : observed ≤ c.lastInstant
  · by_cases hm : c.lastInstant = maxInt64
    · rw [if_pos hle, if_pos hm]
      exact .inr ⟨hm, rfl, hm⟩
    · have hlt : c.lastInstant < maxInt64 := lt_of_le_of_ne hc.2 hm
      rw [if_pos hle, if_neg hm, wrap64_succ_of_lt_max hc hlt]
      exact .inl ⟨Int.lt_succ _, hlt, rfl⟩
  · rw [if_neg hle]
    exact .inl ⟨not_le.mp hle, ho, rfl⟩

/-- The ceiling is never handed out without marking the clock exhausted, and the mark stays. -/
theorem Clock.now_clockExhausted (c : Clock) (observed : Int) :
    (c.now observed).1.clockExhausted = (c.clockExhausted || (c.now observed).2 == maxInt64) := by
  unfold now
  split
  · split
    · simp
    · rfl
  · rfl

/-- An open session: its clock, and the history variables of its run. -/
structure Session where
  clock : Clock
  issued : List Int
  covered : List Int
deriving DecidableEq, Repr

/-- A store and the session that has it open.  `handedOver` holds what the last session handed
out when its `Close` persisted the floor, and nothing otherwise. -/
structure System where
  watermark : List UInt8
  handedOver : List Int
  session : Option Session
deriving DecidableEq, Repr

/-- What `MetaGet` answers at open: the stored blob, an error, or a blob that rotted on disk. -/
inductive MetaGet where
  | stored
  | unreadable
  | rotted (v : List UInt8)
deriving DecidableEq, Repr

/-- The blob `seedInstantFloor` receives. -/
def MetaGet.read (watermark : List UInt8) : MetaGet → Option (List UInt8)
  | .stored => some watermark
  | .unreadable => none
  | .rotted v => some v

/-- The rows that survived into a reopen: their transaction stamps, and the store's commit floor,
which is at least every one of them. -/
structure StoredRows where
  stamps : List Int64
  commitFloor : Int64
  stamps_le : ∀ s ∈ stamps, s.toInt ≤ commitFloor.toInt

/-- The events of a run.  `metaSet` says whether the `MetaSet` of the watermark succeeds. -/
inductive ClockEvent where
  | now (wall : Int64)
  | advanceClockFloor (wall target : Int64)
  | advanceInstantFloor (inst : Int64)
  | reset (metaSet : Bool)
  | close (metaSet : Bool)
  | crash
  | reopen (wall : Int64) (metaGet : MetaGet) (rows : StoredRows)

/-- The clock of a session `New` opens: the watermark is seeded first, then the commit floor. -/
def openClock (watermark : List UInt8) (wall : Int64) (metaGet : MetaGet) (rows : StoredRows) :
    Clock :=
  (Clock.fresh.seedInstantFloor wall.toInt (metaGet.read watermark)).advanceInstantFloor
    rows.commitFloor.toInt

/-- The watermark was read back as the last `Close` wrote it and was accepted. -/
def watermarkRead (watermark : List UInt8) (wall : Int64) (metaGet : MetaGet) : Bool :=
  metaGet == .stored &&
    !(Clock.fresh.seedInstantFloor wall.toInt (metaGet.read watermark)).floorSeedUnreadable

/-- What a session's `Close` promises the next one: everything it handed out, when it wrote the
watermark. -/
def Session.handOver (s : Session) (metaSet : Bool) : List Int :=
  if !s.clock.floorSeedUnreadable && metaSet then s.issued else []

/-- One event; `none` when it cannot happen in this state. -/
def System.step (s : System) (e : ClockEvent) : Option System :=
  match e, s.session with
  | .now wall, some ses =>
    let (clock, inst) := ses.clock.now wall.toInt
    some { s with session := some { ses with clock, issued := ses.issued ++ [inst] } }
  | .advanceClockFloor wall target, some ses =>
    match ses.clock.advanceClockFloor wall.toInt target.toInt with
    | .ok (clock, _) => some { s with session := some { ses with clock } }
    | .error _ => some s
  | .advanceInstantFloor inst, some ses =>
    some { s with session := some { ses with clock := ses.clock.advanceInstantFloor inst.toInt } }
  | .reset metaSet, some ses =>
    let (clock, watermark) := ses.clock.restoreInstantFloorAfterReset metaSet
    some { s with watermark, session := some { ses with clock } }
  | .close metaSet, some ses =>
    some
      { watermark := ses.clock.persistInstantFloor metaSet s.watermark
        handedOver := ses.handOver metaSet
        session := none }
  | .crash, some _ => some { s with handedOver := [], session := none }
  | .reopen wall metaGet rows, none =>
    some
      { s with
        handedOver := []
        session := some
          { clock := openClock s.watermark wall metaGet rows
            issued := []
            covered := rows.stamps.map Int64.toInt ++
              if watermarkRead s.watermark wall metaGet then s.handedOver else [] } }
  | _, _ => none

/-- A store before its first session, with any bytes under the watermark key. -/
def System.Initial (s : System) : Prop := s.handedOver = [] ∧ s.session = none

/-- The states of all runs of the clock. -/
abbrev System.Reachable : System → Prop :=
  Runs.Reachable System.Initial fun s e s' => s.step e = some s'

/-! ## The invariant -/

/-- What holds in an open session. -/
structure Session.Inv (s : Session) : Prop where
  last_nonneg : 0 ≤ s.clock.lastInstant
  last_le : s.clock.lastInstant ≤ maxInt64
  increasing : s.issued.Pairwise fun a b => a < b ∨ a = maxInt64
  issued_pos : ∀ x ∈ s.issued, 0 < x
  issued_le : ∀ x ∈ s.issued, x ≤ s.clock.lastInstant
  exhausted : maxInt64 ∈ s.issued → s.clock.clockExhausted = true
  covered_le : ∀ y ∈ s.covered, y ≤ s.clock.lastInstant
  covered_lt : ∀ y ∈ s.covered, ∀ x ∈ s.issued, y < x ∨ x = maxInt64

/-- What the durable half promises: the watermark is the encoding of a floor that bounds whatever
the last session handed over. -/
def System.HandOverInv (s : System) : Prop :=
  s.handedOver ≠ [] → ∃ floor, s.watermark = Clock.putUint64 floor ∧ 0 < floor ∧
    floor ≤ maxInt64 ∧ ∀ x ∈ s.handedOver, x ≤ floor

/-- The invariant of all runs. -/
structure System.Inv (s : System) : Prop where
  session : ∀ ses, s.session = some ses → ses.Inv
  open_nil : ∀ ses, s.session = some ses → s.handedOver = []
  handOver : s.HandOverInv

variable {s ses : Session} {clock : Clock} {floor : Int} {wall : Int64}

theorem Session.Inv.inRange (h : s.Inv) : InRange s.clock.lastInstant :=
  ⟨le_trans (by decide) h.last_nonneg, h.last_le⟩

/-- A clock whose floor and exhausted mark only went up keeps the invariant. -/
theorem Session.Inv.of_floor_le (h : s.Inv) (hle : s.clock.lastInstant ≤ clock.lastInstant)
    (hmax : clock.lastInstant ≤ maxInt64)
    (hex : s.clock.clockExhausted = true → clock.clockExhausted = true) :
    Session.Inv { s with clock } where
  last_nonneg := h.last_nonneg.trans hle
  last_le := hmax
  increasing := h.increasing
  issued_pos := h.issued_pos
  issued_le x hx := (h.issued_le x hx).trans hle
  exhausted hx := hex (h.exhausted hx)
  covered_le y hy := (h.covered_le y hy).trans hle
  covered_lt := h.covered_lt

/-- Recording an instant `x` the floor has reached: it must be above what was handed out and
covered before, unless it is the ceiling. -/
theorem Session.Inv.record (h : s.Inv) {x : Int} (hpos : 0 < x) (hle : x ≤ s.clock.lastInstant)
    (hex : x = maxInt64 → s.clock.clockExhausted = true)
    (hissued : ∀ a ∈ s.issued, a < x ∨ a = maxInt64)
    (hcovered : ∀ y ∈ s.covered, y < x ∨ x = maxInt64) :
    Session.Inv { s with issued := s.issued ++ [x] } where
  last_nonneg := h.last_nonneg
  last_le := h.last_le
  increasing := by
    refine pairwise_append.mpr ⟨h.increasing, pairwise_singleton _ _, ?_⟩
    intro a ha b hb
    rw [mem_singleton] at hb
    exact hb ▸ hissued a ha
  issued_pos y hy := by
    rcases mem_append.mp hy with hy | hy
    · exact h.issued_pos y hy
    · exact mem_singleton.mp hy ▸ hpos
  issued_le y hy := by
    rcases mem_append.mp hy with hy | hy
    · exact h.issued_le y hy
    · exact mem_singleton.mp hy ▸ hle
  exhausted hy := by
    rcases mem_append.mp hy with hy | hy
    · exact h.exhausted hy
    · exact hex (mem_singleton.mp hy).symm
  covered_le := h.covered_le
  covered_lt y hy z hz := by
    rcases mem_append.mp hz with hz | hz
    · exact h.covered_lt y hy z hz
    · exact mem_singleton.mp hz ▸ hcovered y hy

/-- A reading leaves the invariant in place: it is above the floor, or it repeats the ceiling. -/
theorem Session.Inv.now (h : s.Inv) (wall : Int64) :
    Session.Inv
      { s with
        clock := (s.clock.now wall.toInt).1
        issued := s.issued ++ [(s.clock.now wall.toInt).2] } := by
  have hnonneg := h.last_nonneg
  have hexh := s.clock.now_clockExhausted wall.toInt
  have hkeep : s.clock.clockExhausted = true →
      (s.clock.now wall.toInt).1.clockExhausted = true := fun hc => by simp [hexh, hc]
  have hceil : (s.clock.now wall.toInt).2 = maxInt64 →
      (s.clock.now wall.toInt).1.clockExhausted = true := fun hx => by simp [hexh, hx]
  rcases s.clock.now_cases h.inRange (inRange_toInt wall).2 with
    ⟨hlt, hmax, hlast⟩ | ⟨hm, hx, hlast⟩
  · refine Session.Inv.record (h.of_floor_le (by omega) (by omega) hkeep) (by omega)
      hlast.ge hceil (fun a ha => ?_) (fun y hy => ?_)
    · exact .inl (lt_of_le_of_lt (h.issued_le a ha) hlt)
    · exact .inl (lt_of_le_of_lt (h.covered_le y hy) hlt)
  · refine Session.Inv.record (h.of_floor_le (by omega) (by omega) hkeep)
      (by rw [hx]; decide) (hx.trans hlast.symm).le hceil (fun a ha => ?_)
      (fun y _ => .inr hx)
    rw [hx]
    exact lt_or_eq_of_le ((h.issued_le a ha).trans hm.le)

/-! ## Opening a session -/

theorem Clock.advanceInstantFloor_lastInstant (c : Clock) (inst : Int) :
    (c.advanceInstantFloor inst).lastInstant =
      if inst ≤ 0 then c.lastInstant else max c.lastInstant inst := by
  unfold advanceInstantFloor
  split
  · rfl
  · rw [raise_lastInstant]

@[simp] theorem Clock.advanceInstantFloor_clockExhausted (c : Clock) (inst : Int) :
    (c.advanceInstantFloor inst).clockExhausted = c.clockExhausted := by
  unfold advanceInstantFloor
  split
  · rfl
  · rw [raise_clockExhausted]

/-- Raising the floor to an `int64` never lowers it and never leaves the range. -/
theorem Clock.advanceInstantFloor_bounds (c : Clock) {inst : Int} (hc : c.lastInstant ≤ maxInt64)
    (hi : inst ≤ maxInt64) :
    c.lastInstant ≤ (c.advanceInstantFloor inst).lastInstant ∧
      (c.advanceInstantFloor inst).lastInstant ≤ maxInt64 := by
  rw [advanceInstantFloor_lastInstant]
  split <;> omega

theorem Clock.uint64_le (v : List UInt8) : uint64 v ≤ maxInt64 := (inRange_wrap64 _).2

/-- Seeding from the watermark leaves a floor in range, whatever `MetaGet` answers. -/
theorem Clock.seedInstantFloor_bounds (wall : Int) (v : Option (List UInt8)) :
    0 ≤ (fresh.seedInstantFloor wall v).lastInstant ∧
      (fresh.seedInstantFloor wall v).lastInstant ≤ maxInt64 := by
  have hfresh : 0 ≤ fresh.lastInstant ∧ fresh.lastInstant ≤ maxInt64 := by decide
  unfold seedInstantFloor
  split
  · exact hfresh
  · rename_i v
    have hadv := fresh.advanceInstantFloor_bounds hfresh.2 (uint64_le v)
    split
    · exact hfresh
    · split
      · exact hfresh
      · split
        · exact ⟨hfresh.1.trans hadv.1, hadv.2⟩
        · exact hfresh

/-- A watermark that was read back and accepted puts the floor at or above the persisted one. -/
theorem le_seedInstantFloor_of_watermarkRead {metaGet : MetaGet} (hpos : 0 < floor)
    (hmax : floor ≤ maxInt64) (h : watermarkRead (Clock.putUint64 floor) wall metaGet = true) :
    floor ≤ (Clock.fresh.seedInstantFloor wall.toInt
      (metaGet.read (Clock.putUint64 floor))).lastInstant := by
  rw [watermarkRead, Bool.and_eq_true, beq_iff_eq, Bool.not_eq_true'] at h
  obtain ⟨rfl, hread⟩ := h
  have hval : Clock.uint64 (Clock.putUint64 floor) = floor := Clock.uint64_putUint64 hpos.le hmax
  have hseed : Clock.fresh.seedInstantFloor wall.toInt
      (MetaGet.stored.read (Clock.putUint64 floor)) =
      if Clock.plausibleForeignStamp wall.toInt floor then Clock.fresh.advanceInstantFloor floor
      else { Clock.fresh with floorSeedUnreadable := true } := by
    simp [MetaGet.read, Clock.seedInstantFloor, hval, not_le.mpr hpos]
  rw [hseed] at hread ⊢
  split at hread
  · rename_i hp
    rw [if_pos hp, Clock.advanceInstantFloor_lastInstant, if_neg (not_le.mpr hpos)]
    exact le_max_right _ _
  · exact absurd hread (by simp)

/-- A reopened session starts in the invariant: its floor bounds every stamp it has to exceed. -/
theorem System.Inv.reopen {s : System} (h : s.Inv) (wall : Int64) (metaGet : MetaGet)
    (rows : StoredRows) :
    Session.Inv
      { clock := openClock s.watermark wall metaGet rows
        issued := []
        covered := rows.stamps.map Int64.toInt ++
          if watermarkRead s.watermark wall metaGet then s.handedOver else [] } := by
  have hseed := Clock.seedInstantFloor_bounds wall.toInt (metaGet.read s.watermark)
  have hopen := Clock.advanceInstantFloor_bounds _ hseed.2 (inRange_toInt rows.commitFloor).2
  refine ⟨hseed.1.trans hopen.1, hopen.2, Pairwise.nil, by simp, by simp, by simp,
    fun y hy => ?_, by simp⟩
  rcases mem_append.mp hy with hy | hy
  · obtain ⟨st, hst, rfl⟩ := mem_map.mp hy
    have hle := rows.stamps_le st hst
    have hlast := Clock.advanceInstantFloor_lastInstant
      (Clock.fresh.seedInstantFloor wall.toInt (metaGet.read s.watermark)) rows.commitFloor.toInt
    simp only [openClock, hlast]
    split <;> omega
  · split at hy
    · rename_i hread
      obtain ⟨floor, hw, hpos, hmax, hbound⟩ := h.handOver (ne_nil_of_mem hy)
      rw [hw] at hread hopen
      have hfloor := le_seedInstantFloor_of_watermarkRead hpos hmax hread
      simp only [openClock, hw]
      exact (hbound y hy).trans (hfloor.trans hopen.1)
    · exact absurd hy (by simp)

/-! ## Every step keeps the invariant -/

theorem System.inv_of_open (hses : ses.Inv) (watermark : List UInt8) :
    System.Inv { watermark, handedOver := [], session := some ses } where
  session _ hs := Option.some.inj hs ▸ hses
  open_nil _ _ := rfl
  handOver hne := absurd rfl hne

/-- What `Close` hands over is bounded by the floor it persists. -/
theorem Session.Inv.handOverInv_close (h : ses.Inv) (metaSet : Bool) (watermark : List UInt8) :
    System.HandOverInv
      { watermark := ses.clock.persistInstantFloor metaSet watermark
        handedOver := ses.handOver metaSet
        session := none } := by
  intro hne
  by_cases hp : (!ses.clock.floorSeedUnreadable && metaSet) = true
  · have hho : ses.handOver metaSet = ses.issued := by rw [Session.handOver, if_pos hp]
    rw [Bool.and_eq_true, Bool.not_eq_true'] at hp
    simp only [hho] at hne ⊢
    obtain ⟨x, hx⟩ := exists_mem_of_ne_nil _ hne
    have hpos : 0 < ses.clock.lastInstant :=
      lt_of_lt_of_le (h.issued_pos x hx) (h.issued_le x hx)
    refine ⟨ses.clock.lastInstant, ?_, hpos, h.last_le, h.issued_le⟩
    simp [Clock.persistInstantFloor, Clock.writeInstantFloor, hp.1, hp.2, not_le.mpr hpos]
  · exact absurd (by rw [Session.handOver, if_neg hp]) hne

/-- The doors that raise the floor keep the session's invariant. -/
theorem Session.Inv.advanceInstantFloor (h : ses.Inv) (inst : Int64) :
    Session.Inv { ses with clock := ses.clock.advanceInstantFloor inst.toInt } := by
  have hb := ses.clock.advanceInstantFloor_bounds h.last_le (inRange_toInt inst).2
  exact h.of_floor_le hb.1 hb.2 (by simp)

theorem Session.Inv.advanceClockFloor (h : ses.Inv) {target : Int64}
    (hok : ses.clock.advanceClockFloor wall.toInt target.toInt = .ok (clock, floor)) :
    Session.Inv { ses with clock } := by
  unfold Clock.advanceClockFloor at hok
  split at hok
  · cases hok
  · obtain ⟨rfl, -⟩ := Prod.mk.inj (Except.ok.inj hok)
    have ht := (inRange_toInt target).2
    have hl := h.last_le
    exact h.of_floor_le (by rw [Clock.raise_lastInstant]; omega)
      (by rw [Clock.raise_lastInstant]; omega) (by simp)

/-- `Reset` rewrites the watermark and the unreadable mark; the floor stays. -/
theorem Session.Inv.reset (h : ses.Inv) (metaSet : Bool) :
    Session.Inv { ses with clock := (ses.clock.restoreInstantFloorAfterReset metaSet).1 } := by
  unfold Clock.restoreInstantFloorAfterReset
  split
  · exact h.of_floor_le le_rfl h.last_le id
  · exact h

theorem System.Inv.step {s s' : System} {e : ClockEvent} (h : s.Inv) (hstep : s.step e = some s') :
    s'.Inv := by
  obtain ⟨watermark, handedOver, session⟩ := s
  cases session with
  | none =>
    cases e with
    | reopen wall metaGet rows =>
      cases hstep
      exact System.inv_of_open (h.reopen wall metaGet rows) watermark
    | _ => cases hstep
  | some ses =>
    have hses : ses.Inv := h.session ses rfl
    obtain rfl : handedOver = [] := h.open_nil ses rfl
    cases e with
    | now wall =>
      cases hstep
      exact System.inv_of_open (hses.now wall) watermark
    | advanceClockFloor wall target =>
      simp only [System.step] at hstep
      split at hstep
      · rename_i clock floor hok
        cases hstep
        exact System.inv_of_open (hses.advanceClockFloor hok) watermark
      · cases hstep
        exact h
    | advanceInstantFloor inst =>
      cases hstep
      exact System.inv_of_open (hses.advanceInstantFloor inst) watermark
    | reset metaSet =>
      cases hstep
      exact System.inv_of_open (hses.reset metaSet) _
    | close metaSet =>
      cases hstep
      exact ⟨by simp, by simp, hses.handOverInv_close metaSet watermark⟩
    | crash =>
      cases hstep
      exact ⟨by simp, by simp, fun hne => absurd rfl hne⟩
    | reopen wall metaGet rows => cases hstep

/-- Every state of every run of the clock satisfies the invariant. -/
theorem System.Reachable.inv {s : System} (h : s.Reachable) : s.Inv := by
  refine Runs.Reachable.invariant ?_ (fun _ _ _ _ hs hstep => hs.step hstep) h
  rintro ⟨watermark, handedOver, session⟩ ⟨rfl, rfl⟩
  exact ⟨by simp, by simp, fun hne => absurd rfl hne⟩

/-- **The commit clock.**  In every open session of every run: the instants handed out increase
strictly until the ceiling is handed out; from then on every write is refused; and the instants
exceed every stamp the session has to exceed exactly when none of those stamps is the ceiling
itself. -/
theorem commitClock_run {s : System} (h : s.Reachable) {ses : Session}
    (hses : s.session = some ses) :
    (ses.issued.Pairwise fun a b => a < b ∨ a = maxInt64) ∧
    (maxInt64 ∈ ses.issued →
      ses.clock.checkWritable false false = .error .errCommitClockExhausted) ∧
    (ses.issued ≠ [] →
      ((∀ x ∈ ses.issued, ∀ y ∈ ses.covered, y < x) ↔ maxInt64 ∉ ses.covered)) := by
  have hinv := h.inv.session ses hses
  refine ⟨hinv.increasing, fun hm => ?_, fun hne => ⟨fun hall hm => ?_, fun hm x hx y hy => ?_⟩⟩
  · simp [Clock.checkWritable, hinv.exhausted hm]
  · obtain ⟨x, hx⟩ := exists_mem_of_ne_nil _ hne
    have hlt := hall x hx _ hm
    have hle := (hinv.issued_le x hx).trans hinv.last_le
    omega
  · rcases hinv.covered_lt y hy x hx with hlt | rfl
    · exact hlt
    · have hle := (hinv.covered_le y hy).trans hinv.last_le
      exact lt_of_le_of_ne hle fun heq => hm (heq ▸ hy)

/-- A store that was never opened. -/
def System.empty : System := ⟨[], [], none⟩

/-- A first session on an empty store hands out 7; after the crash the row it wrote survives and
the next session reads the wall clock at 7 again. -/
def crashRun : List ClockEvent :=
  [.reopen 0 .stored ⟨[], 0, by simp⟩, .now 7, .crash, .reopen 0 .unreadable ⟨[7], 7, by simp⟩,
    .now 7]

theorem commitClock_run_crash :
    Runs.exec System.step System.empty crashRun =
      some ⟨[], [], some ⟨⟨8, false, true⟩, [8], [7]⟩⟩ ∧
    ∀ x ∈ [(8 : Int)], ∀ y ∈ [(7 : Int)], y < x := by
  have hrun : Runs.exec System.step System.empty crashRun =
      some ⟨[], [], some ⟨⟨8, false, true⟩, [8], [7]⟩⟩ := by decide
  have hstart : System.empty.Reachable := .start ⟨rfl, rfl⟩
  exact ⟨hrun, ((commitClock_run (hstart.exec hrun) rfl).2.2 (by simp)).mpr (by decide)⟩

/-- The floor is raised to one below the ceiling, a write takes the ceiling as its stamp, and the
process crashes.  The row survives, so the reopened floor is the ceiling. -/
def ceilingRun : List ClockEvent :=
  [.reopen 0 .stored ⟨[], 0, by simp⟩, .advanceInstantFloor 9223372036854775806, .now 7, .crash,
    .reopen 7 .stored ⟨[9223372036854775807], 9223372036854775807, by simp⟩]

/-- **The ceiling is handed out twice.**  The reopened clock is not marked exhausted, so a write
passes `checkWritable`, and the instant it is stamped with is the stamp of a stored row. -/
theorem commitClock_repeats_ceiling :
    ∃ s ses s' ses', Runs.exec System.step System.empty ceilingRun = some s ∧
      s.session = some ses ∧ ses.clock.checkWritable false false = .ok () ∧
      s.step (.now 8) = some s' ∧ s'.session = some ses' ∧
      ses'.covered = [maxInt64] ∧ ses'.issued = [maxInt64] :=
  ⟨⟨[], [], some ⟨⟨maxInt64, false, false⟩, [], [maxInt64]⟩⟩,
    ⟨⟨maxInt64, false, false⟩, [], [maxInt64]⟩,
    ⟨[], [], some ⟨⟨maxInt64, true, false⟩, [maxInt64], [maxInt64]⟩⟩,
    ⟨⟨maxInt64, true, false⟩, [maxInt64], [maxInt64]⟩, by decide, rfl, by decide, by decide, rfl,
    rfl, rfl⟩

end RhoTkg
