import RhoTkg.Library.Runs
import RhoTkg.ValidTimeMint
import Mathlib.Data.List.Nodup

/-!
# No valid-time ID is handed out twice

Three ranges are nested in every window: the cursors `[lo, hi]` lie in the lease the process knows,
and that lease in the durable one.  `CursorsOk` says so, together with what ties the ranges to the
IDs: everything handed out lies between the cursors, and everything handed out before a restart lies
in the durable lease (`LeaseOk`), which a load turns into the cursors.  A mint settles on a counter
outside the cursors (`place_spec`), so it is new; the lease that goes with it is extended on one
side only and never gives anything up (`extendLease_spec`), so a failed save, stored or not, keeps
the nesting.

IDs of different windows differ because an ID decodes to an instant of its window
(`createdAt_mem_window`).  A window whose bounds overflow `int64` is refused: the wrapped bounds are
out of order (`bounds_spec`).
-/

namespace RhoTkg

open List
namespace ValidTimeMint

/-! ## The bounds of a window -/

variable {t : Int}

/-- Division towards zero, of a whole multiple that may have saturated. -/
theorem tdiv_subEpoch (ht : t % 1000 = 0) :
    (subEpoch t).tdiv 1000 = max (-9223372036854775) (min (t / 1000) 9223372036854775) := by
  have hd : subEpoch t = max (-9223372036854775808) (min t 9223372036854775807) := rfl
  generalize subEpoch t = d at hd
  rcases Int.le_total 0 d with h | h
  · rw [Int.tdiv_eq_ediv_of_nonneg h]; omega
  · have hneg : d.tdiv 1000 = -((-d).tdiv 1000) := by rw [Int.neg_tdiv, Int.neg_neg]
    rw [hneg, Int.tdiv_eq_ediv_of_nonneg (by omega)]; omega

/-- `vtCounter` is exact, or the shift overflowed and the sign is turned. -/
theorem vtCounter_cases (ht : t % 1000 = 0) :
    (InRange (t / 1000 * 1024) ∧ vtCounter t = t / 1000 * 1024) ∨
      (maxInt64 < t / 1000 * 1024 ∧ vtCounter t < 0) ∨
      (t / 1000 * 1024 < minInt64 ∧ (vtMaxMicros + 1) * 1024 < vtCounter t) := by
  simp only [vtCounter, tdiv_subEpoch ht, wrap64, Int.bmod_def, InRange, minInt64, maxInt64,
    vtMaxMicros]
  omega

/-- The counters of a window that is not refused decode to instants of the window. -/
theorem bounds_spec {ws we : Int} {b : Int × Int} (hws : ws % 1000000 = 0) (hwe : we % 1000000 = 0)
    (hlt : ws < we) (hb : VtWindow.bounds ws we = some b) :
    0 ≤ b.1 ∧ b.1 < b.2 ∧ ws / 1000 * 1024 ≤ b.1 ∧ b.2 ≤ we / 1000 * 1024 := by
  simp only [VtWindow.bounds] at hb
  split at hb
  · cases hb
  · rename_i hord
    cases hb
    have hs := vtCounter_cases (t := ws) (by omega)
    have he := vtCounter_cases (t := we) (by omega)
    simp only [vtMaxMicros, InRange, minInt64, maxInt64] at hord hs he ⊢
    refine ⟨?_, ?_, ?_, ?_⟩ <;> omega

namespace ShardWindows

variable (cfg : ShardWindows)

/-- A window ends where the next one starts. -/
theorem start_shardWindowEnd (t : Int) :
    cfg.shardWindowStart (cfg.shardWindowEnd t) = cfg.shardWindowEnd t := by
  have hle := cfg.start_le (cfg.shardWindowEnd t)
  by_contra hne
  -- otherwise the last instant of `t`'s window lies in the next one too
  have hlast := cfg.partitions (cfg.shardWindowEnd t) (cfg.shardWindowEnd t - 1) (by omega)
    (by have := cfg.lt_end (cfg.shardWindowEnd t); omega)
  have hin := cfg.partitions t (cfg.shardWindowEnd t - 1)
    (by have := cfg.start_le t; have := cfg.lt_end t; omega) (by omega)
  have := cfg.lt_end (cfg.shardWindowEnd t)
  omega

theorem end_wholeMillis (t : Int) : cfg.shardWindowEnd t % 1000000 = 0 :=
  cfg.start_shardWindowEnd t ▸ cfg.wholeMillis (cfg.shardWindowEnd t)

variable {t u : Int} {b : Int × Int}

/-- Windows with one start have one end. -/
theorem end_eq (h : cfg.shardWindowStart t = cfg.shardWindowStart u) :
    cfg.shardWindowEnd t = cfg.shardWindowEnd u := by
  have hstart := cfg.start_le t
  have hend := cfg.lt_end t
  have hu := cfg.start_le u
  have hu' := cfg.lt_end u
  have ht := cfg.partitions t (cfg.shardWindowStart t) le_rfl (by omega)
  have hu := cfg.partitions u (cfg.shardWindowStart u) le_rfl (by omega)
  rw [← ht.2, ← hu.2, h]

/-- The key tells windows apart. -/
theorem unixMilli_start_inj
    (h : unixMilli (cfg.shardWindowStart t) = unixMilli (cfg.shardWindowStart u)) :
    cfg.shardWindowStart t = cfg.shardWindowStart u := by
  have ht := cfg.wholeMillis t
  have hu := cfg.wholeMillis u
  simp only [unixMilli] at h
  omega

/-- The counters of the window that holds `t`. -/
def bounds (t : Int) : Option (Int × Int) :=
  VtWindow.bounds (cfg.shardWindowStart t) (cfg.shardWindowEnd t)

variable {cfg}

theorem bounds_lt (hb : cfg.bounds t = some b) : 0 ≤ b.1 ∧ b.1 < b.2 :=
  have hlt : cfg.shardWindowStart t < cfg.shardWindowEnd t :=
    Int.lt_of_le_of_lt (cfg.start_le t) (cfg.lt_end t)
  have hspec := bounds_spec (cfg.wholeMillis t) (cfg.end_wholeMillis t) hlt hb
  ⟨hspec.1, hspec.2.1⟩

/-- A counter of a window decodes to an instant of it. -/
theorem createdAt_mem_window {c : Int} (hb : cfg.bounds t = some b) (hlo : b.1 ≤ c)
    (hhi : c < b.2) :
    cfg.shardWindowStart t ≤ createdAt (vtID c) ∧ createdAt (vtID c) < cfg.shardWindowEnd t := by
  have hws := cfg.wholeMillis t
  have hwe := cfg.end_wholeMillis t
  have hlt : cfg.shardWindowStart t < cfg.shardWindowEnd t :=
    Int.lt_of_le_of_lt (cfg.start_le t) (cfg.lt_end t)
  obtain ⟨hnonneg, -, hstart, hend⟩ := bounds_spec hws hwe hlt hb
  rw [createdAt_vtID (by omega)]
  constructor <;> omega

end ShardWindows

/-! ## One window -/

/-- The durable lease of a window with counters `b` covers every counter handed out. -/
structure LeaseOk (b : Int × Int) (durable : Option (Int × Int)) (out : Int → Prop) : Prop where
  inside : ∀ l h, durable = some (l, h) → b.1 ≤ l ∧ l ≤ h ∧ h < b.2
  covers : ∀ c, out c → ∃ l h, durable = some (l, h) ∧ l ≤ c ∧ c ≤ h

/-- Loaded cursors: they bound what was handed out, inside the known lease, inside the durable
one. -/
structure CursorsOk (b : Int × Int) (durable : Option (Int × Int)) (out : Int → Prop)
    (w : VtWindow) : Prop where
  start_eq : w.start = b.1
  end_eq : w.end_ = b.2
  loaded : w.loaded = true
  unused : w.used = false → ∀ c, ¬ out c
  nested : w.used = true → ∃ l h, durable = some (l, h) ∧ l ≤ w.leaseLo ∧ w.leaseLo ≤ w.lo ∧
    w.lo ≤ w.hi ∧ w.hi ≤ w.leaseHi ∧ w.leaseHi ≤ h
  between : w.used = true → ∀ c, out c → w.lo ≤ c ∧ c ≤ w.hi

/-- Cursors that have not been loaded hold nothing but the window. -/
structure UnloadedOk (b : Int × Int) (w : VtWindow) : Prop where
  start_eq : w.start = b.1
  end_eq : w.end_ = b.2
  unloaded : w.loaded = false
  unused : w.used = false

section Monotone

variable {b : Int × Int} {durable : Option (Int × Int)} {out out' : Int → Prop} {w : VtWindow}

theorem LeaseOk.mono (h : LeaseOk b durable out) (hsub : ∀ c, out' c → out c) :
    LeaseOk b durable out' :=
  ⟨h.inside, fun c hc => h.covers c (hsub c hc)⟩

theorem CursorsOk.mono (h : CursorsOk b durable out w) (hsub : ∀ c, out' c → out c) :
    CursorsOk b durable out' w :=
  { h with
    unused := fun hu c hc => h.unused hu c (hsub c hc)
    between := fun hu c hc => h.between hu c (hsub c hc) }

/-- The ranges of cursors in use, one inside the other, inside the window. -/
theorem CursorsOk.ranges (h : CursorsOk b durable out w) (hl : LeaseOk b durable out)
    (hused : w.used = true) :
    w.start ≤ w.leaseLo ∧ w.leaseLo ≤ w.lo ∧ w.lo ≤ w.hi ∧ w.hi ≤ w.leaseHi ∧
      w.leaseHi < w.end_ := by
  obtain ⟨l, u, hd, hlo, hmid, hord, hhi, hu⟩ := h.nested hused
  have hin := hl.inside l u hd
  have hs := h.start_eq
  have he := h.end_eq
  exact ⟨by omega, hmid, hord, hhi, by omega⟩

end Monotone

namespace VtWindow

variable {b : Int × Int} {durable : Option (Int × Int)} {out : Int → Prop} {w : VtWindow}

/-- A load takes the durable lease for used. -/
theorem loadVTWindow_ok (hl : LeaseOk b durable out) (hw : UnloadedOk b w) :
    CursorsOk b durable out (w.loadVTWindow durable) := by
  cases hd : durable with
  | none =>
    refine ⟨hw.start_eq, hw.end_eq, rfl, fun _ c hc => ?_, fun h => ?_, fun h => ?_⟩
    · obtain ⟨l, h, heq, -⟩ := hl.covers c hc
      cases hd.symm.trans heq
    · rw [loadVTWindow, hw.unused] at h; cases h
    · rw [loadVTWindow, hw.unused] at h; cases h
  | some lease =>
    obtain ⟨l, h⟩ := lease
    have hin := hl.inside l h hd
    refine ⟨hw.start_eq, hw.end_eq, rfl, nofun, fun _ => ?_, fun _ c hc => ?_⟩
    · exact ⟨l, h, rfl, le_rfl, le_rfl, hin.2.1, le_rfl, le_rfl⟩
    · obtain ⟨l', h', heq, hlo, hhi⟩ := hl.covers c hc
      cases hd.symm.trans heq
      exact ⟨hlo, hhi⟩

variable {c : Int}

/-- A mint settles on a counter of the window outside the cursors: the one asked for, or the next
one past a cursor. -/
theorem place_spec {c' : Int} (hlo : w.start ≤ c) (hhi : c < w.end_)
    (hrange : w.used = true → w.start ≤ w.lo ∧ w.lo ≤ w.hi ∧ w.hi < w.end_)
    (h : w.place c = some c') :
    w.start ≤ c' ∧ c' < w.end_ ∧ (w.used = true → c' < w.lo ∨ w.hi < c') ∧
      (c' = c ∨ (w.used = true ∧ (c' = w.hi + 1 ∨ c' = w.lo - 1))) := by
  unfold place at h
  by_cases hout : (!w.used || decide (w.hi < c) || decide (c < w.lo)) = true
  · rw [if_pos hout] at h
    cases h
    refine ⟨hlo, hhi, fun hused => ?_, .inl rfl⟩
    simp only [hused, Bool.not_true, Bool.false_or, Bool.or_eq_true, decide_eq_true_eq] at hout
    exact hout.symm
  · rw [if_neg hout] at h
    have hused : w.used = true := by
      cases hu : w.used with
      | true => rfl
      | false => rw [hu] at hout; exact absurd rfl hout
    obtain ⟨hstart, hord, hend⟩ := hrange hused
    by_cases hup : w.hi + 1 < w.end_
    · rw [if_pos hup] at h
      cases h
      exact ⟨by omega, hup, fun _ => .inr (by omega), .inr ⟨hused, .inl rfl⟩⟩
    · rw [if_neg hup] at h
      split at h
      · cases h
        exact ⟨by omega, by omega, fun _ => .inl (by omega), .inr ⟨hused, .inr rfl⟩⟩
      · cases h

/-- A mint finds no counter exactly when the cursors in use stand at both ends. -/
theorem place_eq_none_iff (hlo : w.start ≤ c) (hhi : c < w.end_) :
    w.place c = none ↔ w.used = true ∧ w.lo ≤ w.start ∧ w.end_ ≤ w.hi + 1 := by
  unfold place
  constructor
  · intro h
    split at h
    · cases h
    · rename_i hout
      simp only [Bool.or_eq_true, Bool.not_eq_true', decide_eq_true_eq, not_or,
        Bool.not_eq_false] at hout
      split at h
      · cases h
      · split at h
        · cases h
        · exact ⟨hout.1.1, by omega, by omega⟩
  · rintro ⟨hused, hstart, hend⟩
    rw [if_neg, if_neg (by omega), if_neg (by omega)]
    simp only [hused, Bool.not_true, Bool.false_or, Bool.or_eq_true, decide_eq_true_eq, not_or]
    constructor <;> omega

/-- The lease saved for `c` holds `c` and the known lease, and ends inside the window. -/
theorem extendLease_spec (hlo : w.start ≤ c) (hhi : c < w.end_)
    (hrange : w.used = true → w.start ≤ w.leaseLo ∧ w.leaseLo ≤ w.leaseHi ∧ w.leaseHi < w.end_) :
    w.start ≤ (w.extendLease c).1 ∧ (w.extendLease c).1 ≤ c ∧ c ≤ (w.extendLease c).2 ∧
      (w.extendLease c).2 < w.end_ ∧
      (w.used = true → (w.extendLease c).1 ≤ w.leaseLo ∧ w.leaseHi ≤ (w.extendLease c).2) := by
  cases hused : w.used with
  | false =>
    simp only [extendLease, hused, vtLease, le_refl, if_true, Bool.false_eq_true, if_false]
    refine ⟨?_, ?_, ?_, ?_, nofun⟩ <;> omega
  | true =>
    have := hrange hused
    simp only [extendLease, hused, vtLease, if_true]
    refine ⟨?_, ?_, ?_, ?_, fun _ => ⟨?_, ?_⟩⟩ <;> omega

/-- What the locked part of a mint can do. -/
theorem mint_cases (w : VtWindow) (durable : Option (Int × Int)) (t : Int) (save : SaveOutcome) :
    let asked := min (max (vtCounter t) w.start) (w.end_ - 1)
    (w.place asked = none ∧ w.mint durable t save = (w, durable, .error .errWindowFull)) ∨
      ∃ c, w.place asked = some c ∧
        ((w.needsLease c = false ∧ w.mint durable t save = (w.handOut c, durable, .ok c)) ∨
        (w.needsLease c = true ∧
          (w.mint durable t save =
            (handOut { w with leaseLo := (w.extendLease c).1, leaseHi := (w.extendLease c).2 } c,
              some (w.extendLease c), .ok c) ∨
          w.mint durable t save = (w, some (w.extendLease c), .error .saveLease) ∨
          w.mint durable t save = (w, durable, .error .saveLease)))) := by
  intro asked
  cases hplace : w.place asked with
  | none => exact .inl ⟨rfl, by simp only [mint, asked] at hplace ⊢; rw [hplace]⟩
  | some c =>
    refine .inr ⟨c, rfl, ?_⟩
    have hplace' : w.place (min (max (vtCounter t) w.start) (w.end_ - 1)) = some c := hplace
    cases hneed : w.needsLease c with
    | false => exact .inl ⟨rfl, by simp [mint, hplace', hneed]⟩
    | true =>
      refine .inr ⟨rfl, ?_⟩
      cases save with
      | saved => exact .inl (by simp [mint, hplace', hneed])
      | failedStored => exact .inr (.inl (by simp [mint, hplace', hneed]))
      | failedLost => exact .inr (.inr (by simp [mint, hplace', hneed]))

/-- Handing out a counter of the known lease moves a cursor to it. -/
theorem handOut_ok {l h : Int} (hstart : w.start = b.1) (hend : w.end_ = b.2)
    (hloaded : w.loaded = true) (hunused : w.used = false → ∀ d, ¬ out d)
    (hdurable : durable = some (l, h)) (hl : l ≤ w.leaseLo) (hh : w.leaseHi ≤ h)
    (hlo : w.leaseLo ≤ c) (hhi : c ≤ w.leaseHi)
    (hused : w.used = true → w.leaseLo ≤ w.lo ∧ w.lo ≤ w.hi ∧ w.hi ≤ w.leaseHi ∧ ∀ d, out d → w.lo
      ≤ d ∧ d ≤ w.hi) : CursorsOk b durable (fun d => out d ∨ d = c) (w.handOut c) := by
  refine ⟨hstart, hend, hloaded, nofun, fun _ => ⟨l, h, hdurable, hl, ?_⟩, fun _ d hd => ?_⟩
  · cases hu : w.used with
    | false => simp only [handOut, hu, Bool.false_eq_true, if_false]; omega
    | true =>
      have := hused hu
      simp only [handOut, hu, if_true]; omega
  · cases hu : w.used with
    | false =>
      simp only [handOut, hu, Bool.false_eq_true, if_false]
      rcases hd with hd | rfl
      · exact absurd hd (hunused hu d)
      · exact ⟨le_rfl, le_rfl⟩
    | true =>
      obtain ⟨-, hord, -, hbetween⟩ := hused hu
      simp only [handOut, hu, if_true]
      rcases hd with hd | rfl
      · have := hbetween d hd
        omega
      · omega

/-- The extended lease covers what the durable one had to cover. -/
theorem extendLease_leaseOk (hl : LeaseOk b durable out) (hw : CursorsOk b durable out w)
    (hlo : w.start ≤ c) (hhi : c < w.end_) : LeaseOk b (some (w.extendLease c)) out := by
  have hext := extendLease_spec hlo hhi fun hu => by have := hw.ranges hl hu; omega
  refine ⟨fun l h heq => ?_, fun d hd => ⟨(w.extendLease c).1, (w.extendLease c).2, rfl, ?_⟩⟩
  · have hfst : (w.extendLease c).1 = l := congrArg Prod.fst (Option.some.inj heq)
    have hsnd : (w.extendLease c).2 = h := congrArg Prod.snd (Option.some.inj heq)
    have hs := hw.start_eq
    have he := hw.end_eq
    omega
  · cases hu : w.used with
    | false => exact absurd hd (hw.unused hu d)
    | true =>
      have hr := hw.ranges hl hu
      have hd := hw.between hu d hd
      have hkeep := hext.2.2.2.2 hu
      omega

/-- The known lease lies in the extended one. -/
theorem extendLease_cursorsOk (hl : LeaseOk b durable out) (hw : CursorsOk b durable out w)
    (hlo : w.start ≤ c) (hhi : c < w.end_) : CursorsOk b (some (w.extendLease c)) out w := by
  have hext := extendLease_spec hlo hhi fun hu => by have := hw.ranges hl hu; omega
  refine { hw with nested := fun hu => ⟨(w.extendLease c).1, (w.extendLease c).2, rfl, ?_⟩ }
  have hr := hw.ranges hl hu
  have hkeep := hext.2.2.2.2 hu
  omega

/-- **One mint.**  It keeps the ranges nested; a counter it hands out is new, of the window, and
in the durable lease. -/
theorem mint_ok (hb : b.1 < b.2) (hl : LeaseOk b durable out) (hw : CursorsOk b durable out w)
    (t : Int) (save : SaveOutcome) :
    LeaseOk b (w.mint durable t save).2.1
        (fun d => out d ∨ (w.mint durable t save).2.2 = .ok d) ∧
      CursorsOk b (w.mint durable t save).2.1
        (fun d => out d ∨ (w.mint durable t save).2.2 = .ok d) (w.mint durable t save).1 ∧
      ∀ c, (w.mint durable t save).2.2 = .ok c → b.1 ≤ c ∧ c < b.2 ∧ ¬ out c := by
  have hs := hw.start_eq
  have he := hw.end_eq
  have hr := hw.ranges hl
  have herr : ∀ {e : MintError} {d : Int}, out d ∨ (.error e : Except MintError Int) = .ok d →
      out d := fun h => h.elim id nofun
  obtain ⟨-, hmint⟩ | ⟨c, hplace, hmint⟩ := w.mint_cases durable t save
  · rw [hmint]
    exact ⟨hl.mono fun _ => herr, hw.mono fun _ => herr, nofun⟩
  obtain ⟨hlo, hhi, hnew, -⟩ := place_spec (by omega) (by omega)
    (fun hu => by have := hr hu; omega) hplace
  have hfresh : ¬ out c := fun hc => by
    cases hu : w.used with
    | false => exact hw.unused hu c hc
    | true =>
      have hin := hw.between hu c hc
      have := hnew hu
      omega
  have hok : ∀ {d : Int}, out d ∨ (.ok c : Except MintError Int) = .ok d → out d ∨ d = c :=
    fun h => h.imp id fun h => (Except.ok.inj h).symm
  have hleaseOk := extendLease_leaseOk hl hw hlo hhi
  obtain ⟨hneed, hmint⟩ | ⟨hneed, hmint | hmint | hmint⟩ := hmint <;> rw [hmint]
  · -- inside the known lease
    simp only [needsLease, Bool.or_eq_false_iff, Bool.not_eq_false', decide_eq_false_iff_not,
      not_lt] at hneed
    obtain ⟨⟨hu, hleaseHi⟩, hleaseLo⟩ := hneed
    obtain ⟨l, h, hd, hnest⟩ := hw.nested hu
    refine ⟨LeaseOk.mono ⟨hl.inside, fun d hd' => ?_⟩ fun _ => hok,
      (handOut_ok hs he hw.loaded hw.unused hd hnest.1 hnest.2.2.2.2 hleaseLo hleaseHi
        fun hu => ⟨by omega, by omega, by omega, hw.between hu⟩).mono fun _ => hok, ?_⟩
    · rcases hd' with hd' | rfl
      · exact hl.covers d hd'
      · exact ⟨l, h, hd, by omega, by omega⟩
    · rintro _ ⟨⟩
      exact ⟨by omega, by omega, hfresh⟩
  · -- the extended lease is durable and known
    have hext := extendLease_spec hlo hhi fun hu => by have := hr hu; omega
    refine ⟨LeaseOk.mono ⟨hleaseOk.inside, fun d hd => ?_⟩ fun _ => hok,
      CursorsOk.mono (handOut_ok hs he hw.loaded hw.unused rfl le_rfl le_rfl
        (by simpa only using hext.2.1) (by simpa only using hext.2.2.1) fun hu => ?_)
        fun _ => hok, ?_⟩
    · rcases hd with hd | rfl
      · exact hleaseOk.covers d hd
      · exact ⟨_, _, rfl, hext.2.1, hext.2.2.1⟩
    · have hkeep := hext.2.2.2.2 hu
      have := hr hu
      simp only
      exact ⟨by omega, by omega, by omega, hw.between hu⟩
    · rintro _ ⟨⟩
      exact ⟨by omega, by omega, hfresh⟩
  · exact ⟨hleaseOk.mono fun _ => herr, (extendLease_cursorsOk hl hw hlo hhi).mono fun _ => herr,
      nofun⟩
  · exact ⟨hl.mono fun _ => herr, hw.mono fun _ => herr, nofun⟩

end VtWindow

/-! ## The store -/

namespace MintStore

variable (cfg : ShardWindows)

/-- The counters handed out for the window of `a`. -/
def handedOut (st : MintStore) (a c : Int) : Prop :=
  ∃ m ∈ st.minted, cfg.shardWindowStart m.anchor = cfg.shardWindowStart a ∧ counterOf m.id = c

/-- The key of the window of `a`. -/
def key (a : Int) : Int := unixMilli (cfg.shardWindowStart a)

/-- The cursors a mint in the window of `a`, with counters `b`, works on: those in memory, made and
loaded where that has not happened. -/
def cursors (st : MintStore) (a : Int) (b : Int × Int) : VtWindow :=
  let w := (st.vtWindows (key cfg a)).getD (.make b)
  if w.loaded then w else w.loadVTWindow (st.leases (key cfg a))

/-- The window of `a` is in order: its durable lease, and its cursors when they are in memory. -/
structure WindowOk (st : MintStore) (a : Int) : Prop where
  lease : ∀ b, cfg.bounds a = some b → LeaseOk b (st.leases (key cfg a)) (st.handedOut cfg a)
  inMemory : ∀ w, st.vtWindows (key cfg a) = some w → ∃ b, cfg.bounds a = some b ∧
    (CursorsOk b (st.leases (key cfg a)) (st.handedOut cfg a) w ∨ UnloadedOk b w)

/-- Every window is in order, every ID lies in its window and its lease, and no ID was handed out
twice. -/
structure Inv (st : MintStore) : Prop where
  windows : ∀ a, st.WindowOk cfg a
  placed : ∀ m ∈ st.minted, cfg.shardWindowStart m.anchor ≤ createdAt m.id ∧
    createdAt m.id < cfg.shardWindowEnd m.anchor
  leased : ∀ m ∈ st.minted, ∃ l h, m.lease = some (l, h) ∧ l ≤ counterOf m.id ∧ counterOf m.id ≤ h
  nodup : (st.minted.map Mint.id).Nodup

variable {cfg} {st : MintStore}

variable {a : Int} {b : Int × Int} {lease : Option (Int × Int)} {w : VtWindow}

/-- The cursors a mint works on are in order. -/
theorem WindowOk.cursors_ok (h : st.WindowOk cfg a) (hb : cfg.bounds a = some b) :
    CursorsOk b (st.leases (key cfg a)) (st.handedOut cfg a) (st.cursors cfg a b) := by
  have hl := h.lease b hb
  have hload : ∀ {w : VtWindow}, UnloadedOk b w →
      CursorsOk b (st.leases (key cfg a)) (st.handedOut cfg a)
        (if w.loaded then w else w.loadVTWindow (st.leases (key cfg a))) := by
    intro w hw
    rw [hw.unloaded]
    exact VtWindow.loadVTWindow_ok hl hw
  unfold cursors
  cases hw : st.vtWindows (key cfg a) with
  | none => exact hload ⟨rfl, rfl, rfl, rfl⟩
  | some w =>
    obtain ⟨b', hb', hok⟩ := h.inMemory w hw
    cases hb.symm.trans hb'
    rcases hok with hok | hok
    · simpa only [Option.getD_some, hok.loaded, if_true] using hok
    · exact hload hok

/-- What `vtWindowFor` hands a mint. -/
theorem WindowOk.vtWindowFor_cases (h : st.WindowOk cfg a) :
    (cfg.bounds a = none ∧
        st.vtWindowFor (cfg.shardWindowStart a) (cfg.shardWindowEnd a) = none) ∨
      ∃ b w, cfg.bounds a = some b ∧
        st.vtWindowFor (cfg.shardWindowStart a) (cfg.shardWindowEnd a) = some w ∧
        (st.vtWindows (key cfg a)).getD (.make b) = w ∧
        (w.loaded = true ∨ UnloadedOk b w) := by
  rw [vtWindowFor, ← key, ← ShardWindows.bounds]
  cases hw : st.vtWindows (key cfg a) with
  | none =>
    cases hb : cfg.bounds a with
    | none => exact .inl ⟨rfl, rfl⟩
    | some b => exact .inr ⟨b, .make b, rfl, rfl, rfl, .inr ⟨rfl, rfl, rfl, rfl⟩⟩
  | some w =>
    obtain ⟨b, hb, hok⟩ := h.inMemory w hw
    exact .inr ⟨b, w, hb, rfl, rfl, hok.imp (fun hok => hok.loaded) id⟩

/-- What `mintAt` can do. -/
theorem WindowOk.mintAt_cases {t : Int} {home : Option Int} (h : st.WindowOk cfg (home.getD t))
    (readFails : Bool) (save : SaveOutcome) :
    (((home = none ∧ vtInIDRange t = false) ∨ cfg.bounds (home.getD t) = none) ∧
        st.mintAt cfg t home readFails save = (st, .error .errValidFromOutsideIDRange)) ∨
      ∃ b, cfg.bounds (home.getD t) = some b ∧
        ((∃ w, UnloadedOk b w ∧ readFails = true ∧
            (st.vtWindows (key cfg (home.getD t))).getD (.make b) = w ∧
            st.mintAt cfg t home readFails save =
              (st.put (key cfg (home.getD t)) w (st.leases (key cfg (home.getD t))),
                .error .readLease)) ∨
        st.mintAt cfg t home readFails save =
          (let r := (st.cursors cfg (home.getD t) b).mint (st.leases (key cfg (home.getD t))) t save
          (st.put (key cfg (home.getD t)) r.1 r.2.1, r.2.2.map vtID))) := by
  simp only [mintAt]
  split
  · rename_i hout
    simp only [Bool.and_eq_true, Option.isNone_iff_eq_none, Bool.not_eq_true'] at hout
    exact .inl ⟨.inl hout, rfl⟩
  obtain ⟨hb, hnone⟩ | ⟨b, w, hb, hfor, hget, hw⟩ := h.vtWindowFor_cases
  · rw [hnone]
    exact .inl ⟨.inr hb, rfl⟩
  rw [hfor]
  refine .inr ⟨b, hb, ?_⟩
  simp only [cursors, hget]
  rcases hw with hw | hw
  · rw [hw]
    exact .inr rfl
  · rw [hw.unloaded]
    cases readFails with
    | true => exact .inl ⟨w, hw, rfl, rfl, rfl⟩
    | false => exact .inr rfl

/-- A step that writes one window back keeps the others in order. -/
theorem windowOk_put (hwin : ∀ a, st.WindowOk cfg a) {minted : List Mint}
    (hb : cfg.bounds a = some b)
    (hl : LeaseOk b lease (handedOut cfg { st with minted := minted } a))
    (hw : CursorsOk b lease (handedOut cfg { st with minted := minted } a) w ∨ UnloadedOk b w)
    (hother : ∀ m ∈ minted, m ∈ st.minted ∨ cfg.shardWindowStart m.anchor = cfg.shardWindowStart a)
    (a' : Int) : WindowOk cfg { st.put (key cfg a) w lease with minted := minted } a' := by
  by_cases hsame : cfg.shardWindowStart a' = cfg.shardWindowStart a
  · have hkey : key cfg a' = key cfg a := congrArg unixMilli hsame
    have hbounds : cfg.bounds a' = cfg.bounds a := by
      rw [ShardWindows.bounds, hsame, cfg.end_eq hsame, ShardWindows.bounds]
    have hout : handedOut cfg { st.put (key cfg a) w lease with minted := minted } a' =
        handedOut cfg { st with minted := minted } a := by
      funext c; simp only [handedOut, hsame]
    constructor
    · intro b' hb'
      cases hb.symm.trans (hbounds ▸ hb')
      rw [hout]
      simpa only [hkey, put, if_true] using hl
    · intro w' hw'
      simp only [hkey, put, if_true, Option.some.injEq] at hw'
      subst hw'
      refine ⟨b, hbounds.trans hb, ?_⟩
      rw [hout]
      simpa only [hkey, put, if_true] using hw
  · have hkey : key cfg a' ≠ key cfg a := fun h => hsame (cfg.unixMilli_start_inj h)
    have hsub : ∀ c, handedOut cfg { st.put (key cfg a) w lease with minted := minted } a' c →
        st.handedOut cfg a' c := by
      rintro c ⟨m, hm, hstart, hc⟩
      obtain hold | hnew := hother m hm
      · exact ⟨m, hold, hstart, hc⟩
      · exact absurd (hstart.symm.trans hnew) hsame
    constructor
    · intro b' hb'
      simpa only [put, hkey, if_false] using ((hwin a').lease b' hb').mono hsub
    · intro w' hw'
      simp only [put, hkey, if_false] at hw' ⊢
      obtain ⟨b', hb', hok⟩ := (hwin a').inMemory w' hw'
      exact ⟨b', hb', hok.imp (fun hok => hok.mono hsub) id⟩

/-- The step of a mint that hands `c` out keeps the invariant. -/
theorem Inv.handOut (hinv : Inv cfg st) {c : Int} (hb : cfg.bounds a = some b) (hlo : b.1 ≤ c)
    (hhi : c < b.2) (hfresh : ¬ st.handedOut cfg a c)
    (hl : LeaseOk b lease fun d => st.handedOut cfg a d ∨ d = c)
    (hw : CursorsOk b lease (fun d => st.handedOut cfg a d ∨ d = c) w) :
    Inv cfg { st.put (key cfg a) w lease with minted := st.minted ++ [⟨vtID c, a, lease⟩] } := by
  have hnonneg := (ShardWindows.bounds_lt hb).1
  have hcounter : counterOf (vtID c) = c := counterOf_vtID (by omega)
  have hplaced := ShardWindows.createdAt_mem_window hb hlo hhi
  have hsub : ∀ d, handedOut cfg { st with minted := st.minted ++ [⟨vtID c, a, lease⟩] } a d →
      st.handedOut cfg a d ∨ d = c := by
    rintro d ⟨m, hm, hstart, hd⟩
    rcases mem_append.mp hm with hm | hm
    · exact .inl ⟨m, hm, hstart, hd⟩
    · rw [mem_singleton] at hm
      subst hm
      exact .inr (hd.symm.trans hcounter)
  refine ⟨windowOk_put hinv.windows hb (hl.mono hsub) (.inl (hw.mono hsub)) ?_, ?_, ?_, ?_⟩
  · intro m hm
    rcases mem_append.mp hm with hm | hm
    · exact .inl hm
    · rw [mem_singleton] at hm
      subst hm
      exact .inr rfl
  · intro m hm
    rcases mem_append.mp hm with hm | hm
    · exact hinv.placed m hm
    · rw [mem_singleton] at hm
      subst hm
      exact hplaced
  · intro m hm
    rcases mem_append.mp hm with hm | hm
    · exact hinv.leased m hm
    · rw [mem_singleton] at hm
      subst hm
      obtain ⟨l, h, hlease, hin⟩ := hl.covers c (.inr rfl)
      exact ⟨l, h, hlease, by rwa [hcounter]⟩
  · rw [map_append, nodup_append]
    refine ⟨hinv.nodup, nodup_singleton _, ?_⟩
    rintro _ hid _ hnew rfl
    obtain ⟨m, hm, hmid⟩ := mem_map.mp hid
    rw [map_singleton, mem_singleton] at hnew
    -- an equal ID decodes to an instant of both windows, so the windows are one
    have hin := hinv.placed m hm
    rw [hmid, hnew] at hin
    have hwindow := cfg.partitions m.anchor _ hin.1 hin.2
    have hwindow' := cfg.partitions a _ hplaced.1 hplaced.2
    refine hfresh ⟨m, hm, hwindow.1.symm.trans hwindow'.1, ?_⟩
    rw [hmid, hnew]
    exact hcounter

/-- Every event keeps the invariant. -/
theorem Inv.step (hinv : Inv cfg st) (e : MintEvent) : Inv cfg (st.step cfg e) := by
  cases e with
  | restart =>
    exact ⟨fun a => ⟨(hinv.windows a).lease, nofun⟩, hinv.placed, hinv.leased, hinv.nodup⟩
  | mintAt t home readFails save =>
    have hwin := hinv.windows (home.getD t)
    simp only [MintStore.step]
    obtain ⟨-, heq⟩ | ⟨b, hb, ⟨w, hw, -, -, heq⟩ | heq⟩ := hwin.mintAt_cases readFails save
    · rw [heq]
      exact hinv
    · rw [heq]
      exact ⟨windowOk_put hinv.windows hb (hwin.lease b hb) (.inr hw) (fun m hm => .inl hm),
        hinv.placed, hinv.leased, hinv.nodup⟩
    · rw [heq]
      obtain ⟨hl, hw, hok⟩ := VtWindow.mint_ok (ShardWindows.bounds_lt hb).2 (hwin.lease b hb)
        (hwin.cursors_ok hb) t save
      revert hl hw hok
      generalize (st.cursors cfg (home.getD t) b).mint (st.leases (key cfg (home.getD t))) t save =
        r
      obtain ⟨w, lease, result⟩ := r
      intro hl hw hok
      cases result with
      | error err =>
        exact ⟨windowOk_put hinv.windows hb (hl.mono fun d hd => .inl hd)
          (.inl (hw.mono fun d hd => .inl hd)) (fun m hm => .inl hm), hinv.placed, hinv.leased,
          hinv.nodup⟩
      | ok c =>
        obtain ⟨hlo, hhi, hfresh⟩ := hok c rfl
        have hsub : ∀ d, st.handedOut cfg (home.getD t) d ∨ d = c →
            st.handedOut cfg (home.getD t) d ∨ (.ok c : Except MintError Int) = .ok d :=
          fun d hd => hd.imp id fun h => by rw [h]
        have hnext := hinv.handOut hb hlo hhi hfresh (hl.mono hsub) (hw.mono hsub)
        simpa only [Except.map, put, key, if_true] using hnext

/-- The runs of a store: mints, failed reads and saves, restarts and crashes, in any order. -/
abbrev Reachable (cfg : ShardWindows) : MintStore → Prop :=
  Runs.Reachable (· = empty) fun st e st' => st' = st.step cfg e

theorem reachable_foldl (h : Reachable cfg st) (es : List MintEvent) :
    Reachable cfg (es.foldl (MintStore.step cfg) st) :=
  foldlRecOn es _ h fun _ h _ _ => h.step rfl

theorem Reachable.inv (h : Reachable cfg st) : Inv cfg st := by
  refine Runs.Reachable.invariant (I := Inv cfg) ?_ ?_ h
  · rintro _ rfl
    have hout : ∀ a c, ¬ empty.handedOut cfg a c := fun a c ⟨m, hm, _⟩ => nomatch hm
    refine ⟨fun a => ⟨fun b _ => ⟨nofun, fun c hc => absurd hc (hout a c)⟩, nofun⟩, nofun, nofun, ?_⟩
    exact nodup_nil
  · rintro st e _ - hinv rfl
    exact hinv.step e

/-- **No valid-time ID is handed out twice.**  In every run the IDs returned by successful mints
are pairwise different; each decodes to an instant of the window it was minted for, and lies in the
lease of that window that was durable when it was returned. -/
theorem minted_ids_unique (h : Reachable cfg st) :
    (st.minted.map Mint.id).Nodup ∧ ∀ m ∈ st.minted,
      (cfg.shardWindowStart m.anchor ≤ createdAt m.id ∧
        createdAt m.id < cfg.shardWindowEnd m.anchor) ∧
      ∃ l h, m.lease = some (l, h) ∧ l ≤ counterOf m.id ∧ counterOf m.id ≤ h :=
  ⟨h.inv.nodup, fun m hm => ⟨h.inv.placed m hm, h.inv.leased m hm⟩⟩

/-- Hour windows. -/
def hourly : ShardWindows := .truncate 3600000000000 (by decide) (by decide)

/-- Two mints at one instant, a crash inside a third whose lease was stored, and a fourth. -/
def crashedMints : List MintEvent :=
  [.mintAt 5000 none false .saved, .mintAt 5000 none false .saved,
    .mintAt 3000000000000 none false .failedStored, .restart,
    .mintAt 9999999000000 (some 5000) false .saved]

theorem minted_ids_unique_crashed :
    ((crashedMints.foldl (MintStore.step hourly) empty).minted.map Mint.id).Nodup ∧
      (crashedMints.foldl (MintStore.step hourly) empty).minted.length = 3 :=
  ⟨(minted_ids_unique (reachable_foldl (.start rfl) crashedMints)).1, by decide +kernel⟩

end MintStore

end ValidTimeMint
end RhoTkg
