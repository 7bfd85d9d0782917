import RhoTkg.MintRuns
import Mathlib.Data.List.Induction

/-!
# When a valid-time window is full

`errWindowFull` is called the impossible case, and the design says that a window fills only when
all its steps are used.  The cursors count extremes, not IDs: what lies between the lowest and the
highest counter handed out is never given again, and a restart moves both cursors out to the ends
of the lease.  So a window is full as soon as its cursors stand at both ends, and
`window_full_after_two_mints` fills an hour with two mints and a restart.

How far the cursors can be from the instants asked for is bounded by the number of mints and
restarts: a crowded instant costs one step and a restart one lease (`Within`).  A run that is short
against its window can therefore fill it only when it asked for an instant in the lowest quarter
and for one in the highest.
-/

namespace RhoTkg

open List
namespace ValidTimeMint

/-! ## Ranges near the instants asked for -/

/-- Both ends of the range lie within `k` steps of an instant of `asked`. -/
def Within (asked : List Int) (k lo hi : Int) : Prop :=
  (∃ x ∈ asked, x - k ≤ lo) ∧ ∃ x ∈ asked, hi ≤ x + k

namespace Within

variable {asked asked' : List Int} {k k' lo hi lo' hi' : Int}

theorem mono (h : Within asked k lo hi) (hsub : asked ⊆ asked') (hk : k ≤ k') (hlo : lo ≤ lo')
    (hhi : hi' ≤ hi) : Within asked' k' lo' hi' := by
  obtain ⟨⟨x, hx, hxlo⟩, y, hy, hyhi⟩ := h
  exact ⟨⟨x, hsub hx, by omega⟩, y, hsub hy, by omega⟩

/-- A range and a counter, both near. -/
theorem extend {c : Int} (h : Within asked k lo hi) (hc : Within asked k c c) :
    Within asked k (min lo c) (max hi c) := by
  obtain ⟨⟨x, hx, hxlo⟩, y, hy, hyhi⟩ := h
  obtain ⟨⟨x', hx', hxlo'⟩, y', hy', hyhi'⟩ := hc
  refine ⟨?_, ?_⟩
  · rcases Int.le_total lo c with h | h
    · exact ⟨x, hx, by omega⟩
    · exact ⟨x', hx', by omega⟩
  · rcases Int.le_total hi c with h | h
    · exact ⟨y', hy', by omega⟩
    · exact ⟨y, hy, by omega⟩

end Within

/-! ## One mint -/

namespace VtWindow

/-- The cursors in use stand at both ends of the window. -/
def Spanned (w : VtWindow) : Prop := w.used = true ∧ w.lo ≤ w.start ∧ w.end_ ≤ w.hi + 1

variable {b : Int × Int} {durable : Option (Int × Int)} {out : Int → Prop} {w : VtWindow}
  {asked : List Int} {k : Int}

/-- The locked part of a mint fails for lack of room exactly when the cursors span the window. -/
theorem mint_full_iff (hb : b.1 < b.2) (hw : CursorsOk b durable out w) (t : Int)
    (save : SaveOutcome) : (w.mint durable t save).2.2 = .error .errWindowFull ↔ w.Spanned := by
  have hs := hw.start_eq
  have he := hw.end_eq
  have hnone : w.place (min (max (vtCounter t) w.start) (w.end_ - 1)) = none ↔ w.Spanned :=
    place_eq_none_iff (by omega) (by omega)
  rw [← hnone]
  obtain ⟨hplace, hmint⟩ | ⟨c, hplace, hmint⟩ := w.mint_cases durable t save
  · simp only [hplace, hmint]
  · obtain ⟨-, hmint⟩ | ⟨-, hmint | hmint | hmint⟩ := hmint <;> simp [hplace, hmint]

variable {c : Int}

/-- The counter a mint settles on is near what was asked for. -/
theorem within_place (hl : LeaseOk b durable out) (hw : CursorsOk b durable out w) (hk : 0 ≤ k)
    (hcur : w.used = true → Within asked k w.lo w.hi) {c' : Int} (hlo : w.start ≤ c)
    (hhi : c < w.end_) (hplace : w.place c = some c') : Within (c :: asked) (k + 1) c' c' := by
  obtain ⟨-, -, -, hc'⟩ := place_spec hlo hhi
    (fun hu => by have := hw.ranges hl hu; omega) hplace
  rcases hc' with rfl | ⟨hu, hc'⟩
  · exact ⟨⟨c', mem_cons_self, by omega⟩, c', mem_cons_self, by omega⟩
  · have hord := hw.ranges hl hu
    obtain ⟨⟨x, hx, hxlo⟩, y, hy, hyhi⟩ := hcur hu
    exact ⟨⟨x, mem_cons_of_mem _ hx, by omega⟩, y, mem_cons_of_mem _ hy, by omega⟩

/-- The lease that goes with a near counter is near by one lease more. -/
theorem within_extendLease (hw : CursorsOk b durable out w)
    (hlease : ∀ l h, durable = some (l, h) → Within asked (k + vtLease) l h)
    (hc : Within asked k c c) :
    Within asked (k + vtLease) (w.extendLease c).1 (w.extendLease c).2 := by
  obtain ⟨⟨x, hx, hxlo⟩, y, hy, hyhi⟩ := hc
  cases hu : w.used with
  | false =>
    simp only [extendLease, hu, Bool.false_eq_true, if_false, le_refl, if_true]
    exact ⟨⟨x, hx, by omega⟩, y, hy, by omega⟩
  | true =>
    obtain ⟨l, h, hd, hnest⟩ := hw.nested hu
    obtain ⟨⟨x', hx', hxlo'⟩, y', hy', hyhi'⟩ := hlease l h hd
    simp only [extendLease, hu, if_true]
    refine ⟨?_, ?_⟩
    · split
      · exact ⟨x, hx, by omega⟩
      · exact ⟨x', hx', by omega⟩
    · split
      · exact ⟨y, hy, by omega⟩
      · exact ⟨y', hy', by omega⟩

/-- A mint moves the cursors and the durable lease by one step more than before. -/
theorem within_mint (hb : b.1 < b.2) (hl : LeaseOk b durable out) (hw : CursorsOk b durable out w)
    (hk : 0 ≤ k) (hcur : w.used = true → Within asked k w.lo w.hi)
    (hlease : ∀ l h, durable = some (l, h) → Within asked (k + vtLease) l h) (t : Int)
    (save : SaveOutcome) :
    ((w.mint durable t save).1.used = true →
      Within (min (max (vtCounter t) b.1) (b.2 - 1) :: asked) (k + 1) (w.mint durable t save).1.lo
        (w.mint durable t save).1.hi) ∧
    ∀ l h, (w.mint durable t save).2.1 = some (l, h) →
      Within (min (max (vtCounter t) b.1) (b.2 - 1) :: asked) (k + 1 + vtLease) l h := by
  have hs := hw.start_eq
  have he := hw.end_eq
  have hcur' : ∀ {c : Int}, w.used = true → Within (c :: asked) (k + 1) w.lo w.hi := fun hu =>
    (hcur hu).mono (subset_cons_self _ _) (by omega) le_rfl le_rfl
  have hlease' : ∀ {c : Int} (l h : Int), durable = some (l, h) →
      Within (c :: asked) (k + 1 + vtLease) l h := fun l h hd =>
    (hlease l h hd).mono (subset_cons_self _ _) (by omega) le_rfl le_rfl
  obtain ⟨-, hmint⟩ | ⟨c, hplace, hmint⟩ := w.mint_cases durable t save
  · rw [hmint]
    exact ⟨hcur', hlease'⟩
  have hc := within_place hl hw hk hcur (by omega) (by omega) hplace
  rw [hs, he] at hc
  have hext := within_extendLease hw hlease' hc
  have hout : ∀ {v : VtWindow}, v.used = w.used → v.lo = w.lo → v.hi = w.hi →
      Within (min (max (vtCounter t) b.1) (b.2 - 1) :: asked) (k + 1) (v.handOut c).lo
        (v.handOut c).hi := by
    intro v hused hlo hhi
    cases hu : w.used with
    | false => simpa only [handOut, hused, hu, Bool.false_eq_true, if_false] using hc
    | true => simpa only [handOut, hused, hu, hlo, hhi, if_true] using (hcur' hu).extend hc
  have hsave : ∀ l h, some (w.extendLease c) = some (l, h) →
      Within (min (max (vtCounter t) b.1) (b.2 - 1) :: asked) (k + 1 + vtLease) l h := by
    intro l h heq
    rw [Option.some.inj heq] at hext
    exact hext
  obtain ⟨-, hmint⟩ | ⟨-, hmint | hmint | hmint⟩ := hmint <;> rw [hmint]
  · exact ⟨fun _ => hout rfl rfl rfl, hlease'⟩
  · exact ⟨fun _ => hout rfl rfl rfl, hsave⟩
  · exact ⟨hcur', hsave⟩
  · exact ⟨hcur', hlease'⟩

end VtWindow

/-! ## Runs -/

/-- The counter an event asks for in the window of `a`, with counters `b`. -/
def askedBy (cfg : ShardWindows) (a : Int) (b : Int × Int) : MintEvent → Option Int
  | .mintAt t home _ _ =>
    if cfg.shardWindowStart (home.getD t) = cfg.shardWindowStart a then
      some (min (max (vtCounter t) b.1) (b.2 - 1))
    else none
  | .restart => none

/-- The counters a run asks for in the window of `a`. -/
def asked (cfg : ShardWindows) (a : Int) (b : Int × Int) (es : List MintEvent) : List Int :=
  es.filterMap (askedBy cfg a b)

/-- How often a run restarts. -/
def restarts (es : List MintEvent) : Int := (es.count .restart : Nat)

namespace MintStore

variable {cfg : ShardWindows} {st : MintStore}

/-- The cursors and the durable lease of the window of `a` are near the counters asked for. -/
structure Near (cfg : ShardWindows) (a : Int) (b : Int × Int) (asked : List Int) (k : Int)
    (st : MintStore) : Prop where
  cursors : (st.cursors cfg a b).used = true →
    Within asked k (st.cursors cfg a b).lo (st.cursors cfg a b).hi
  lease : ∀ l h, st.leases (key cfg a) = some (l, h) → Within asked (k + vtLease) l h

variable {a k t : Int} {b : Int × Int} {home : Option Int}

theorem Near.mono {asked asked' : List Int} {k' : Int} (h : Near cfg a b asked k st)
    (hsub : asked ⊆ asked') (hk : k ≤ k') : Near cfg a b asked' k' st :=
  ⟨fun hu => (h.cursors hu).mono hsub hk le_rfl le_rfl,
    fun l u hd => (h.lease l u hd).mono hsub (by omega) le_rfl le_rfl⟩

/-- What `Near` reads of a store. -/
theorem Near.congr {asked : List Int} {st' : MintStore} (h : Near cfg a b asked k st)
    (hcur : st'.cursors cfg a b = st.cursors cfg a b)
    (hlease : st'.leases (key cfg a) = st.leases (key cfg a)) : Near cfg a b asked k st' :=
  ⟨hcur ▸ h.cursors, hlease ▸ h.lease⟩

theorem cursors_put (st : MintStore) (a : Int) (b : Int × Int) (w : VtWindow)
    (lease : Option (Int × Int)) : (st.put (key cfg a) w lease).cursors cfg a b =
      if w.loaded then w else w.loadVTWindow lease := by
  simp only [MintStore.cursors, put, if_true, Option.getD_some]

/-- A restart moves the cursors out to the durable lease. -/
theorem Near.restart {asked : List Int} (h : Near cfg a b asked k st) :
    Near cfg a b asked (k + vtLease) (st.step cfg .restart) := by
  have hpos : (0 : Int) < vtLease := by decide
  refine ⟨fun hu => ?_, fun l u hd => (h.lease l u hd).mono (Subset.refl _) (by omega)
    le_rfl le_rfl⟩
  have hcur : (st.step cfg .restart).cursors cfg a b =
      (VtWindow.make b).loadVTWindow (st.leases (key cfg a)) := rfl
  rw [hcur] at hu ⊢
  cases hd : st.leases (key cfg a) with
  | none => rw [hd] at hu; cases hu
  | some lease => exact h.lease lease.1 lease.2 hd

/-- A mint in the window costs one step. -/
theorem Near.mintAt {asked : List Int} (hinv : Inv cfg st) (h : Near cfg a b asked k st)
    (hk : 0 ≤ k) (hb : cfg.bounds a = some b)
    (hsame : cfg.shardWindowStart (home.getD t) = cfg.shardWindowStart a) (readFails : Bool)
    (save : SaveOutcome) :
    Near cfg a b (min (max (vtCounter t) b.1) (b.2 - 1) :: asked) (k + 1)
      (st.mintAt cfg t home readFails save).1 := by
  have hkey : key cfg (home.getD t) = key cfg a := congrArg unixMilli hsame
  have hbounds : cfg.bounds (home.getD t) = cfg.bounds a := by
    rw [ShardWindows.bounds, hsame, cfg.end_eq hsame, ShardWindows.bounds]
  have hcursors : st.cursors cfg (home.getD t) b = st.cursors cfg a b := by
    simp only [MintStore.cursors, hkey]
  have hwin := hinv.windows a
  obtain ⟨-, heq⟩ | ⟨b', hb', hrest⟩ := (hinv.windows (home.getD t)).mintAt_cases readFails save
  · rw [heq]
    exact h.mono (subset_cons_self _ _) (by omega)
  cases hb.symm.trans (hbounds.symm.trans hb')
  rw [hkey, hcursors] at hrest
  obtain ⟨w, hw, -, hget, heq⟩ | heq := hrest
  · rw [heq]
    refine Near.congr (h.mono (subset_cons_self _ _) (by omega)) ?_ ?_
    · rw [cursors_put, MintStore.cursors, hget]
    · simp only [put, if_true]
  · rw [heq]
    have hcur := hwin.cursors_ok hb
    have hlt := (ShardWindows.bounds_lt hb).2
    have hnext := (VtWindow.mint_ok hlt (hwin.lease b hb) hcur t save).2.1
    obtain ⟨hnear, hlease⟩ :=
      VtWindow.within_mint hlt (hwin.lease b hb) hcur hk h.cursors h.lease t save
    refine ⟨fun hu => ?_, fun l u hd => hlease l u (by simpa only [put, if_true] using hd)⟩
    rw [cursors_put, if_pos hnext.loaded] at hu ⊢
    exact hnear hu

/-- A mint in another window leaves this one alone. -/
theorem mintAt_frame (hinv : Inv cfg st)
    (hother : cfg.shardWindowStart (home.getD t) ≠ cfg.shardWindowStart a) (readFails : Bool)
    (save : SaveOutcome) :
    (st.mintAt cfg t home readFails save).1.vtWindows (key cfg a) = st.vtWindows (key cfg a) ∧
      (st.mintAt cfg t home readFails save).1.leases (key cfg a) = st.leases (key cfg a) := by
  have hkey : key cfg a ≠ key cfg (home.getD t) := fun h =>
    hother (cfg.unixMilli_start_inj h).symm
  obtain ⟨-, heq⟩ | ⟨b', hb', ⟨w, -, -, -, heq⟩ | heq⟩ :=
    (hinv.windows (home.getD t)).mintAt_cases readFails save
  · rw [heq]
    exact ⟨rfl, rfl⟩
  · rw [heq]
    simp only [put, hkey, if_false, and_self]
  · rw [heq]
    simp only [put, hkey, if_false, and_self]

/-- The step of a mint stores what `mintAt` stores. -/
theorem step_mintAt_store (cfg : ShardWindows) (st : MintStore) (t : Int) (home : Option Int)
    (readFails : Bool) (save : SaveOutcome) :
    (st.step cfg (.mintAt t home readFails save)).vtWindows =
        (st.mintAt cfg t home readFails save).1.vtWindows ∧
      (st.step cfg (.mintAt t home readFails save)).leases =
        (st.mintAt cfg t home readFails save).1.leases := by
  simp only [MintStore.step]
  cases (st.mintAt cfg t home readFails save).2 <;> exact ⟨rfl, rfl⟩

/-- **How far a run moves the cursors.**  After `n` mints in the window and `r` restarts they are
within `n` steps and `r` leases of counters that were asked for. -/
theorem near_foldl (hb : cfg.bounds a = some b) (es : List MintEvent) :
    Near cfg a b (asked cfg a b es) ((asked cfg a b es).length + restarts es * vtLease)
      (es.foldl (MintStore.step cfg) empty) := by
  induction es using reverseRecOn with
  | nil => exact ⟨nofun, nofun⟩
  | append_singleton es e ih =>
    have hinv : Inv cfg (es.foldl (MintStore.step cfg) empty) :=
      Reachable.inv (reachable_foldl (.start rfl) es)
    have hnonneg : (0 : Int) ≤ (asked cfg a b es).length + restarts es * vtLease := by
      have : (0 : Int) ≤ restarts es := Int.natCast_nonneg _
      simp only [vtLease]
      omega
    rw [foldl_append, foldl_cons, foldl_nil]
    generalize es.foldl (MintStore.step cfg) empty = st at ih hinv
    cases e with
    | restart =>
      have hasked : asked cfg a b (es ++ [.restart]) = asked cfg a b es := by
        simp [asked, askedBy]
      have hcount : restarts (es ++ [.restart]) = restarts es + 1 := by
        simp [restarts]
      rw [hasked, hcount]
      exact ih.restart.mono (Subset.refl _) (by simp only [vtLease]; omega)
    | mintAt t home readFails save =>
      have hcount : restarts (es ++ [.mintAt t home readFails save]) = restarts es := by
        simp [restarts]
      obtain ⟨hw, hl⟩ := step_mintAt_store cfg st t home readFails save
      have hstep : ∀ {l : List Int} {k : Int}, Near cfg a b l k (st.mintAt cfg t home readFails save).1 →
          Near cfg a b l k (st.step cfg (.mintAt t home readFails save)) := fun h =>
        h.congr (by simp only [MintStore.cursors, hw, hl]) (by rw [hl])
      apply hstep
      rw [hcount]
      by_cases hsame : cfg.shardWindowStart (home.getD t) = cfg.shardWindowStart a
      · have hasked : asked cfg a b (es ++ [.mintAt t home readFails save]) =
            asked cfg a b es ++ [min (max (vtCounter t) b.1) (b.2 - 1)] := by
          simp [asked, askedBy, hsame]
        rw [hasked]
        refine (ih.mintAt hinv hnonneg hb hsame readFails save).mono ?_ ?_
        · intro x hx
          rcases mem_cons.mp hx with rfl | hx
          · exact mem_append_right _ mem_cons_self
          · exact mem_append_left _ hx
        · simp only [length_append, length_singleton, vtLease]
          omega
      · have hasked : asked cfg a b (es ++ [.mintAt t home readFails save]) = asked cfg a b es := by
          simp [asked, askedBy, hsame]
        obtain ⟨hwin, hlease⟩ := mintAt_frame hinv hsame readFails save
        rw [hasked]
        exact ih.congr (by simp only [MintStore.cursors, hwin, hlease]) hlease

/-- `mintAt` in the window of `a` is refused for lack of room exactly when the cursors span it. -/
theorem mintAt_full_iff (hinv : Inv cfg st) (hb : cfg.bounds a = some b)
    (hsame : cfg.shardWindowStart (home.getD t) = cfg.shardWindowStart a)
    (hrange : home = none → vtInIDRange t = true) (save : SaveOutcome) :
    (st.mintAt cfg t home false save).2 = .error .errWindowFull ↔
      (st.cursors cfg a b).Spanned := by
  have hkey : key cfg (home.getD t) = key cfg a := congrArg unixMilli hsame
  have hbounds : cfg.bounds (home.getD t) = some b := by
    rw [← hb, ShardWindows.bounds, hsame, cfg.end_eq hsame, ShardWindows.bounds]
  have hcursors : st.cursors cfg (home.getD t) b = st.cursors cfg a b := by
    simp only [MintStore.cursors, hkey]
  have hfull := VtWindow.mint_full_iff (ShardWindows.bounds_lt hb).2
    ((hinv.windows a).cursors_ok hb) t save
  obtain ⟨hout, -⟩ | ⟨b', hb', ⟨w, -, hfails, -⟩ | heq⟩ :=
    (hinv.windows (home.getD t)).mintAt_cases false save
  · rcases hout with ⟨hnone, hout⟩ | hnone
    · rw [hrange hnone] at hout; cases hout
    · rw [hbounds] at hnone; cases hnone
  · cases hfails
  · cases hbounds.symm.trans hb'
    rw [heq, hkey, hcursors, ← hfull]
    dsimp only
    cases ((st.cursors cfg a b).mint (st.leases (key cfg a)) t save).2.2 with
    | error e => exact ⟨fun h => by cases h; rfl, fun h => by cases h; rfl⟩
    | ok c => exact ⟨by rintro ⟨⟩, by rintro ⟨⟩⟩

/-- **A window is refused a mint exactly when both its cursors have reached an end.**  In a run
with fewer than an eighth of the window's steps in mints, and restarts whose leases make up less
than an eighth, that cannot happen unless the run asked for an instant in the lowest quarter of the
window and for one in the highest. -/
theorem window_not_full_iff {a t : Int} {home : Option Int} {b : Int × Int} {es : List MintEvent}
    (hb : cfg.bounds a = some b)
    (hmints : 8 * ((asked cfg a b es).length : Int) < b.2 - b.1)
    (hrestarts : restarts es * (8 * vtLease) < b.2 - b.1)
    (hsame : cfg.shardWindowStart (home.getD t) = cfg.shardWindowStart a)
    (hrange : home = none → vtInIDRange t = true) (save : SaveOutcome) :
    (((es.foldl (MintStore.step cfg) empty).mintAt cfg t home false save).2 ≠
        .error .errWindowFull ↔
      ¬ ((es.foldl (MintStore.step cfg) empty).cursors cfg a b).Spanned) ∧
    ((∀ c ∈ asked cfg a b es, b.2 - b.1 ≤ 4 * (c - b.1)) ∨
        (∀ c ∈ asked cfg a b es, b.2 - b.1 ≤ 4 * (b.2 - 1 - c)) →
      ((es.foldl (MintStore.step cfg) empty).mintAt cfg t home false save).2 ≠
        .error .errWindowFull) := by
  have hinv : Inv cfg (es.foldl (MintStore.step cfg) empty) :=
    Reachable.inv (reachable_foldl (.start rfl) es)
  have hiff := mintAt_full_iff hinv hb hsame hrange save
  refine ⟨not_congr hiff, fun hquarter hfull => ?_⟩
  obtain ⟨hused, hlo, hhi⟩ := hiff.mp hfull
  have hcur := (hinv.windows a).cursors_ok hb
  have hs := hcur.start_eq
  have he := hcur.end_eq
  obtain ⟨⟨x, hx, hxlo⟩, y, hy, hyhi⟩ := (near_foldl hb es).cursors hused
  simp only [vtLease] at hrestarts hxlo hyhi
  rcases hquarter with hlow | hhigh
  · have := hlow x hx
    omega
  · have := hhigh y hy
    omega

/-- A mint at the first and one at the last microsecond of an hour, and a restart. -/
def midnightToMidnight : List MintEvent :=
  [.mintAt 0 none false .saved, .mintAt 3599999999000 none false .saved, .restart]

/-- The counters of the first hour. -/
theorem bounds_first_hour : hourly.bounds 0 = some (0, 3686400000000) := by decide +kernel

theorem window_not_full_first_mint :
    ((([.mintAt 0 none false .saved] : List MintEvent).foldl (MintStore.step hourly) empty).mintAt
      hourly 5000000 none false .saved).2 ≠ .error .errWindowFull :=
  (window_not_full_iff bounds_first_hour (by decide +kernel) (by decide +kernel)
    (by decide +kernel) (fun _ => by decide +kernel) .saved).2 (.inr (by decide +kernel))

/-- Two mints and a restart fill an hour of more than three trillion steps. -/
theorem window_full_after_two_mints :
    hourly.bounds 0 = some (0, 3686400000000) ∧ 8 * vtLease < 3686400000000 ∧
      8 * ((asked hourly 0 (0, 3686400000000) midnightToMidnight).length : Int) < 3686400000000 ∧
      restarts midnightToMidnight * (8 * vtLease) < 3686400000000 ∧
      ((midnightToMidnight.foldl (MintStore.step hourly) empty).mintAt hourly 5000000 none false
        .saved).2 = .error .errWindowFull := by
  decide +kernel

end MintStore

end ValidTimeMint
end RhoTkg
