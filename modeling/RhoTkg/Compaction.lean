import RhoTkg.Integrity
import RhoTkg.Library.Keyed

/-!
# History compaction

Compaction trims the oldest history rows of a chain as far as the retention policy allows
(`planTrim`) and the links of the chain permit (`anchorSafeTrim`), and leaves a stub with the hash of the
last trimmed row.  The trim is meant to be the longest one after which `verifyChainLinkage` accepts the
kept rows behind the stub: the oldest row kept links to the last one trimmed, every other kept row to a
kept one (`Anchored`).

`anchorSafeTrim` takes the first kept row *of the history* for the oldest row kept (`SafeTrim`).  The
current row can have a lower version than history rows, since corrections are written above it; then the
test and the check part.  A trim can pass the test and fail the check, and a longer one can pass the
check and fail the test.  `compaction_keeps_chain` says that this is the only way they part.
-/

namespace RhoTkg

open List

/-- `versionInfo`. -/
structure VersionInfo where
  version : Nat
  txFrom : Int
  hash : String
  prevHash : String
deriving DecidableEq, Repr

/-- `RetentionPolicy`. -/
structure RetentionPolicy where
  keepVersions : Nat
  keepSince : Int
deriving DecidableEq, Repr

/-- The entry the linkage check reads. -/
def VersionInfo.entry (v : VersionInfo) : ChainEntryMeta := ⟨v.version, v.hash, v.prevHash⟩

/-- The entries of rows and a current row. -/
def chainEntries (hist : List VersionInfo) (current : Option VersionInfo) : List ChainEntryMeta :=
  (hist ++ current.toList).map VersionInfo.entry

/-! ## The plan -/

/-- The loop of `planTrim` from index `i` of a history of `m` rows: the newest row is never trimmed. -/
def planTrimLoop (policy : RetentionPolicy) (m : Nat) : Nat → List VersionInfo → Nat
  | i, v :: w :: rest =>
    let failsCount := !(decide (0 < policy.keepVersions) && decide (m - i ≤ policy.keepVersions))
    let failsAge := !(decide (0 < policy.keepSince) && decide (policy.keepSince ≤ v.txFrom))
    if failsCount && failsAge then planTrimLoop policy m (i + 1) (w :: rest) else i
  | i, _ => i

/-- `planTrim`: how many of the oldest rows the policy gives up. -/
def planTrim (hist : List VersionInfo) (policy : RetentionPolicy) : Nat :=
  planTrimLoop policy hist.length 0 hist

/-- The map `index` of `anchorSafeTrim`, for the rows from index `i` on; a later row takes the place of
an earlier one. -/
def hashIndex : Nat → List VersionInfo → String → Option Nat
  | _, [], _ => none
  | i, v :: vs, hash => (hashIndex (i + 1) vs hash).or (if v.hash = hash then some i else none)

/-- `minRef` of `anchorSafeTrim` for the last rows of a history of `n` rows: the lowest index a row of
them or the current row links to. -/
def minRef (index : String → Option Nat) (n : Nat) (current : Option VersionInfo) :
    List VersionInfo → Nat
  | [] => ((current.bind fun c => index c.prevHash).getD n)
  | v :: vs =>
    match index v.prevHash with
    | some j => if j < minRef index n current vs then j else minRef index n current vs
    | none => minRef index n current vs

/-- The last loop of `anchorSafeTrim`, from `t` down. -/
def safeTrimLoop (hist : List VersionInfo) (current : Option VersionInfo) : Nat → Nat
  | 0 => 0
  | t + 1 =>
    if t + 1 ≤ minRef (hashIndex 0 hist) hist.length current (hist.drop (t + 2)) ∧
        (hist[t + 1]?).map (·.prevHash) = (hist[t]?).map (·.hash) then t + 1
    else safeTrimLoop hist current t

/-- `anchorSafeTrim`. -/
def anchorSafeTrim (hist : List VersionInfo) (current : Option VersionInfo) (trim : Nat) : Nat :=
  if trim = 0 then 0
  else if verifyChainLinkage (chainEntries hist current) none = false then trim
  else safeTrimLoop hist current (min trim (hist.length - 1))

/-- `planAnchorSafeTrim`: the trim count; the boundary is the row below it and the oldest kept row the
row at it. -/
def planAnchorSafeTrim (hist : List VersionInfo) (current : Option VersionInfo)
    (policy : RetentionPolicy) : Nat :=
  anchorSafeTrim hist current (planTrim hist policy)

/-- The stub `planNodeCompaction` writes when it trims `t` rows. -/
def compactionStub (hist : List VersionInfo) (t : Nat) (now : Int) : Option CompactionStub :=
  match hist[t - 1]?, hist[t]? with
  | some boundary, some oldestKept => some ⟨boundary.version, boundary.hash, oldestKept.txFrom, now⟩
  | _, _ => none

/-- `entityPlan`. -/
structure EntityPlan where
  keepVersions : Nat
  trimmed : Nat
  stub : CompactionStub
deriving DecidableEq, Repr

/-- `planNodeCompaction`, on the version infos of the history; `none` when nothing would be trimmed. -/
def planNodeCompaction (history : List VersionInfo) (current : Option VersionInfo)
    (policy : RetentionPolicy) (now : Int) : Option EntityPlan :=
  let infos := history.mergeSort fun a b => decide (a.version ≤ b.version)
  let trim := planAnchorSafeTrim infos current policy
  if trim = 0 then none
  else (compactionStub infos trim now).map fun stub => ⟨infos.length - trim, trim, stub⟩

section CompactNode

variable {ρ : Type} (info : ρ → VersionInfo)

/-- `truncateNodeHistoryLocked`: the newest rows stay. -/
def truncateHistory (history : List ρ) (keepVersions : Nat) : List ρ :=
  if keepVersions = 0 then []
  else (history.mergeSort fun a b => decide ((info a).version ≤ (info b).version)).drop
    (history.length - keepVersions)

/-- `CompactHistoryNodes` on one node: its history and its stub. -/
def compactNode (current : Option ρ) (policy : RetentionPolicy) (now : Int) (history : List ρ)
    (stub : Option CompactionStub) : List ρ × Option CompactionStub :=
  match planNodeCompaction (history.map info) (current.map info) policy now with
  | none => (history, stub)
  | some plan => (truncateHistory info history plan.keepVersions, some plan.stub)

end CompactNode

/-! ## The trims that keep a chain linked -/

section Trims

variable (hist : List VersionInfo) (current : Option VersionInfo) (t : Nat)

/-- The rows a trim keeps. -/
def keptRows : List VersionInfo := hist.drop t ++ current.toList

/-- The test of `anchorSafeTrim`: the first row kept of the history links to the last one trimmed, and
no other kept row to a trimmed one. -/
def SafeTrim : Prop :=
  (hist[t]?).map (·.prevHash) = (hist[t - 1]?).map (·.hash) ∧
    ∀ r ∈ keptRows hist current (t + 1), r.prevHash ∉ (hist.take t).map (·.hash)

/-- The oldest row kept is no genesis and links to the last one trimmed, and every other kept row links
to a kept one. -/
def Anchored : Prop :=
  ∃ oldest ∈ keptRows hist current t, (∀ r ∈ keptRows hist current t, oldest.version ≤ r.version) ∧
    oldest.version ≠ 0 ∧ some oldest.prevHash = (hist[t - 1]?).map (·.hash) ∧
    ∀ r ∈ keptRows hist current t, r = oldest ∨ r.prevHash ∈ (keptRows hist current t).map (·.hash)

/-- The current row has a lower version than the rows kept of the history. -/
def CurrentBelow : Prop := ∃ c ∈ current, ∃ r ∈ hist[t]?, c.version < r.version

/-- The current row has the hash of a trimmed row. -/
def CurrentShares : Prop := ∃ c ∈ current, c.hash ∈ (hist.take t).map (·.hash)

/-- The longest trim of the plan that passes the test. -/
def LongestSafeTrim (policy : RetentionPolicy) (t : Nat) : Prop :=
  SafeTrim hist current t ∧ ∀ t' ≤ planTrim hist policy, t < t' → ¬ SafeTrim hist current t'

/-- The current row is not the oldest row kept: not by the longest trim that passes the test, and not by
a longer one that would keep the chain linked. -/
def CurrentStaysAbove (policy : RetentionPolicy) : Prop :=
  ∀ t ≤ planTrim hist policy, 0 < t → LongestSafeTrim hist current policy t →
    ¬ CurrentBelow hist current t ∧ ∀ t' ≤ planTrim hist policy, t < t' →
      CurrentBelow hist current t' ∨ CurrentShares hist current t' → ¬ Anchored hist current t'

end Trims

/-- The rows of a chain: versions are `uint32`, ascending in the history, and no two rows have the same
version; the hashes of the history are distinct. -/
structure ChainRows (hist : List VersionInfo) (current : Option VersionInfo) : Prop where
  sorted : hist.Pairwise fun a b => a.version < b.version
  hashes : (hist.map (·.hash)).Nodup
  other : ∀ c ∈ current, ∀ r ∈ hist, r.version ≠ c.version
  uint32 : ∀ r ∈ hist ++ current.toList, r.version ≤ maxUint32

section Plan

variable {hist : List VersionInfo} {current : Option VersionInfo} {policy : RetentionPolicy} {t : Nat}

theorem planTrimLoop_le (policy : RetentionPolicy) (m i : Nat) (rows : List VersionInfo) :
    planTrimLoop policy m i rows ≤ i + (rows.length - 1) := by
  induction rows generalizing i with
  | nil => exact Nat.le_add_right i _
  | cons v rows ih =>
    cases rows with
    | nil => exact le_rfl
    | cons w rest =>
      rw [planTrimLoop]
      split
      · have := ih (i + 1)
        simp only [length_cons] at this ⊢
        omega
      · exact Nat.le_add_right i _

/-- The newest row is never trimmed. -/
theorem planTrim_le (hist : List VersionInfo) (policy : RetentionPolicy) :
    planTrim hist policy ≤ hist.length - 1 := by
  simpa [planTrim] using planTrimLoop_le policy hist.length 0 hist

variable {i n : Nat} {rows : List VersionInfo}

theorem le_of_hashIndex {j : Nat} {hash : String} (h : hashIndex i rows hash = some j) :
    i ≤ j ∧ hash ∈ rows.map (·.hash) := by
  induction rows generalizing i with
  | nil => cases h
  | cons v rows ih =>
    rw [hashIndex, Option.or_eq_some_iff] at h
    rcases h with h | ⟨-, h⟩
    · obtain ⟨hle, hmem⟩ := ih h
      exact ⟨by omega, mem_cons_of_mem _ hmem⟩
    · split at h
      · rename_i heq
        exact ⟨(Option.some.inj h).le, heq ▸ mem_cons_self⟩
      · cases h

/-- A hash has no index below `t`. -/
theorem le_hashIndex_iff (hash : String) (hnodup : (rows.map (·.hash)).Nodup) :
    (∀ j, hashIndex i rows hash = some j → i + t ≤ j) ↔ hash ∉ (rows.take t).map (·.hash) := by
  induction rows generalizing i t with
  | nil => simp [hashIndex]
  | cons v rows ih =>
    rw [map_cons, nodup_cons] at hnodup
    cases t with
    | zero =>
      simp only [take_zero, map_nil, not_mem_nil, not_false_eq_true, iff_true]
      exact fun j hj => (le_of_hashIndex hj).1
    | succ t =>
      rw [take_succ_cons, map_cons, mem_cons, not_or, hashIndex]
      by_cases heq : v.hash = hash
      · -- the row itself is the only one with the hash
        have hnone : hashIndex (i + 1) rows hash = none := by
          by_contra hne
          obtain ⟨j, hj⟩ := Option.ne_none_iff_exists'.mp hne
          exact hnodup.1 (heq ▸ (le_of_hashIndex hj).2)
        rw [hnone, if_pos heq]
        refine iff_of_false (fun h => ?_) fun h => h.1 heq.symm
        have := h i rfl
        omega
      · rw [if_neg heq, Option.or_none, ← ih hnodup.2 (i := i + 1)]
        constructor
        · exact fun h => ⟨Ne.symm heq, fun j hj => by have := h j hj; omega⟩
        · exact fun h j hj => by have := h.2 j hj; omega

theorem le_minRef_iff {index : String → Option Nat} (ht : t ≤ n) :
    t ≤ minRef index n current rows ↔
      ∀ r ∈ rows ++ current.toList, ∀ j, index r.prevHash = some j → t ≤ j := by
  induction rows with
  | nil =>
    cases current with
    | none => simpa [minRef] using ht
    | some c =>
      cases hc : index c.prevHash <;> simp [minRef, hc, ht]
  | cons v rows ih =>
    rw [minRef, cons_append, forall_mem_cons, ← ih]
    cases index v.prevHash with
    | none => simp
    | some j =>
      dsimp only
      split
      · constructor
        · intro hle
          exact ⟨fun k hk => Option.some.inj hk ▸ hle, by omega⟩
        · rintro ⟨hj, -⟩
          exact hj j rfl
      · constructor
        · intro hle
          exact ⟨fun k hk => Option.some.inj hk ▸ by omega, hle⟩
        · exact fun h => h.2

/-- The test of the loop. -/
theorem safeTrim_iff (hrows : ChainRows hist current) (ht : t ≤ hist.length) :
    t ≤ minRef (hashIndex 0 hist) hist.length current (hist.drop (t + 1)) ∧
      (hist[t]?).map (·.prevHash) = (hist[t - 1]?).map (·.hash) ↔ SafeTrim hist current t := by
  rw [le_minRef_iff ht, SafeTrim, and_comm]
  refine and_congr_right fun _ => forall₂_congr fun r _ => ?_
  have hindex := le_hashIndex_iff (t := t) (i := 0) r.prevHash hrows.hashes
  simpa using hindex

/-- The loop finds the longest trim that passes the test. -/
theorem safeTrimLoop_spec (hrows : ChainRows hist current) (hn : n ≤ hist.length) :
    safeTrimLoop hist current n ≤ n ∧
      (0 < safeTrimLoop hist current n → SafeTrim hist current (safeTrimLoop hist current n)) ∧
      ∀ t' ≤ n, safeTrimLoop hist current n < t' → ¬ SafeTrim hist current t' := by
  induction n with
  | zero => exact ⟨le_rfl, fun h => absurd h (lt_irrefl 0), fun t' h h' => by omega⟩
  | succ n ih =>
    obtain ⟨hle, hsafe, hmax⟩ := ih (by omega)
    have htest := safeTrim_iff hrows hn
    rw [Nat.add_sub_cancel] at htest
    rw [safeTrimLoop]
    by_cases h : SafeTrim hist current (n + 1)
    · rw [if_pos (htest.mpr h)]
      exact ⟨le_rfl, fun _ => h, fun t' h h' => by omega⟩
    · rw [if_neg (mt htest.mp h)]
      refine ⟨by omega, hsafe, fun t' ht' hlt => ?_⟩
      rcases Nat.lt_or_ge n t' with hgt | hle'
      · have heq : t' = n + 1 := by omega
        exact heq ▸ h
      · exact hmax t' hle' hlt

end Plan

/-! ## Where a trim cuts -/

/-- The rows on both sides of a cut at `t`: the last one trimmed and the first one kept. -/
structure CutAt (hist : List VersionInfo) (t : Nat) (boundary first : VersionInfo) : Prop where
  boundary_eq : hist[t - 1]? = some boundary
  first_eq : hist[t]? = some first
  mem_take : boundary ∈ hist.take t
  drop : hist.drop t = first :: hist.drop (t + 1)
  lt_first : boundary.version < first.version
  first_lt : ∀ r ∈ hist.drop (t + 1), first.version < r.version

section Cut

variable {hist : List VersionInfo} {current : Option VersionInfo} {t : Nat} {boundary first : VersionInfo}

theorem ChainRows.exists_cutAt (h : ChainRows hist current) (hpos : 0 < t) (ht : t < hist.length) :
    ∃ boundary first, CutAt hist t boundary first := by
  have hdrop : hist.drop t = hist[t] :: hist.drop (t + 1) := drop_eq_getElem_cons ht
  have hsorted := h.sorted
  rw [← take_append_drop t hist, pairwise_append] at hsorted
  have htake : hist[t - 1] ∈ hist.take t := by
    rw [mem_take_iff_getElem]
    exact ⟨t - 1, by omega, rfl⟩
  refine ⟨hist[t - 1], hist[t], getElem?_eq_getElem _, getElem?_eq_getElem _, htake, hdrop,
    hsorted.2.2 _ htake _ (by rw [hdrop]; exact mem_cons_self), ?_⟩
  have hrest := hsorted.2.1
  rw [hdrop, pairwise_cons] at hrest
  exact hrest.1

variable {r : VersionInfo}

theorem ChainRows.eq_of_version_eq (h : ChainRows hist current) {r' : VersionInfo}
    (hr : r ∈ hist ++ current.toList) (hr' : r' ∈ hist ++ current.toList)
    (heq : r.version = r'.version) : r = r' := by
  have hhist : ∀ a ∈ hist, ∀ b ∈ hist, a.version = b.version → a = b := fun a ha b hb hab =>
    Keyed.Sorted.eq_of_key_eq h.sorted ha hb hab
  rw [mem_append, Option.mem_toList] at hr hr'
  rcases hr with hr | hr <;> rcases hr' with hr' | hr'
  · exact hhist r hr r' hr' heq
  · exact absurd heq (h.other r' hr' r hr)
  · exact absurd heq.symm (h.other r hr r' hr')
  · exact Option.mem_unique hr hr'

theorem keptRows_subset (h : r ∈ keptRows hist current t) : r ∈ hist ++ current.toList := by
  rw [keptRows, mem_append] at h
  exact mem_append.mpr (h.imp_left mem_of_mem_drop)

/-- A kept row is one of the history or the current row. -/
theorem CutAt.mem_keptRows (h : CutAt hist t boundary first) :
    r ∈ keptRows hist current t ↔ r = first ∨ r ∈ keptRows hist current (t + 1) := by
  rw [keptRows, h.drop, cons_append, mem_cons, keptRows]

/-- The links of a chain that verifies. -/
theorem ChainRows.prevHash_mem
    (hverify : verifyChainLinkage (chainEntries hist current) none = true) {below : VersionInfo}
    (hr : r ∈ hist ++ current.toList) (hbelow : below ∈ hist ++ current.toList)
    (hlt : below.version < r.version) :
    r.prevHash ≠ "" ∧ r.prevHash ∈ (hist ++ current.toList).map (·.hash) := by
  have := prevHash_mem_of_verifyChainLinkage hverify (mem_map_of_mem hr) (mem_map_of_mem hbelow)
    hlt
  simpa [chainEntries, VersionInfo.entry, Function.comp_def] using this

/-- **The check behind the stub of a trim** accepts what is anchored. -/
theorem ChainRows.verify_iff_anchored (h : ChainRows hist current)
    (hverify : verifyChainLinkage (chainEntries hist current) none = true)
    (hcut : CutAt hist t boundary first) {stub : CompactionStub}
    (hstub : stub.lastTrimmedHash = boundary.hash) :
    verifyChainLinkage (chainEntries (hist.drop t) current) (some stub) = true ↔
      Anchored hist current t := by
  have hentries : chainEntries (hist.drop t) current = (keptRows hist current t).map VersionInfo.entry :=
    rfl
  have hhashes : ((keptRows hist current t).map VersionInfo.entry).map (·.hash) =
      (keptRows hist current t).map (·.hash) := by
    rw [map_map]
    rfl
  rw [hentries, verifyChainLinkage_some, hhashes]
  · constructor
    · rintro ⟨entry, hentry, hle, hzero, hlink, hrest⟩
      obtain ⟨oldest, holdest, rfl⟩ := mem_map.mp hentry
      refine ⟨oldest, holdest, fun r hr => hle _ (mem_map_of_mem hr), hzero, ?_, fun r hr => ?_⟩
      · rw [hcut.boundary_eq, Option.map_some, ← hstub]
        exact congrArg some hlink
      · rcases hrest _ (mem_map_of_mem hr) with heq | ⟨-, hmem⟩
        · exact .inl (h.eq_of_version_eq (keptRows_subset hr) (keptRows_subset holdest)
            (congrArg ChainEntryMeta.version heq))
        · exact .inr hmem
    · rintro ⟨oldest, holdest, hle, hzero, hlink, hrest⟩
      rw [hcut.boundary_eq, Option.map_some, ← hstub] at hlink
      refine ⟨oldest.entry, mem_map_of_mem holdest, ?_, hzero, Option.some.inj hlink, ?_⟩
      · intro m hm
        obtain ⟨r, hr, rfl⟩ := mem_map.mp hm
        exact hle r hr
      · intro m hm
        obtain ⟨r, hr, rfl⟩ := mem_map.mp hm
        rcases hrest r hr with rfl | hmem
        · exact .inl rfl
        · by_cases heq : r = oldest
          · exact .inl (congrArg _ heq)
          · -- a kept row above the oldest had a link in the whole chain
            have hlt : oldest.version < r.version := lt_of_le_of_ne (hle r hr) fun hv =>
              heq (h.eq_of_version_eq (keptRows_subset hr) (keptRows_subset holdest) hv.symm)
            exact .inr ⟨(prevHash_mem hverify (keptRows_subset hr) (keptRows_subset holdest) hlt).1, hmem⟩
  · rw [keptRows, hcut.drop]
    exact cons_ne_nil _ _
  · intro m hm
    obtain ⟨r, hr, rfl⟩ := mem_map.mp hm
    exact h.uint32 r (keptRows_subset hr)
  · intro m hm m' hm' heq
    obtain ⟨r, hr, rfl⟩ := mem_map.mp hm
    obtain ⟨r', hr', rfl⟩ := mem_map.mp hm'
    exact congrArg _ (h.eq_of_version_eq (keptRows_subset hr) (keptRows_subset hr') heq)

/-- The rows kept behind the first are above it, unless the current row is below. -/
theorem CutAt.first_lt_of_not_below (hcut : CutAt hist t boundary first)
    (h : ChainRows hist current) (hbelow : ¬ CurrentBelow hist current t)
    (hr : r ∈ keptRows hist current (t + 1)) : first.version < r.version := by
  rw [keptRows, mem_append, Option.mem_toList] at hr
  rcases hr with hr | hr
  · exact hcut.first_lt r hr
  · have hne := h.other r hr first (mem_of_getElem? hcut.first_eq)
    have hle : ¬ r.version < first.version := fun hlt => hbelow ⟨r, hr, first, hcut.first_eq, hlt⟩
    omega

/-- A trim that passes the test and does not keep the current row below is anchored. -/
theorem SafeTrim.anchored (hsafe : SafeTrim hist current t) (h : ChainRows hist current)
    (hverify : verifyChainLinkage (chainEntries hist current) none = true)
    (hcut : CutAt hist t boundary first) (hbelow : ¬ CurrentBelow hist current t) :
    Anchored hist current t := by
  have hlink := hsafe.1
  rw [hcut.first_eq, hcut.boundary_eq] at hlink
  have hmem : first ∈ keptRows hist current t := hcut.mem_keptRows.mpr (.inl rfl)
  refine ⟨first, hmem, fun r hr => ?_, ?_, ?_, fun r hr => ?_⟩
  · rcases hcut.mem_keptRows.mp hr with rfl | hr
    · exact le_rfl
    · exact (hcut.first_lt_of_not_below h hbelow hr).le
  · have := hcut.lt_first
    omega
  · rw [hcut.boundary_eq]
    exact hlink
  · rcases hcut.mem_keptRows.mp hr with rfl | hr'
    · exact .inl rfl
    · right
      have hlt := hcut.first_lt_of_not_below h hbelow hr'
      have hall := (ChainRows.prevHash_mem hverify (keptRows_subset hr) (keptRows_subset hmem) hlt).2
      rw [← take_append_drop t hist, append_assoc, map_append, mem_append] at hall
      exact hall.resolve_left (hsafe.2 r hr')

/-- A trim that keeps the current row below fails the check when it passes the test. -/
theorem SafeTrim.not_anchored (hsafe : SafeTrim hist current t) (hcut : CutAt hist t boundary first)
    (hbelow : CurrentBelow hist current t) : ¬ Anchored hist current t := by
  rintro ⟨oldest, holdest, hle, -, hlink, -⟩
  obtain ⟨c, hc, r, hr, hlt⟩ := hbelow
  cases hcut.first_eq.symm.trans hr
  have hkept : c ∈ keptRows hist current (t + 1) := by
    rw [keptRows, mem_append, Option.mem_toList]
    exact .inr hc
  have hold : oldest.version ≤ c.version := hle c (hcut.mem_keptRows.mpr (.inr hkept))
  rw [hcut.boundary_eq] at hlink
  -- so the current row is the oldest and links to the boundary
  have hmem : oldest ∈ keptRows hist current (t + 1) := by
    rcases hcut.mem_keptRows.mp holdest with rfl | hmem
    · omega
    · exact hmem
  exact hsafe.2 oldest hmem (mem_map.mpr ⟨boundary, hcut.mem_take, (Option.some.inj hlink).symm⟩)

/-- A trim that is anchored passes the test, unless the current row is below or shares a hash. -/
theorem Anchored.safeTrim (hanchored : Anchored hist current t) (h : ChainRows hist current)
    (hcut : CutAt hist t boundary first) (hbelow : ¬ CurrentBelow hist current t)
    (hshares : ¬ CurrentShares hist current t) : SafeTrim hist current t := by
  obtain ⟨oldest, holdest, hle, -, hlink, hrest⟩ := hanchored
  have hmem : first ∈ keptRows hist current t := hcut.mem_keptRows.mpr (.inl rfl)
  have heq : oldest = first := by
    rcases hcut.mem_keptRows.mp holdest with heq | hkept
    · exact heq
    · have := hcut.first_lt_of_not_below h hbelow hkept
      have := hle first hmem
      omega
  subst heq
  refine ⟨by rw [hcut.first_eq]; exact hlink, fun r hr htrimmed => ?_⟩
  have hlt := hcut.first_lt_of_not_below h hbelow hr
  have hkept := (hrest r (hcut.mem_keptRows.mpr (.inr hr))).resolve_left fun heq => by
    rw [heq] at hlt
    omega
  rw [keptRows, map_append, mem_append] at hkept
  rcases hkept with hkept | hkept
  · -- the hash of a trimmed row is that of no kept row of the history
    have hnodup := h.hashes
    rw [← take_append_drop t hist, map_append] at hnodup
    exact (disjoint_of_nodup_append hnodup) htrimmed hkept
  · obtain ⟨c, hc, heq⟩ := mem_map.mp hkept
    exact hshares ⟨c, Option.mem_toList.mp hc, heq ▸ htrimmed⟩

end Cut

/-! ## Compaction of a chain -/

section Compact

variable {hist : List VersionInfo} {current : Option VersionInfo} {policy : RetentionPolicy}

theorem planAnchorSafeTrim_eq (hverify : verifyChainLinkage (chainEntries hist current) none = true) :
    planAnchorSafeTrim hist current policy = safeTrimLoop hist current (planTrim hist policy) := by
  rw [planAnchorSafeTrim, anchorSafeTrim, min_eq_left (planTrim_le hist policy)]
  split
  · rename_i hzero
    rw [hzero, safeTrimLoop]
  · rw [hverify, if_neg Bool.noConfusion]

theorem planAnchorSafeTrim_le (h : ChainRows hist current) :
    planAnchorSafeTrim hist current policy ≤ planTrim hist policy := by
  cases hverify : verifyChainLinkage (chainEntries hist current) none with
  | true =>
    have hlen := planTrim_le hist policy
    rw [planAnchorSafeTrim_eq hverify]
    exact (safeTrimLoop_spec h (by omega)).1
  | false =>
    rw [planAnchorSafeTrim, anchorSafeTrim, if_pos hverify]
    split
    · exact Nat.zero_le _
    · exact le_rfl

variable {t : Nat}

theorem CutAt.compactionStub {boundary first : VersionInfo} (h : CutAt hist t boundary first)
    (now : Int) : compactionStub hist t now =
      some ⟨boundary.version, boundary.hash, first.txFrom, now⟩ := by
  rw [RhoTkg.compactionStub, h.boundary_eq, h.first_eq]

/-- The check behind a trim of the plan. -/
theorem ChainRows.verify_trim_iff (h : ChainRows hist current)
    (hverify : verifyChainLinkage (chainEntries hist current) none = true) (hpos : 0 < t)
    (hplan : t ≤ planTrim hist policy) (now : Int) :
    verifyChainLinkage (chainEntries (hist.drop t) current) (RhoTkg.compactionStub hist t now) = true ↔
      Anchored hist current t := by
  have hlen := planTrim_le hist policy
  obtain ⟨boundary, first, hcut⟩ := h.exists_cutAt hpos (by omega)
  rw [hcut.compactionStub]
  exact h.verify_iff_anchored hverify hcut rfl

/-- The trim verifies and no longer one does, exactly when the current row is never the oldest kept. -/
theorem ChainRows.trim_iff (h : ChainRows hist current)
    (hverify : verifyChainLinkage (chainEntries hist current) none = true) (now : Int) :
    (0 < planAnchorSafeTrim hist current policy →
      verifyChainLinkage (chainEntries (hist.drop (planAnchorSafeTrim hist current policy)) current)
          (RhoTkg.compactionStub hist (planAnchorSafeTrim hist current policy) now) = true ∧
        ∀ t', planAnchorSafeTrim hist current policy < t' → t' ≤ planTrim hist policy →
          verifyChainLinkage (chainEntries (hist.drop t') current)
            (RhoTkg.compactionStub hist t' now) = false) ↔
      CurrentStaysAbove hist current policy := by
  have hlen := planTrim_le hist policy
  rw [planAnchorSafeTrim_eq hverify]
  obtain ⟨hle, hsafe, hmax⟩ := safeTrimLoop_spec h (n := planTrim hist policy) (by omega)
  generalize safeTrimLoop hist current (planTrim hist policy) = best at hle hsafe hmax
  have hcut : ∀ t, 0 < t → t ≤ planTrim hist policy → ∃ boundary first, CutAt hist t boundary first :=
    fun t hpos ht => h.exists_cutAt hpos (by omega)
  constructor
  · intro hbest t ht hpos hlongest
    have heq : best = t := by
      have hge : t ≤ best := not_lt.mp fun hlt => hmax t ht hlt hlongest.1
      rcases hge.eq_or_lt with heq | hlt
      · exact heq.symm
      · exact absurd (hsafe (hpos.trans hlt)) (hlongest.2 best hle hlt)
    subst heq
    obtain ⟨hok, hlonger⟩ := hbest hpos
    rw [h.verify_trim_iff hverify hpos ht] at hok
    obtain ⟨_, _, hcutBest⟩ := hcut best hpos ht
    refine ⟨fun hbelow => hlongest.1.not_anchored hcutBest hbelow hok, fun t' ht' hlt _ hanch => ?_⟩
    have hrefused := hlonger t' hlt ht'
    rw [← Bool.not_eq_true, h.verify_trim_iff hverify (by omega) ht'] at hrefused
    exact hrefused hanch
  · intro habove hpos
    obtain ⟨hnotBelow, hlonger⟩ := habove best hle hpos ⟨hsafe hpos, hmax⟩
    obtain ⟨_, _, hcutBest⟩ := hcut best hpos hle
    rw [h.verify_trim_iff hverify hpos hle]
    refine ⟨(hsafe hpos).anchored h hverify hcutBest hnotBelow, fun t' hlt ht' => ?_⟩
    rw [← Bool.not_eq_true, h.verify_trim_iff hverify (by omega) ht']
    intro hanch
    obtain ⟨_, _, hcut'⟩ := hcut t' (by omega) ht'
    by_cases hcase : CurrentBelow hist current t' ∨ CurrentShares hist current t'
    · exact hlonger t' ht' hlt hcase hanch
    · rw [not_or] at hcase
      exact hmax t' ht' hlt (hanch.safeTrim h hcut' hcase.1 hcase.2)

end Compact

section VerifyNode

variable {ρ : Type} {info : ρ → VersionInfo} {contentOk : ρ → Bool} {history : List ρ} {current : Option ρ}

variable {stub : Option CompactionStub}

/-- What the whole check says: every row passes the content check and the links verify. -/
theorem verifyNodeChainRows_eq_true :
    verifyNodeChainRows contentOk (fun r => (info r).entry) current history stub = .ok true ↔
      ¬ (current.isNone && history.isEmpty) = true ∧
        (history ++ current.toList).all contentOk = true ∧
        verifyChainLinkage (chainEntries (history.map info) (current.map info)) stub = true := by
  have hentries : (history ++ current.toList).map (fun r => (info r).entry) =
      chainEntries (history.map info) (current.map info) := by
    cases current <;> simp [chainEntries]
  rw [verifyNodeChainRows, hentries]
  split
  · rename_i hempty
    exact iff_of_false nofun fun h => h.1 hempty
  · rename_i hempty
    split
    · rename_i hcontent
      simp [hempty, hcontent]
    · rename_i hcontent
      simp [hcontent]

/-- The history after the compaction of a chain that verifies. -/
theorem compactNode_eq {policy : RetentionPolicy} {now : Int}
    (h : ChainRows (history.map info) (current.map info)) :
    compactNode info current policy now history stub =
      if planAnchorSafeTrim (history.map info) (current.map info) policy = 0 then (history, stub)
      else (history.drop (planAnchorSafeTrim (history.map info) (current.map info) policy),
        compactionStub (history.map info)
          (planAnchorSafeTrim (history.map info) (current.map info) policy) now) := by
  have hinfos : (history.map info).mergeSort (fun a b => decide (a.version ≤ b.version)) =
      history.map info :=
    mergeSort_of_pairwise (h.sorted.imp fun hlt => decide_eq_true hlt.le)
  have hrows : history.mergeSort (fun a b => decide ((info a).version ≤ (info b).version)) = history :=
    mergeSort_of_pairwise ((pairwise_map.mp h.sorted).imp fun hlt => decide_eq_true hlt.le)
  rw [compactNode, planNodeCompaction, hinfos]
  by_cases hzero : planAnchorSafeTrim (history.map info) (current.map info) policy = 0
  · rw [if_pos hzero, if_pos hzero]
  · have hle : planAnchorSafeTrim (history.map info) (current.map info) policy ≤ history.length - 1 := by
      simpa using (planAnchorSafeTrim_le h).trans (planTrim_le _ policy)
    obtain ⟨_, _, hcut⟩ := h.exists_cutAt (Nat.pos_of_ne_zero hzero) (by rw [length_map]; omega)
    rw [if_neg hzero, if_neg hzero, hcut.compactionStub, Option.map_some]
    dsimp only
    rw [truncateHistory, hrows, length_map, if_neg (by omega), Nat.sub_sub_self (by omega)]

/-- **Compaction and the check.**  On a chain that verifies, the trim compaction takes verifies and is
the longest of the plan that does, exactly when the current row is not the oldest row kept; then a node
that verified before its compaction verifies after it. -/
theorem compaction_keeps_chain (info : ρ → VersionInfo) (contentOk : ρ → Bool) (history : List ρ)
    (current : Option ρ) (policy : RetentionPolicy) (now : Int)
    (h : ChainRows (history.map info) (current.map info)) :
    (verifyChainLinkage (chainEntries (history.map info) (current.map info)) none = true →
      ((0 < planAnchorSafeTrim (history.map info) (current.map info) policy →
        verifyChainLinkage (chainEntries ((history.map info).drop
              (planAnchorSafeTrim (history.map info) (current.map info) policy)) (current.map info))
            (compactionStub (history.map info)
              (planAnchorSafeTrim (history.map info) (current.map info) policy) now) = true ∧
          ∀ t', planAnchorSafeTrim (history.map info) (current.map info) policy < t' →
            t' ≤ planTrim (history.map info) policy →
            verifyChainLinkage (chainEntries ((history.map info).drop t') (current.map info))
              (compactionStub (history.map info) t' now) = false) ↔
        CurrentStaysAbove (history.map info) (current.map info) policy)) ∧
    (CurrentStaysAbove (history.map info) (current.map info) policy → ∀ stub,
      verifyNodeChainRows contentOk (fun r => (info r).entry) current history stub = .ok true →
      verifyNodeChainRows contentOk (fun r => (info r).entry) current
        (compactNode info current policy now history stub).1
        (compactNode info current policy now history stub).2 = .ok true) := by
  refine ⟨fun hverify => h.trim_iff hverify now, fun habove stub hnode => ?_⟩
  obtain ⟨hempty, hcontent, hlinks⟩ := verifyNodeChainRows_eq_true.mp hnode
  have hverify : verifyChainLinkage (chainEntries (history.map info) (current.map info)) none = true := by
    cases stub with
    | none => exact hlinks
    | some stub => exact verifyChainLinkage_none_of_some hlinks
  rw [compactNode_eq h]
  split
  · exact hnode
  · rename_i hpos
    have htrim := ((h.trim_iff hverify now).mpr habove (Nat.pos_of_ne_zero hpos)).1
    have hle : planAnchorSafeTrim (history.map info) (current.map info) policy ≤ history.length - 1 := by
      simpa using (planAnchorSafeTrim_le h).trans (planTrim_le _ policy)
    refine verifyNodeChainRows_eq_true.mpr ⟨?_, ?_, ?_⟩
    · rw [Bool.and_eq_true, not_and]
      intro _ hnil
      have hlen := congrArg length (isEmpty_iff.mp hnil)
      rw [length_drop, length_nil] at hlen
      omega
    · rw [all_append, Bool.and_eq_true] at hcontent ⊢
      refine ⟨all_eq_true.mpr fun r hr => ?_, hcontent.2⟩
      exact all_eq_true.mp hcontent.1 r (mem_of_mem_drop hr)
    · rwa [map_drop]

end VerifyNode

/-! ### Chains of fixed rows -/

section Decide

variable (hist : List VersionInfo) (current : Option VersionInfo) (t : Nat)

instance : Decidable (SafeTrim hist current t) := inferInstanceAs (Decidable (_ ∧ _))

instance : Decidable (Anchored hist current t) :=
  inferInstanceAs (Decidable (∃ oldest ∈ keptRows hist current t, _))

instance : Decidable (CurrentBelow hist current t) := inferInstanceAs (Decidable (∃ c ∈ current, _))

instance : Decidable (CurrentShares hist current t) := inferInstanceAs (Decidable (∃ c ∈ current, _))

instance (policy : RetentionPolicy) : Decidable (LongestSafeTrim hist current policy t) :=
  inferInstanceAs (Decidable (_ ∧ ∀ t' ≤ planTrim hist policy, _))

instance (policy : RetentionPolicy) : Decidable (CurrentStaysAbove hist current policy) :=
  have (t : Nat) : Decidable (∀ t' ≤ planTrim hist policy, t < t' →
      CurrentBelow hist current t' ∨ CurrentShares hist current t' → ¬ Anchored hist current t') :=
    Nat.decidableBallLE _ _
  Nat.decidableBallLE _ _

end Decide

/-- A chain of updates: every version links to the one below. -/
def linearChain : List VersionInfo :=
  [⟨0, 1, "a", ""⟩, ⟨1, 2, "b", "a"⟩, ⟨2, 3, "c", "b"⟩, ⟨3, 4, "d", "c"⟩]

/-- The chain of updates, trimmed to two rows of history, verifies. -/
theorem compaction_keeps_linearChain :
    CurrentStaysAbove linearChain (some ⟨4, 5, "e", "d"⟩) ⟨2, 0⟩ ∧
      planAnchorSafeTrim linearChain (some ⟨4, 5, "e", "d"⟩) ⟨2, 0⟩ = 2 ∧
      verifyNodeChainRows (fun _ => true) (fun r => (id r : VersionInfo).entry) (some ⟨4, 5, "e", "d"⟩)
        (compactNode id (some ⟨4, 5, "e", "d"⟩) ⟨2, 0⟩ 9 linearChain none).1
        (compactNode id (some ⟨4, 5, "e", "d"⟩) ⟨2, 0⟩ 9 linearChain none).2 = .ok true := by
  have habove : CurrentStaysAbove linearChain (some ⟨4, 5, "e", "d"⟩) ⟨2, 0⟩ := by decide +kernel
  refine ⟨habove, by decide +kernel, ?_⟩
  exact (compaction_keeps_chain id (fun _ => true) linearChain (some ⟨4, 5, "e", "d"⟩) ⟨2, 0⟩ 9
    ⟨by decide, by decide, by decide, by decide⟩).2 habove none (by decide +kernel)

/-- Three corrections of a genesis that is still the current row, each of the one before. -/
def correctedGenesis : List VersionInfo := [⟨1, 2, "b", "a"⟩, ⟨2, 3, "c", "b"⟩, ⟨3, 4, "d", "c"⟩]

/-- Updates, and a correction of the current row `⟨3, 4, "d", "c"⟩`. -/
def correctedCurrent : List VersionInfo :=
  [⟨0, 1, "a", ""⟩, ⟨1, 2, "b", "a"⟩, ⟨2, 3, "c", "b"⟩, ⟨4, 5, "e", "d"⟩]

/-- A chain that verified does not after its compaction, and of another less is trimmed than may be. -/
theorem compaction_breaks_correctedGenesis :
    (ChainRows correctedGenesis (some ⟨0, 1, "a", ""⟩) ∧
      verifyChainLinkage (chainEntries correctedGenesis (some ⟨0, 1, "a", ""⟩)) none = true ∧
      planAnchorSafeTrim correctedGenesis (some ⟨0, 1, "a", ""⟩) ⟨1, 0⟩ = 2 ∧
      verifyChainLinkage (chainEntries (correctedGenesis.drop 2) (some ⟨0, 1, "a", ""⟩))
        (compactionStub correctedGenesis 2 9) = false) ∧
    (ChainRows correctedCurrent (some ⟨3, 4, "d", "c"⟩) ∧
      verifyChainLinkage (chainEntries correctedCurrent (some ⟨3, 4, "d", "c"⟩)) none = true ∧
      planTrim correctedCurrent ⟨1, 0⟩ = 3 ∧
      planAnchorSafeTrim correctedCurrent (some ⟨3, 4, "d", "c"⟩) ⟨1, 0⟩ = 2 ∧
      verifyChainLinkage (chainEntries (correctedCurrent.drop 3) (some ⟨3, 4, "d", "c"⟩))
        (compactionStub correctedCurrent 3 9) = true) :=
  ⟨⟨⟨by decide, by decide, by decide, by decide⟩, by decide +kernel, by decide +kernel,
      by decide +kernel⟩,
    ⟨⟨by decide, by decide, by decide, by decide⟩, by decide +kernel, by decide +kernel,
      by decide +kernel, by decide +kernel⟩⟩

end RhoTkg
