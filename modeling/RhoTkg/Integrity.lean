import RhoTkg.Writes

/-!
# The hash links of a chain

Every row of a chain has the hash of its content and the hash of the row it was written after.  The
links form a DAG: a correction piece links to the row it corrects, not to the row of the next lower
version.  `verifyChainLinkage` checks them: the genesis links to nothing, every other row but the
oldest to a row of the chain, and the oldest to anything, or, after a compaction, to the last trimmed
row, which the compaction stub names.

The content check of a row recomputes its hash; here a row only answers whether it passes.  The paged walk over the history visits the same rows in the same order and is not
modelled apart.  The seal of a stub (`selfHash`) and the entity it names are left out.
-/

namespace RhoTkg

/-- `chainEntryMeta`. -/
structure ChainEntryMeta where
  version : Nat
  hash : String
  prevHash : String
deriving DecidableEq, Repr

/-- `compactionStub`. -/
structure CompactionStub where
  trimmedThroughVersion : Nat
  lastTrimmedHash : String
  lastTrimmedTxTo : Int
  compactedAtTx : Int
deriving DecidableEq, Repr

/-- The `minVersion` loop of `verifyChainLinkage`. -/
def minVersion (metas : List ChainEntryMeta) : Nat :=
  metas.foldl (fun least m => if m.version < least then m.version else least) maxUint32

/-- `verifyChainLinkage`. -/
def verifyChainLinkage (metas : List ChainEntryMeta) (stub : Option CompactionStub) : Bool :=
  metas.all fun m =>
    if m.version = 0 then stub.isNone && m.prevHash == ""
    else if m.version = minVersion metas then
      match stub with
      | some stub => m.prevHash == stub.lastTrimmedHash
      | none => true
    else m.prevHash != "" && (metas.map (·.hash)).contains m.prevHash

section VerifyRows

variable {ρ : Type} (contentOk : ρ → Bool) (info : ρ → ChainEntryMeta)

/-- `verifyNodeChainRowsLocked`; `contentOk` is `verifyNodeChainEntryContentLocked`, which answers false
for a row without a hash and for one whose hash is not that of its content. -/
def verifyNodeChainRows (current : Option ρ) (history : List ρ) (stub : Option CompactionStub) :
    Except DoorError Bool :=
  if current.isNone && history.isEmpty then .error .errNodeNotFound
  else if (history ++ current.toList).all contentOk then
    .ok (verifyChainLinkage ((history ++ current.toList).map info) stub)
  else .ok false

end VerifyRows

/-! ## What the check accepts -/

section Linkage

variable {metas : List ChainEntryMeta} {stub : CompactionStub}

theorem foldl_least_le (metas : List ChainEntryMeta) (init : Nat) :
    let least := metas.foldl (fun least m => if m.version < least then m.version else least) init
    least ≤ init ∧ (∀ m ∈ metas, least ≤ m.version) ∧ (least = init ∨ ∃ m ∈ metas, m.version = least) := by
  induction metas generalizing init with
  | nil => exact ⟨le_rfl, nofun, .inl rfl⟩
  | cons a metas ih =>
    obtain ⟨hinit, hmem, heq⟩ := ih (if a.version < init then a.version else init)
    rw [List.foldl_cons]
    refine ⟨hinit.trans (by split <;> omega), fun m hm => ?_, ?_⟩
    · rcases List.mem_cons.mp hm with rfl | hm
      · exact hinit.trans (by split <;> omega)
      · exact hmem m hm
    · rcases heq with heq | ⟨m, hm, heq⟩
      · by_cases hlt : a.version < init
        · exact .inr ⟨a, List.mem_cons_self, by rw [heq, if_pos hlt]⟩
        · exact .inl (by rw [heq, if_neg hlt])
      · exact .inr ⟨m, List.mem_cons_of_mem _ hm, heq⟩

theorem minVersion_le {m : ChainEntryMeta} (h : m ∈ metas) : minVersion metas ≤ m.version :=
  (foldl_least_le metas maxUint32).2.1 m h

theorem exists_version_eq_minVersion (h : metas ≠ []) (hmax : ∀ m ∈ metas, m.version ≤ maxUint32) :
    ∃ m ∈ metas, m.version = minVersion metas := by
  rcases (foldl_least_le metas maxUint32).2.2 with heq | hex
  · obtain ⟨m, hm⟩ := List.exists_mem_of_ne_nil metas h
    refine ⟨m, hm, le_antisymm ?_ (minVersion_le hm)⟩
    exact (hmax m hm).trans heq.ge
  · exact hex

/-- In a chain that verifies, a row above another one links to a row of the chain. -/
theorem prevHash_mem_of_verifyChainLinkage (h : verifyChainLinkage metas none = true)
    {m below : ChainEntryMeta} (hm : m ∈ metas) (hbelow : below ∈ metas)
    (hlt : below.version < m.version) : m.prevHash ≠ "" ∧ m.prevHash ∈ metas.map (·.hash) := by
  have hcheck := List.all_eq_true.mp h m hm
  have hmin : m.version ≠ minVersion metas := by
    have := minVersion_le hbelow
    omega
  rw [if_neg (by omega), if_neg hmin] at hcheck
  simpa using hcheck

/-- A chain that verifies behind a stub verifies without. -/
theorem verifyChainLinkage_none_of_some (h : verifyChainLinkage metas (some stub) = true) :
    verifyChainLinkage metas none = true := by
  refine List.all_eq_true.mpr fun m hm => ?_
  have hcheck := List.all_eq_true.mp h m hm
  split at hcheck
  · cases hcheck
  · rename_i hzero
    rw [if_neg hzero]
    split at hcheck
    · rename_i hmin
      rw [if_pos hmin]
    · rename_i hmin
      rwa [if_neg hmin]

/-- **What the check accepts behind a stub**: the oldest row is no genesis and links to the last trimmed
row, and the others link to rows of the chain. -/
theorem verifyChainLinkage_some (hne : metas ≠ []) (hmax : ∀ m ∈ metas, m.version ≤ maxUint32)
    (hinj : ∀ m ∈ metas, ∀ m' ∈ metas, m.version = m'.version → m = m') :
    verifyChainLinkage metas (some stub) = true ↔
      ∃ oldest ∈ metas, (∀ m ∈ metas, oldest.version ≤ m.version) ∧ oldest.version ≠ 0 ∧
        oldest.prevHash = stub.lastTrimmedHash ∧
        ∀ m ∈ metas, m = oldest ∨ m.prevHash ≠ "" ∧ m.prevHash ∈ metas.map (·.hash) := by
  obtain ⟨oldest, holdest, hversion⟩ := exists_version_eq_minVersion hne hmax
  constructor
  · intro h
    have hcheck : ∀ m ∈ metas, _ := List.all_eq_true.mp h
    have hzero : ∀ m ∈ metas, m.version ≠ 0 := fun m hm hz => by
      have := hcheck m hm
      rw [if_pos hz] at this
      cases this
    refine ⟨oldest, holdest, fun m hm => hversion.le.trans (minVersion_le hm), hzero oldest holdest, ?_,
      fun m hm => ?_⟩
    · have := hcheck oldest holdest
      rw [if_neg (hzero oldest holdest), if_pos hversion] at this
      simpa using this
    · by_cases hmin : m.version = minVersion metas
      · exact .inl (hinj m hm oldest holdest (hmin.trans hversion.symm))
      · have := hcheck m hm
        rw [if_neg (hzero m hm), if_neg hmin] at this
        exact .inr (by simpa using this)
  · rintro ⟨first, hfirst, hle, hzero, hlink, hrest⟩
    have hmin : first.version = minVersion metas :=
      le_antisymm ((hle oldest holdest).trans hversion.le) (minVersion_le hfirst)
    refine List.all_eq_true.mpr fun m hm => ?_
    have hm0 : m.version ≠ 0 := by
      have := hle m hm
      omega
    rw [if_neg hm0]
    rcases hrest m hm with rfl | ⟨hempty, hmem⟩
    · rw [if_pos hmin]
      simpa using hlink
    · by_cases hmin' : m.version = minVersion metas
      · rw [if_pos hmin', hinj m hm first hfirst (hmin'.trans hmin.symm)]
        simpa using hlink
      · rw [if_neg hmin', Bool.and_eq_true, List.contains_iff_mem]
        exact ⟨bne_iff_ne.mpr hempty, hmem⟩

end Linkage

end RhoTkg
