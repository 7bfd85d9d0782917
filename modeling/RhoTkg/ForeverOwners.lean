import RhoTkg.OwnerIndex

/-!
# The ownership registry of `UniqueForever`

The registry names for every value under a `UniqueForever` constraint the node that claimed it first.  It is
kept in memory and in the store's meta keys; a claim and a withdrawal change the map in memory, persist the
whole map, and put the map in memory back when the persist fails.  A claim is recorded under the key of the
stored value's own width and looked up under the keys of all widths.

A call claims the values it finds without an owner and remembers which it claimed (`claimAll`); when it then
fails it withdraws those whose value no row it has stored carries (`withdraw`).  `Registry.Ok` says that the
two maps agree and that no value has claims under two widths; then the owner of a value is the node of its one
claim (`foreverOwner_eq_some`), so a claim gives an owner to one value only (`foreverOwner_claim`) and a
withdrawal takes it from the withdrawn values only (`foreverOwner_withdraw`).
-/

namespace RhoTkg

open List

/-- The claims of a registry, each under the key of the stored value. -/
abbrev Owners := OwnedValue → Option Nat

/-- `foreverWidthKeys`: the keys a value can be claimed under. -/
def foreverWidthKeys : IndexKey → List IndexKey
  | .int _ n => intKeys n
  | k => [k]

/-- `foreverOwnerLocked`: the smallest owner of the value over the widths. -/
def foreverOwner (owners : Owners) (label key : Nat) (vk : IndexKey) : Option Nat :=
  ((foreverWidthKeys vk).filterMap fun k => owners (label, key, k)).min?

/-- The registry in memory and in the store's meta keys. -/
structure Registry where
  mem : Owners
  durable : Owners

/-- `foreverOwnerKey` of the stored value; a checked value has a key. -/
def UniqueCheck.claimKey (ck : UniqueCheck) : OwnedValue :=
  (ck.label, ck.key, (indexablePropertyValueKey ck.raw).getD ck.valueKey)

/-- `rowsCarryValue`. -/
def rowsCarryValue (rows : List (Row Value)) (ck : UniqueCheck) : Bool :=
  rows.any fun r => r.binds ck.label ck.key == some ck.valueKey

namespace Registry

variable (r : Registry) (self : Nat)

/-- `checkForeverOwnership`. -/
def checkForeverOwnership (ck : UniqueCheck) : Option UniqueError :=
  ((foreverOwner r.mem ck.label ck.key ck.valueKey).filter (· != self)).map .violation

/-- `claimForever` with a persist that succeeds: the registry, and whether the call made the claim.  A value
another node owns is not claimed. -/
def claim (ck : UniqueCheck) : Registry × Bool :=
  match foreverOwner r.mem ck.label ck.key ck.valueKey with
  | some _ => (r, false)
  | none =>
    let mem := Function.update r.mem ck.claimKey (some self)
    (⟨mem, mem⟩, true)

/-- The claims of a call on the values under a `UniqueForever` constraint, and those it made. -/
def claimAll : List UniqueCheck → Registry → Registry × List UniqueCheck
  | [], r => (r, [])
  | ck :: cks, r =>
    if ck.scope = .forever then
      let c := r.claim self ck
      let rest := claimAll cks c.1
      (rest.1, if c.2 then ck :: rest.2 else rest.2)
    else claimAll cks r

/-- `withdrawForeverClaims`; a persist that fails leaves the registry as it was. -/
def withdrawClaims (cks : List UniqueCheck) (persisted : Bool) : Registry :=
  if persisted then
    let mem : Owners := fun k =>
      if (cks.map UniqueCheck.claimKey).contains k && r.mem k == some self then none else r.mem k
    ⟨mem, mem⟩
  else r

/-- `uniqueHold.writeFailed`: the claims whose value no written row carries are withdrawn. -/
def writeFailed (made : List UniqueCheck) (written : List (Row Value)) (persisted : Bool) : Registry :=
  r.withdrawClaims self (made.filter fun ck => !rowsCarryValue written ck) persisted

/-- The registry an open loads. -/
def reopen : Registry := ⟨r.durable, r.durable⟩

end Registry

/-! ## Keys of all widths -/

variable {k : IndexKey}

theorem canonicalIndexKey_of_mem {vk : IndexKey} (h : k ∈ foreverWidthKeys vk) :
    canonicalIndexKey k = canonicalIndexKey vk := by
  cases vk with
  | int kind n =>
    obtain ⟨kind', -, rfl⟩ := mem_map.mp h
    rfl
  | _ => rw [mem_singleton.mp h]

/-- The key of a stored value is one of the keys its canonical key is looked up under. -/
theorem mem_foreverWidthKeys {v : Value} (hk : indexablePropertyValueKey v = some k) :
    k ∈ foreverWidthKeys (canonicalIndexKey k) := by
  cases v with
  | int i =>
    cases hk
    exact mem_map.mpr ⟨i.kind, mem_filter.mpr ⟨IntKind.mem_all _, i.holds⟩, rfl⟩
  | composite tag => cases hk
  | _ =>
    cases hk
    exact mem_cons_self

theorem foreverWidthKeys_canonical (k : IndexKey) :
    foreverWidthKeys (canonicalIndexKey k) = foreverWidthKeys k := by
  cases k <;> rfl

/-- No value has claims under two widths. -/
def OneWidth (owners : Owners) : Prop :=
  ∀ label key k k' a b, canonicalIndexKey k = canonicalIndexKey k' → owners (label, key, k) = some a →
    owners (label, key, k') = some b → k = k'

section OneWidth

variable {owners : Owners} {label key : Nat} {vk : IndexKey} {a : Nat}

theorem foreverOwner_eq_none :
    foreverOwner owners label key vk = none ↔ ∀ k ∈ foreverWidthKeys vk, owners (label, key, k) = none := by
  rw [foreverOwner, min?_eq_none_iff, filterMap_eq_nil_iff]

/-- The owner of a value is the node of its one claim. -/
theorem foreverOwner_eq_some (h : OneWidth owners) :
    foreverOwner owners label key vk = some a ↔
      ∃ k ∈ foreverWidthKeys vk, owners (label, key, k) = some a := by
  constructor
  · intro hmin
    obtain ⟨k, hk, hclaim⟩ := mem_filterMap.mp (min?_mem hmin)
    exact ⟨k, hk, hclaim⟩
  · rintro ⟨k, hk, hclaim⟩
    cases howner : foreverOwner owners label key vk with
    | none => exact nomatch hclaim.symm.trans (foreverOwner_eq_none.mp howner k hk)
    | some b =>
      obtain ⟨k', hk', hclaim'⟩ := mem_filterMap.mp (min?_mem howner)
      have hsame := h label key k k' a b
        ((canonicalIndexKey_of_mem hk).trans (canonicalIndexKey_of_mem hk').symm) hclaim hclaim'
      rw [← hsame, hclaim] at hclaim'
      exact hclaim'.symm

end OneWidth

/-! ## Claims and withdrawals -/

/-- The key of the check is that of its value. -/
abbrev UniqueCheck.Keyed (ck : UniqueCheck) : Prop := ck.raw.uniqueKey = some ck.valueKey

/-- The check is of this value. -/
def UniqueCheck.isOf (ck : UniqueCheck) (label key : Nat) (vk : IndexKey) : Bool :=
  ck.label = label ∧ ck.key = key ∧ ck.valueKey = canonicalIndexKey vk

theorem canonicalIndexKey_idem (k : IndexKey) :
    canonicalIndexKey (canonicalIndexKey k) = canonicalIndexKey k := by
  cases k <;> rfl

theorem claimKey_mem {ck : UniqueCheck} (hck : ck.Keyed) :
    ∃ k, ck.claimKey = (ck.label, ck.key, k) ∧ k ∈ foreverWidthKeys ck.valueKey ∧
      canonicalIndexKey k = ck.valueKey := by
  obtain ⟨k, hk, hcanon⟩ := Option.map_eq_some_iff.mp hck
  refine ⟨k, by rw [UniqueCheck.claimKey, hk]; rfl, ?_, hcanon⟩
  rw [← hcanon]
  exact mem_foreverWidthKeys hk

theorem UniqueCheck.Keyed.isOf_self {ck : UniqueCheck} (hck : ck.Keyed) :
    ck.isOf ck.label ck.key ck.valueKey = true := by
  obtain ⟨w, -, -, hcanon⟩ := claimKey_mem hck
  exact decide_eq_true ⟨rfl, rfl, by rw [← hcanon, canonicalIndexKey_idem]⟩

/-- The owner of a value is that of its check. -/
theorem foreverOwner_of_isOf {owners : Owners} {ck : UniqueCheck} {label key : Nat} {vk : IndexKey}
    (h : ck.isOf label key vk = true) :
    foreverOwner owners label key vk = foreverOwner owners ck.label ck.key ck.valueKey := by
  obtain ⟨rfl, rfl, hvk⟩ := of_decide_eq_true h
  rw [hvk, foreverOwner, foreverOwner, foreverWidthKeys_canonical]

namespace Registry

/-- The maps agree, claims are under keys of stored values, and no value has claims under two widths. -/
structure Ok (r : Registry) : Prop where
  agree : r.durable = r.mem
  stored : ∀ label key k a, r.mem (label, key, k) = some a → k ∈ foreverWidthKeys k
  oneWidth : OneWidth r.mem

/-- Every owner stays. -/
def Keeps (r r' : Registry) : Prop := ∀ label key vk a, foreverOwner r.mem label key vk = some a →
  foreverOwner r'.mem label key vk = some a

variable {r r₀ r₁ r₂ : Registry} {self : Nat} {ck : UniqueCheck} {cks made : List UniqueCheck}
  {k vk : IndexKey} {key label a : Nat}

theorem Keeps.refl (r : Registry) : r.Keeps r := fun _ _ _ _ ha => ha

theorem Keeps.trans (h : r.Keeps r₁) (h' : r₁.Keeps r₂) : r.Keeps r₂ :=
  fun _ _ _ _ ha => h' _ _ _ _ (h _ _ _ _ ha)

/-- A claim is made when the value has no owner. -/
theorem claim_cases (r : Registry) (self : Nat) (ck : UniqueCheck) :
    ((∃ a, foreverOwner r.mem ck.label ck.key ck.valueKey = some a) ∧ r.claim self ck = (r, false)) ∨
      foreverOwner r.mem ck.label ck.key ck.valueKey = none ∧
        r.claim self ck = (⟨Function.update r.mem ck.claimKey (some self),
          Function.update r.mem ck.claimKey (some self)⟩, true) := by
  unfold claim
  cases howner : foreverOwner r.mem ck.label ck.key ck.valueKey with
  | some a => exact .inl ⟨⟨a, rfl⟩, rfl⟩
  | none => exact .inr ⟨rfl, rfl⟩

/-- The owner of a value is the node of its claim, under whatever width. -/
theorem Ok.foreverOwner_iff (h : r.Ok) : foreverOwner r.mem label key vk = some a ↔
    ∃ k, canonicalIndexKey k = canonicalIndexKey vk ∧ r.mem (label, key, k) = some a := by
  rw [foreverOwner_eq_some h.oneWidth]
  constructor
  · rintro ⟨k, hk, hclaim⟩
    exact ⟨k, canonicalIndexKey_of_mem hk, hclaim⟩
  · rintro ⟨k, hk, hclaim⟩
    refine ⟨k, ?_, hclaim⟩
    rw [← foreverWidthKeys_canonical, ← hk, foreverWidthKeys_canonical]
    exact h.stored label key k a hclaim

/-- A value without an owner has no claim under any width. -/
theorem Ok.unclaimed (h : r.Ok) (hnone : foreverOwner r.mem label key vk = none)
    (hk : canonicalIndexKey k = canonicalIndexKey vk) : r.mem (label, key, k) = none := by
  cases hclaim : r.mem (label, key, k) with
  | none => rfl
  | some a => exact nomatch hnone.symm.trans (h.foreverOwner_iff.mpr ⟨k, hk, hclaim⟩)

theorem Ok.claim (h : r.Ok) (hck : ck.Keyed) : (r.claim self ck).1.Ok := by
  rcases claim_cases r self ck with ⟨-, heq⟩ | ⟨hnone, heq⟩
  · rw [heq]
    exact h
  rw [heq]
  obtain ⟨w, hw, hmem, hcanon⟩ := claimKey_mem hck
  have hfree : ∀ k, canonicalIndexKey k = canonicalIndexKey w → r.mem (ck.label, ck.key, k) = none :=
    fun k hk => h.unclaimed hnone (by rw [hk, ← hcanon, canonicalIndexKey_idem])
  rw [hw]
  have hupd : ∀ label key k a, Function.update r.mem (ck.label, ck.key, w) (some self) (label, key, k) =
      some a → (label = ck.label ∧ key = ck.key ∧ k = w) ∨ r.mem (label, key, k) = some a := by
    intro label key k a ha
    rw [Function.update_apply] at ha
    split at ha
    · rename_i hsame
      simp only [Prod.mk.injEq] at hsame
      exact .inl hsame
    · exact .inr ha
  refine ⟨rfl, fun label key k a ha => ?_, fun label key k k' a b hk ha hb => ?_⟩
  · rcases hupd label key k a ha with ⟨-, -, rfl⟩ | ha
    · rw [← foreverWidthKeys_canonical, hcanon]
      exact hmem
    · exact h.stored label key k a ha
  · -- the value had no claim, so the new one is its only one
    rcases hupd label key k a ha with ⟨rfl, rfl, rfl⟩ | hold <;>
      rcases hupd _ _ k' b hb with ⟨hl, hkey, rfl⟩ | hold'
    · rfl
    · exact nomatch hold'.symm.trans (hfree k' hk.symm)
    · subst hl hkey
      exact nomatch hold.symm.trans (hfree k hk)
    · exact h.oneWidth label key k k' a b hk hold hold'

/-- **The owners after a claim**: the owners before it, and the node for its value if that had none. -/
theorem Ok.foreverOwner_claim (h : r.Ok) (hck : ck.Keyed) (label key : Nat) (vk : IndexKey) :
    foreverOwner (r.claim self ck).1.mem label key vk =
      (foreverOwner r.mem label key vk).or (if ck.isOf label key vk then some self else none) := by
  rcases claim_cases r self ck with ⟨⟨b, hb⟩, heq⟩ | ⟨hnone, heq⟩
  · rw [heq]
    split
    · rename_i hsame
      rw [foreverOwner_of_isOf hsame, hb, Option.some_or]
    · rw [Option.or_none]
  · obtain ⟨w, hw, -, hcanon⟩ := claimKey_mem hck
    refine Option.ext fun a => ?_
    rw [(h.claim hck).foreverOwner_iff, heq, hw]
    dsimp only
    by_cases hsame : ck.isOf label key vk = true
    · rw [if_pos hsame, foreverOwner_of_isOf hsame, hnone, Option.none_or]
      obtain ⟨rfl, rfl, hvk⟩ := of_decide_eq_true hsame
      constructor
      · rintro ⟨k, hk, hclaim⟩
        by_cases hkw : k = w
        · rwa [hkw, Function.update_self] at hclaim
        · rw [Function.update_of_ne (by simpa using hkw)] at hclaim
          exact nomatch (h.unclaimed hnone (by rw [hk, hvk, canonicalIndexKey_idem])).symm.trans hclaim
      · exact fun ha => ⟨w, hcanon.trans hvk, by rwa [Function.update_self]⟩
    · rw [if_neg hsame, Option.or_none, h.foreverOwner_iff]
      refine exists_congr fun k => and_congr_right fun hk => ?_
      rw [Function.update_of_ne]
      rintro ⟨⟩
      exact hsame (decide_eq_true ⟨rfl, rfl, hcanon.symm.trans hk⟩)

/-- What the claims of a call do: the registry stays right, every owner stays, the values the node may have
are the node's, and a claim made was of a value without an owner, which the node owns now. -/
structure Claimed (r : Registry) (id : Nat) (cks : List UniqueCheck) (r' : Registry)
    (made : List UniqueCheck) : Prop where
  ok : r'.Ok
  keeps : ∀ label key vk a, foreverOwner r.mem label key vk = some a →
    foreverOwner r'.mem label key vk = some a
  owned : ∀ ck ∈ cks, ck.scope = .forever →
    foreverOwner r.mem ck.label ck.key ck.valueKey = none ∨
      foreverOwner r.mem ck.label ck.key ck.valueKey = some id →
    foreverOwner r'.mem ck.label ck.key ck.valueKey = some id
  mem_made : ∀ ck ∈ made, ck ∈ cks
  made : ∀ ck ∈ made, foreverOwner r.mem ck.label ck.key ck.valueKey = none ∧
    foreverOwner r'.mem ck.label ck.key ck.valueKey = some id

/-- The owners after the claims of a call. -/
theorem Ok.foreverOwner_claimAll (h : r.Ok) (hcks : ∀ ck ∈ cks, ck.Keyed) :
    (Registry.claimAll self cks r).1.Ok ∧ ∀ label key vk,
      foreverOwner (Registry.claimAll self cks r).1.mem label key vk =
        (foreverOwner r.mem label key vk).or
          (if cks.any fun ck => ck.scope = .forever && ck.isOf label key vk then some self else none) := by
  induction cks generalizing r with
  | nil => exact ⟨h, fun _ _ _ => (Option.or_none).symm⟩
  | cons ck cks ih =>
    obtain ⟨hck, hcks⟩ := forall_mem_cons.mp hcks
    unfold Registry.claimAll
    split
    · rename_i hscope
      obtain ⟨hok, howner⟩ := ih (@Ok.claim r self ck h hck) hcks
      refine ⟨hok, fun label key vk => ?_⟩
      rw [howner, h.foreverOwner_claim hck, Option.or_assoc, any_cons]
      cases ck.isOf label key vk <;> simp [hscope]
    · rename_i hscope
      obtain ⟨hok, howner⟩ := ih h hcks
      refine ⟨hok, fun label key vk => ?_⟩
      rw [howner, any_cons, decide_eq_false hscope, Bool.false_and, Bool.false_or]

/-- A claim made was of a value without an owner. -/
theorem Ok.of_mem_made (h : r.Ok) (hcks : ∀ ck ∈ cks, ck.Keyed)
    (hck : ck ∈ (Registry.claimAll self cks r).2) :
    ck ∈ cks ∧ ck.scope = .forever ∧ foreverOwner r.mem ck.label ck.key ck.valueKey = none := by
  induction cks generalizing r with
  | nil => cases hck
  | cons ck' cks ih =>
    obtain ⟨hck', hcks⟩ := forall_mem_cons.mp hcks
    unfold Registry.claimAll at hck
    split at hck
    · rename_i hscope
      have hlater : ck ∈ (Registry.claimAll self cks (r.claim self ck').1).2 → ck ∈ ck' :: cks ∧
          ck.scope = .forever ∧ foreverOwner r.mem ck.label ck.key ck.valueKey = none := by
        intro hin
        obtain ⟨hmem, hforever, hnone⟩ := ih (h.claim hck') hcks hin
        rw [h.foreverOwner_claim hck', Option.or_eq_none_iff] at hnone
        exact ⟨mem_cons_of_mem _ hmem, hforever, hnone.1⟩
      dsimp only at hck
      split at hck
      · rename_i hclaimed
        rcases mem_cons.mp hck with rfl | hck
        · rcases claim_cases r self ck with ⟨-, heq⟩ | ⟨hnone, -⟩
          · rw [heq] at hclaimed
            cases hclaimed
          · exact ⟨mem_cons_self, hscope, hnone⟩
        · exact hlater hck
      · exact hlater hck
    · obtain ⟨hmem, hrest⟩ := ih h hcks hck
      exact ⟨mem_cons_of_mem _ hmem, hrest⟩

/-- **The claims of a call.** -/
theorem Ok.claimAll (h : r.Ok) (hcks : ∀ ck ∈ cks, ck.Keyed) :
    Claimed r self cks (Registry.claimAll self cks r).1 (Registry.claimAll self cks r).2 := by
  obtain ⟨hok, howner⟩ := @Ok.foreverOwner_claimAll r self cks h hcks
  have howned : ∀ ck ∈ cks, ck.scope = .forever →
      foreverOwner r.mem ck.label ck.key ck.valueKey = none ∨
        foreverOwner r.mem ck.label ck.key ck.valueKey = some self →
      foreverOwner (Registry.claimAll self cks r).1.mem ck.label ck.key ck.valueKey = some self := by
    intro ck hck hscope hmay
    have hany : (cks.any fun ck' => ck'.scope = .forever && ck'.isOf ck.label ck.key ck.valueKey) = true :=
      any_eq_true.mpr ⟨ck, hck, by rw [decide_eq_true hscope, (hcks ck hck).isOf_self]; rfl⟩
    rw [howner, if_pos hany]
    rcases hmay with hnone | hself
    · rw [hnone, Option.none_or]
    · rw [hself, Option.some_or]
  refine ⟨hok, fun label key vk a ha => by rw [howner, ha, Option.some_or], howned,
    fun ck hck => (h.of_mem_made hcks hck).1, fun ck hck => ?_⟩
  obtain ⟨hmem, hscope, hnone⟩ := h.of_mem_made hcks hck
  exact ⟨hnone, howned ck hmem hscope (.inl hnone)⟩

/-- Fewer claims. -/
theorem Ok.of_le (h : r.Ok) {mem : Owners} (hsub : ∀ k a, mem k = some a → r.mem k = some a) :
    Ok ⟨mem, mem⟩ :=
  ⟨rfl, fun label key k a ha => h.stored label key k a (hsub _ _ ha),
    fun label key k k' a b hk ha hb => h.oneWidth label key k k' a b hk (hsub _ _ ha) (hsub _ _ hb)⟩

/-- **A withdrawal** takes the owner from the withdrawn values of the node only. -/
theorem Ok.withdrawClaims (h : r.Ok) (hcks : ∀ ck ∈ cks, ck.Keyed) (persisted : Bool) :
    (r.withdrawClaims self cks persisted).Ok ∧ ∀ label key vk a,
      foreverOwner r.mem label key vk = some a →
      (a = self → ∀ ck ∈ cks, ck.isOf label key vk ≠ true) →
        foreverOwner (r.withdrawClaims self cks persisted).mem label key vk = some a := by
  unfold Registry.withdrawClaims
  split
  swap
  · exact ⟨h, fun _ _ _ _ ha _ => ha⟩
  have hsub : ∀ k a, (if ((cks.map UniqueCheck.claimKey).contains k && r.mem k == some self) = true then none
      else r.mem k) = some a → r.mem k = some a := by
    intro k a hk
    split at hk
    · cases hk
    · exact hk
  have hok := h.of_le hsub
  refine ⟨hok, fun label key vk a ha hother => hok.foreverOwner_iff.mpr ?_⟩
  obtain ⟨k, hk, hclaim⟩ := h.foreverOwner_iff.mp ha
  refine ⟨k, hk, ?_⟩
  dsimp only
  rw [if_neg, hclaim]
  rw [Bool.and_eq_true, contains_iff_mem, hclaim, beq_iff_eq, Option.some.injEq]
  rintro ⟨hmem, hself⟩
  obtain ⟨ck, hck, heq⟩ := mem_map.mp hmem
  obtain ⟨w, hw, -, hcanon⟩ := claimKey_mem (hcks ck hck)
  cases hw.symm.trans heq
  exact hother hself ck hck (decide_eq_true ⟨rfl, rfl, hcanon.symm.trans hk⟩)

theorem Ok.reopen (h : r.Ok) : r.reopen = r := by
  obtain ⟨mem, durable⟩ := r
  have hagree : durable = mem := h.agree
  subst hagree
  rfl

/-! ## Failed calls -/

/-- Values without an owner. -/
def Unowned (r : Registry) (cks : List UniqueCheck) : Prop :=
  ∀ ck ∈ cks, ck.raw.uniqueKey = some ck.valueKey ∧ foreverOwner r.mem ck.label ck.key ck.valueKey = none

/-- The owners of fewer claims. -/
theorem Unowned.of_keeps (h : r.Unowned cks) (hkeeps : r₀.Keeps r) : r₀.Unowned cks := by
  refine fun ck hck => ⟨(h ck hck).1, ?_⟩
  cases howner : foreverOwner r₀.mem ck.label ck.key ck.valueKey with
  | none => rfl
  | some a => exact nomatch (h ck hck).2.symm.trans (hkeeps _ _ _ _ howner)

/-- **A failed call** keeps the owners from before it, whatever it has written. -/
theorem Ok.writeFailed (h : r.Ok) (hkeeps : r₀.Keeps r) (hmade : r₀.Unowned made)
    (written : List (Row Value)) (persisted : Bool) :
    (r.writeFailed self made written persisted).Ok ∧
      r₀.Keeps (r.writeFailed self made written persisted) := by
  obtain ⟨hok, hother⟩ := @Ok.withdrawClaims r self (made.filter fun ck => !rowsCarryValue written ck) h
    (fun ck hck => (hmade ck (mem_filter.mp hck).1).1) persisted
  refine ⟨hok, fun label key vk a ha => hother label key vk a (hkeeps _ _ _ _ ha) fun _ ck hck hof => ?_⟩
  rw [foreverOwner_of_isOf hof, (hmade ck (mem_filter.mp hck).1).2] at ha
  cases ha

/-- A failed call leaves another node its values, and the node those that a written row carries. -/
theorem Ok.foreverOwner_writeFailed (h : r.Ok) (hmade : ∀ ck ∈ made, ck.Keyed) {written : List (Row Value)}
    (persisted : Bool) (ha : foreverOwner r.mem label key k = some a)
    (hcarried : a = self → ∃ row ∈ written, row.binds label key = some k) :
    foreverOwner (r.writeFailed self made written persisted).mem label key k = some a := by
  refine (h.withdrawClaims (fun ck hck => hmade ck (mem_filter.mp hck).1) persisted).2 label key k a ha
    fun hself ck hck hof => ?_
  obtain ⟨row, hrow, hk⟩ := hcarried hself
  obtain ⟨rfl, rfl, hvk⟩ := of_decide_eq_true hof
  obtain ⟨-, v, -, hv⟩ := binds_eq_some.mp hk
  obtain ⟨w, -, rfl⟩ := Option.map_eq_some_iff.mp hv
  rw [canonicalIndexKey_idem] at hvk
  have hkept := (mem_filter.mp hck).2
  rw [Bool.not_eq_true', rowsCarryValue, any_eq_false] at hkept
  exact hkept row hrow (by rw [hk, hvk]; exact beq_self_eq_true _)

end Registry

/-! ## The rows of an owner -/

/-- Every value the row binds under a `UniqueForever` constraint is the node's. -/
def Owns (reg : List UniqueConstraint) (owners : Owners) (id : Nat) (row : Row Value) : Prop :=
  ∀ c ∈ reg, c.scope = .forever → ∀ k, row.binds c.label c.key = some k →
    foreverOwner owners c.label c.key k = some id

section Owns

variable {reg : List UniqueConstraint} {owners : Owners} {id : Nat} {row row' : Row Value}

theorem Owns.mono {r r' : Registry} (h : Owns reg r.mem id row) (hkeeps : r.Keeps r') :
    Owns reg r'.mem id row :=
  fun c hc hscope k hk => hkeeps _ _ _ _ (h c hc hscope k hk)

theorem Owns.sameContent (h : Owns reg owners id row) (hlabels : row'.labels = row.labels)
    (hprops : row'.properties = row.properties) : Owns reg owners id row' := by
  intro c hc hscope k hk
  refine h c hc hscope k ?_
  rw [Row.binds, uniqueValueKey, ← hlabels, ← hprops]
  exact hk

/-- A failed call leaves the rows of other nodes their values, and the written rows of the node. -/
theorem Owns.writeFailed {r : Registry} {self : Nat} (h : Owns reg r.mem id row) (hok : r.Ok)
    {made : List UniqueCheck} (hmade : ∀ ck ∈ made, ck.Keyed)
    {written : List (Row Value)} (hcarried : id = self → row ∈ written) (persisted : Bool) :
    Owns reg (r.writeFailed self made written persisted).mem id row :=
  fun c hc hscope k hk => hok.foreverOwner_writeFailed hmade persisted (h c hc hscope k hk)
    fun hself => ⟨row, hcarried hself, hk⟩

end Owns

/-! ## The seed of a new constraint -/

section Seed

variable (nodes : Nat → Option (Stored Value)) (ids : List Nat)

/-- The value a node has under a constraint, when it is no float. -/
def seedCheck (c : UniqueConstraint) (id : Nat) : Option UniqueCheck :=
  (nodes id).bind fun x => if x.row.labels.contains c.label then
    (uniqueCheckOf x.row c.label c false).filter fun ck => !isFloatValueKey ck.valueKey else none

/-- One node of the seed. -/
def seedForeverOwner (c : UniqueConstraint) (r : Registry) (id : Nat) : Registry :=
  match seedCheck nodes c id with
  | none => r
  | some ck => (r.claim id ck).1

/-- `seedForeverOwnersFromCurrent`, with a persist that succeeds. -/
def seedForeverOwnersFromCurrent (r : Registry) (c : UniqueConstraint) : Registry :=
  ids.foldl (seedForeverOwner nodes c) r

/-- The seeds of the `UniqueForever` constraints. -/
def seedForever (reg : List UniqueConstraint) (r : Registry) : Registry :=
  (reg.filter (·.scope == .forever)).foldl (seedForeverOwnersFromCurrent nodes ids) r

/-- `validateUniqueExisting` has passed: no two nodes have equal values and none has a float. -/
structure ValidExisting (c : UniqueConstraint) : Prop where
  unique : NoDuplicates c nodes
  float : ∀ id x k, nodes id = some x → x.row.binds c.label c.key = some k → isFloatValueKey k = false

/-- The registry of a seed: every owner carries the value it owns. -/
structure Seeded (reg : List UniqueConstraint) (r : Registry) : Prop where
  ok : r.Ok
  carries : ∀ c ∈ reg, c.scope = .forever → ∀ vk a, foreverOwner r.mem c.label c.key vk = some a →
    ∃ x, nodes a = some x ∧ x.row.binds c.label c.key = some (canonicalIndexKey vk)

variable {nodes ids} {reg : List UniqueConstraint} {c : UniqueConstraint} {r : Registry} {id : Nat}

theorem seedCheck_eq_some {ck : UniqueCheck} (h : seedCheck nodes c id = some ck) :
    ck.label = c.label ∧ ck.key = c.key ∧ ck.Keyed ∧
      ∃ x, nodes id = some x ∧ x.row.binds c.label c.key = some ck.valueKey := by
  obtain ⟨x, hx, h⟩ := Option.bind_eq_some_iff.mp h
  split at h
  swap
  · cases h
  rename_i hlabel
  obtain ⟨h1, h2, h3, h4, -, -⟩ := uniqueCheckOf_eq_some (Option.filter_eq_some_iff.mp h).1
  exact ⟨h1, h2, h3, x, hx, by rw [Row.binds, if_pos hlabel]; exact h4⟩

/-- One node of the seed owns its value, and the owners before it stay. -/
theorem Seeded.seedForeverOwner (h : Seeded nodes reg r) (hc : c ∈ reg) (hscope : c.scope = .forever)
    (hvalid : ValidExisting nodes c) (id : Nat) :
    Seeded nodes reg (RhoTkg.seedForeverOwner nodes c r id) ∧
      r.Keeps (RhoTkg.seedForeverOwner nodes c r id) ∧
      ∀ x k, nodes id = some x → x.row.binds c.label c.key = some k →
        foreverOwner (RhoTkg.seedForeverOwner nodes c r id).mem c.label c.key k = some id := by
  unfold RhoTkg.seedForeverOwner
  split
  · rename_i hnone
    refine ⟨h, .refl r, fun x k hx hk => ?_⟩
    obtain ⟨hlabel, v, hv, hvk⟩ := binds_eq_some.mp hk
    have hkey : uniqueValueKey x.row c.key = some k := by rw [uniqueValueKey, hv]; exact hvk
    obtain ⟨ck, hck, rfl⟩ := uniqueCheckOf_of_valueKey hkey c.label false
    have hfloat := hvalid.float id x _ hx hk
    simp [seedCheck, hx, hlabel, hck, hfloat] at hnone
  · rename_i ck hck
    obtain ⟨hlabel, hkey, hraw, x, hx, hbinds⟩ := seedCheck_eq_some hck
    refine ⟨⟨h.ok.claim hraw, fun c' hc' hscope' vk a ha => ?_⟩,
      fun _ _ _ _ ha => by rw [h.ok.foreverOwner_claim hraw, ha, Option.some_or], fun y k hy hk => ?_⟩
    · rw [h.ok.foreverOwner_claim hraw, Option.or_eq_some_iff] at ha
      rcases ha with ha | ⟨-, ha⟩
      · exact h.carries c' hc' hscope' vk a ha
      · split at ha
        · rename_i hof
          obtain ⟨hl, hk, hvk⟩ := of_decide_eq_true hof
          cases ha
          exact ⟨x, hx, by rw [← hl, ← hk, ← hvk, hlabel, hkey]; exact hbinds⟩
        · cases ha
    · rw [hx, Option.some.injEq] at hy
      subst hy
      rw [hbinds, Option.some.injEq] at hk
      subst hk
      rw [← hlabel, ← hkey, h.ok.foreverOwner_claim hraw, if_pos hraw.isOf_self]
      cases howner : foreverOwner r.mem ck.label ck.key ck.valueKey with
      | none => rfl
      | some a =>
        -- the owner carries the value too, so it is the node
        rw [hlabel, hkey] at howner
        obtain ⟨z, hz, hzk⟩ := h.carries c hc hscope _ a howner
        rw [← (of_decide_eq_true hraw.isOf_self).2.2] at hzk
        rw [noDuplicates_iff.mp hvalid.unique a id z x _ hz hx hzk hbinds
          (hvalid.float id x _ hx hbinds), Option.some_or]

/-- The seed of one constraint. -/
theorem Seeded.seedForeverOwnersFromCurrent (h : Seeded nodes reg r) (hc : c ∈ reg)
    (hscope : c.scope = .forever) (hvalid : ValidExisting nodes c) :
    Seeded nodes reg (RhoTkg.seedForeverOwnersFromCurrent nodes ids r c) ∧
      r.Keeps (RhoTkg.seedForeverOwnersFromCurrent nodes ids r c) ∧
      ∀ id ∈ ids, ∀ x k, nodes id = some x → x.row.binds c.label c.key = some k →
        foreverOwner (RhoTkg.seedForeverOwnersFromCurrent nodes ids r c).mem c.label c.key k = some id := by
  induction ids generalizing r with
  | nil => exact ⟨h, .refl r, nofun⟩
  | cons id ids ih =>
    obtain ⟨hone, hkeep, howns⟩ := h.seedForeverOwner hc hscope hvalid id
    obtain ⟨hrest, hkeep', howns'⟩ := ih hone
    refine ⟨hrest, hkeep.trans hkeep', fun b hb x k hx hk => ?_⟩
    rcases mem_cons.mp hb with rfl | hb
    · exact hkeep' _ _ _ _ (howns x k hx hk)
    · exact howns' b hb x k hx hk

/-- **After the seeds every node owns its values.** -/
theorem Seeded.owns (h : Seeded nodes reg r) (hvalid : ∀ c ∈ reg, c.scope = .forever → ValidExisting nodes c)
    (hknown : ∀ id, nodes id ≠ none → id ∈ ids) :
    (seedForever nodes ids reg r).Ok ∧
      ∀ id x, nodes id = some x → Owns reg (seedForever nodes ids reg r).mem id x.row := by
  have hseeds : ∀ (cs : List UniqueConstraint) (r : Registry), Seeded nodes reg r →
      (∀ c ∈ cs, c ∈ reg ∧ c.scope = .forever) →
      Seeded nodes reg (cs.foldl (RhoTkg.seedForeverOwnersFromCurrent nodes ids) r) ∧
        r.Keeps (cs.foldl (RhoTkg.seedForeverOwnersFromCurrent nodes ids) r) ∧
        ∀ c ∈ cs, ∀ id ∈ ids, ∀ x k, nodes id = some x → x.row.binds c.label c.key = some k →
          foreverOwner (cs.foldl (RhoTkg.seedForeverOwnersFromCurrent nodes ids) r).mem c.label c.key k =
            some id := by
    intro cs
    induction cs with
    | nil => exact fun r h _ => ⟨h, .refl r, nofun⟩
    | cons c cs ih =>
      intro r h hcs
      obtain ⟨hc, hscope⟩ := hcs c mem_cons_self
      obtain ⟨hone, hkeep, howns⟩ := @Seeded.seedForeverOwnersFromCurrent nodes ids reg c r h hc hscope
        (hvalid c hc hscope)
      obtain ⟨hrest, hkeep', howns'⟩ := ih _ hone fun c' hc' => hcs c' (mem_cons_of_mem _ hc')
      refine ⟨hrest, hkeep.trans hkeep', fun c' hc' => ?_⟩
      rcases mem_cons.mp hc' with rfl | hc'
      · exact fun id hid x k hx hk => hkeep' _ _ _ _ (howns id hid x k hx hk)
      · exact howns' c' hc'
  obtain ⟨hseeded, -, howns⟩ := hseeds (reg.filter (·.scope == .forever)) r h fun c hc =>
    ⟨(mem_filter.mp hc).1, beq_iff_eq.mp (mem_filter.mp hc).2⟩
  refine ⟨hseeded.ok, fun id x hx c hc hscope k hk => ?_⟩
  exact howns c (mem_filter.mpr ⟨hc, by rw [hscope]; rfl⟩) id (hknown id (by rw [hx]; nofun)) x k hx hk

end Seed

end RhoTkg
