import Mathlib.Data.List.Dedup
import Mathlib.Data.List.Sort
import RhoTkg.UniqueCurrent

/-!
# The owner index of a unique key

A store with an owner index keeps for every value of a constrained key the node that claimed it last.  A
lookup of the value's holders reads one claim per form of the value and the row of the claimant, instead of
every row of the label; a claim that the claimant's row does not back is ignored.  Claims are put before
the row is written and never withdrawn.

So the lookup finds every holder only if the last claim of a value that a node holds is the node's.
`OwnerIndex.Covers` says this of an index and a set of nodes.  Then the lookup answers what the label-wide
lookup answers (`Covers.mem_nodesByOwnerIndex`), and no two of the nodes have one value
(`Covers.noDuplicates`).  The seed that makes an index ready ends with it (`covers_seedOwnerIndexes`).

`since` is bookkeeping no step reads: the claims put since `BeginTx`, the last one first.
-/

namespace RhoTkg

open List Option

/-- A claimed value: the label's token, the property key and the value key. -/
abbrev OwnedValue := Nat × Nat × IndexKey

/-- The claims of the store's owner indexes. -/
structure OwnerIndex where
  claims : OwnedValue → Option Nat
  since : List (OwnedValue × Nat)

/-- The value of a check, as it is claimed. -/
def UniqueCheck.ownedValue (ck : UniqueCheck) : OwnedValue := (ck.label, ck.key, ck.valueKey)

/-! ## The lookups -/

section Lookup

variable (nodes : Nat → Option (Stored Value)) (label key : Nat)

/-- `claimBacked`: the row of the node has the label and the value. -/
def claimBacked (id : Nat) (vk : IndexKey) : Bool :=
  (nodes id).any fun x => x.row.labels.contains label && uniqueValueKey x.row key == some vk

/-- `uniteNodes`: in ID order, each node once. -/
def uniteNodes (ids : List Nat) : List Nat := (ids.insertionSort (· ≤ ·)).dedup

variable {nodes label key}

theorem claimBacked_iff {id : Nat} {vk : IndexKey} : claimBacked nodes label key id vk = true ↔
    ∃ x, nodes id = some x ∧ x.row.binds label key = some vk := by
  rw [claimBacked, Option.any_eq_true]
  refine exists_congr fun x => and_congr_right fun _ => ?_
  rw [Bool.and_eq_true, beq_iff_eq, Row.binds]
  split
  · rename_i hlabel
    exact and_iff_right hlabel
  · rename_i hlabel
    exact ⟨fun h => absurd h.1 hlabel, by rintro ⟨⟩⟩

theorem mem_uniteNodes {ids : List Nat} {id : Nat} : id ∈ uniteNodes ids ↔ id ∈ ids := by
  rw [uniteNodes, mem_dedup, mem_insertionSort]

end Lookup

namespace OwnerIndex

variable (oi : OwnerIndex) (nodes : Nat → Option (Stored Value))

/-- `nodesByOwnerIndex`: for each form of the value the claimant, when its row backs the claim. -/
def nodesByOwnerIndex (label key : Nat) (raw : Value) : List Nat :=
  uniteNodes <| ((equalIndexKeys raw).map canonicalIndexKey).dedup.filterMap fun vk =>
    (oi.claims (label, key, vk)).filter fun id => claimBacked nodes label key id vk

/-! ## The claims -/

/-- `PutUniqueOwner`. -/
def put (id : Nat) (k : OwnedValue) : OwnerIndex :=
  ⟨Function.update oi.claims k (some id), (k, id) :: oi.since⟩

/-- The claims of a call: every changed value of a key with an owner index, which are the keys under a
`UniqueCurrent` constraint. -/
def claimAll (id : Nat) (cks : List UniqueCheck) : OwnerIndex :=
  ((cks.filter fun ck => ck.scope == .current && !ck.unchanged).map UniqueCheck.ownedValue).foldl
    (fun oi k => oi.put id k) oi

/-- The last claim of a value since `BeginTx`. -/
def lastClaim (k : OwnedValue) : Option Nat := (oi.since.find? (·.1 == k)).map (·.2)

/-- The index after `BeginTx`. -/
def restart : OwnerIndex := { oi with since := [] }

variable {oi nodes}

theorem lastClaim_put {id : Nat} {k k' : OwnedValue} :
    (oi.put id k).lastClaim k' = if k = k' then some id else oi.lastClaim k' := by
  rw [lastClaim, put, find?_cons]
  by_cases h : k = k'
  · simp [h]
  · rw [if_neg h, show (k == k') = false by simpa using h]
    rfl

theorem claims_put {id : Nat} {k k' : OwnedValue} :
    (oi.put id k).claims k' = if k = k' then some id else oi.claims k' := by
  refine (Function.update_apply _ _ _ _).trans ?_
  exact if_congr eq_comm rfl rfl

/-- What is claimed by a call is claimed by its node, the rest as before. -/
theorem claims_claimAll (oi : OwnerIndex) (id : Nat) (cks : List UniqueCheck) (k : OwnedValue) :
    ((oi.claimAll id cks).claims k = some id ∧
        ∃ ck ∈ cks, ck.scope = .current ∧ ck.unchanged = false ∧ ck.ownedValue = k) ∨
      (oi.claimAll id cks).claims k = oi.claims k ∧
        ∀ ck ∈ cks, ck.scope = .current → ck.unchanged = false → ck.ownedValue ≠ k := by
  have hfold : ∀ (ks : List OwnedValue) (oi : OwnerIndex), (ks.foldl (fun oi k => oi.put id k) oi).claims k =
      if k ∈ ks then some id else oi.claims k := by
    intro ks
    induction ks with
    | nil => exact fun _ => rfl
    | cons k' ks ih =>
      intro oi
      rw [foldl_cons, ih, claims_put]
      by_cases hmem : k ∈ ks
      · rw [if_pos hmem, if_pos (mem_cons_of_mem _ hmem)]
      · rw [if_neg hmem]
        by_cases heq : k' = k
        · rw [if_pos heq, if_pos (heq ▸ mem_cons_self)]
        · rw [if_neg heq, if_neg]
          rw [mem_cons, not_or]
          exact ⟨Ne.symm heq, hmem⟩
  have hmem : k ∈ (cks.filter fun ck => ck.scope == .current && !ck.unchanged).map UniqueCheck.ownedValue ↔
      ∃ ck ∈ cks, ck.scope = .current ∧ ck.unchanged = false ∧ ck.ownedValue = k := by
    simp [and_assoc]
  rw [claimAll, hfold]
  split
  · rename_i h
    exact .inl ⟨rfl, hmem.mp h⟩
  · rename_i h
    exact .inr ⟨rfl, fun ck hck hscope hun heq => h (hmem.mpr ⟨ck, hck, hscope, hun, heq⟩)⟩

/-! ## An index that misses no holder -/

/-- Every value under a `UniqueCurrent` constraint that one of the nodes holds was claimed by the node
last. -/
def Covers (reg : List UniqueConstraint) (oi : OwnerIndex) (nodes : Nat → Option (Stored Value)) : Prop :=
  ∀ c ∈ reg, c.scope = .current → ∀ id x k, nodes id = some x → x.row.binds c.label c.key = some k →
    oi.claims (c.label, c.key, k) = some id

section Covers

variable {reg : List UniqueConstraint}

/-- Fewer nodes. -/
theorem Covers.mono {nodes' : Nat → Option (Stored Value)} (h : Covers reg oi nodes)
    (hsub : ∀ id, nodes' id = none ∨ nodes' id = nodes id) : Covers reg oi nodes' := by
  intro c hc hscope id x k hx hk
  rcases hsub id with hnone | heq
  · cases hnone.symm.trans hx
  · exact h c hc hscope id x k (heq ▸ hx) hk

/-- A node gets a row whose values it has claimed. -/
theorem Covers.update (h : Covers reg oi nodes) {id : Nat} {x : Stored Value}
    (hx : ∀ c ∈ reg, c.scope = .current → ∀ k, x.row.binds c.label c.key = some k →
      oi.claims (c.label, c.key, k) = some id) :
    Covers reg oi (Function.update nodes id (some x)) := by
  intro c hc hscope b y k hy hk
  by_cases hb : b = id
  · subst hb
    rw [Function.update_self, some.injEq] at hy
    subst hy
    exact hx c hc hscope k hk
  · rw [Function.update_of_ne hb] at hy
    exact h c hc hscope b y k hy hk

/-- A claim of a value that no other node holds. -/
theorem Covers.put (h : Covers reg oi nodes) {id : Nat} {k : OwnedValue}
    (hfree : ∀ b y, b ≠ id → nodes b = some y → y.row.binds k.1 k.2.1 ≠ some k.2.2) :
    Covers reg (oi.put id k) nodes := by
  intro c hc hscope b y vk hy hvk
  rw [claims_put]
  split
  · rename_i heq
    subst heq
    by_contra hne
    exact hfree b y (fun hb => hne (by rw [hb])) hy hvk
  · exact h c hc hscope b y vk hy hvk

/-- **No two of the nodes have one value.** -/
theorem Covers.noDuplicates (h : Covers reg oi nodes) {c : UniqueConstraint} (hc : c ∈ reg)
    (hscope : c.scope = .current) : NoDuplicates c nodes := by
  refine noDuplicates_iff.mpr fun a b x y k hx hy hxk hyk _ => ?_
  exact some.inj ((h c hc hscope a x k hx hxk).symm.trans (h c hc hscope b y k hy hyk))

/-- The forms of a value hold an integer in every width or in none. -/
theorem intKeys_subset {raw : Value} {kind : IntKind} {n : Int} (h : IndexKey.int kind n ∈ equalIndexKeys raw) :
    intKeys n ⊆ equalIndexKeys raw := by
  have hval : ∀ m, IndexKey.int kind n ∈ intKeys m → m = n := by
    intro m hm
    obtain ⟨k, -, hk⟩ := mem_map.mp hm
    cases hk
    rfl
  revert h
  unfold equalIndexKeys
  split
  · intro h
    rcases mem_append.mp h with h | h
    · rw [hval _ h]
      exact subset_append_left _ _
    · simp at h
  · exact nofun
  · intro h
    rcases mem_append.mp h with h | h
    · simp at h
    · rw [hval _ h]
      exact subset_append_right _ _
  · intro h
    simp at h
  · rename_i hint _ _ _
    intro h
    rw [mem_toList] at h
    cases raw with
    | int i => exact absurd rfl (hint i)
    | _ => cases h

/-- A value is stored under a form of another exactly when their canonical keys agree: an integer is stored
in a width that holds it. -/
theorem canonicalIndexKey_mem {raw w : Value} {stored : IndexKey}
    (hw : indexablePropertyValueKey w = some stored) :
    canonicalIndexKey stored ∈ (equalIndexKeys raw).map canonicalIndexKey ↔
      stored ∈ equalIndexKeys raw := by
  refine ⟨fun h => ?_, fun h => mem_map.mpr ⟨stored, h, rfl⟩⟩
  obtain ⟨form, hform, heq⟩ := mem_map.mp h
  cases w with
  | int i =>
    cases hw
    cases form with
    | int kind n =>
      simp only [canonicalIndexKey, IndexKey.int.injEq] at heq
      refine intKeys_subset hform (mem_map.mpr ⟨i.kind, mem_filter.mpr ⟨IntKind.mem_all _, ?_⟩, ?_⟩)
      · rw [heq.2]
        exact i.holds
      · rw [heq.2]
    | _ => cases heq
  | composite tag => cases hw
  | _ =>
    cases hw
    cases form <;> cases heq
    exact hform

/-- **The lookup finds exactly the holders**: the nodes with the label and a value equal to the one
looked up. -/
theorem Covers.mem_nodesByOwnerIndex (h : Covers reg oi nodes) {c : UniqueConstraint} (hc : c ∈ reg)
    (hscope : c.scope = .current) (raw : Value) (id : Nat) :
    id ∈ oi.nodesByOwnerIndex nodes c.label c.key raw ↔
      ∃ x w stored, nodes id = some x ∧ c.label ∈ x.row.labels ∧
        propertyValue x.row.properties c.key = some w ∧
        indexablePropertyValueKey w = some stored ∧ stored ∈ equalIndexKeys raw := by
  rw [nodesByOwnerIndex, mem_uniteNodes, mem_filterMap]
  constructor
  · rintro ⟨vk, hvk, hclaim⟩
    rw [mem_dedup] at hvk
    obtain ⟨-, hbacked⟩ := filter_eq_some_iff.mp hclaim
    obtain ⟨x, hx, hk⟩ := claimBacked_iff.mp hbacked
    obtain ⟨hlabel, w, hw, hwk⟩ := binds_eq_some.mp hk
    obtain ⟨stored, hstored, rfl⟩ := map_eq_some_iff.mp hwk
    exact ⟨x, w, stored, hx, hlabel, hw, hstored, (canonicalIndexKey_mem hstored).mp hvk⟩
  · rintro ⟨x, w, stored, hx, hlabel, hw, hstored, hmem⟩
    have hk : x.row.binds c.label c.key = some (canonicalIndexKey stored) :=
      binds_eq_some.mpr ⟨hlabel, w, hw, by rw [Value.uniqueKey, hstored]; rfl⟩
    refine ⟨canonicalIndexKey stored, mem_dedup.mpr ((canonicalIndexKey_mem hstored).mpr hmem), ?_⟩
    exact filter_eq_some_iff.mpr ⟨h c hc hscope id x _ hx hk, claimBacked_iff.mpr ⟨x, hx, hk⟩⟩

end Covers

/-! ## The seed -/

section Seed

variable (nodes : Nat → Option (Stored Value)) (ids : List Nat) (c : UniqueConstraint)

/-- `seedOwnerRow`: the node's value is claimed unless a backed claim exists, and another holder fails the
seed. -/
def seedOwnerRow (oi : OwnerIndex) (id : Nat) : Except UniqueError OwnerIndex :=
  match (nodes id).bind fun x => x.row.binds c.label c.key with
  | none => .ok oi
  | some vk =>
    match (oi.claims (c.label, c.key, vk)).filter fun b => claimBacked nodes c.label c.key b vk with
    | some owner => if owner = id then .ok oi else .error (.violation owner)
    | none => .ok (oi.put id (c.label, c.key, vk))

/-- `seedOwnerIndex`. -/
def seedOwnerIndex (oi : OwnerIndex) : Except UniqueError OwnerIndex :=
  ids.foldlM (seedOwnerRow nodes c) oi

/-- `ensureOwnerIndexesAtOpen`, when every seed succeeds. -/
def seedOwnerIndexes (reg : List UniqueConstraint) (oi : OwnerIndex) : Except UniqueError OwnerIndex :=
  (reg.filter (·.scope == .current)).foldlM (fun oi c => seedOwnerIndex nodes ids c oi) oi

variable {nodes ids c} {oi' : OwnerIndex}

/-- The claims that rows back stay. -/
def KeepsBacked (nodes : Nat → Option (Stored Value)) (oi oi' : OwnerIndex) : Prop :=
  ∀ id x label key k, nodes id = some x → x.row.binds label key = some k →
    oi.claims (label, key, k) = some id → oi'.claims (label, key, k) = some id

/-- The node's value under the constraint is claimed by the node. -/
def Claims (nodes : Nat → Option (Stored Value)) (c : UniqueConstraint) (oi : OwnerIndex) (id : Nat) :
    Prop :=
  ∀ x k, nodes id = some x → x.row.binds c.label c.key = some k →
    oi.claims (c.label, c.key, k) = some id

theorem KeepsBacked.refl (oi : OwnerIndex) : KeepsBacked nodes oi oi := fun _ _ _ _ _ _ _ h => h

theorem KeepsBacked.trans {oi₁ : OwnerIndex} (h : KeepsBacked nodes oi oi₁)
    (h' : KeepsBacked nodes oi₁ oi') : KeepsBacked nodes oi oi' :=
  fun id x label key k hx hk hclaim => h' id x label key k hx hk (h id x label key k hx hk hclaim)

theorem Claims.keep {id : Nat} (h : Claims nodes c oi id) (hkeep : KeepsBacked nodes oi oi') :
    Claims nodes c oi' id := fun x k hx hk => hkeep id x _ _ k hx hk (h x k hx hk)

theorem seedOwnerRow_ok {id : Nat} (h : seedOwnerRow nodes c oi id = .ok oi') :
    KeepsBacked nodes oi oi' ∧ Claims nodes c oi' id := by
  unfold seedOwnerRow at h
  split at h
  · rename_i hnone
    cases h
    refine ⟨.refl _, fun x k hx hk => ?_⟩
    rw [hx, bind_some, hk] at hnone
    cases hnone
  · rename_i vk hvk
    obtain ⟨x, hx, hk⟩ := bind_eq_some_iff.mp hvk
    have hself : ∀ oi'' : OwnerIndex, oi''.claims (c.label, c.key, vk) = some id →
        Claims nodes c oi'' id := by
      intro oi'' hclaim y k hy hyk
      rw [hx, some.injEq] at hy
      rw [← hy, hk, some.injEq] at hyk
      rw [← hyk]
      exact hclaim
    split at h
    · rename_i owner howner
      split at h
      · rename_i heq
        cases h
        subst heq
        exact ⟨.refl _, hself _ (filter_eq_some_iff.mp howner).1⟩
      · cases h
    · rename_i hunbacked
      cases h
      refine ⟨fun b y label key k hy hyk hclaim => ?_, hself _ (by rw [claims_put, if_pos rfl])⟩
      rw [claims_put]
      split
      · rename_i heq
        -- the claim is backed, so the seed has not put one over it
        cases heq
        rw [hclaim, filter_some, claimBacked_iff.mpr ⟨y, hy, hyk⟩, if_pos rfl] at hunbacked
        cases hunbacked
      · exact hclaim

theorem seedOwnerIndex_ok (h : seedOwnerIndex nodes ids c oi = .ok oi') :
    KeepsBacked nodes oi oi' ∧ ∀ id ∈ ids, Claims nodes c oi' id := by
  unfold seedOwnerIndex at h
  induction ids generalizing oi with
  | nil =>
    cases h
    exact ⟨.refl _, nofun⟩
  | cons id ids ih =>
    obtain ⟨oi₁, hrow, h⟩ := Runs.bind_eq_ok.mp h
    obtain ⟨hkeep, hclaims⟩ := seedOwnerRow_ok hrow
    obtain ⟨hkeep', hrest⟩ := ih h
    exact ⟨hkeep.trans hkeep', forall_mem_cons.mpr ⟨hclaims.keep hkeep', hrest⟩⟩

/-- **A ready index covers the nodes.** -/
theorem covers_seedOwnerIndexes {reg : List UniqueConstraint} (hknown : ∀ id, nodes id ≠ none → id ∈ ids)
    (h : seedOwnerIndexes nodes ids reg oi = .ok oi') : Covers reg oi' nodes := by
  have hseeds : ∀ (cs : List UniqueConstraint) (oi : OwnerIndex),
      cs.foldlM (fun oi c => seedOwnerIndex nodes ids c oi) oi = .ok oi' →
        KeepsBacked nodes oi oi' ∧ ∀ c ∈ cs, ∀ id ∈ ids, Claims nodes c oi' id := by
    intro cs
    induction cs with
    | nil =>
      intro oi h
      cases h
      exact ⟨.refl _, nofun⟩
    | cons c cs ih =>
      intro oi h
      obtain ⟨oi₁, hseed, h⟩ := Runs.bind_eq_ok.mp h
      obtain ⟨hkeep, hclaims⟩ := seedOwnerIndex_ok hseed
      obtain ⟨hkeep', hrest⟩ := ih oi₁ h
      exact ⟨hkeep.trans hkeep',
        forall_mem_cons.mpr ⟨fun id hid => (hclaims id hid).keep hkeep', hrest⟩⟩
  intro c hc hscope id x k hx hk
  have hmem : c ∈ reg.filter (·.scope == .current) :=
    mem_filter.mpr ⟨hc, by rw [hscope]; rfl⟩
  exact (hseeds _ oi h).2 c hmem id (hknown id (by rw [hx]; nofun)) x k hx hk

end Seed

end OwnerIndex

end RhoTkg
