import RhoTkg.Unique
import RhoTkg.Library.PrefixCode
import RhoTkg.Library.Runs
import Mathlib.Data.List.AList
import Mathlib.Data.List.TakeWhile

/-!
# The keys of the `UniqueForever` registry

The registry of owners is one map of strings.  `foreverOwnerKey` joins the label token, the property
key and the value key with NUL bytes; `parseForeverOwnerKey` cuts a key at its first two NUL bytes, to
write the durable records and to find the claims of a dropped constraint.

The value key is the rest and may hold NUL bytes.  A property key that holds one is cut inside, and the
index door accepts it.  `keptApart_iff`: the claims of a set of constraints are kept apart in every run
exactly when no property key of the set holds a NUL byte.
-/

namespace RhoTkg.OwnerKeys

open List
open PrefixCode (Bytes)

/-- The bytes of a text. -/
def bytes (text : String) : Bytes := text.toUTF8.data.toList

/-- `%d` of a natural number. -/
def decimal (n : Nat) : Bytes := (Nat.toDigits 10 n).map fun c => UInt8.ofNat c.toNat

/-! ## Values and their keys -/

/-- What the index key of an integer begins with. -/
def tag : IntKind → String
  | .int => "i:" | .int8 => "i8:" | .int16 => "i16:" | .int32 => "i32:" | .int64 => "i64:"
  | .uint => "u:" | .uint8 => "u8:" | .uint16 => "u16:" | .uint32 => "u32:" | .uint64 => "u64:"

/-- `appendIntKey` and `appendUintKey`. -/
def intKey (kind : IntKind) (n : Int) : Bytes :=
  bytes (tag kind) ++ bytes (if n < 0 then "-" else "") ++ decimal n.natAbs

/-- A string or an integer; strings are any bytes. -/
inductive Scalar where
  | string (s : Bytes)
  | int (i : IntValue)

/-- `IndexablePropertyValueKey`. -/
def Scalar.valueKey : Scalar → Bytes
  | .string s => bytes "s:" ++ s
  | .int i => intKey i.kind i.val

/-- `foreverWidthKeys` of the canonical key of a value. -/
def Scalar.widthKeys : Scalar → List Bytes
  | .string s => [(Scalar.string s).valueKey]
  | .int i => (IntKind.all.filter fun k => k.holds i.val).map fun k => intKey k i.val

/-! ## Registry keys -/

/-- The label token and the property key of a constraint. -/
structure Constraint where
  label : UInt16
  key : Bytes
deriving DecidableEq

/-- `validateIndexPropertyKey`: no reserved beginning, no more than `maxLength` bytes. -/
def validateIndexPropertyKey (maxLength : Nat) (key : Bytes) : Bool :=
  !(bytes "tkg_").isPrefixOf key && decide (key.length ≤ maxLength)

/-- `foreverOwnerKey`. -/
def foreverOwnerKey (c : Constraint) (valueKey : Bytes) : Bytes :=
  decimal c.label.toNat ++ 0 :: (c.key ++ 0 :: valueKey)

/-- What stands before and after the first NUL byte. -/
def cutNul (s : Bytes) : Option (Bytes × Bytes) :=
  match s.dropWhile (· != 0) with
  | [] => none
  | _ :: rest => some (s.takeWhile (· != 0), rest)

/-- `Sscanf` with `%d`: the number the text begins with.  A label token has none of the spaces and
underscores the scanner would skip. -/
def scanDecimal (s : Bytes) : Option Nat :=
  match s.takeWhile fun b => 48 ≤ b.toNat ∧ b.toNat ≤ 57 with
  | [] => none
  | digits => some (digits.foldl (fun n b => 10 * n + (b.toNat - 48)) 0)

/-- `parseForeverOwnerKey`. -/
def parseForeverOwnerKey (key : Bytes) : Option (Constraint × Bytes) := do
  let (tok, rest) ← cutNul key
  let (propKey, valueKey) ← cutNul rest
  let n ← scanDecimal tok
  some (⟨UInt16.ofNat n, propKey⟩, valueKey)

/-! ## The registry -/

/-- `uniqueOwners`. -/
abbrev Entries := AList fun _ : Bytes => Nat

/-- `foreverOwnerRecord`, with the token of the label for its name: the label registry is one to one. -/
structure Record where
  constraint : Constraint
  valueKey : Bytes
  owner : Nat

/-- The records `storeForeverOwnersLocked` writes. -/
def records (m : Entries) : List Record :=
  m.entries.filterMap fun e => (parseForeverOwnerKey e.1).map fun x => ⟨x.1, x.2, e.2⟩

/-- `loadUniqueForeverOwners`. -/
def load (recs : List Record) : Entries :=
  recs.foldl (fun m r => m.insert (foreverOwnerKey r.constraint r.valueKey) r.owner) ∅

/-- Delete the keys. -/
def eraseAll (m : Entries) (keys : List Bytes) : Entries := keys.foldl (fun m k => m.erase k) m

/-- `foreverOwnerLocked`. -/
def foreverOwner (m : Entries) (c : Constraint) (v : Scalar) : Option Nat :=
  (v.widthKeys.filterMap fun k => m.lookup (foreverOwnerKey c k)).min?

/-- The calls on the registry.  Each persists the map it leaves; a `reopen` loads what was persisted. -/
inductive Event where
  | claim (c : Constraint) (v : Scalar) (id : Nat)
  | release (c : Constraint) (v : Scalar)
  | drop (c : Constraint)
  | reopen

/-- `claimForever`. -/
def claimForever (m : Entries) (c : Constraint) (v : Scalar) (id : Nat) : Entries :=
  if (foreverOwner m c v).isSome then m else m.insert (foreverOwnerKey c v.valueKey) id

/-- `releaseOwnership`. -/
def releaseOwnership (m : Entries) (c : Constraint) (v : Scalar) : Entries :=
  eraseAll m (v.widthKeys.map (foreverOwnerKey c))

/-- `purgeForeverOwnersLocked`. -/
def purgeForeverOwners (m : Entries) (c : Constraint) : Entries :=
  eraseAll m (m.keys.filter fun k => (parseForeverOwnerKey k).any (·.1 == c))

/-- One call. -/
def step (m : Entries) : Event → Entries
  | .claim c v id => claimForever m c v id
  | .release c v => releaseOwnership m c v
  | .drop c => purgeForeverOwners m c
  | .reopen => load (records m)

/-! ## Claims kept apart -/

/-- Who owns the claim of a constraint on a value key. -/
def owner (m : Entries) (x : Constraint × Bytes) : Option Nat := m.lookup (foreverOwnerKey x.1 x.2)

/-- What a call makes of the owners of the claims. -/
def Event.effect (own : Constraint × Bytes → Option Nat) (x : Constraint × Bytes) : Event → Option Nat
  | .claim c v id =>
    if x = (c, v.valueKey) ∧ v.widthKeys.all fun k => (own (c, k)).isNone then some id else own x
  | .release c v => if x.1 = c ∧ x.2 ∈ v.widthKeys then none else own x
  | .drop c => if x.1 = c then none else own x
  | .reopen => own x

/-- The call is on one of the constraints. -/
def Event.On (cs : Set Constraint) : Event → Prop
  | .claim c .. | .release c _ | .drop c => c ∈ cs
  | .reopen => True

/-- The registries that calls on the constraints `cs` reach from the empty one. -/
def Reachable (cs : Set Constraint) : Entries → Prop :=
  Runs.Reachable (· = ∅) (Runs.Guarded step fun _ e => e.On cs)

/-- The claims of the constraints are kept per label, property key and value key. -/
structure KeptApart (cs : Set Constraint) : Prop where
  /-- A registry key is taken apart into what it was made of. -/
  parse : ∀ c ∈ cs, ∀ v : Scalar, parseForeverOwnerKey (foreverOwnerKey c v.valueKey) = some (c, v.valueKey)
  /-- Two claims share an entry only if they are the same. -/
  entry : ∀ c ∈ cs, ∀ c' ∈ cs, ∀ v v' : Scalar,
    foreverOwnerKey c v.valueKey = foreverOwnerKey c' v'.valueKey → c = c' ∧ v.valueKey = v'.valueKey
  /-- A call changes the claims it names, and no others; persisting and reloading changes none. -/
  step : ∀ m, Reachable cs m → ∀ e : Event, e.On cs → ∀ c ∈ cs, ∀ v : Scalar,
    owner (step m e) (c, v.valueKey) = e.effect (owner m) (c, v.valueKey)

/-! ## Taking a key apart -/

theorem toNat_digit {n : Nat} {c : Char} (hc : c ∈ Nat.toDigits 10 n) :
    (UInt8.ofNat c.toNat).toNat = c.toNat ∧ 48 ≤ c.toNat ∧ c.toNat ≤ 57 := by
  have hdigit : 48 ≤ c.toNat ∧ c.toNat ≤ 57 :=
    Char.isDigit_iff_toNat.mp (Nat.isDigit_of_mem_toDigits (by decide) le_rfl hc)
  exact ⟨UInt8.toNat_ofNat_of_lt (hdigit.2.trans_lt (by decide)), hdigit⟩

theorem isDigit_of_mem_decimal {n : Nat} {b : UInt8} (h : b ∈ decimal n) :
    48 ≤ b.toNat ∧ b.toNat ≤ 57 := by
  obtain ⟨c, hc, rfl⟩ := mem_map.mp h
  obtain ⟨heq, hdigit⟩ := toNat_digit hc
  rwa [heq]

theorem zero_notMem_decimal (n : Nat) : 0 ∉ decimal n :=
  fun h => absurd (isDigit_of_mem_decimal h).1 (by decide)

theorem foldl_decimal (n : Nat) : (decimal n).foldl (fun n b => 10 * n + (b.toNat - 48)) 0 = n := by
  rw [decimal, foldl_map]
  refine Eq.trans ?_ (@Nat.ofDigitChars_ten_toDigits n)
  refine foldl_ext _ _ _ fun acc c hc => ?_
  rw [(toNat_digit hc).1]
  rfl

theorem scanDecimal_decimal (n : Nat) : scanDecimal (decimal n) = some n := by
  have hall : (decimal n).takeWhile (fun b => 48 ≤ b.toNat ∧ b.toNat ≤ 57) = decimal n :=
    takeWhile_eq_self_iff.mpr fun b hb => decide_eq_true (isDigit_of_mem_decimal hb)
  have hne : decimal n ≠ [] := fun h => Nat.toDigits_ne_nil (map_eq_nil_iff.mp h)
  rw [scanDecimal, hall]
  split
  · contradiction
  · rw [foldl_decimal]

theorem cutNul_append {s : Bytes} (rest : Bytes) (h : 0 ∉ s) : cutNul (s ++ 0 :: rest) = some (s, rest) := by
  have hs : ∀ b ∈ s, (b != 0) = true := fun b hb => bne_iff_ne.mpr fun h0 => h (h0 ▸ hb)
  rw [cutNul, dropWhile_append_of_pos hs, takeWhile_append_of_pos hs]
  simp

theorem notMem_of_cutNul {s t rest : Bytes} (h : cutNul s = some (t, rest)) : 0 ∉ t := by
  rw [cutNul] at h
  split at h
  · cases h
  · cases h
    intro h0
    simpa using mem_takeWhile_imp h0

theorem parse_foreverOwnerKey {c : Constraint} (valueKey : Bytes) (h : 0 ∉ c.key) :
    parseForeverOwnerKey (foreverOwnerKey c valueKey) = some (c, valueKey) := by
  rw [parseForeverOwnerKey, foreverOwnerKey, cutNul_append _ (zero_notMem_decimal _), Option.bind_eq_bind,
    Option.bind_some]
  simp only [cutNul_append _ h, scanDecimal_decimal, Option.bind_eq_bind, Option.bind_some, UInt16.ofNat_toNat]

/-- The property key a registry key is cut at holds no NUL byte. -/
theorem notMem_of_parse {key valueKey : Bytes} {c : Constraint}
    (h : parseForeverOwnerKey key = some (c, valueKey)) : 0 ∉ c.key := by
  simp only [parseForeverOwnerKey, Option.bind_eq_bind, Option.bind_eq_some_iff] at h
  obtain ⟨y, -, x, hcut, n, -, hsome⟩ := h
  cases hsome
  exact notMem_of_cutNul hcut

/-! ## Lookups -/

theorem lookup_eraseAll (m : Entries) (keys : List Bytes) (k : Bytes) :
    (eraseAll m keys).lookup k = if k ∈ keys then none else m.lookup k := by
  induction keys generalizing m with
  | nil => rfl
  | cons a keys ih =>
    rw [eraseAll, foldl_cons, ← eraseAll, ih]
    by_cases hk : k = a
    · subst hk
      rw [AList.lookup_erase, if_pos mem_cons_self, ite_self]
    · simp [hk, AList.lookup_erase_ne hk]

theorem lookup_foldl_insert (l : List (Σ _ : Bytes, Nat)) (m : Entries) (k : Bytes) :
    (l.foldl (fun m e => m.insert e.1 e.2) m).lookup k = (l.reverse.dlookup k).or (m.lookup k) := by
  induction l generalizing m with
  | nil => rfl
  | cons e l ih =>
    rw [foldl_cons, ih, reverse_cons, dlookup_append, Option.or_assoc]
    by_cases hk : k = e.1
    · rw [hk, AList.lookup_insert, dlookup_cons_eq, Option.some_or]
    · rw [AList.lookup_insert_ne hk, dlookup_cons_ne _ _ hk, dlookup_nil, Option.none_or]

/-- A map whose keys are taken apart and joined again to what they were is loaded as it was stored. -/
theorem lookup_load_records {m : Entries} (k : Bytes)
    (h : ∀ e ∈ m.entries, ∃ x, parseForeverOwnerKey e.1 = some x ∧ foreverOwnerKey x.1 x.2 = e.1) :
    (load (records m)).lookup k = m.lookup k := by
  have hload : load (records m) = m.entries.foldl (fun m e => m.insert e.1 e.2) ∅ := by
    rw [load, records, foldl_filterMap]
    refine foldl_ext _ _ _ fun m e he => ?_
    obtain ⟨x, hparse, hkey⟩ := h e he
    simp only [hparse, Option.map_some, hkey]
  rw [hload, lookup_foldl_insert, AList.lookup_empty, Option.or_none]
  exact perm_dlookup _ ((perm_nodupKeys (reverse_perm _)).mpr m.nodupKeys) (reverse_perm _)

/-! ## Calls -/

section NoNul

variable {cs : Set Constraint} (hcs : ∀ c ∈ cs, 0 ∉ c.key)
include hcs

theorem foreverOwnerKey_inj {c c' : Constraint} {k k' : Bytes} (hc : c ∈ cs) (hc' : c' ∈ cs) :
    foreverOwnerKey c k = foreverOwnerKey c' k' ↔ (c, k) = (c', k') := by
  refine ⟨fun h => ?_, fun h => by cases h; rfl⟩
  rw [← Option.some_inj, ← parse_foreverOwnerKey k (hcs c hc), h, parse_foreverOwnerKey k' (hcs c' hc')]

variable {m : Entries} {c d : Constraint} (hc : c ∈ cs) (k : Bytes)
include hc

theorem owner_claim (hd : d ∈ cs) (v : Scalar) (id : Nat) :
    owner (claimForever m d v id) (c, k) = (Event.claim d v id).effect (owner m) (c, k) := by
  have hfree : (v.widthKeys.all fun w => (owner m (d, w)).isNone) = (foreverOwner m d v).isNone := by
    rw [Bool.eq_iff_iff]
    simp [foreverOwner, owner, min?_eq_none_iff, filterMap_eq_nil_iff]
  rw [claimForever, Event.effect, hfree]
  cases foreverOwner m d v with
  | some n => simp
  | none =>
    by_cases hx : (c, k) = (d, v.valueKey)
    · rw [hx]
      simp [owner]
    · have hne := mt (foreverOwnerKey_inj hcs hc hd).mp hx
      simp [owner, hx, AList.lookup_insert_ne hne]

theorem owner_release (hd : d ∈ cs) (v : Scalar) :
    owner (releaseOwnership m d v) (c, k) = (Event.release d v).effect (owner m) (c, k) := by
  refine (lookup_eraseAll _ _ _).trans (if_congr ?_ rfl rfl)
  constructor
  · intro hmem
    obtain ⟨w, hw, heq⟩ := mem_map.mp hmem
    obtain ⟨rfl, rfl⟩ := Prod.mk.inj ((foreverOwnerKey_inj hcs hd hc).mp heq)
    exact ⟨rfl, hw⟩
  · rintro ⟨rfl, hk⟩
    exact mem_map_of_mem hk

theorem owner_drop : owner (purgeForeverOwners m d) (c, k) = (Event.drop d).effect (owner m) (c, k) := by
  rw [owner, purgeForeverOwners, lookup_eraseAll, Event.effect]
  simp only [mem_filter, parse_foreverOwnerKey k (hcs c hc), Option.any_some, beq_iff_eq]
  by_cases hcd : c = d
  · by_cases hin : foreverOwnerKey c k ∈ m.keys
    · rw [if_pos ⟨hin, hcd⟩, if_pos hcd]
    · rw [if_neg (mt And.left hin), if_pos hcd]
      exact AList.lookup_eq_none.mpr hin
  · rw [if_neg (mt And.right hcd), if_neg hcd]
    rfl

end NoNul

/-! ## Runs -/

/-- Every entry is under a key of the constraints. -/
def Keyed (cs : Set Constraint) (m : Entries) : Prop := ∀ k ∈ m, ∃ c ∈ cs, ∃ w, k = foreverOwnerKey c w

section NoNul

variable {cs : Set Constraint} (hcs : ∀ c ∈ cs, 0 ∉ c.key) {m : Entries}
include hcs

/-- Entries under keys of the constraints are loaded as they were stored. -/
theorem Keyed.lookup_reopen (h : Keyed cs m) (k : Bytes) : (load (records m)).lookup k = m.lookup k := by
  refine lookup_load_records k fun e he => ?_
  obtain ⟨c, hc, w, hk⟩ := h e.1 (mem_map_of_mem he)
  exact ⟨(c, w), hk ▸ parse_foreverOwnerKey w (hcs c hc), hk.symm⟩

/-- A call adds no key but one of its constraint. -/
theorem Keyed.step (h : Keyed cs m) {e : Event} (he : e.On cs) : Keyed cs (step m e) := by
  -- an entry of a map that looks up less is one of the old ones
  have hless : ∀ m' : Entries, (∀ k, m'.lookup k = none ∨ m'.lookup k = m.lookup k) → Keyed cs m' := by
    intro m' hm' k hk
    have hsome := AList.lookup_isSome.mpr hk
    rcases hm' k with hnone | hsame
    · rw [hnone] at hsome
      cases hsome
    · exact h k (AList.lookup_isSome.mp (hsame ▸ hsome))
  have herase : ∀ keys, Keyed cs (eraseAll m keys) := fun keys => hless _ fun k => by
    rw [lookup_eraseAll]
    exact ite_eq_or_eq _ _ _
  cases e with
  | claim c v id =>
    rw [OwnerKeys.step, claimForever]
    split
    · exact h
    · intro k hk
      rcases (AList.mem_insert m).mp hk with rfl | hk
      · exact ⟨c, he, _, rfl⟩
      · exact h k hk
  | release c v => exact herase _
  | drop c => exact herase _
  | reopen => exact hless _ fun k => .inr (h.lookup_reopen hcs k)

theorem Reachable.keyed (h : Reachable cs m) : Keyed cs m := by
  refine h.invariant (I := Keyed cs) ?_ ?_
  · rintro - rfl k hk
    exact absurd hk (AList.notMem_empty k)
  · rintro m e - - hm ⟨he, rfl⟩
    exact hm.step hcs he

end NoNul

/-- **The claims of a set of constraints are kept apart** in every run exactly when no property key holds
a NUL byte. -/
theorem keptApart_iff (cs : Set Constraint) : KeptApart cs ↔ ∀ c ∈ cs, 0 ∉ c.key := by
  refine ⟨fun h c hc => notMem_of_parse (h.parse c hc (.string [])), fun hcs => ⟨?_, ?_, ?_⟩⟩
  · exact fun c hc v => parse_foreverOwnerKey v.valueKey (hcs c hc)
  · exact fun c hc c' hc' v v' h => Prod.mk.inj ((foreverOwnerKey_inj hcs hc hc').mp h)
  · intro m hm e he c hc v
    cases e with
    | claim d w id => exact owner_claim hcs hc _ he w id
    | release d w => exact owner_release hcs hc _ he w
    | drop d => exact owner_drop hcs hc _
    | reopen => exact (hm.keyed hcs).lookup_reopen hcs _

/-- The key `a`, a NUL byte, `s:b`. -/
def long : Constraint := ⟨1, bytes "a\x00s:b"⟩

/-- A string under the key `a` is registered as the string `c` under `long`, so the owner of the one is
the owner of the other; and dropping `long` does not find its own claim. -/
theorem claim_shared :
    validateIndexPropertyKey 256 (bytes "a") ∧ validateIndexPropertyKey 256 long.key ∧
      foreverOwner (step ∅ (.claim ⟨1, bytes "a"⟩ (.string (bytes "b\x00s:c")) 1)) long
        (.string (bytes "c")) = some 1 ∧
      foreverOwner (step (step ∅ (.claim long (.string (bytes "c")) 2)) (.drop long)) long
        (.string (bytes "c")) = some 2 := by
  decide +kernel

end RhoTkg.OwnerKeys
