import RhoTkg.HashPreimage
import RhoTkg.HashCollision
import Mathlib.Data.List.Forall2

/-!
# Nested values on the wire

A value inside a `[]any` or a `map[string]any` has no type tag of its own, and msgpack gives most
kinds back as others.  `encodeNestedWireValue` puts such a value into a list that starts with a
marker, and escapes a list of the caller that starts with one; `decodeNestedWireValue` undoes it
after the integers msgpack returned were normalised.

`nested_values_kept`: what the property layer accepts comes back with its exact kinds, whatever
widths msgpack chooses for the integers.
-/

namespace RhoTkg

open List

open PrefixCode (Bytes)

/-! ## Values -/

/-- Whether the kind is signed, for the kinds of integers. -/
def ScalarKind.signed : ScalarKind → Option Bool
  | .int | .int8 | .int16 | .int32 | .int64 => some true
  | .uint | .uint8 | .uint16 | .uint32 | .uint64 => some false
  | .bool | .float32 | .float64 => none

/-- The number an integer value stands for. -/
def ScalarKind.integer (k : ScalarKind) (bits : BitVec k.width) : Option Int :=
  k.signed.map fun s => if s then bits.toInt else (bits.toNat : Int)

/-- The range of the kind. -/
def ScalarKind.fits (k : ScalarKind) (n : Int) : Bool :=
  match k.signed with
  | some true => -2 ^ (k.width - 1) ≤ n && n < 2 ^ (k.width - 1)
  | some false => 0 ≤ n && n < 2 ^ k.width
  | none => false

theorem ScalarKind.integer_eq_some_iff {k : ScalarKind} {bits : BitVec k.width} {n : Int} :
    k.integer bits = some n ↔ k.fits n = true ∧ BitVec.ofInt k.width n = bits := by
  have hpos : 0 < k.width := by cases k <;> decide
  unfold integer fits
  cases k.signed with
  | none => simp
  | some s =>
    cases s with
    | true =>
      simp only [Option.map_some, if_true, Option.some.injEq, Bool.and_eq_true, decide_eq_true_eq]
      constructor
      · rintro rfl
        exact ⟨⟨BitVec.le_toInt bits, BitVec.toInt_lt⟩, BitVec.ofInt_toInt⟩
      · rintro ⟨⟨hlo, hhi⟩, rfl⟩
        exact BitVec.toInt_ofInt_eq_self hpos hlo hhi
    | false =>
      simp only [Option.map_some, Bool.false_eq_true, if_false, Option.some.injEq, Bool.and_eq_true,
        decide_eq_true_eq]
      constructor
      · rintro rfl
        exact ⟨⟨Int.natCast_nonneg _, by exact_mod_cast bits.isLt⟩, by simp⟩
      · rintro ⟨⟨hlo, hhi⟩, rfl⟩
        obtain ⟨m, rfl⟩ := Int.eq_ofNat_of_zero_le hlo
        have hm : m < 2 ^ k.width := by exact_mod_cast hhi
        simp [Nat.mod_eq_of_lt hm]

namespace NestedWire

/-- The values of properties, registered structs apart.  A map is the list of its keys with the
list of its values. -/
inductive GoValue where
  | nil
  | scalar (k : ScalarKind) (bits : BitVec k.width)
  | string (s : Bytes)
  | temporal (kind : UInt8) (value : Bytes)
  | nilContainer (k : ContainerKind)
  | sliceStr (vs : List Bytes)
  | slice (k : SliceKind) (vs : List (BitVec k.elem.width))
  | mapStrStr (keys vals : List Bytes)
  | sliceAny (vs : List GoValue)
  | mapStrAny (keys : List Bytes) (vals : List GoValue)

/-- The number of an integer of any kind. -/
def GoValue.integer : GoValue → Option Int
  | .scalar k bits => k.integer bits
  | _ => none

/-- `TemporalValue.Validate`. -/
def temporalValid (kind : UInt8) (value : Bytes) : Bool :=
  kind ≤ 5 && value ≠ [] && value.length ≤ 128

/-- `validateReflectValue`, with the levels left down to `maxPropertyDepth`. -/
def Accepted : ℕ → GoValue → Prop
  | 0, _ => False
  | _ + 1, .temporal kind value => temporalValid kind value = true
  | left + 1, .sliceAny vs | left + 1, .mapStrAny _ vs => ∀ v ∈ vs, Accepted left v
  | _ + 1, _ => True

/-- The levels of a value `ValidatePropertyValue` takes. -/
def propertyLevels : ℕ := 33

/-- The levels of the wire: `maxWireDecodeDepth` below the value itself. -/
def wireLevels : ℕ := 65

/-! ## Encoding -/

/-- `"\x00tkg."`. -/
def nestedWireMarkerPrefix : Bytes := [0x00, 0x74, 0x6B, 0x67, 0x2E]

def nestedWireTemporalMarker : Bytes := nestedWireMarkerPrefix ++ [0x74, 0x76]

def nestedWireEscapeMarker : Bytes := nestedWireMarkerPrefix ++ [0x65, 0x73, 0x63]

def nestedWireKindMarker : Bytes := nestedWireMarkerPrefix ++ [0x6B]

/-- `isNestedWireMarker`, with the string. -/
def markerOf : GoValue → Option Bytes
  | .string s => if nestedWireMarkerPrefix.isPrefixOf s then some s else none
  | _ => none

/-- A list whose first element is a marker, as the marker and the rest. -/
def envelopeOf : List GoValue → Option (Bytes × List GoValue)
  | [] => none
  | v :: vs => (markerOf v).map fun m => (m, vs)

/-- `isNativeNestedScalar`: msgpack keeps the kind. -/
def native : ScalarKind → Bool
  | .bool | .int64 | .uint64 | .float32 | .float64 => true
  | _ => false

/-- `nestedKindTag`. -/
def nestedKindTag : GoValue → Option TypeTag
  | .scalar k _ => if native k then none else some (.scalar k)
  | .nilContainer k => some (.container k)
  | .sliceStr _ => some (.container .sliceStr)
  | .slice k _ => if k = .byte then none else some (.container (.slice k))
  | .mapStrStr _ _ => some (.container .mapStrStr)
  | _ => none

/-- An `int` of an envelope. -/
def wireInt (n : ℕ) : GoValue := .scalar .int (BitVec.ofInt 64 n)

/-- The payload of a kind envelope: none for a typed `nil`. -/
def kindPayload : GoValue → List GoValue
  | .nilContainer _ => []
  | v => [v]

def encodeNestedWireValue : ℕ → GoValue → GoValue
  | 0, v => v
  | _ + 1, .temporal kind value =>
    .sliceAny [.string nestedWireTemporalMarker, wireInt kind.toNat, .string value]
  | left + 1, .sliceAny vs =>
    let out := vs.map (encodeNestedWireValue left)
    .sliceAny (if (envelopeOf vs).isSome then .string nestedWireEscapeMarker :: out else out)
  | left + 1, .mapStrAny keys vs => .mapStrAny keys (vs.map (encodeNestedWireValue left))
  | _ + 1, v =>
    match nestedKindTag v with
    | none => v
    | some tag =>
      .sliceAny (.string nestedWireKindMarker :: wireInt tag.byte.toNat :: kindPayload v)

/-! ## Decoding -/

/-- `float64(f)`, on IEEE-754 patterns. -/
def widen (f : BitVec 32) : BitVec 64 :=
  let sign := f.toNat / 2 ^ 31 * 2 ^ 63
  let e := f.toNat / 2 ^ 23 % 2 ^ 8
  let m := f.toNat % 2 ^ 23
  BitVec.ofNat 64 <| sign +
    if e = 255 then 2047 * 2 ^ 52 + m * 2 ^ 29
    else if e = 0 then
      if m = 0 then 0
      else (Nat.log2 m + 874) * 2 ^ 52 + (m * 2 ^ (52 - Nat.log2 m) - 2 ^ 52)
    else (e + 896) * 2 ^ 52 + m * 2 ^ 29

/-- `float32(f)` of a value that `float32` holds, `none` of another: `validFloat32WireValue`. -/
def narrow (f : BitVec 64) : Option (BitVec 32) :=
  let sign := f.toNat / 2 ^ 63 * 2 ^ 31
  let e := f.toNat / 2 ^ 52 % 2 ^ 11
  let m := f.toNat % 2 ^ 52
  -- below the normal range of `float32` the leading bit is written out
  let drop := if 897 ≤ e then 29 else 926 - e
  let m' := if 897 ≤ e then m else 2 ^ 52 + m
  if e = 2047 then
    some (BitVec.ofNat 32 (sign + 255 * 2 ^ 23 + if m = 0 then 0 else 2 ^ 22 ||| m / 2 ^ 29))
  else if e = 0 ∧ m = 0 then some (BitVec.ofNat 32 sign)
  else if e < 874 ∨ 1150 < e ∨ m' % 2 ^ drop ≠ 0 then none
  else some (BitVec.ofNat 32 (sign + (if 897 ≤ e then (e - 896) * 2 ^ 23 else 0) + m' / 2 ^ drop))

example : widen 0x3FC00000#32 = 0x3FF8000000000000#64 ∧ widen 1#32 = 0x36A0000000000000#64 ∧
    narrow 0x36A0000000000000#64 = some 1#32 ∧ narrow 0x3FB999999999999A#64 = none := by decide

/-- An integer under an integer tag. -/
def integerOf (k : ScalarKind) (v : GoValue) : Option (BitVec k.width) :=
  v.integer.bind fun n => if k.fits n then some (BitVec.ofInt k.width n) else none

/-- An element of a slice with a tag.  A `float32` is in the range of its own kind, so it needs no
check. -/
def elementOf : (k : SliceKind) → GoValue → Option (BitVec k.elem.width)
  | .int, v => integerOf .int v
  | .int64, v => integerOf .int64 v
  | .bool, .scalar .bool b => some b
  | .float32, .scalar .float32 f => some f
  | .float32, .scalar .float64 f => narrow f
  | .float64, .scalar .float64 f => some f
  | .float64, .scalar .float32 f => some (widen f)
  | _, _ => none

def stringOf : GoValue → Option Bytes
  | .string s => some s
  | _ => none

/-- `validatePropertyWireValue` and `reconstructTypedValue`, for the tags under which the encoder
wraps values: what the others reconstruct, the last check of the envelope refuses. -/
def reconstructTypedValue : TypeTag → GoValue → Option GoValue
  | .scalar k, v => if native k then none else (integerOf k v).map (.scalar k)
  | .container .sliceStr, .sliceStr vs => some (.sliceStr vs)
  | .container .sliceStr, .sliceAny vs => (vs.mapM stringOf).map .sliceStr
  | .container (.slice .byte), _ => none
  | .container (.slice .int), .slice .int64 vs => some (.slice .int vs)
  | .container (.slice k), .slice k' vs => if k' = k then some (.slice k' vs) else none
  | .container (.slice k), .sliceAny vs => (vs.mapM (elementOf k)).map (.slice k)
  | .container .mapStrStr, .mapStrStr keys vals => some (.mapStrStr keys vals)
  | .container .mapStrStr, .mapStrAny keys vals => (vals.mapM stringOf).map (.mapStrStr keys)
  | _, _ => none

/-- The tag of a kind envelope. -/
def wireTag (v : GoValue) : Option TypeTag :=
  v.integer.bind fun n => if 0 < n ∧ n ≤ 26 then TypeTag.ofByte (UInt8.ofNat n.toNat) else none

def decodeNestedKindEnvelope : List GoValue → Option GoValue
  | [tag] =>
    match wireTag tag with
    | some (.container k) => some (.nilContainer k)
    | _ => none
  | [tag, payload] => (wireTag tag).bind fun t => reconstructTypedValue t payload
  | _ => none

def decodeNestedTemporalEnvelope : List GoValue → Option GoValue
  | [kind, .string value] =>
    kind.integer.bind fun n =>
      if 0 ≤ n ∧ n ≤ 255 ∧ temporalValid (UInt8.ofNat n.toNat) value then
        some (.temporal (UInt8.ofNat n.toNat) value)
      else none
  | _ => none

/-- The envelope of a registered struct is left out with the structs. -/
def decodeNestedWireValue : ℕ → GoValue → Option GoValue
  | 0, _ => none
  | left + 1, .sliceAny vs =>
    match envelopeOf vs with
    | none => (vs.mapM (decodeNestedWireValue left)).map .sliceAny
    | some (marker, rest) =>
      if marker = nestedWireTemporalMarker then decodeNestedTemporalEnvelope rest
      else if marker = nestedWireKindMarker then decodeNestedKindEnvelope rest
      else if marker = nestedWireEscapeMarker then
        (rest.mapM (decodeNestedWireValue left)).map .sliceAny
      else none
  | left + 1, .mapStrAny keys vs => (vs.mapM (decodeNestedWireValue left)).map (.mapStrAny keys)
  | _ + 1, v => some v

mutual

def normalizeIntegersRecursive : GoValue → GoValue
  | .scalar .int8 b => .scalar .int64 (BitVec.ofInt 64 b.toInt)
  | .scalar .int16 b => .scalar .int64 (BitVec.ofInt 64 b.toInt)
  | .scalar .int32 b => .scalar .int64 (BitVec.ofInt 64 b.toInt)
  | .scalar .uint8 b => .scalar .uint64 (BitVec.ofNat 64 b.toNat)
  | .scalar .uint16 b => .scalar .uint64 (BitVec.ofNat 64 b.toNat)
  | .scalar .uint32 b => .scalar .uint64 (BitVec.ofNat 64 b.toNat)
  | .sliceAny vs => .sliceAny (normalizeIntegersInSlice vs)
  | .mapStrAny keys vs => .mapStrAny keys (normalizeIntegersInSlice vs)
  | v => v

def normalizeIntegersInSlice : List GoValue → List GoValue
  | [] => []
  | v :: vs => normalizeIntegersRecursive v :: normalizeIntegersInSlice vs

end

/-! ## The hop through msgpack -/

/-- A scalar comes back as it is when its kind is one of `keep`, and as some integer of equal value
otherwise. -/
def ScalarHop (keep : ScalarKind → Bool) (k : ScalarKind) (bits : BitVec k.width) (x : GoValue) :
    Prop :=
  if keep k then x = .scalar k bits else (k.integer bits).isSome ∧ x.integer = k.integer bits

/-- What msgpack may return for a value. -/
inductive Hop (keep : ScalarKind → Bool) : GoValue → GoValue → Prop
  | nil : Hop keep .nil .nil
  | string (s : Bytes) : Hop keep (.string s) (.string s)
  | bytes (vs : List (BitVec 8)) : Hop keep (.slice .byte vs) (.slice .byte vs)
  | scalar {k : ScalarKind} {bits : BitVec k.width} {x : GoValue} (h : ScalarHop keep k bits x) :
      Hop keep (.scalar k bits) x
  | strings (ss : List Bytes) : Hop keep (.sliceStr ss) (.sliceAny (ss.map .string))
  | slice {k : SliceKind} {vs : List (BitVec k.elem.width)} {ws : List GoValue} (hk : k ≠ .byte)
      (h : List.Forall₂ (ScalarHop keep k.elem) vs ws) : Hop keep (.slice k vs) (.sliceAny ws)
  | stringMap (keys vals : List Bytes) :
      Hop keep (.mapStrStr keys vals) (.mapStrAny keys (vals.map .string))
  | any {vs ws : List GoValue} (h : List.Forall₂ (Hop keep) vs ws) :
      Hop keep (.sliceAny vs) (.sliceAny ws)
  | map {keys : List Bytes} {vs ws : List GoValue} (h : List.Forall₂ (Hop keep) vs ws) :
      Hop keep (.mapStrAny keys vs) (.mapStrAny keys ws)

/-! ## The round trip -/

theorem mapM_eq_some_iff {α β : Type} {f : α → Option β} {l : List α} {l' : List β} :
    l.mapM f = some l' ↔ List.Forall₂ (fun a b => f a = some b) l l' := by
  induction l generalizing l' with
  | nil => simp [eq_comm]
  | cons a l ih =>
    rw [mapM_cons, forall₂_cons_left_iff]
    cases hfa : f a with
    | none => simp
    | some b =>
      cases hl : l.mapM f with
      | none => simp [← ih, hl]
      | some bs => simp [← ih, hl, eq_comm]

variable {keep : ScalarKind → Bool} {k : ScalarKind} {bits : BitVec k.width} {v x : GoValue}
  {vs xs : List GoValue} {n left : ℕ} {tag : TypeTag}

theorem integerOf_eq_some_iff : integerOf k x = some bits ↔
    (k.integer bits).isSome ∧ x.integer = k.integer bits := by
  unfold integerOf
  cases hx : x.integer with
  | none =>
    simp only [Option.bind_none, reduceCtorEq, false_iff, not_and]
    intro hsome heq
    rw [← heq] at hsome
    cases hsome
  | some n =>
    rw [Option.bind_some]
    constructor
    · intro h
      split at h
      · next hfits =>
        rw [ScalarKind.integer_eq_some_iff.mpr ⟨hfits, Option.some.inj h⟩]
        exact ⟨rfl, rfl⟩
      · cases h
    · rintro ⟨-, heq⟩
      obtain ⟨hfits, rfl⟩ := ScalarKind.integer_eq_some_iff.mp heq.symm
      rw [if_pos hfits]

theorem normalizeIntegersInSlice_eq_map :
    normalizeIntegersInSlice xs = xs.map normalizeIntegersRecursive := by
  induction xs with
  | nil => rfl
  | cons x xs ih => rw [normalizeIntegersInSlice, ih, map_cons]

/-- Normalising changes the width of an integer only. -/
theorem integer_normalize (x : GoValue) : (normalizeIntegersRecursive x).integer = x.integer := by
  cases x with
  | scalar k b =>
    cases k <;> first | rfl | skip
    all_goals
      refine ScalarKind.integer_eq_some_iff.mpr ⟨?_, rfl⟩
      have hfits := (ScalarKind.integer_eq_some_iff.mp (rfl : ScalarKind.integer _ b = some _)).1
      simp only [ScalarKind.fits, ScalarKind.signed, ScalarKind.width, Bool.and_eq_true,
        decide_eq_true_eq, if_true, Bool.false_eq_true, if_false] at hfits ⊢
      omega
  | _ => rfl

/-- An integer whose kind msgpack does not keep is found under its tag. -/
theorem integerOf_hop (hx : ScalarHop native k bits x) (hk : native k = false) :
    integerOf k (normalizeIntegersRecursive x) = some bits := by
  rw [ScalarHop, hk] at hx
  rw [integerOf_eq_some_iff, integer_normalize]
  exact hx

/-- The elements of a slice come back under its tag. -/
theorem elementOf_hop {k : SliceKind} {bits : BitVec k.elem.width} (hk : k ≠ .byte)
    (hx : ScalarHop native k.elem bits x) :
    elementOf k (normalizeIntegersRecursive x) = some bits := by
  cases k with
  | int => exact integerOf_hop hx rfl
  | byte => exact absurd rfl hk
  | int64 =>
    obtain rfl : x = .scalar .int64 bits := hx
    exact integerOf_eq_some_iff.mpr ⟨rfl, rfl⟩
  | float32 => obtain rfl : x = .scalar .float32 bits := hx; rfl
  | float64 => obtain rfl : x = .scalar .float64 bits := hx; rfl
  | bool => obtain rfl : x = .scalar .bool bits := hx; rfl

theorem normalize_strings (ss : List Bytes) :
    normalizeIntegersInSlice (ss.map .string) = ss.map .string := by
  rw [normalizeIntegersInSlice_eq_map, map_map]
  rfl

theorem stringOf_strings (ss : List Bytes) : (ss.map GoValue.string).mapM stringOf = some ss := by
  rw [mapM_eq_some_iff, forall₂_map_left_iff, forall₂_same]
  exact fun _ _ => rfl

/-- **A payload comes back under its tag.** -/
theorem reconstruct_hop (htag : nestedKindTag v = some tag) (hv : kindPayload v = [v])
    (hx : Hop native v x) :
    reconstructTypedValue tag (normalizeIntegersRecursive x) = some v := by
  cases hx with
  | nil | string | bytes | any | map => cases htag
  | @scalar k bits _ hx =>
    rw [nestedKindTag] at htag
    split at htag
    · cases htag
    · next hk =>
      cases htag
      rw [reconstructTypedValue, if_neg hk, integerOf_hop hx (by simpa using hk), Option.map_some]
  | strings | stringMap =>
    cases htag
    rw [normalizeIntegersRecursive, normalize_strings, reconstructTypedValue, stringOf_strings,
      Option.map_some]
  | @slice k bs ws hk hws =>
    rw [nestedKindTag, if_neg hk] at htag
    cases htag
    have helements : (normalizeIntegersInSlice ws).mapM (elementOf k) = some bs := by
      rw [normalizeIntegersInSlice_eq_map, mapM_eq_some_iff, forall₂_map_left_iff]
      exact hws.flip.imp fun _ _ hw => elementOf_hop hk hw
    cases k <;> first | exact absurd rfl hk | exact congrArg (Option.map _) helements

theorem integer_wireInt (hn : n ≤ 255) : (wireInt n).integer = some (n : Int) := by
  refine ScalarKind.integer_eq_some_iff.mpr ⟨?_, rfl⟩
  simp only [ScalarKind.fits, ScalarKind.signed, Bool.and_eq_true, decide_eq_true_eq]
  simp only [ScalarKind.width]
  omega

/-- An `int` of an envelope survives the hop. -/
theorem wireInt_hop (hx : Hop native (wireInt n) x) (hn : n ≤ 255) :
    (normalizeIntegersRecursive x).integer = some (n : Int) := by
  cases hx with
  | scalar hx => exact (integer_normalize x).trans (hx.2.trans (integer_wireInt hn))

theorem byte_pos_le (hne : tag ≠ .unknown) : 0 < tag.byte.toNat ∧ tag.byte.toNat ≤ 26 := by
  cases tag with
  | unknown => exact absurd rfl hne
  | scalar k => cases k <;> decide
  | container k =>
    cases k with
    | slice k => cases k <;> decide
    | _ => decide
  | _ => decide

theorem wireTag_eq_some (hne : tag ≠ .unknown) (hx : x.integer = some (tag.byte.toNat : Int)) :
    wireTag x = some tag := by
  have hbyte := byte_pos_le hne
  rw [wireTag, hx, Option.bind_some, if_pos (by omega), Int.toNat_natCast, UInt8.ofNat_toNat,
    TypeTag.ofByte_byte]

theorem nestedKindTag_ne_unknown (htag : nestedKindTag v = some tag) : tag ≠ .unknown := by
  rintro rfl
  cases v <;> simp [nestedKindTag] at htag

/-- A kind envelope decodes to its value. -/
theorem decode_kind (htag : nestedKindTag v = some tag)
    (hx : Hop native (.sliceAny (.string nestedWireKindMarker :: wireInt tag.byte.toNat ::
      kindPayload v)) x) :
    decodeNestedWireValue (left + 1) (normalizeIntegersRecursive x) = some v := by
  have hne := nestedKindTag_ne_unknown htag
  cases hx with
  | any hxs =>
    obtain ⟨_, _, hm, hrest, rfl⟩ := forall₂_cons_left_iff.mp hxs
    obtain ⟨t, ws, ht, hws, rfl⟩ := forall₂_cons_left_iff.mp hrest
    cases hm
    have hwire := wireTag_eq_some hne (wireInt_hop ht ((byte_pos_le hne).2.trans (by decide)))
    have hdecode : decodeNestedKindEnvelope (normalizeIntegersRecursive t ::
        normalizeIntegersInSlice ws) = some v := by
      by_cases hnil : ∃ k, v = .nilContainer k
      · obtain ⟨k, rfl⟩ := hnil
        cases htag
        cases hws
        rw [normalizeIntegersInSlice, decodeNestedKindEnvelope, hwire]
      · have hpayload : kindPayload v = [v] := by
          cases v <;> first | rfl | exact absurd ⟨_, rfl⟩ hnil
        rw [hpayload] at hws
        obtain ⟨y, _, hy, hnone, rfl⟩ := forall₂_cons_left_iff.mp hws
        cases hnone
        rw [normalizeIntegersInSlice, normalizeIntegersInSlice, decodeNestedKindEnvelope, hwire,
          Option.bind_some, reconstruct_hop htag hpayload hy]
    exact hdecode

/-- The values msgpack keeps as they are. -/
def raw : GoValue → Bool
  | .nil | .string _ => true
  | .scalar k _ => native k
  | .slice k _ => k = .byte
  | _ => false

/-- How a value is written: as it is, in a kind envelope, in a temporal envelope, or by its
elements. -/
theorem forms (v : GoValue) : raw v = true ∨ (∃ tag, nestedKindTag v = some tag) ∨
    (∃ kind value, v = .temporal kind value) ∨ (∃ vs, v = .sliceAny vs) ∨
    ∃ keys vs, v = .mapStrAny keys vs := by
  cases v with
  | nil | string => exact .inl rfl
  | scalar k b =>
    cases hk : native k with
    | true => exact .inl hk
    | false => exact .inr (.inl ⟨_, if_neg (by simp [hk])⟩)
  | slice k bs =>
    by_cases hk : k = .byte
    · exact .inl (decide_eq_true hk)
    · exact .inr (.inl ⟨_, if_neg hk⟩)
  | nilContainer | sliceStr | mapStrStr => exact .inr (.inl ⟨_, rfl⟩)
  | temporal kind value => exact .inr (.inr (.inl ⟨kind, value, rfl⟩))
  | sliceAny vs => exact .inr (.inr (.inr (.inl ⟨vs, rfl⟩)))
  | mapStrAny keys vs => exact .inr (.inr (.inr (.inr ⟨keys, vs, rfl⟩)))

/-- A value that is kept goes through every stage as it is. -/
theorem raw_spec (hv : raw v = true) : encodeNestedWireValue (left + 1) v = v ∧
    normalizeIntegersRecursive v = v ∧ decodeNestedWireValue (left + 1) v = some v ∧
    (Hop native v x → x = v) := by
  cases v with
  | nil | string => exact ⟨rfl, rfl, rfl, fun h => by cases h; rfl⟩
  | scalar k b =>
    have hk : native k = true := hv
    refine ⟨?_, ?_, rfl, fun h => ?_⟩
    · simp only [encodeNestedWireValue, nestedKindTag, hk, if_true]
    · cases k <;> first | rfl | cases hk
    · cases h with
      | scalar h => rwa [ScalarHop, if_pos hk] at h
  | slice k bs =>
    obtain rfl : k = .byte := of_decide_eq_true hv
    refine ⟨rfl, rfl, rfl, fun h => ?_⟩
    cases h with
    | bytes => rfl
    | slice hk => exact absurd rfl hk
  | _ => cases hv

/-- Every scalar is of a kept kind or an integer. -/
def Keeps (keep : ScalarKind → Bool) : Prop :=
  ∀ (k : ScalarKind) (bits : BitVec k.width), keep k = true ∨ (k.integer bits).isSome

theorem scalarHop_self (hkeep : Keeps keep) : ScalarHop keep k bits (.scalar k bits) := by
  unfold ScalarHop
  split
  · rfl
  · next hno => exact ⟨(hkeep k bits).resolve_left hno, rfl⟩

theorem raw_hop (hkeep : Keeps keep) (hv : raw v = true) : Hop keep v v := by
  cases v with
  | nil => exact .nil
  | string s => exact .string s
  | scalar k b => exact .scalar (scalarHop_self hkeep)
  | slice k bs =>
    obtain rfl : k = .byte := of_decide_eq_true hv
    exact .bytes bs
  | _ => cases hv

theorem encode_of_tag (htag : nestedKindTag v = some tag) : encodeNestedWireValue (left + 1) v =
    .sliceAny (.string nestedWireKindMarker :: wireInt tag.byte.toNat :: kindPayload v) := by
  cases v <;> first | (cases htag; done) | simp only [encodeNestedWireValue, htag]

/-- What msgpack returns starts like the value. -/
theorem markerOf_hop (hx : Hop native (encodeNestedWireValue (left + 1) v) x) :
    markerOf (normalizeIntegersRecursive x) = markerOf v := by
  have hlist : ∀ {vs : List GoValue}, Hop native (.sliceAny vs) x →
      markerOf (normalizeIntegersRecursive x) = none := fun h => by cases h; rfl
  rcases forms v with hv | ⟨tag, htag⟩ | ⟨kind, value, rfl⟩ | ⟨vs, rfl⟩ | ⟨keys, vs, rfl⟩
  · obtain ⟨hencode, hnorm, -, hhop⟩ := @raw_spec v x left hv
    rw [hencode] at hx
    rw [hhop hx, hnorm]
  · rw [hlist (encode_of_tag htag ▸ hx)]
    cases v <;> first | rfl | cases htag
  · exact hlist hx
  · exact hlist hx
  · cases hx
    rfl

theorem envelopeOf_hop {vs xs : List GoValue}
    (hx : List.Forall₂ (Hop native) (vs.map (encodeNestedWireValue (left + 1))) xs) :
    (envelopeOf (normalizeIntegersInSlice xs)).isSome = (envelopeOf vs).isSome := by
  cases vs with
  | nil => cases hx; rfl
  | cons v vs =>
    obtain ⟨x, xs, hv, -, rfl⟩ := forall₂_cons_left_iff.mp hx
    rw [normalizeIntegersInSlice, envelopeOf, envelopeOf, markerOf_hop hv, Option.isSome_map,
      Option.isSome_map]

/-- The elements of a list, when each comes back. -/
theorem decode_elements
    (hvs : ∀ v ∈ vs, ∀ x, Hop native (encodeNestedWireValue left v) x →
      decodeNestedWireValue left (normalizeIntegersRecursive x) = some v)
    (hx : List.Forall₂ (Hop native) (vs.map (encodeNestedWireValue left)) xs) :
    (normalizeIntegersInSlice xs).mapM (decodeNestedWireValue left) = some vs := by
  rw [mapM_eq_some_iff]
  induction vs generalizing xs with
  | nil => cases hx; exact .nil
  | cons v vs ih =>
    obtain ⟨x, xs, hv, hrest, rfl⟩ := forall₂_cons_left_iff.mp hx
    exact .cons (hvs v mem_cons_self x hv)
      (ih (fun u hu => hvs u (mem_cons_of_mem _ hu)) hrest)

/-- **The round trip**, with enough levels left for the value. -/
theorem decode_hop (h : Accepted n v) (hn : n < left)
    (hx : Hop native (encodeNestedWireValue left v) x) :
    decodeNestedWireValue left (normalizeIntegersRecursive x) = some v := by
  induction n generalizing left v x with
  | zero => exact h.elim
  | succ n ih =>
    obtain ⟨left, rfl⟩ : ∃ m, left = m + 1 + 1 := ⟨left - 2, by omega⟩
    have hchildren : ∀ {vs : List GoValue}, (∀ v ∈ vs, Accepted n v) → ∀ v ∈ vs, ∀ x,
        Hop native (encodeNestedWireValue (left + 1) v) x →
          decodeNestedWireValue (left + 1) (normalizeIntegersRecursive x) = some v :=
      fun hvs v hv x hx => ih (hvs v hv) (by omega) hx
    rcases forms v with hv | ⟨tag, htag⟩ | ⟨kind, value, rfl⟩ | ⟨vs, rfl⟩ | ⟨keys, vs, rfl⟩
    · obtain ⟨hencode, hnorm, hdecode, hhop⟩ := @raw_spec v x (left + 1) hv
      rw [hencode] at hx
      rw [hhop hx, hnorm, hdecode]
    · exact decode_kind htag (encode_of_tag htag ▸ hx)
    · cases hx with
      | any hx =>
        obtain ⟨_, ws, hm, hws, rfl⟩ := forall₂_cons_left_iff.mp hx
        obtain ⟨t, us, ht, hus, rfl⟩ := forall₂_cons_left_iff.mp hws
        obtain ⟨_, _, hvalue, hnone, rfl⟩ := forall₂_cons_left_iff.mp hus
        cases hm
        cases hvalue
        cases hnone
        have hlt := kind.toNat_lt
        have hkind : (normalizeIntegersRecursive t).integer = some (kind.toNat : Int) :=
          wireInt_hop ht (by omega)
        show decodeNestedTemporalEnvelope [normalizeIntegersRecursive t, .string value] = _
        rw [decodeNestedTemporalEnvelope, hkind, Option.bind_some, Int.toNat_natCast,
          UInt8.ofNat_toNat, if_pos ⟨by omega, by omega, h⟩]
    · rw [encodeNestedWireValue] at hx
      split at hx
      · -- the list of the caller starts with a marker: its elements are behind the escape
        cases hx with
        | any hx =>
          obtain ⟨_, xs, hm, hrest, rfl⟩ := forall₂_cons_left_iff.mp hx
          cases hm
          show ((normalizeIntegersInSlice xs).mapM (decodeNestedWireValue (left + 1))).map
            GoValue.sliceAny = _
          rw [decode_elements (hchildren h) hrest, Option.map_some]
      · next hplain =>
        cases hx with
        | any hx =>
          have hno := Option.not_isSome_iff_eq_none.mp ((envelopeOf_hop hx).symm ▸ hplain)
          rw [normalizeIntegersRecursive, decodeNestedWireValue, hno]
          rw [decode_elements (hchildren h) hx, Option.map_some]
    · cases hx with
      | map hx =>
        rw [normalizeIntegersRecursive, decodeNestedWireValue, decode_elements (hchildren h) hx,
          Option.map_some]

theorem keeps_native : Keeps native := fun k _ => by
  cases k <;> first | exact .inl rfl | exact .inr rfl

/-- Every encoding has something msgpack may return for it. -/
theorem exists_hop (h : Accepted n v) (hn : n < left) :
    ∃ x, Hop native (encodeNestedWireValue left v) x := by
  induction n generalizing left v with
  | zero => exact h.elim
  | succ n ih =>
    obtain ⟨left, rfl⟩ : ∃ m, left = m + 1 := ⟨left - 1, by omega⟩
    have hchildren : ∀ {vs : List GoValue}, (∀ v ∈ vs, Accepted n v) →
        ∃ xs, Forall₂ (Hop native) (vs.map (encodeNestedWireValue left)) xs := by
      intro vs hvs
      induction vs with
      | nil => exact ⟨[], .nil⟩
      | cons v vs ihs =>
        obtain ⟨x, hx⟩ := ih (hvs v mem_cons_self) (by omega : n < left)
        obtain ⟨xs, hxs⟩ := ihs fun u hu => hvs u (mem_cons_of_mem _ hu)
        exact ⟨x :: xs, .cons hx hxs⟩
    have hscalar : ∀ k bits, ScalarHop native k bits (.scalar k bits) := fun _ _ =>
      scalarHop_self keeps_native
    have hleaf : ∀ {tag}, nestedKindTag v = some tag →
        ∃ xs, Forall₂ (Hop native) (kindPayload v) xs := by
      intro tag htag
      cases v with
      | nil | string | temporal | sliceAny | mapStrAny => cases htag
      | nilContainer k => exact ⟨[], .nil⟩
      | scalar k bits => exact ⟨_, .cons (.scalar (hscalar k bits)) .nil⟩
      | sliceStr ss => exact ⟨_, .cons (.strings ss) .nil⟩
      | mapStrStr keys vals => exact ⟨_, .cons (.stringMap keys vals) .nil⟩
      | slice k bs =>
        by_cases hk : k = .byte
        · subst hk
          exact ⟨_, .cons (.bytes bs) .nil⟩
        · refine ⟨[.sliceAny (bs.map (.scalar k.elem))], .cons (.slice hk ?_) .nil⟩
          rw [forall₂_map_right_iff, forall₂_same]
          exact fun b _ => hscalar _ b
    rcases forms v with hv | ⟨tag, htag⟩ | ⟨kind, value, rfl⟩ | ⟨vs, rfl⟩ | ⟨keys, vs, rfl⟩
    · obtain ⟨hencode, -⟩ := @raw_spec v v left hv
      exact ⟨v, by rw [hencode]; exact raw_hop keeps_native hv⟩
    · obtain ⟨xs, hxs⟩ := hleaf htag
      rw [encode_of_tag htag]
      exact ⟨_, .any (.cons (.string _) (.cons (.scalar (hscalar _ _)) hxs))⟩
    · exact ⟨_, .any (.cons (.string _) (.cons (.scalar (hscalar _ _)) (.cons (.string _) .nil)))⟩
    · obtain ⟨xs, hxs⟩ := hchildren h
      rw [encodeNestedWireValue]
      split
      · exact ⟨_, .any (.cons (.string _) hxs)⟩
      · exact ⟨_, .any hxs⟩
    · obtain ⟨xs, hxs⟩ := hchildren h
      exact ⟨_, .map hxs⟩

/-- **Nested values keep their kinds.**  Whatever msgpack returns for the encoding of a value of
the property layer decodes to the value; so no two values have one encoding. -/
theorem nested_values_kept :
    (∀ v x, Accepted propertyLevels v → Hop native (encodeNestedWireValue wireLevels v) x →
      decodeNestedWireValue wireLevels (normalizeIntegersRecursive x) = some v) ∧
    ∀ v w, Accepted propertyLevels v → Accepted propertyLevels w →
      encodeNestedWireValue wireLevels v = encodeNestedWireValue wireLevels w → v = w := by
  have hlevels : propertyLevels < wireLevels := by decide
  refine ⟨fun v x hv hx => decode_hop hv hlevels hx, fun v w hv hw heq => ?_⟩
  obtain ⟨x, hx⟩ := exists_hop hv hlevels
  have hdecode := decode_hop hv hlevels hx
  rw [decode_hop hw hlevels (heq ▸ hx)] at hdecode
  exact (Option.some.inj hdecode).symm

/-- A list that starts with a marker, with a small integer, a typed `nil` and a typed slice. -/
def mixedValue : GoValue :=
  .sliceAny [.string nestedWireKindMarker, .scalar .int16 7, .nilContainer .sliceStr,
    .slice .int [3]]

/-- What msgpack may return for its encoding. -/
def mixedReturned : GoValue :=
  .sliceAny [.string nestedWireEscapeMarker, .string nestedWireKindMarker,
    .sliceAny [.string nestedWireKindMarker, .scalar .int8 4, .scalar .uint8 7],
    .sliceAny [.string nestedWireKindMarker, .scalar .uint8 15],
    .sliceAny [.string nestedWireKindMarker, .scalar .int64 16, .sliceAny [.scalar .int32 3]]]

theorem nested_values_kept_mixed : decodeNestedWireValue wireLevels
    (normalizeIntegersRecursive mixedReturned) = some mixedValue := by
  have haccepted : Accepted propertyLevels mixedValue := by
    simp [mixedValue, Accepted, propertyLevels]
  refine nested_values_kept.1 mixedValue mixedReturned haccepted ?_
  have hint : Hop native (.scalar .int16 7) (.scalar .uint8 7) := .scalar ⟨rfl, rfl⟩
  have hslice : Hop native (.slice .int [3]) (.sliceAny [.scalar .int32 3]) :=
    .slice (by decide) (.cons ⟨rfl, rfl⟩ .nil)
  exact .any (.cons (.string _) (.cons (.string _)
    (.cons (.any (.cons (.string _) (.cons (.scalar ⟨rfl, rfl⟩) (.cons hint .nil))))
    (.cons (.any (.cons (.string _) (.cons (.scalar ⟨rfl, rfl⟩) .nil)))
    (.cons (.any (.cons (.string _) (.cons (.scalar ⟨rfl, rfl⟩) (.cons hslice .nil)))) .nil)))))

end NestedWire
end RhoTkg
