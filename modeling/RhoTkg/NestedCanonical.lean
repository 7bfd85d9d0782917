import RhoTkg.NestedWire

/-!
# Which nested encodings are canonical

The format comment says that the decoder takes an envelope only in the form the encoder writes.
`canonical_iff` settles for which trees that is so: a tree the decoder takes is, up to the widths
of integers and the form of typed slices, what the encoder writes for its value exactly when no
list is escaped that starts with no marker, and no float slice has elements of the other width.
-/

namespace RhoTkg

open List Option
namespace NestedWire

open PrefixCode (Bytes)

/-- A tree as msgpack and the normalisation leave it. -/
def Decoded : ℕ → GoValue → Prop
  | 0, _ => False
  | left + 1, .sliceAny vs | left + 1, .mapStrAny _ vs => ∀ v ∈ vs, Decoded left v
  | _ + 1, v => raw v = true

/-- Integers are compared by their value, all else by its kind. -/
def byValue : ScalarKind → Bool
  | .bool | .float32 | .float64 => true
  | _ => false

/-- The element of a float slice has the slice's width. -/
def floatMatches : SliceKind → GoValue → Bool
  | .float32, .scalar .float32 _ | .float64, .scalar .float64 _ => true
  | .float32, _ | .float64, _ => false
  | _, _ => true

/-- The payload of a kind envelope has the widths of its tag. -/
def payloadMatches : TypeTag → GoValue → Bool
  | .container (.slice k), .sliceAny ws => ws.all (floatMatches k)
  | _, _ => true

/-- No escape without need and no float of another width. -/
def canonical : ℕ → GoValue → Bool
  | left + 1, .sliceAny vs =>
    match envelopeOf vs with
    | none => vs.all (canonical left)
    | some (marker, rest) =>
      if marker = nestedWireEscapeMarker then (envelopeOf rest).isSome && rest.all (canonical left)
      else if marker = nestedWireKindMarker then
        match rest with
        | [tag, payload] => (wireTag tag).all (payloadMatches · payload)
        | _ => true
      else true
  | left + 1, .mapStrAny _ vs => vs.all (canonical left)
  | _, _ => true

variable {k : ScalarKind} {v w x : GoValue} {us vs ws : List GoValue} {n left : ℕ} {tag : TypeTag}

theorem keeps_byValue : Keeps byValue := fun k _ => by
  cases k <;> first | exact .inl rfl | exact .inr rfl

/-! ## Payloads -/

theorem integerOf_iff_hop {bits : BitVec k.width} (hk : byValue k = false) :
    integerOf k x = some bits ↔ ScalarHop byValue k bits x := by
  rw [integerOf_eq_some_iff, ScalarHop, hk]
  rfl

/-- An element decodes to bits that give it back exactly when its width is the slice's. -/
theorem elementOf_hop_iff {k : SliceKind} {bits : BitVec k.elem.width}
    (h : elementOf k x = some bits) :
    ScalarHop byValue k.elem bits x ↔ floatMatches k x = true := by
  cases k with
  | int | int64 => exact iff_of_true ((integerOf_iff_hop rfl).mp h) rfl
  | byte => cases h
  | bool =>
    cases x with
    | scalar k b => cases k <;> first | (cases h; exact iff_of_true rfl rfl) | cases h
    | _ => cases h
  | float32 =>
    cases x with
    | scalar k b =>
      cases k with
      | float32 => cases h; exact iff_of_true rfl rfl
      | float64 => exact iff_of_false (fun heq => by cases heq) Bool.false_ne_true
      | _ => cases h
    | _ => cases h
  | float64 =>
    cases x with
    | scalar k b =>
      cases k with
      | float64 => cases h; exact iff_of_true rfl rfl
      | float32 => exact iff_of_false (fun heq => by cases heq) Bool.false_ne_true
      | _ => cases h
    | _ => cases h

theorem forall₂_hop_iff {k : SliceKind} {bs : List (BitVec k.elem.width)}
    (h : List.Forall₂ (fun w b => elementOf k w = some b) ws bs) :
    List.Forall₂ (ScalarHop byValue k.elem) bs ws ↔ ws.all (floatMatches k) = true := by
  induction h with
  | nil => exact iff_of_true .nil rfl
  | cons hw _ ih =>
    rw [forall₂_cons, elementOf_hop_iff hw, ih, all_cons, Bool.and_eq_true]

theorem eq_strings {ss : List Bytes} (h : ws.mapM stringOf = some ss) : ws = ss.map .string := by
  rw [mapM_eq_some_iff] at h
  induction h with
  | nil => rfl
  | @cons w s _ _ hw _ ih =>
    cases w <;> cases hw
    rw [ih, map_cons]

/-- **What a kind envelope decodes to**: a value the encoder wraps under the tag, whose payload is
the given one exactly when its widths match. -/
theorem reconstruct_spec (hx : Decoded (n + 1) x) (h : reconstructTypedValue tag x = some v) :
    nestedKindTag v = some tag ∧ kindPayload v = [v] ∧
      (Hop byValue v x ↔ payloadMatches tag x = true) := by
  cases tag with
  | unknown | string | custom | temporal => cases h
  | scalar k =>
    rw [reconstructTypedValue] at h
    split at h
    · cases h
    · next hk =>
      obtain ⟨bits, hbits, rfl⟩ := map_eq_some_iff.mp h
      have hval : byValue k = false := by cases k <;> first | rfl | exact absurd rfl hk
      exact ⟨if_neg hk, rfl, iff_of_true (.scalar ((integerOf_iff_hop hval).mp hbits)) rfl⟩
  | container c =>
    cases x with
    | nil | scalar | string | temporal | nilContainer => cases c with
      | slice k => cases k <;> cases h
      | _ => cases h
    | sliceStr | mapStrStr => cases hx
    | slice k bs =>
      obtain rfl : k = .byte := of_decide_eq_true hx
      cases c with
      | slice k => cases k <;> cases h
      | _ => cases h
    | mapStrAny keys vals =>
      cases c with
      | mapStrStr =>
        obtain ⟨ss, hss, rfl⟩ := map_eq_some_iff.mp h
        rw [eq_strings hss]
        exact ⟨rfl, rfl, iff_of_true (.stringMap keys ss) rfl⟩
      | slice k => cases k <;> cases h
      | _ => cases h
    | sliceAny ws =>
      cases c with
      | sliceStr =>
        obtain ⟨ss, hss, rfl⟩ := map_eq_some_iff.mp h
        rw [eq_strings hss]
        exact ⟨rfl, rfl, iff_of_true (.strings ss) rfl⟩
      | slice k =>
        have hk : k ≠ .byte := by rintro rfl; cases h
        obtain ⟨bs, hbs, rfl⟩ : ∃ bs, ws.mapM (elementOf k) = some bs ∧ GoValue.slice k bs = v := by
          cases k <;> first | exact absurd rfl hk | exact map_eq_some_iff.mp h
        refine ⟨if_neg hk, rfl, ?_⟩
        rw [payloadMatches, ← forall₂_hop_iff (mapM_eq_some_iff.mp hbs)]
        constructor
        · intro hhop
          cases hhop with
          | slice _ hws => exact hws
        · exact fun hws => .slice hk hws
      | _ => cases h

/-! ## Envelopes -/

theorem hop_any_iff : Hop byValue (.sliceAny vs) (.sliceAny ws) ↔
    List.Forall₂ (Hop byValue) vs ws :=
  ⟨fun h => by cases h; assumption, .any⟩

theorem hop_wireInt (hn : n ≤ 255) (hx : x.integer = some (n : Int)) :
    Hop byValue (wireInt n) x := by
  have hint := integer_wireInt hn
  exact .scalar ⟨isSome_of_eq_some hint, hx.trans hint.symm⟩

/-- The tag of an envelope is the integer its type has. -/
theorem integer_of_wireTag (h : wireTag x = some tag) : x.integer = some (tag.byte.toNat : Int) := by
  have hbytes : ∀ m < 27, (TypeTag.ofByte (UInt8.ofNat m)).map (fun t => t.byte.toNat) = some m := by
    decide
  obtain ⟨n, hn, htag⟩ := bind_eq_some_iff.mp h
  split at htag
  · next hbound =>
    have hbyte := hbytes n.toNat (by omega)
    rw [htag, map_some, some.injEq] at hbyte
    rw [hn, hbyte, Int.toNat_of_nonneg (by omega)]
  · cases htag

theorem eq_of_envelopeOf {m : Bytes} (h : envelopeOf vs = some (m, us)) : vs = .string m :: us := by
  cases vs with
  | nil => cases h
  | cons v vs =>
    obtain ⟨m', hm, heq⟩ := map_eq_some_iff.mp h
    cases heq
    cases v with
    | string s =>
      rw [markerOf] at hm
      split at hm
      · cases hm; rfl
      · cases hm
    | _ => cases hm

/-- How the decoder takes a list. -/
theorem decode_list_cases (h : decodeNestedWireValue (left + 1) (.sliceAny vs) = some v) :
    (envelopeOf vs = none ∧ ∃ us, vs.mapM (decodeNestedWireValue left) = some us ∧ v = .sliceAny us) ∨
    (∃ rest, vs = .string nestedWireTemporalMarker :: rest ∧
      decodeNestedTemporalEnvelope rest = some v) ∨
    (∃ rest, vs = .string nestedWireKindMarker :: rest ∧ decodeNestedKindEnvelope rest = some v) ∨
    ∃ rest us, vs = .string nestedWireEscapeMarker :: rest ∧
      rest.mapM (decodeNestedWireValue left) = some us ∧ v = .sliceAny us := by
  rw [decodeNestedWireValue] at h
  split at h
  · next hnone =>
    obtain ⟨us, hus, rfl⟩ := map_eq_some_iff.mp h
    exact .inl ⟨hnone, us, hus, rfl⟩
  · next marker rest hsome =>
    obtain rfl := eq_of_envelopeOf hsome
    split at h
    · next hm => exact .inr (.inl ⟨rest, by rw [hm], h⟩)
    · split at h
      · next hm => exact .inr (.inr (.inl ⟨rest, by rw [hm], h⟩))
      · split at h
        · next hm =>
          obtain ⟨us, hus, rfl⟩ := map_eq_some_iff.mp h
          exact .inr (.inr (.inr ⟨rest, us, by rw [hm], hus, rfl⟩))
        · cases h

theorem temporal_spec (h : decodeNestedTemporalEnvelope ws = some v) : ∃ t kind value,
    ws = [t, .string value] ∧ v = .temporal kind value ∧ t.integer = some (kind.toNat : Int) := by
  unfold decodeNestedTemporalEnvelope at h
  split at h
  · next t value =>
    obtain ⟨n, hn, h⟩ := bind_eq_some_iff.mp h
    split at h
    · next hbound =>
      refine ⟨t, _, value, rfl, (some.inj h).symm, ?_⟩
      rw [hn, UInt8.toNat_ofNat_of_lt' (by simp only [UInt8.size]; omega), Int.toNat_of_nonneg hbound.1]
    · cases h
  · cases h

theorem kind_spec (hws : ∀ w ∈ ws, Decoded n w) (h : decodeNestedKindEnvelope ws = some v) :
    ∃ t tag, wireTag t = some tag ∧ nestedKindTag v = some tag ∧
      ((ws = [t] ∧ kindPayload v = []) ∨ ∃ payload, ws = [t, payload] ∧ kindPayload v = [v] ∧
        (Hop byValue v payload ↔ payloadMatches tag payload = true)) := by
  unfold decodeNestedKindEnvelope at h
  split at h
  · next t =>
    split at h
    · next k hk =>
      cases h
      exact ⟨t, _, hk, rfl, .inl ⟨rfl, rfl⟩⟩
    · cases h
  · next t payload =>
    obtain ⟨tag, htag, h⟩ := bind_eq_some_iff.mp h
    have hdecoded := hws payload (by simp)
    obtain ⟨m, rfl⟩ : ∃ m, n = m + 1 := Nat.exists_eq_succ_of_ne_zero (by rintro rfl; exact hdecoded)
    obtain ⟨hv, hpayload, hiff⟩ := reconstruct_spec hdecoded h
    exact ⟨t, tag, htag, hv, .inr ⟨payload, rfl, hpayload, hiff⟩⟩
  · cases h

/-- The decoder keeps what a list may be taken for. -/
theorem markerOf_decode (hw : Decoded left w) (h : decodeNestedWireValue left w = some v) :
    markerOf v = markerOf w := by
  cases left with
  | zero => cases h
  | succ left =>
    cases w with
    | sliceAny vs =>
      rcases decode_list_cases h with ⟨-, us, -, rfl⟩ | ⟨rest, -, h⟩ | ⟨rest, rfl, h⟩ | ⟨_, us, -, -, rfl⟩
      · rfl
      · obtain ⟨t, kind, value, -, rfl, -⟩ := temporal_spec h
        rfl
      · obtain ⟨t, tag, -, htag, -⟩ := kind_spec (fun w hw' => hw w (mem_cons_of_mem _ hw')) h
        cases v <;> first | rfl | cases htag
      · rfl
    | mapStrAny keys vs =>
      obtain ⟨us, -, rfl⟩ := map_eq_some_iff.mp h
      rfl
    | _ => cases h; rfl

/-! ## Whole trees -/

/-- The elements of a list, when each is canonical exactly if it is what the encoder writes. -/
theorem elements_iff
    (ih : ∀ w v, Decoded left w → decodeNestedWireValue left w = some v →
      (Hop byValue (encodeNestedWireValue left v) w ↔ canonical left w = true))
    (hws : ∀ w ∈ ws, Decoded left w) (h : ws.mapM (decodeNestedWireValue left) = some us) :
    (List.Forall₂ (Hop byValue) (us.map (encodeNestedWireValue left)) ws ↔
      ws.all (canonical left) = true) ∧ (envelopeOf us).isSome = (envelopeOf ws).isSome := by
  rw [mapM_eq_some_iff] at h
  constructor
  · induction h with
    | nil => exact iff_of_true .nil rfl
    | @cons w u ws us hu _ ihs =>
      rw [forall_mem_cons] at hws
      rw [map_cons, forall₂_cons, ih w u hws.1 hu, ihs hws.2, all_cons,
        Bool.and_eq_true]
  · cases h with
    | nil => rfl
    | cons hu _ =>
      rw [envelopeOf, envelopeOf, markerOf_decode (hws _ mem_cons_self) hu, isSome_map,
        isSome_map]

/-- **A tree is what the encoder writes for its value exactly when it is canonical.** -/
theorem hop_encode_iff (hw : Decoded left w) (h : decodeNestedWireValue left w = some v) :
    Hop byValue (encodeNestedWireValue left v) w ↔ canonical left w = true := by
  induction left generalizing w v with
  | zero => cases h
  | succ left ih =>
    have hraw : raw w = true → canonical (left + 1) w = true →
        (Hop byValue (encodeNestedWireValue (left + 1) v) w ↔ canonical (left + 1) w = true) := by
      intro hraw hcanon
      obtain ⟨hencode, -, hdecode, -⟩ := @raw_spec w w left hraw
      obtain rfl := some.inj (hdecode.symm.trans h)
      exact iff_of_true (by rw [hencode]; exact raw_hop keeps_byValue hraw) hcanon
    cases w with
    | nil | string | scalar | temporal | nilContainer | sliceStr | slice | mapStrStr => exact hraw hw rfl
    | mapStrAny keys ws =>
      obtain ⟨us, hus, rfl⟩ := map_eq_some_iff.mp h
      rw [canonical, ← (elements_iff (fun w v => ih) hw hus).1, encodeNestedWireValue]
      exact ⟨fun h => by cases h; assumption, .map⟩
    | sliceAny ws =>
      rcases decode_list_cases h with
        ⟨hplain, us, hus, rfl⟩ | ⟨rest, rfl, h⟩ | ⟨rest, rfl, h⟩ | ⟨rest, us, rfl, hus, rfl⟩
      · obtain ⟨hiff, hstart⟩ := elements_iff (fun w v => ih) hw hus
        rw [hplain] at hstart
        rw [canonical, hplain, encodeNestedWireValue, if_neg (by simp [hstart]), hop_any_iff]
        exact hiff
      · obtain ⟨t, kind, value, rfl, rfl, ht⟩ := temporal_spec h
        have hlt := kind.toNat_lt
        have hkind : Hop byValue (wireInt kind.toNat) t := hop_wireInt (by omega) ht
        exact iff_of_true (.any (.cons (.string _) (.cons hkind (.cons (.string _) .nil)))) rfl
      · have hrest : ∀ w ∈ rest, Decoded left w := fun w hw' => hw w (mem_cons_of_mem _ hw')
        obtain ⟨t, tag, ht, htag, hpayload⟩ := kind_spec hrest h
        have hbyte : tag.byte.toNat ≤ 255 := Nat.le_of_lt_succ tag.byte.toNat_lt
        have hint := hop_wireInt hbyte (integer_of_wireTag ht)
        rw [encode_of_tag htag, hop_any_iff]
        rcases hpayload with ⟨rfl, hnil⟩ | ⟨payload, rfl, hone, hiff⟩
        · rw [hnil]
          exact iff_of_true (.cons (.string _) (.cons hint .nil)) rfl
        · have hcanon : canonical (left + 1) (.sliceAny [.string nestedWireKindMarker, t, payload]) =
              (wireTag t).all (payloadMatches · payload) := rfl
          rw [hcanon, ht, all_some, ← hiff, hone]
          constructor
          · intro hall
            obtain ⟨-, hall⟩ := forall₂_cons.mp hall
            exact (forall₂_cons.mp (forall₂_cons.mp hall).2).1
          · exact fun hhop => .cons (.string _) (.cons hint (.cons hhop .nil))
      · obtain ⟨hiff, hstart⟩ :=
          elements_iff (fun w v => ih) (fun w hw' => hw w (mem_cons_of_mem _ hw')) hus
        have hcanon : canonical (left + 1) (.sliceAny (.string nestedWireEscapeMarker :: rest)) =
            ((envelopeOf rest).isSome && rest.all (canonical left)) := rfl
        rw [hcanon, encodeNestedWireValue, hstart, Bool.and_eq_true]
        split
        · next hsome =>
          rw [hop_any_iff, forall₂_cons, hiff]
          exact ⟨fun h => ⟨hsome, h.2⟩, fun h => ⟨.string _, h.2⟩⟩
        · next hnone =>
          -- without the escape the encoding is shorter than the tree
          refine iff_of_false (fun hhop => ?_) fun h => hnone h.1
          have hlen := (hop_any_iff.mp hhop).length_eq
          rw [length_map, length_cons, ← (mapM_eq_some_iff.mp hus).length_eq] at hlen
          omega

/-- **Exactly the canonical trees are what the encoder writes.**  For every tree of at most
`maxWireDecodeDepth` levels that msgpack and the normalisation return and the decoder takes. -/
theorem canonical_iff {w v : GoValue} (hw : Decoded wireLevels w)
    (h : decodeNestedWireValue wireLevels w = some v) :
    Hop byValue (encodeNestedWireValue wireLevels v) w ↔ canonical wireLevels w = true :=
  hop_encode_iff hw h

/-- An escaped list, a number and a typed `nil`, as they are written. -/
def writtenTree : GoValue :=
  .sliceAny [.sliceAny [.string nestedWireEscapeMarker, .string nestedWireKindMarker],
    .sliceAny [.string nestedWireKindMarker, .scalar .int64 4, .scalar .int64 7],
    .sliceAny [.string nestedWireKindMarker, .scalar .uint64 15]]

theorem canonical_iff_writtenTree : Hop byValue (encodeNestedWireValue wireLevels (.sliceAny
    [.sliceAny [.string nestedWireKindMarker], .scalar .int16 7, .nilContainer .sliceStr]))
      writtenTree :=
  (canonical_iff (by simp [writtenTree, Decoded, wireLevels, raw, native]) rfl).mpr rfl

/-- An escape before a list that starts with no marker. -/
def escapedTree : GoValue := .sliceAny [.string nestedWireEscapeMarker, .string [0x61]]

/-- A `[]float32` whose element is a `float64`. -/
def widenedTree : GoValue :=
  .sliceAny [.string nestedWireKindMarker, .scalar .int64 24,
    .sliceAny [.scalar .float64 0x3FF8000000000000#64]]

/-- **Two encodings taken for one value.**  Both trees decode to values that the encoder writes
otherwise. -/
theorem needless_escape_accepted :
    (Decoded wireLevels escapedTree ∧
      decodeNestedWireValue wireLevels escapedTree = some (.sliceAny [.string [0x61]]) ∧
      ¬ Hop byValue (encodeNestedWireValue wireLevels (.sliceAny [.string [0x61]])) escapedTree) ∧
    (Decoded wireLevels widenedTree ∧
      decodeNestedWireValue wireLevels widenedTree = some (.slice .float32 [0x3FC00000#32]) ∧
      ¬ Hop byValue (encodeNestedWireValue wireLevels (.slice .float32 [0x3FC00000#32]))
        widenedTree) := by
  refine ⟨⟨by simp [escapedTree, Decoded, wireLevels, raw], rfl, fun h => ?_⟩,
    by simp [widenedTree, Decoded, wireLevels, raw, native], rfl, fun h => ?_⟩
  · have hlen := (hop_any_iff.mp h).length_eq
    cases hlen
  · obtain ⟨-, h⟩ := forall₂_cons.mp (hop_any_iff.mp h)
    obtain ⟨-, h⟩ := forall₂_cons.mp h
    cases (forall₂_cons.mp h).1 with
    | slice _ hw => cases (forall₂_cons.mp hw).1

end NestedWire
end RhoTkg
