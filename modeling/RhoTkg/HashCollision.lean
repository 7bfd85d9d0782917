import RhoTkg.HashPreimage

/-!
# Which nodes share a hash pre-image

Everything inside a value is behind a tag, a width, a length or a count, so the bytes of a value can
be told from what follows them (`hashBytes_on`), and so can a label and a property.  Only the border
between the labels and the properties is not marked.  `suffixBytes_cases` follows two equal
pre-images up to the first item where one has a label and the other a property.  The label's name is
then the property's key, and the property's value must begin with the first byte of a length, which
is zero, the tag of `nil`.  The next length of the one is now read one byte later by the other: that
fits only when the one has a property named by the single byte zero and the other a key of 256
bytes, the longest there is.  `Rereads` describes such a pair, and
`forged_nodes_same_preimage` is one.
-/

namespace RhoTkg

open List

open PrefixCode

namespace TypeTag

/-- The tag of a byte. -/
def ofByte (c : UInt8) : Option TypeTag :=
  [.unknown, .scalar .bool, .scalar .int, .scalar .int8, .scalar .int16, .scalar .int32,
    .scalar .int64, .scalar .uint, .scalar .uint8, .scalar .uint16, .scalar .uint32,
    .scalar .uint64, .scalar .float32, .scalar .float64, .string, .container .sliceStr,
    .container (.slice .int), .container (.slice .int64), .container (.slice .float64),
    .container (.slice .byte), .container (.slice .bool), .container .sliceAny,
    .container .mapStrAny, .container .mapStrStr, .container (.slice .float32), .custom,
    .temporal][c.toNat]?

theorem ofByte_byte (t : TypeTag) : ofByte t.byte = some t := by
  cases t with
  | scalar k => cases k <;> rfl
  | container k =>
    cases k with
    | slice k => cases k <;> rfl
    | _ => rfl
  | _ => rfl

/-- No two types have one tag. -/
theorem byte_injective {t u : TypeTag} (h : t.byte = u.byte) : t = u :=
  Option.some.inj ((ofByte_byte t).symm.trans ((congrArg ofByte h).trans (ofByte_byte u)))

end TypeTag

theorem ScalarKind.two_pow_width_le (k : ScalarKind) : 2 ^ k.width ≤ 256 ^ k.size := by
  cases k <;> decide

namespace PropValue

/-! ## Values -/

theorem lenBytes_on : On (fun s : Bytes => s.length < 256 ^ 4) lenBytes := by
  intro s t r u hs ht heq
  obtain ⟨hlen, htail⟩ := bigEndian_on 4 hs ht heq
  exact append_inj htail hlen

theorem scalarBytes_on (k : ScalarKind) : On (fun _ => True) (scalarBytes k) := by
  intro v w r s _ _ heq
  have hlt : ∀ v : BitVec k.width, v.toNat < 256 ^ k.size := fun v =>
    lt_of_lt_of_le v.isLt (ScalarKind.two_pow_width_le k)
  obtain ⟨hv, hrest⟩ := bigEndian_on k.size (hlt v) (hlt w) heq
  exact ⟨BitVec.eq_of_toNat_eq hv, hrest⟩

theorem strEntryBytes_on :
    On (fun kv : Bytes × Bytes => kv.1.length < 256 ^ 4 ∧ kv.2.length < 256 ^ 4) strEntryBytes :=
  lenBytes_on.pair lenBytes_on

/-- Lengths of containers that are not `nil`. -/
theorem count_on : On (· < propertyHashNilContainerLen) (bigEndian 4) :=
  fun _ _ _ _ ha hb heq =>
    bigEndian_on 4 (lt_trans ha (by decide)) (lt_trans hb (by decide)) heq

variable {r s : Bytes} {v : PropValue}

/-- The length of a container is not that of a `nil` one. -/
theorem count_ne_nil {n : ℕ} (hn : n < propertyHashNilContainerLen) :
    bigEndian 4 n ++ r ≠ bigEndian 4 propertyHashNilContainerLen ++ s := fun heq =>
  (Nat.ne_of_lt hn) (bigEndian_on 4 (lt_trans hn (by decide)) (by decide) heq).1

/-- A container that is not `nil` does not read as `nil`. -/
theorem bodyBytes_ne_nil {k : ContainerKind} (hv : v.Sized)
    (htag : v.propertyHashTypeTag = .container k) (hne : v ≠ .nilContainer k) :
    v.bodyBytes ++ r ≠ bigEndian 4 propertyHashNilContainerLen ++ s := by
  cases v with
  | nilContainer k' => cases htag; exact absurd rfl hne
  | sliceStr vs => simpa only [bodyBytes, append_assoc] using count_ne_nil hv.1
  | slice k vs => simpa only [bodyBytes, append_assoc] using count_ne_nil hv
  | sliceAny | mapStrAny | mapStrStr =>
    simpa only [bodyBytes, append_assoc] using count_ne_nil hv.1
  | _ => cases htag

theorem pointerByte_injective {b c : Bool}
    (h : (if b then 1 else 0 : UInt8) = if c then 1 else 0) : b = c := by
  cases b <;> cases c <;> first | rfl | cases h

/-- The bodies of two values of one tag. -/
def BodyOn (v : PropValue) : Prop :=
  ∀ ⦃w : PropValue⦄ ⦃r s : Bytes⦄, v.Sized → w.Sized →
    v.propertyHashTypeTag = w.propertyHashTypeTag → v.bodyBytes ++ r = w.bodyBytes ++ s →
    v = w ∧ r = s

/-- A body that can be told from what follows makes a value that can. -/
theorem BodyOn.hashBytes {w : PropValue} (h : v.BodyOn) (hv : v.Sized) (hw : w.Sized)
    (heq : v.hashBytes ++ r = w.hashBytes ++ s) : v = w ∧ r = s := by
  simp only [PropValue.hashBytes, cons_append, cons.injEq] at heq
  exact h hv hw (TypeTag.byte_injective heq.1) heq.2

mutual

/-- The body of a value, by recursion over its elements. -/
theorem bodyBytes_on : (v : PropValue) → v.BodyOn
  | .nil => by
    intro w r s _ _ htag heq
    cases w <;> first | exact ⟨rfl, heq⟩ | cases htag
  | .scalar k bits => by
    intro w r s _ _ htag heq
    cases w with
    | scalar k' bits' =>
      cases htag
      obtain ⟨rfl, hrest⟩ := scalarBytes_on k trivial trivial heq
      exact ⟨rfl, hrest⟩
    | _ => cases htag
  | .string v => by
    intro w r s hv hw htag heq
    cases w with
    | string w =>
      obtain ⟨rfl, hrest⟩ := lenBytes_on hv hw heq
      exact ⟨rfl, hrest⟩
    | _ => cases htag
  | .temporal kind v => by
    intro w r s hv hw htag heq
    cases w with
    | temporal kind' w =>
      simp only [bodyBytes, cons_append, cons.injEq] at heq
      obtain ⟨rfl, hrest⟩ := lenBytes_on hv hw heq.2
      exact ⟨by rw [heq.1], hrest⟩
    | _ => cases htag
  | .nilContainer k => by
    intro w r s _ hw htag heq
    by_cases hnil : w = .nilContainer k
    · subst hnil
      exact ⟨rfl, append_cancel_left heq⟩
    · exact absurd heq.symm (bodyBytes_ne_nil hw htag.symm hnil)
  | .sliceStr vs => by
    intro w r s hv hw htag heq
    cases w with
    | sliceStr ws =>
      obtain ⟨rfl, hrest⟩ := (count_on.counted lenBytes_on) hv hw heq
      exact ⟨rfl, hrest⟩
    | nilContainer k' => exact absurd heq (bodyBytes_ne_nil hv htag nofun)
    | _ => cases htag
  | .slice k vs => by
    intro w r s hv hw htag heq
    cases w with
    | slice k' ws =>
      cases htag
      obtain ⟨rfl, hrest⟩ := (count_on.counted (scalarBytes_on k.elem))
        ⟨hv, fun _ _ => trivial⟩ ⟨hw, fun _ _ => trivial⟩ heq
      exact ⟨rfl, hrest⟩
    | nilContainer k' => exact absurd heq (bodyBytes_ne_nil hv htag nofun)
    | _ => cases htag
  | .sliceAny vs => by
    intro w r s hv hw htag heq
    cases w with
    | sliceAny ws =>
      simp only [bodyBytes, append_assoc] at heq
      obtain ⟨hlen, htail⟩ := count_on hv.1 hw.1 heq
      obtain ⟨rfl, hrest⟩ := elemsBytes_on vs ws hv.2 hw.2 hlen htail
      exact ⟨rfl, hrest⟩
    | nilContainer k' => exact absurd heq (bodyBytes_ne_nil hv htag nofun)
    | _ => cases htag
  | .mapStrAny kvs => by
    intro w r s hv hw htag heq
    cases w with
    | mapStrAny ws =>
      simp only [bodyBytes, append_assoc] at heq
      obtain ⟨hlen, htail⟩ := count_on hv.1 hw.1 heq
      obtain ⟨rfl, hrest⟩ := entriesBytes_on kvs ws hv.2 hw.2 hlen htail
      exact ⟨rfl, hrest⟩
    | nilContainer k' => exact absurd heq (bodyBytes_ne_nil hv htag nofun)
    | _ => cases htag
  | .mapStrStr kvs => by
    intro w r s hv hw htag heq
    cases w with
    | mapStrStr ws =>
      obtain ⟨rfl, hrest⟩ := (count_on.counted strEntryBytes_on) hv hw heq
      exact ⟨rfl, hrest⟩
    | nilContainer k' => exact absurd heq (bodyBytes_ne_nil hv htag nofun)
    | _ => cases htag
  | .custom typeName pointer hb => by
    intro w r s hv hw htag heq
    cases w with
    | custom typeName' pointer' hb' =>
      simp only [bodyBytes, append_assoc, cons_append] at heq
      obtain ⟨rfl, htail⟩ := lenBytes_on hv.1 hw.1 heq
      simp only [cons.injEq] at htail
      obtain ⟨rfl, hrest⟩ := lenBytes_on hv.2 hw.2 htail.2
      obtain rfl := pointerByte_injective htail.1
      exact ⟨rfl, hrest⟩
    | _ => cases htag

/-- The elements of two slices of one length. -/
theorem elemsBytes_on : (vs ws : List PropValue) → {r s : Bytes} → ElemsSizedBelow propertyHashNilContainerLen vs →
    ElemsSizedBelow propertyHashNilContainerLen ws → vs.length = ws.length → elemsBytes vs ++ r = elemsBytes ws ++ s → vs = ws ∧ r = s
  | [], [], _, _, _, _, _, heq => ⟨rfl, heq⟩
  | v :: vs, w :: ws, r, s, hvs, hws, hlen, heq => by
    simp only [elemsBytes, List.append_assoc] at heq
    obtain ⟨rfl, htail⟩ := (bodyBytes_on v).hashBytes hvs.1 hws.1 heq
    obtain ⟨rfl, hrest⟩ := elemsBytes_on vs ws hvs.2 hws.2 (Nat.succ.inj hlen) htail
    exact ⟨rfl, hrest⟩

/-- The entries of two maps of one size. -/
theorem entriesBytes_on : (vs ws : List (Bytes × PropValue)) → {r s : Bytes} →
    EntriesSizedBelow propertyHashNilContainerLen vs →
    EntriesSizedBelow propertyHashNilContainerLen ws → vs.length = ws.length → entriesBytes vs ++ r = entriesBytes ws ++ s →
    vs = ws ∧ r = s
  | [], [], _, _, _, _, _, heq => ⟨rfl, heq⟩
  | (key, v) :: vs, (key', w) :: ws, r, s, hvs, hws, hlen, heq => by
    simp only [entriesBytes, List.append_assoc] at heq
    obtain ⟨rfl, hvalue⟩ := lenBytes_on hvs.1.1 hws.1.1 heq
    obtain ⟨rfl, htail⟩ := (bodyBytes_on v).hashBytes hvs.1.2 hws.1.2 hvalue
    obtain ⟨rfl, hrest⟩ := entriesBytes_on vs ws hvs.2 hws.2 (Nat.succ.inj hlen) htail
    exact ⟨rfl, hrest⟩

end

/-- **The bytes of a value can be told from what follows them.** -/
theorem hashBytes_on : On Sized hashBytes := fun v _ _ _ hv hw heq =>
  (bodyBytes_on v).hashBytes hv hw heq

end PropValue

/-! ## The order of strings -/

theorem leBytes_trans : ∀ {s t u : Bytes}, leBytes s t = true → leBytes t u = true →
    leBytes s u = true
  | [], _, _, _, _ => rfl
  | a :: s, b :: t, c :: u, hst, htu => by
    simp only [leBytes, Bool.or_eq_true, decide_eq_true_eq, Bool.and_eq_true, beq_iff_eq] at hst htu ⊢
    rcases hst with hab | ⟨rfl, hst⟩
    · rcases htu with hbc | ⟨rfl, -⟩
      · exact .inl (UInt8.lt_trans hab hbc)
      · exact .inl hab
    · rcases htu with hbc | ⟨rfl, htu⟩
      · exact .inl hbc
      · exact .inr ⟨rfl, leBytes_trans hst htu⟩

theorem leBytes_total : ∀ s t : Bytes, (leBytes s t || leBytes t s) = true
  | [], _ => rfl
  | _ :: _, [] => rfl
  | a :: s, b :: t => by
    have ih := leBytes_total s t
    simp only [leBytes, Bool.or_eq_true, decide_eq_true_eq, Bool.and_eq_true, beq_iff_eq] at ih ⊢
    rcases UInt8.lt_or_lt_of_ne (a := a) (b := b) with h
    by_cases hab : a = b
    · subst hab
      exact ih.imp (fun h => .inr ⟨rfl, h⟩) fun h => .inr ⟨rfl, h⟩
    · exact (h hab).imp .inl .inl

/-- Before the string of a single zero byte there is only the empty one. -/
theorem eq_of_leBytes_zero : ∀ {s : Bytes}, leBytes s [0] = true → s ≠ [] → s = [0]
  | [], _, hne => absurd rfl hne
  | a :: s, hle, _ => by
    simp only [leBytes, Bool.or_eq_true, decide_eq_true_eq, Bool.and_eq_true, beq_iff_eq] at hle
    rcases hle with hlt | ⟨rfl, hs⟩
    · exact absurd hlt (UInt8.not_lt_zero)
    · cases s with
      | nil => rfl
      | cons => cases hs

namespace CreatedNode

/-! ## Labels and properties -/

theorem entryBytes_on :
    On (fun p : Bytes × PropValue => p.1.length < 256 ^ 4 ∧ p.2.Sized) entryBytes :=
  PropValue.lenBytes_on.pair PropValue.hashBytes_on

theorem entryBytes_ne_nil (p : Bytes × PropValue) : entryBytes p ≠ [] := by
  simp [entryBytes, PropValue.lenBytes, bigEndian]

variable {s r name : Bytes} {v : PropValue} {labels labels' : List Bytes}
  {properties properties' : List (Bytes × PropValue)} {n m : CreatedNode}

/-- The length of a name is two zero bytes and two more. -/
theorem lenBytes_name (h : s.length ≤ 256) :
    PropValue.lenBytes s =
      0 :: 0 :: UInt8.ofNat (s.length / 256) :: UInt8.ofNat s.length :: s := by
  have h3 : s.length / 16777216 = 0 := by omega
  have h2 : s.length / 65536 = 0 := by omega
  simp [PropValue.lenBytes, bigEndian, h3, h2]

/-- A name as labels and keys have it. -/
def IsName (s : Bytes) : Prop := s ≠ [] ∧ s.length ≤ 256

/-- What the hash needs of a property. -/
def IsEntry (p : Bytes × PropValue) : Prop := IsName p.1 ∧ p.2.Sized

/-- The other reading of a property list: its first property is a label and `nil` is the first byte
of the length of a property named by a zero byte. -/
def RereadsLists (labels : List Bytes) (properties : List (Bytes × PropValue))
    (labels' : List Bytes) (properties' : List (Bytes × PropValue)) : Prop :=
  ∃ name v rest key v' rest', labels = labels' ++ [name] ∧ properties = ([0], v) :: rest ∧
    properties' = (name, .nil) :: (key, v') :: rest' ∧ key.length = 256 ∧
    v.hashBytes ++ rest.flatMap entryBytes = key ++ (v'.hashBytes ++ rest'.flatMap entryBytes)

/-- A length of a name, read one byte late, is the length of a key of 256 bytes, and the name is the
zero byte. -/
theorem late_length {t : Bytes} {u : Bytes} (hs : IsName s) (ht : IsName t)
    (heq : PropValue.lenBytes s ++ r = 0 :: (PropValue.lenBytes t ++ u)) :
    s = [0] ∧ t.length = 256 ∧ r = t ++ u := by
  rw [lenBytes_name hs.2, lenBytes_name ht.2] at heq
  simp only [cons_append, cons.injEq, true_and] at heq
  obtain ⟨hhigh, hlow, htail⟩ := heq
  have hpos : 0 < s.length := length_pos_of_ne_nil hs.1
  have hs2 := hs.2
  have ht2 := ht.2
  have hhigh : s.length / 256 % 256 = 0 := by simpa using congrArg UInt8.toNat hhigh
  have hlow : s.length % 256 = t.length / 256 % 256 := by simpa using congrArg UInt8.toNat hlow
  have hslen : s.length = 1 := by omega
  have htlen : t.length = 256 := by omega
  obtain ⟨c, rfl⟩ := length_eq_one_iff.mp hslen
  rw [htlen] at htail
  simp only [cons_append, nil_append, cons.injEq] at htail
  exact ⟨by rw [htail.1]; rfl, htlen, htail.2⟩

/-- The bytes of labels and properties are none, or begin with a name. -/
theorem suffixBytes_cases (labels : List Bytes) (properties : List (Bytes × PropValue)) :
    (labels = [] ∧ properties = []) ∨
      (∃ name rest, labels = name :: rest ∧ suffixBytes labels properties =
        PropValue.lenBytes name ++ suffixBytes rest properties) ∨
      ∃ key v rest, labels = [] ∧ properties = (key, v) :: rest ∧
        suffixBytes labels properties =
          PropValue.lenBytes key ++ (v.hashBytes ++ rest.flatMap entryBytes) := by
  cases labels with
  | cons name rest =>
    exact .inr (.inl ⟨name, rest, rfl, by simp [suffixBytes]⟩)
  | nil =>
    cases properties with
    | nil => exact .inl ⟨rfl, rfl⟩
    | cons p rest => exact .inr (.inr ⟨p.1, p.2, rest, rfl, rfl, by simp [suffixBytes, entryBytes]⟩)

/-- Only `nil` begins with a zero byte. -/
theorem eq_nil_of_hashBytes_zero (heq : v.hashBytes ++ r = 0 :: s) : v = .nil ∧ r = s := by
  simp only [PropValue.hashBytes, cons_append, cons.injEq] at heq
  have htag := TypeTag.byte_injective (t := v.propertyHashTypeTag) (u := .unknown) heq.1
  cases v with
  | nil => exact ⟨rfl, heq.2⟩
  | _ => cases htag

/-- A name where the other reading has a value. -/
theorem name_against_value {rest : List (Bytes × PropValue)} (hname : IsName name)
    (hrest : ∀ p ∈ rest, IsEntry p)
    (heq : PropValue.lenBytes name ++ r = v.hashBytes ++ rest.flatMap entryBytes) :
    v = .nil ∧ name = [0] ∧ ∃ key v' rest', rest = (key, v') :: rest' ∧ key.length = 256 ∧
      r = key ++ (v'.hashBytes ++ rest'.flatMap entryBytes) := by
  have hzero := heq
  rw [lenBytes_name hname.2, cons_append] at hzero
  obtain ⟨rfl, htail⟩ := eq_nil_of_hashBytes_zero hzero.symm
  cases rest with
  | nil => cases htail
  | cons p rest =>
    have hlate : PropValue.lenBytes name ++ r =
        0 :: (PropValue.lenBytes p.1 ++ (p.2.hashBytes ++ rest.flatMap entryBytes)) := by
      rw [heq, flatMap_cons, entryBytes, append_assoc]
      rfl
    obtain ⟨hzeroName, hlen, hr⟩ := late_length hname (hrest p mem_cons_self).1 hlate
    exact ⟨rfl, hzeroName, p.1, p.2, rest, rfl, hlen, hr⟩

/-- A label of the one against a property of the other. -/
theorem rereads_of_label (hname : IsName name) (hlabels : ∀ l ∈ labels, IsName l)
    (hp : ∀ p ∈ properties, IsEntry p) (hp' : ∀ p ∈ properties', IsEntry p)
    (hsorted : ∀ l ∈ labels, leBytes name l = true ∧ name ≠ l)
    (heq : PropValue.lenBytes name ++ suffixBytes labels properties = suffixBytes [] properties') :
    RereadsLists (name :: labels) properties [] properties' := by
  have hsize : ∀ {s : Bytes}, IsName s → s.length < 256 ^ 4 := fun h =>
    lt_of_le_of_lt h.2 (by decide)
  cases properties' with
  | nil =>
    cases heq
  | cons p' rest' =>
    obtain ⟨key, v'⟩ := p'
    simp only [suffixBytes, flatMap_nil, nil_append, flatMap_cons, entryBytes,
      append_assoc] at heq
    have hrest' : ∀ p ∈ rest', IsEntry p := fun p hp => hp' p (mem_cons_of_mem _ hp)
    obtain ⟨rfl, htail⟩ :=
      PropValue.lenBytes_on (hsize hname) (hsize (hp' _ mem_cons_self).1) heq
    change suffixBytes labels properties = v'.hashBytes ++ rest'.flatMap entryBytes at htail
    obtain ⟨rfl, rfl⟩ | ⟨next, labels', rfl, hnext⟩ | ⟨next, v, rest, rfl, rfl, hnext⟩ :=
      suffixBytes_cases labels properties
    · cases htail
    · -- the next label would be the zero byte, and nothing sorts before that
      rw [hnext] at htail
      obtain ⟨-, rfl, -⟩ := name_against_value (hlabels _ mem_cons_self) hrest' htail
      have hle := hsorted _ mem_cons_self
      exact absurd (eq_of_leBytes_zero hle.1 hname.1) hle.2
    · rw [hnext] at htail
      obtain ⟨rfl, rfl, key', w, rest'', rfl, hlen, hr⟩ :=
        name_against_value (hp _ mem_cons_self).1 hrest' htail
      exact ⟨name, v, rest, key', w, rest'', rfl, rfl, rfl, hlen, hr⟩

/-- **Equal bytes are read in one way or in two.** -/
theorem suffixBytes_eq (hl : ∀ l ∈ labels, IsName l) (hl' : ∀ l ∈ labels', IsName l)
    (hp : ∀ p ∈ properties, IsEntry p) (hp' : ∀ p ∈ properties', IsEntry p)
    (hs : labels.Pairwise fun l m => leBytes l m = true ∧ l ≠ m)
    (hs' : labels'.Pairwise fun l m => leBytes l m = true ∧ l ≠ m)
    (heq : suffixBytes labels properties = suffixBytes labels' properties') :
    (labels = labels' ∧ properties = properties') ∨
      RereadsLists labels properties labels' properties' ∨
      RereadsLists labels' properties' labels properties := by
  have hsize : ∀ {s : Bytes}, IsName s → s.length < 256 ^ 4 := fun h =>
    lt_of_le_of_lt h.2 (by decide)
  induction labels generalizing labels' with
  | nil =>
    cases labels' with
    | nil =>
      refine .inl ⟨rfl, entryBytes_on.flatMap_inj entryBytes_ne_nil
        (fun p h => ⟨hsize (hp p h).1, (hp p h).2⟩) (fun p h => ⟨hsize (hp' p h).1, (hp' p h).2⟩) ?_⟩
      simpa only [suffixBytes, flatMap_nil, nil_append] using heq
    | cons name labels' =>
      rw [pairwise_cons] at hs'
      refine .inr (.inr (rereads_of_label (hl' _ mem_cons_self)
        (fun l h => hl' l (mem_cons_of_mem _ h)) hp' hp hs'.1 ?_))
      rw [heq]
      simp only [suffixBytes, flatMap_cons, append_assoc]
  | cons name labels ih =>
    rw [pairwise_cons] at hs
    cases labels' with
    | nil =>
      refine .inr (.inl (rereads_of_label (hl _ mem_cons_self)
        (fun l h => hl l (mem_cons_of_mem _ h)) hp hp' hs.1 ?_))
      rw [← heq]
      simp only [suffixBytes, flatMap_cons, append_assoc]
    | cons name' labels' =>
      rw [pairwise_cons] at hs'
      simp only [suffixBytes, flatMap_cons, append_assoc] at heq
      obtain ⟨rfl, htail⟩ := PropValue.lenBytes_on (hsize (hl _ mem_cons_self))
        (hsize (hl' _ mem_cons_self)) heq
      have hrest := ih (fun l h => hl l (mem_cons_of_mem _ h))
        (fun l h => hl' l (mem_cons_of_mem _ h)) hs.2 hs'.2 htail
      refine hrest.imp (fun h => ⟨by rw [h.1], h.2⟩) (.imp ?_ ?_)
      · rintro ⟨n, v, r, k, w, q, rfl, h⟩
        exact ⟨n, v, r, k, w, q, rfl, h⟩
      · rintro ⟨n, v, r, k, w, q, rfl, h⟩
        exact ⟨n, v, r, k, w, q, rfl, h⟩

/-- Two readings of one byte string. -/
theorem RereadsLists.suffixBytes_eq (h : RereadsLists labels properties labels' properties') :
    suffixBytes labels properties = suffixBytes labels' properties' := by
  obtain ⟨name, v, rest, key, v', rest', rfl, rfl, rfl, hlen, heq⟩ := h
  have hkey : PropValue.lenBytes key = 0 :: 0 :: 1 :: 0 :: key := by
    rw [lenBytes_name (Nat.le_of_eq hlen), hlen]
    rfl
  simp only [suffixBytes, flatMap_append, flatMap_cons, flatMap_nil,
    append_nil, append_assoc, entryBytes, heq, hkey]
  rfl

/-! ## Nodes -/

theorem sortedLabels_perm (n : CreatedNode) : n.sortedLabels.Perm n.labels :=
  mergeSort_perm _ _

theorem sortedLabels_pairwise (n : CreatedNode) :
    n.sortedLabels.Pairwise fun l m => leBytes l m = true ∧ l ≠ m := by
  have hsorted : n.sortedLabels.Pairwise fun l m => leBytes l m = true :=
    pairwise_mergeSort (fun a b c => leBytes_trans (s := a) (t := b) (u := c)) leBytes_total _
  have hnodup : n.sortedLabels.Nodup := n.sortedLabels_perm.nodup_iff.mpr n.labels_nodup
  exact hsorted.and hnodup

theorem isName_of_mem_sortedLabels {l : Bytes} (h : l ∈ n.sortedLabels) : IsName l := by
  have hvalid := n.labels_valid l (n.sortedLabels_perm.mem_iff.mp h)
  simp only [validateName, Bool.and_eq_true, Bool.not_eq_true', decide_eq_true_eq] at hvalid
  refine ⟨?_, hvalid.2⟩
  rintro rfl
  exact absurd hvalid.1 (by decide)

theorem isName_of_key {p : Bytes × PropValue} (h : p ∈ n.properties) : IsName p.1 := by
  have hvalid := n.keys_valid p h
  simp only [validPropertyKey, Bool.and_eq_true, bne_iff_ne, ne_eq, decide_eq_true_eq] at hvalid
  exact ⟨hvalid.1.1, hvalid.1.2⟩

/-- No container of a property has the length that stands for `nil`. -/
def NoNilLength (n : CreatedNode) : Prop := ∀ p ∈ n.properties, p.2.Sized

/-- `m` is another reading of the bytes of `n`: one label more, and a property named by a zero
byte where `n` has a `nil` property before a key of 256 bytes. -/
def Rereads (m n : CreatedNode) : Prop :=
  m.id = n.id ∧ m.version = n.version ∧
    RereadsLists m.sortedLabels m.properties n.sortedLabels n.properties

/-- The pre-image is the ID, the version and the rest. -/
theorem preimage_eq : m.preimage = n.preimage ↔
    m.id = n.id ∧ m.version = n.version ∧ suffixBytes m.sortedLabels m.properties =
      suffixBytes n.sortedLabels n.properties := by
  constructor
  · intro h
    obtain ⟨hid, htail⟩ := bigEndian_on 8 m.id.isLt n.id.isLt h
    obtain ⟨hversion, hrest⟩ := bigEndian_on 4 m.version.isLt n.version.isLt htail
    exact ⟨BitVec.eq_of_toNat_eq hid, BitVec.eq_of_toNat_eq hversion, hrest⟩
  · rintro ⟨hid, hversion, hrest⟩
    rw [preimage, preimage, hid, hversion, hrest]

theorem Rereads.not_sameContent (h : m.Rereads n) : ¬ m.SameContent n := by
  obtain ⟨-, -, name, v, rest, key, v', rest', hlabels, -⟩ := h
  rintro ⟨-, -, hsame, -⟩
  have hmem : name ∈ n.sortedLabels := by
    rw [n.sortedLabels_perm.mem_iff, ← hsame, ← m.sortedLabels_perm.mem_iff, hlabels]
    exact mem_append_right _ mem_cons_self
  have hnodup : m.sortedLabels.Nodup := m.sortedLabels_perm.nodup_iff.mpr m.labels_nodup
  rw [hlabels, nodup_append] at hnodup
  exact hnodup.2.2 name hmem name mem_cons_self rfl

theorem SameContent.symm (h : m.SameContent n) : n.SameContent m :=
  ⟨h.1.symm, h.2.1.symm, fun l => (h.2.2.1 l).symm, h.2.2.2.symm⟩

/-- **When the pre-image determines the node.**  Two created nodes with equal pre-images are the
same in content, unless one of them is the other reading of the other's bytes; and then they never
are. -/
theorem preimage_determines_node_iff (m n : CreatedNode) (hm : m.NoNilLength)
    (hn : n.NoNilLength) :
    (m.preimage = n.preimage → m.SameContent n) ↔ ¬ m.Rereads n ∧ ¬ n.Rereads m := by
  constructor
  · intro h
    refine ⟨fun hr => ?_, fun hr => ?_⟩
    · exact hr.not_sameContent (h (preimage_eq.mpr ⟨hr.1, hr.2.1, hr.2.2.suffixBytes_eq⟩))
    · exact hr.not_sameContent
        (h (preimage_eq.mpr ⟨hr.1.symm, hr.2.1.symm, hr.2.2.suffixBytes_eq.symm⟩)).symm
  · rintro ⟨hmn, hnm⟩ heq
    obtain ⟨hid, hversion, hsuffix⟩ := preimage_eq.mp heq
    obtain ⟨hlabels, hprops⟩ | hr | hr := suffixBytes_eq (fun _ => isName_of_mem_sortedLabels)
      (fun _ => isName_of_mem_sortedLabels) (fun p h => ⟨isName_of_key h, hm p h⟩)
      (fun p h => ⟨isName_of_key h, hn p h⟩) m.sortedLabels_pairwise n.sortedLabels_pairwise hsuffix
    · refine ⟨hid, hversion, fun l => ?_, hprops⟩
      rw [← m.sortedLabels_perm.mem_iff, hlabels, n.sortedLabels_perm.mem_iff]
    · exact absurd ⟨hid, hversion, hr⟩ hmn
    · exact absurd ⟨hid.symm, hversion.symm, hr⟩ hnm

/-- Labels that are in order are not moved. -/
theorem sortedLabels_eq (h : n.labels.Pairwise fun l m => leBytes l m = true) :
    n.sortedLabels = n.labels :=
  mergeSort_of_pairwise h

/-- 251 letters and a zero byte. -/
def paddedText : Bytes := List.replicate 251 0x61 ++ [0]

/-- A node with the labels `"\x00"` and `"\x01"`, and a string under the key `"\x00"`. -/
def honestNode : CreatedNode where
  id := 7
  version := 0
  labels := [[0], [1]]
  properties := [([0], .string paddedText)]
  labels_ne_nil := nofun
  labels_valid := by decide
  labels_nodup := by decide
  keys_valid := by decide
  keys_sorted := List.pairwise_singleton _ _
  sized := by
    intro p hp
    rw [List.mem_singleton] at hp
    subst hp
    exact (by decide +kernel : paddedText.length < 256 ^ 4)

/-- A node with the label `"\x00"` alone and two `nil` properties, the second under a key of 256
bytes. -/
def forgedNode : CreatedNode where
  id := 7
  version := 0
  labels := [[0]]
  properties := [([1], .nil), (0x0E :: 0 :: 0 :: 0 :: 0xFC :: List.replicate 251 0x61, .nil)]
  labels_ne_nil := nofun
  labels_valid := by decide
  labels_nodup := by decide
  keys_valid := by decide +kernel
  keys_sorted := List.pairwise_pair.mpr ⟨by decide +kernel, by decide +kernel⟩
  sized := by
    intro p hp
    rcases List.mem_pair.mp hp with rfl | rfl <;> trivial

/-- Two nodes with different labels and properties and one pre-image. -/
theorem forged_nodes_same_preimage :
    honestNode.preimage = forgedNode.preimage ∧ ¬ honestNode.SameContent forgedNode := by
  refine ⟨preimage_eq.mpr ⟨rfl, rfl, ?_⟩, fun h => ?_⟩
  · rw [sortedLabels_eq (by decide), sortedLabels_eq (by decide)]
    decide +kernel
  · have hmem : ([1] : Bytes) ∈ forgedNode.labels := (h.2.2.1 [1]).mp (by decide)
    exact absurd hmem (by decide)

/-- The honest node against a renumbered copy of it. -/
theorem preimage_determines_node_version :
    honestNode.NoNilLength ∧ (honestNode.preimage = { honestNode with version := 1 }.preimage →
      honestNode.SameContent { honestNode with version := 1 }) := by
  have hsized : ∀ p ∈ honestNode.properties, p.2.Sized := by
    intro p hp
    rw [honestNode, mem_singleton] at hp
    subst hp
    exact (by decide +kernel : paddedText.length < 256 ^ 4)
  exact ⟨hsized, (preimage_determines_node_iff honestNode { honestNode with version := 1 } hsized
    hsized).mpr ⟨fun h => absurd h.2.1 (by decide), fun h => absurd h.2.1 (by decide)⟩⟩

end CreatedNode

/-! ## Relationships -/

/-- A relationship as `computeRelHashWithBuffer` reads it, its properties in key order. -/
@[ext] structure HashedRel where
  id : BitVec 64
  version : BitVec 32
  typeName : Bytes
  startNodeID : BitVec 64
  endNodeID : BitVec 64
  properties : List (Bytes × PropValue)
  typeName_sized : typeName.length < 256 ^ 4
  sized : ∀ p ∈ properties, p.1.length < 256 ^ 4 ∧ p.2.Sized

/-- The byte string `computeRelHashWithBuffer` hashes. -/
def HashedRel.preimage (r : HashedRel) : Bytes :=
  bigEndian 8 r.id.toNat ++ (bigEndian 4 r.version.toNat ++ (PropValue.lenBytes r.typeName ++
    (bigEndian 8 r.startNodeID.toNat ++ (bigEndian 8 r.endNodeID.toNat ++
      r.properties.flatMap CreatedNode.entryBytes))))

/-- **The hash of a relationship covers it.**  The bytes of a value can be told from what follows
them, and the type name is behind its length, so the pre-image has one reading. -/
theorem preimage_determines_rel : On PropValue.Sized PropValue.hashBytes ∧
    ∀ r s : HashedRel, r.preimage = s.preimage ↔ r = s := by
  refine ⟨PropValue.hashBytes_on, fun r s => ⟨fun h => ?_, fun h => by rw [h]⟩⟩
  obtain ⟨hid, h⟩ := bigEndian_on 8 r.id.isLt s.id.isLt h
  obtain ⟨hversion, h⟩ := bigEndian_on 4 r.version.isLt s.version.isLt h
  obtain ⟨hname, h⟩ := PropValue.lenBytes_on r.typeName_sized s.typeName_sized h
  obtain ⟨hstart, h⟩ := bigEndian_on 8 r.startNodeID.isLt s.startNodeID.isLt h
  obtain ⟨hend, h⟩ := bigEndian_on 8 r.endNodeID.isLt s.endNodeID.isLt h
  have hproperties := CreatedNode.entryBytes_on.flatMap_inj CreatedNode.entryBytes_ne_nil r.sized
    s.sized h
  exact HashedRel.ext (BitVec.eq_of_toNat_eq hid) (BitVec.eq_of_toNat_eq hversion) hname
    (BitVec.eq_of_toNat_eq hstart) (BitVec.eq_of_toNat_eq hend) hproperties

end RhoTkg
