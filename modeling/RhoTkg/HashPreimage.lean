import RhoTkg.Library.PrefixCode
import Mathlib.Data.List.Sort
import Mathlib.Data.List.Nodup

/-!
# What a node's content hash covers

`computeNodeHashWithBuffer` hashes a byte string: the ID, the version, the labels in order, each
behind its length, and the properties in key order, each key behind its length and each value behind
a type tag.  Strings are Go strings, sequences of bytes.  The model keeps every kind of value the
create doors accept; a slice or map that is `nil` is kept apart from an empty one, as the source
keeps them apart by the length `^uint32(0)`.

A map value stands for its entries in key order, the order in which the hash reads them, and a
registered struct for what the hash reads of it: its wire name, whether it is a pointer, and its
`HashBytes`.
-/

namespace RhoTkg

open PrefixCode (Bytes bigEndian)

/-! ## Values -/

/-- The kinds of values of a fixed width. -/
inductive ScalarKind where
  | bool | int | int8 | int16 | int32 | int64 | uint | uint8 | uint16 | uint32 | uint64
  | float32 | float64
deriving DecidableEq, Repr

/-- The bits of a value of the kind; a float's are its IEEE-754 pattern. -/
def ScalarKind.width : ScalarKind → ℕ
  | .bool => 1
  | .int8 | .uint8 => 8
  | .int16 | .uint16 => 16
  | .int32 | .uint32 | .float32 => 32
  | .int | .int64 | .uint | .uint64 | .float64 => 64

/-- The bytes of a value of the kind. -/
def ScalarKind.size : ScalarKind → ℕ
  | .bool | .int8 | .uint8 => 1
  | .int16 | .uint16 => 2
  | .int32 | .uint32 | .float32 => 4
  | .int | .int64 | .uint | .uint64 | .float64 => 8

/-- The slices whose elements have a fixed width. -/
inductive SliceKind where
  | int | int64 | float32 | float64 | byte | bool
deriving DecidableEq, Repr

/-- The kind of the elements. -/
def SliceKind.elem : SliceKind → ScalarKind
  | .int => .int
  | .int64 => .int64
  | .float32 => .float32
  | .float64 => .float64
  | .byte => .uint8
  | .bool => .bool

/-- The kinds of slices and maps. -/
inductive ContainerKind where
  | sliceStr | slice (k : SliceKind) | sliceAny | mapStrAny | mapStrStr
deriving DecidableEq, Repr

/-- The type tags of property hashing. -/
inductive TypeTag where
  | unknown | scalar (k : ScalarKind) | string | container (k : ContainerKind) | custom | temporal
deriving DecidableEq, Repr

/-- The constants `propertyHashType…`. -/
def TypeTag.byte : TypeTag → UInt8
  | .unknown => 0
  | .scalar .bool => 1
  | .scalar .int => 2
  | .scalar .int8 => 3
  | .scalar .int16 => 4
  | .scalar .int32 => 5
  | .scalar .int64 => 6
  | .scalar .uint => 7
  | .scalar .uint8 => 8
  | .scalar .uint16 => 9
  | .scalar .uint32 => 10
  | .scalar .uint64 => 11
  | .scalar .float32 => 12
  | .scalar .float64 => 13
  | .string => 14
  | .container .sliceStr => 15
  | .container (.slice .int) => 16
  | .container (.slice .int64) => 17
  | .container (.slice .float64) => 18
  | .container (.slice .byte) => 19
  | .container (.slice .bool) => 20
  | .container .sliceAny => 21
  | .container .mapStrAny => 22
  | .container .mapStrStr => 23
  | .container (.slice .float32) => 24
  | .custom => 25
  | .temporal => 26

/-- The property values the create doors accept. -/
inductive PropValue where
  | nil
  | scalar (k : ScalarKind) (bits : BitVec k.width)
  | string (s : Bytes)
  | temporal (kind : UInt8) (value : Bytes)
  | nilContainer (k : ContainerKind)
  | sliceStr (vs : List Bytes)
  | slice (k : SliceKind) (vs : List (BitVec k.elem.width))
  | sliceAny (vs : List PropValue)
  | mapStrAny (kvs : List (Bytes × PropValue))
  | mapStrStr (kvs : List (Bytes × Bytes))
  | custom (typeName : Bytes) (pointer : Bool) (hashBytes : Bytes)

namespace PropValue

/-- `PropertyHashTypeTag`.  A `nil` value has the tag of an unknown type. -/
def propertyHashTypeTag : PropValue → TypeTag
  | .nil => .unknown
  | .scalar k _ => .scalar k
  | .string _ => .string
  | .temporal _ _ => .temporal
  | .nilContainer k => .container k
  | .sliceStr _ => .container .sliceStr
  | .slice k _ => .container (.slice k)
  | .sliceAny _ => .container .sliceAny
  | .mapStrAny _ => .container .mapStrAny
  | .mapStrStr _ => .container .mapStrStr
  | .custom _ _ _ => .custom

/-- A string behind its length. -/
def lenBytes (s : Bytes) : Bytes := bigEndian 4 s.length ++ s

/-- A value of a fixed width. -/
def scalarBytes (k : ScalarKind) (bits : BitVec k.width) : Bytes := bigEndian k.size bits.toNat

/-- An entry of a `map[string]string`. -/
def strEntryBytes (kv : Bytes × Bytes) : Bytes := lenBytes kv.1 ++ lenBytes kv.2

/-- `propertyHashNilContainerLen`. -/
def propertyHashNilContainerLen : ℕ := 4294967295

mutual

/-- `appendPropertyValueHashBytes`, after the tag. -/
def bodyBytes : PropValue → Bytes
  | .nil => []
  | .scalar k bits => scalarBytes k bits
  | .string s => lenBytes s
  | .temporal kind value => kind :: lenBytes value
  | .nilContainer _ => bigEndian 4 propertyHashNilContainerLen
  | .sliceStr vs => bigEndian 4 vs.length ++ vs.flatMap lenBytes
  | .slice k vs => bigEndian 4 vs.length ++ vs.flatMap (scalarBytes k.elem)
  | .sliceAny vs => bigEndian 4 vs.length ++ elemsBytes vs
  | .mapStrAny kvs => bigEndian 4 kvs.length ++ entriesBytes kvs
  | .mapStrStr kvs => bigEndian 4 kvs.length ++ kvs.flatMap strEntryBytes
  | .custom typeName pointer hashBytes =>
    lenBytes typeName ++ (if pointer then 1 else 0) :: lenBytes hashBytes

/-- The elements of a `[]any`. -/
def elemsBytes : List PropValue → Bytes
  | [] => []
  | v :: vs => v.propertyHashTypeTag.byte :: bodyBytes v ++ elemsBytes vs

/-- The entries of a `map[string]any`. -/
def entriesBytes : List (Bytes × PropValue) → Bytes
  | [] => []
  | (key, v) :: kvs =>
    lenBytes key ++ (v.propertyHashTypeTag.byte :: bodyBytes v) ++ entriesBytes kvs

end

/-- `appendPropertyValueHashBytes`. -/
def hashBytes (v : PropValue) : Bytes := v.propertyHashTypeTag.byte :: v.bodyBytes

mutual

/-- Every string of the value is shorter than `2 ^ 32` bytes and every container has fewer than `n`
elements. -/
def SizedBelow (n : ℕ) : PropValue → Prop
  | .nil | .scalar _ _ | .nilContainer _ => True
  | .string s => s.length < 256 ^ 4
  | .temporal _ value => value.length < 256 ^ 4
  | .sliceStr vs => vs.length < n ∧ ∀ s ∈ vs, s.length < 256 ^ 4
  | .slice _ vs => vs.length < n
  | .sliceAny vs => vs.length < n ∧ ElemsSizedBelow n vs
  | .mapStrAny kvs => kvs.length < n ∧ EntriesSizedBelow n kvs
  | .mapStrStr kvs => kvs.length < n ∧ ∀ kv ∈ kvs, kv.1.length < 256 ^ 4 ∧ kv.2.length < 256 ^ 4
  | .custom typeName _ hashBytes => typeName.length < 256 ^ 4 ∧ hashBytes.length < 256 ^ 4

/-- Every element is sized. -/
def ElemsSizedBelow (n : ℕ) : List PropValue → Prop
  | [] => True
  | v :: vs => SizedBelow n v ∧ ElemsSizedBelow n vs

/-- Every entry is sized. -/
def EntriesSizedBelow (n : ℕ) : List (Bytes × PropValue) → Prop
  | [] => True
  | (key, v) :: kvs => (key.length < 256 ^ 4 ∧ SizedBelow n v) ∧ EntriesSizedBelow n kvs

end

/-- No container has as many elements as stand for `nil`. -/
abbrev Sized (v : PropValue) : Prop := v.SizedBelow propertyHashNilContainerLen

end PropValue

/-! ## Names -/

/-- The order of Go strings, byte by byte. -/
def leBytes : Bytes → Bytes → Bool
  | [], _ => true
  | _ :: _, [] => false
  | a :: s, b :: t => a < b || (a == b && leBytes s t)

/-- `isBlankName`.  Past ASCII the runes that `unicode.IsSpace` knows are listed by their UTF-8
bytes; every other rune, and an invalid byte, makes the name non-blank. -/
def isBlankName : Bytes → Bool
  | [] => true
  | 0xC2 :: d :: rest => (d == 0x85 || d == 0xA0) && isBlankName rest
  | 0xE1 :: 0x9A :: 0x80 :: rest => isBlankName rest
  | 0xE2 :: 0x80 :: d :: rest =>
    ((0x80 ≤ d && d ≤ 0x8A) || d == 0xA8 || d == 0xA9 || d == 0xAF) && isBlankName rest
  | 0xE2 :: 0x81 :: 0x9F :: rest => isBlankName rest
  | 0xE3 :: 0x80 :: 0x80 :: rest => isBlankName rest
  | c :: rest => (c == 0x20 || (9 ≤ c && c ≤ 13)) && isBlankName rest

/-- `validateName` with the default `MaxNameLength`. -/
def validateName (name : Bytes) : Bool := !isBlankName name && name.length ≤ 256

/-- The keys `NewPropertySlice` takes, with the default `MaxPropertyKeyLength`: not empty, and not
of the reserved `tkg_` family. -/
def validPropertyKey (key : Bytes) : Bool :=
  key != [] && key.length ≤ 256 && key.take 4 != [0x74, 0x6B, 0x67, 0x5F]

/-! ## Nodes -/

/-- A node as a create door builds it: the labels in any order, each once, and the properties in
key order. -/
structure CreatedNode where
  id : BitVec 64
  version : BitVec 32
  labels : List Bytes
  properties : List (Bytes × PropValue)
  labels_ne_nil : labels ≠ []
  labels_valid : ∀ l ∈ labels, validateName l = true
  labels_nodup : labels.Nodup
  keys_valid : ∀ p ∈ properties, validPropertyKey p.1 = true
  keys_sorted : properties.Pairwise fun p q => leBytes p.1 q.1 = true ∧ p.1 ≠ q.1
  sized : ∀ p ∈ properties, p.2.SizedBelow (256 ^ 4)

namespace CreatedNode

/-- `sort.Strings` of the labels; sorting fewer than two, which the source skips, changes
nothing. -/
def sortedLabels (n : CreatedNode) : List Bytes := n.labels.mergeSort leBytes

/-- One property of `PropertySlice.AppendHashBytes`. -/
def entryBytes (p : Bytes × PropValue) : Bytes := PropValue.lenBytes p.1 ++ p.2.hashBytes

/-- The labels, then the properties. -/
def suffixBytes (labels : List Bytes) (properties : List (Bytes × PropValue)) : Bytes :=
  labels.flatMap PropValue.lenBytes ++ properties.flatMap entryBytes

/-- The byte string `computeNodeHashWithBuffer` hashes. -/
def preimage (n : CreatedNode) : Bytes :=
  bigEndian 8 n.id.toNat ++ (bigEndian 4 n.version.toNat ++ suffixBytes n.sortedLabels n.properties)

/-- What a content hash is to tell apart: the ID, the version, the label set and the properties. -/
def SameContent (m n : CreatedNode) : Prop :=
  m.id = n.id ∧ m.version = n.version ∧ (∀ l, l ∈ m.labels ↔ l ∈ n.labels) ∧
    m.properties = n.properties

end CreatedNode

end RhoTkg
