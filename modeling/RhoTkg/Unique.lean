import RhoTkg.Writes
import Mathlib.Data.List.Basic

/-!
# Unique constraints: values and the enforcement kernel

A unique constraint on a label and a property key forbids two current nodes that carry the label and
equal values of the key.  Values are compared by their index keys; an integer of any width has one
canonical key, so `int(3)` and `int64(3)` are one value.  Floats are refused on a constrained key.

The kernel collects the constrained values of the row a door has built, drops those the door leaves as
they were, and asks for each of the others whether it may be bound (`judge`): the lookup of the current
holders, and for a `UniqueForever` constraint the owner of the value.  `enforceUniqueForNode` judges the
row of a single-row door, `enforceUniqueForCascade` the rows of a cascade, of which only the row that
takes the current slot is bound by a `UniqueCurrent` constraint.

Of a float only what the checks ask is kept: the integer it equals, if any, and otherwise the digits of
its key.  The value stripes serialise writers of one value and are left out: a call is one step.
-/

namespace RhoTkg

open List

/-! ## Values and their keys -/

/-- The integer types of Go. -/
inductive IntKind where
  | int | int8 | int16 | int32 | int64 | uint | uint8 | uint16 | uint32 | uint64
deriving DecidableEq, Repr

namespace IntKind

/-- The integer types in the order of `appendSignedWidths` and `appendUnsignedWidths`. -/
def all : List IntKind := [int64, int, int32, int16, int8, uint64, uint, uint32, uint16, uint8]

/-- The least value of the type. -/
def minValue : IntKind → Int
  | int8 => -2 ^ 7
  | int16 => -2 ^ 15
  | int32 => -2 ^ 31
  | int | int64 => -2 ^ 63
  | _ => 0

/-- The greatest value of the type. -/
def maxValue : IntKind → Int
  | int8 => 2 ^ 7 - 1
  | int16 => 2 ^ 15 - 1
  | int32 => 2 ^ 31 - 1
  | int | int64 => 2 ^ 63 - 1
  | uint8 => 2 ^ 8 - 1
  | uint16 => 2 ^ 16 - 1
  | uint32 => 2 ^ 32 - 1
  | uint | uint64 => 2 ^ 64 - 1

/-- The type holds the integer. -/
def holds (k : IntKind) (n : Int) : Bool := decide (k.minValue ≤ n) && decide (n ≤ k.maxValue)

theorem mem_all (k : IntKind) : k ∈ all := by cases k <;> decide

end IntKind

/-- An integer of some width. -/
structure IntValue where
  kind : IntKind
  val : Int
  holds : kind.holds val = true
deriving DecidableEq, Repr

/-- What is kept of a float: the integer it equals, else the digits of its key. -/
inductive FloatValue where
  | integral (n : Int)
  | other (digits : String)
deriving DecidableEq, Repr

/-- A property value.  `composite` is a slice, a map or a struct. -/
inductive Value where
  | string (s : String)
  | temporal (kind : Nat) (s : String)
  | int (i : IntValue)
  | float (single : Bool) (f : FloatValue)
  | bool (b : Bool)
  | composite (tag : Nat)
deriving DecidableEq, Repr

/-- The index keys, by the prefix that names their type. -/
inductive IndexKey where
  | string (s : String)
  | temporal (kind : Nat) (s : String)
  | int (kind : IntKind) (n : Int)
  | float (single : Bool) (f : FloatValue)
  | bool (b : Bool)
deriving DecidableEq, Repr

/-- `IndexablePropertyValueKey`, `none` for the empty key. -/
def indexablePropertyValueKey : Value → Option IndexKey
  | .string s => some (.string s)
  | .temporal kind s => some (.temporal kind s)
  | .int i => some (.int i.kind i.val)
  | .float single f => some (.float single f)
  | .bool b => some (.bool b)
  | .composite _ => none

/-- `CanonicalIndexKey`: one key for the equal integers of all widths. -/
def canonicalIndexKey : IndexKey → IndexKey
  | .int _ n => .int (if n ≤ maxInt64 then .int64 else .uint64) n
  | key => key

/-- `isFloatValueKey`. -/
def isFloatValueKey : IndexKey → Bool
  | .float .. => true
  | _ => false

/-- The keys of an integer in every width that holds it. -/
def intKeys (n : Int) : List IndexKey :=
  (IntKind.all.filter fun k => k.holds n).map fun k => .int k n

/-- `EqualIndexKeys`: the keys a value equal to `v` can be stored under. -/
def equalIndexKeys : Value → List IndexKey
  | .int i => intKeys i.val ++ [.float false (.integral i.val), .float true (.integral i.val)]
  | .float _ (.other "nan") => []
  | .float _ (.integral n) => [.float false (.integral n), .float true (.integral n)] ++ intKeys n
  | .float _ f => [.float false f, .float true f]
  | v => (indexablePropertyValueKey v).toList

/-- Equality of the values a unique constraint compares: integers by value, the other scalars as they
are.  Floats are refused, and lists and maps are not compared. -/
def Value.Equal : Value → Value → Prop
  | .int i, .int j => i.val = j.val
  | .string s, .string t => s = t
  | .temporal k s, .temporal l t => k = l ∧ s = t
  | .bool b, .bool c => b = c
  | _, _ => False

/-- The canonical key of a value. -/
def Value.uniqueKey (v : Value) : Option IndexKey :=
  (indexablePropertyValueKey v).map canonicalIndexKey

variable {v w : Value} {k : IndexKey} {c : UniqueConstraint} {row : Row Value}

/-- Equal values have one key, and it is no float's. -/
theorem Value.Equal.uniqueKey (h : v.Equal w) :
    ∃ k, v.uniqueKey = some k ∧ w.uniqueKey = some k ∧ isFloatValueKey k = false := by
  cases v <;> cases w <;> simp only [Value.Equal] at h
  · exact ⟨_, rfl, by rw [h]; rfl, rfl⟩
  · exact ⟨_, rfl, by rw [h.1, h.2]; rfl, rfl⟩
  · refine ⟨_, rfl, ?_, rfl⟩
    simp only [Value.uniqueKey, indexablePropertyValueKey, Option.map_some, canonicalIndexKey, h]
  · exact ⟨_, rfl, by rw [h]; rfl, rfl⟩

/-- A value with the canonical key of `v` is found under one of the keys of `v`. -/
theorem mem_equalIndexKeys (hv : v.uniqueKey = some k) (hw : w.uniqueKey = some k)
    (hfloat : isFloatValueKey k = false) :
    ∃ key, indexablePropertyValueKey w = some key ∧ key ∈ equalIndexKeys v := by
  cases v <;> cases w <;>
    simp only [Value.uniqueKey, indexablePropertyValueKey, Option.map_some, Option.map_none,
      canonicalIndexKey, Option.some.injEq, reduceCtorEq] at hv hw <;> subst hv <;>
    simp only [reduceCtorEq, IndexKey.string.injEq, IndexKey.temporal.injEq, IndexKey.bool.injEq,
      IndexKey.int.injEq, isFloatValueKey] at hw hfloat
  · exact ⟨_, rfl, by rw [hw]; exact mem_cons_self⟩
  · exact ⟨_, rfl, by rw [hw.1, hw.2]; exact mem_cons_self⟩
  · rename_i i j
    refine ⟨_, rfl, mem_append_left _ (mem_map.mpr ⟨j.kind, ?_, by rw [hw.2]⟩)⟩
    rw [mem_filter]
    exact ⟨IntKind.mem_all _, by rw [← hw.2]; exact j.holds⟩
  · exact ⟨_, rfl, by rw [hw]; exact mem_cons_self⟩

/-! ## Constraints and the values a row binds -/

/-- `constraints.UniqueScope`. -/
inductive UniqueScope where
  | current
  | forever
deriving DecidableEq, Repr

/-- An active constraint of the registry: the label's token, the property key and the scope. -/
structure UniqueConstraint where
  label : Nat
  key : Nat
  scope : UniqueScope
deriving DecidableEq, Repr

/-- The errors of the kernel: `ErrUniqueUnsupportedType`, `ErrUniqueViolation` with the node that holds
or owns the value. -/
inductive UniqueError where
  | unsupportedType
  | violation (winner : Nat)
deriving DecidableEq, Repr

/-- `uniqueValueKey` of a row. -/
def uniqueValueKey (r : Row Value) (key : Nat) : Option IndexKey :=
  (propertyValue r.properties key).bind Value.uniqueKey

/-- The value key a row binds under a label. -/
def Row.binds (r : Row Value) (label key : Nat) : Option IndexKey :=
  if r.labels.contains label then uniqueValueKey r key else none

/-- `uniqueCheckTuple`. -/
structure UniqueCheck where
  label : Nat
  key : Nat
  raw : Value
  valueKey : IndexKey
  scope : UniqueScope
  unchanged : Bool
deriving DecidableEq, Repr

/-- `unchangedConstrainedValue`: the row before the write had the label and the value in the same
width. -/
def unchangedConstrainedValue (prev : Option (Row Value)) (node : Row Value) (label key : Nat) : Bool :=
  prev.any fun p => p.labels.contains label &&
    ((propertyValue p.properties key).bind indexablePropertyValueKey).any fun prevKey =>
      (propertyValue node.properties key).bind indexablePropertyValueKey == some prevKey

/-- The tuple of one label and constraint, when the row has an indexable value there. -/
def uniqueCheckOf (row : Row Value) (label : Nat) (c : UniqueConstraint) (unchanged : Bool) :
    Option UniqueCheck :=
  (propertyValue row.properties c.key).bind fun raw =>
    raw.uniqueKey.map fun valueKey => ⟨label, c.key, raw, valueKey, c.scope, unchanged⟩

theorem uniqueCheckOf_eq_some {label : Nat} {b : Bool} {ck : UniqueCheck}
    (h : uniqueCheckOf row label c b = some ck) :
    ck.label = label ∧ ck.key = c.key ∧ ck.raw.uniqueKey = some ck.valueKey ∧
      uniqueValueKey row c.key = some ck.valueKey ∧ ck.scope = c.scope ∧ ck.unchanged = b := by
  obtain ⟨raw, hraw, h⟩ := Option.bind_eq_some_iff.mp h
  obtain ⟨valueKey, hkey, rfl⟩ := Option.map_eq_some_iff.mp h
  exact ⟨rfl, rfl, hkey, by rw [uniqueValueKey, hraw]; exact hkey, rfl, rfl⟩

theorem uniqueCheckOf_of_valueKey (h : uniqueValueKey row c.key = some k) (label : Nat) (b : Bool) :
    ∃ ck, uniqueCheckOf row label c b = some ck ∧ ck.valueKey = k := by
  obtain ⟨raw, hraw, hkey⟩ := Option.bind_eq_some_iff.mp h
  exact ⟨⟨label, c.key, raw, k, c.scope, b⟩, by simp [uniqueCheckOf, hraw, hkey], rfl⟩

section Kernel

variable (reg : List UniqueConstraint) (judge : UniqueCheck → Option UniqueError)

/-! ## The kernel of the single-row doors -/

/-- The constrained values the row binds. -/
def uniqueChecks (node : Row Value) (prev : Option (Row Value)) : List UniqueCheck :=
  node.labels.flatMap fun label => (reg.filter (·.label == label)).filterMap fun c =>
    uniqueCheckOf node label c (unchangedConstrainedValue prev node label c.key)

/-- The first pass of a check: a float is refused, and every value but an unchanged one is judged. -/
def judgeAll (checks : List UniqueCheck) : Except UniqueError (List UniqueCheck) :=
  if checks.any fun ck => isFloatValueKey ck.valueKey then .error .unsupportedType
  else
    match checks.findSome? fun ck => if ck.unchanged then none else judge ck with
    | some e => .error e
    | none => .ok checks

/-- `enforceUniqueForNodeHeld` up to the claims: the checks that passed. -/
def enforceUniqueForNode (node : Row Value) (prev : Option (Row Value)) :
    Except UniqueError (List UniqueCheck) :=
  judgeAll judge (uniqueChecks reg node prev)

/-! ## The kernel of the cascades -/

/-- What `enforceUniqueForCascade` is given: the row in the current slot, the built rows, the one that
takes the slot, the end of the interval, the patch and the label a label change adds. -/
structure CascadeRows where
  current : Row Value
  appended : List (Row Value)
  newCurrent : Option (Row Value)
  newVT : Int
  patch : Patch Value
  addedLabel : Option Nat

/-- The write gives the current slot a value it did not have. -/
def CascadeRows.changesCurrent (rows : CascadeRows) (row : Row Value) (label key : Nat) : Bool :=
  rows.newCurrent == some row &&
    (uniqueValueKey row key != uniqueValueKey rows.current key ||
      (rows.addedLabel == some label && !rows.current.labels.contains label))

/-- The write names the value: the patch does, or the added label binds it, on a row of the corrected
interval. -/
def CascadeRows.patched (a : ValidAxis) (rows : CascadeRows) (row : Row Value) (label key : Nat) : Bool :=
  (a.isOpen rows.newVT || row.temporal.any fun tm => decide (tm.validFrom < rows.newVT)) &&
    ((rows.patch.any fun u => u.1 == key && u.2.isSome) || rows.addedLabel == some label)

/-- The values of a cascade that are judged: those that change the current slot, and those the write
names under a `UniqueForever` constraint.  A float the write names is judged, so that it is refused. -/
def cascadeChecks (a : ValidAxis) (rows : CascadeRows) : List UniqueCheck :=
  rows.appended.flatMap fun row => row.labels.flatMap fun label =>
    (reg.filter (·.label == label)).filterMap fun c =>
      (uniqueCheckOf row label c false).filter fun ck =>
        rows.changesCurrent row label c.key ||
          (rows.patched a row label c.key && (isFloatValueKey ck.valueKey || c.scope == .forever))

/-- `enforceUniqueForCascade` up to the claims. -/
def enforceUniqueForCascade (a : ValidAxis) (rows : CascadeRows) :
    Except UniqueError (List UniqueCheck) :=
  judgeAll judge (cascadeChecks reg a rows)

/-! ## What a passed check says -/

variable {reg judge}

variable {checks cks : List UniqueCheck} {node row : Row Value} {prev : Option (Row Value)}
  {a : ValidAxis} {rows : CascadeRows} {c : UniqueConstraint} {k : IndexKey}

theorem judgeAll_ok (h : judgeAll judge checks = .ok cks) :
    cks = checks ∧ (∀ ck ∈ checks, isFloatValueKey ck.valueKey = false) ∧
      ∀ ck ∈ checks, ck.unchanged = false → judge ck = none := by
  unfold judgeAll at h
  split at h
  · cases h
  · rename_i hfloat
    split at h
    · cases h
    · rename_i hnone
      cases h
      refine ⟨rfl, fun ck hck => ?_, fun ck hck hun => ?_⟩
      · simp only [any_eq_true, not_exists, not_and, Bool.not_eq_true] at hfloat
        exact hfloat ck hck
      · have := findSome?_eq_none_iff.mp hnone ck hck
        simpa [hun] using this

/-- What a passed check says of one of its values. -/
structure Checked (reg : List UniqueConstraint) (judge : UniqueCheck → Option UniqueError)
    (ck : UniqueCheck) : Prop where
  constraint : ∃ c ∈ reg, ck.label = c.label ∧ ck.key = c.key ∧ ck.scope = c.scope
  raw : ck.raw.uniqueKey = some ck.valueKey
  float : isFloatValueKey ck.valueKey = false
  judged : ck.unchanged = false → judge ck = none

theorem checked_of_judgeAll (h : judgeAll judge checks = .ok cks)
    (hof : ∀ ck ∈ checks, ∃ c ∈ reg, ∃ row b, uniqueCheckOf row c.label c b = some ck) :
    ∀ ck ∈ cks, Checked reg judge ck := by
  obtain ⟨rfl, hfloat, hjudge⟩ := judgeAll_ok h
  intro ck hck
  obtain ⟨c, hc, row, b, hck'⟩ := hof ck hck
  obtain ⟨h1, h2, h3, -, h5, -⟩ := uniqueCheckOf_eq_some hck'
  exact ⟨⟨c, hc, h1, h2, h5⟩, h3, hfloat ck hck, hjudge ck hck⟩

theorem checked_of_enforceUniqueForNode (h : enforceUniqueForNode reg judge node prev = .ok cks) :
    ∀ ck ∈ cks, Checked reg judge ck := by
  refine checked_of_judgeAll h fun ck hck => ?_
  obtain ⟨label, -, hck⟩ := mem_flatMap.mp hck
  obtain ⟨c, hc, hck⟩ := mem_filterMap.mp hck
  obtain ⟨hc, hlabel⟩ := mem_filter.mp hc
  rw [← beq_iff_eq.mp hlabel] at hck
  exact ⟨c, hc, node, _, hck⟩

theorem checked_of_enforceUniqueForCascade
    (h : enforceUniqueForCascade reg judge a rows = .ok cks) :
    ∀ ck ∈ cks, Checked reg judge ck := by
  refine checked_of_judgeAll h fun ck hck => ?_
  obtain ⟨row, -, hck⟩ := mem_flatMap.mp hck
  obtain ⟨label, -, hck⟩ := mem_flatMap.mp hck
  obtain ⟨c, hc, hck⟩ := mem_filterMap.mp hck
  obtain ⟨hc, hlabel⟩ := mem_filter.mp hc
  rw [← beq_iff_eq.mp hlabel] at hck
  exact ⟨c, hc, row, false, (Option.filter_eq_some_iff.mp hck).1⟩

/-- An unchanged value was bound before. -/
theorem binds_of_unchanged {label key : Nat}
    (h : unchangedConstrainedValue prev node label key = true) :
    ∃ p, prev = some p ∧ p.binds label key = uniqueValueKey node key := by
  obtain ⟨p, hp, h⟩ := (Option.any_eq_true _ _).mp h
  rw [Bool.and_eq_true] at h
  obtain ⟨hlabel, h⟩ := h
  obtain ⟨prevKey, hprev, hkey⟩ := (Option.any_eq_true _ _).mp h
  rw [beq_iff_eq] at hkey
  refine ⟨p, hp, ?_⟩
  rw [Row.binds, if_pos hlabel, uniqueValueKey, uniqueValueKey]
  obtain ⟨v, hv, hvk⟩ := Option.bind_eq_some_iff.mp hprev
  obtain ⟨w, hw, hwk⟩ := Option.bind_eq_some_iff.mp hkey
  rw [hv, hw]
  simp only [Option.bind_some, Value.uniqueKey, hvk, hwk]

/-- Every value the row binds was bound before, or was judged. -/
theorem enforceUniqueForNode_ok (h : enforceUniqueForNode reg judge node prev = .ok cks)
    (hc : c ∈ reg) (hk : node.binds c.label c.key = some k) :
    (∃ p, prev = some p ∧ p.binds c.label c.key = some k) ∨
      ∃ ck ∈ cks, ck.label = c.label ∧ ck.key = c.key ∧ ck.raw.uniqueKey = some k ∧
        ck.valueKey = k ∧ ck.scope = c.scope ∧ ck.unchanged = false ∧ judge ck = none := by
  rw [Row.binds] at hk
  split at hk
  swap
  · cases hk
  rename_i hlabel
  obtain ⟨rfl, -, hjudge⟩ := judgeAll_ok h
  obtain ⟨ck, hck, rfl⟩ := uniqueCheckOf_of_valueKey hk c.label
    (unchangedConstrainedValue prev node c.label c.key)
  obtain ⟨h1, h2, h3, h4, h5, h6⟩ := uniqueCheckOf_eq_some hck
  by_cases hun : unchangedConstrainedValue prev node c.label c.key = true
  · obtain ⟨p, hp, hbinds⟩ := binds_of_unchanged hun
    exact .inl ⟨p, hp, hbinds.trans hk⟩
  · rw [Bool.not_eq_true] at hun
    have hmem : ck ∈ uniqueChecks reg node prev := by
      refine mem_flatMap.mpr ⟨c.label, contains_iff_mem.mp hlabel, ?_⟩
      exact mem_filterMap.mpr ⟨c, mem_filter.mpr ⟨hc, beq_self_eq_true _⟩, hck⟩
    rw [hun] at h6
    exact .inr ⟨ck, hmem, h1, h2, h3, rfl, h5, h6, hjudge ck hmem h6⟩

/-- A value of an appended row that changes the current slot, or that the write names under a `UniqueForever`
constraint, was judged. -/
theorem judged_of_enforceUniqueForCascade (h : enforceUniqueForCascade reg judge a rows = .ok cks)
    (hmem : row ∈ rows.appended) (hc : c ∈ reg) (hk : row.binds c.label c.key = some k)
    (hnamed : rows.changesCurrent row c.label c.key = true ∨ (rows.patched a row c.label c.key =
      true ∧ c.scope = .forever)) :
    ∃ ck ∈ cks, ck.label = c.label ∧ ck.key = c.key ∧ ck.raw.uniqueKey = some k ∧
      ck.valueKey = k ∧ ck.scope = c.scope ∧ ck.unchanged = false ∧ judge ck = none := by
  rw [Row.binds] at hk
  split at hk
  swap
  · cases hk
  rename_i hlabel
  obtain ⟨rfl, -, hjudge⟩ := judgeAll_ok h
  obtain ⟨ck, hck, rfl⟩ := uniqueCheckOf_of_valueKey hk c.label false
  obtain ⟨h1, h2, h3, h4, h5, h6⟩ := uniqueCheckOf_eq_some hck
  have hin : ck ∈ cascadeChecks reg a rows := by
    refine mem_flatMap.mpr ⟨row, hmem, mem_flatMap.mpr
      ⟨c.label, contains_iff_mem.mp hlabel, ?_⟩⟩
    refine mem_filterMap.mpr ⟨c, mem_filter.mpr ⟨hc, beq_self_eq_true _⟩, ?_⟩
    rw [hck, Option.filter_some, if_pos]
    rcases hnamed with hchange | ⟨hpatched, hscope⟩
    · rw [hchange, Bool.true_or]
    · rw [hpatched, hscope, Bool.true_and, beq_self_eq_true, Bool.or_true, Bool.or_true]
  exact ⟨ck, hin, h1, h2, h3, rfl, h5, h6, hjudge ck hin h6⟩

/-- Every value the new current row of a cascade binds was the current row's, with the label it had or
one that was not added, or was judged. -/
theorem enforceUniqueForCascade_ok (h : enforceUniqueForCascade reg judge a rows = .ok cks)
    (hrow : rows.newCurrent = some row) (hmem : row ∈ rows.appended) (hc : c ∈ reg)
    (hk : row.binds c.label c.key = some k) :
    (uniqueValueKey rows.current c.key = some k ∧
        (rows.addedLabel = some c.label → rows.current.labels.contains c.label = true)) ∨
      ∃ ck ∈ cks, ck.label = c.label ∧ ck.key = c.key ∧ ck.raw.uniqueKey = some k ∧
        ck.valueKey = k ∧ ck.scope = c.scope ∧ ck.unchanged = false ∧ judge ck = none := by
  by_cases hchange : rows.changesCurrent row c.label c.key = true
  · exact .inr (judged_of_enforceUniqueForCascade h hmem hc hk (.inl hchange))
  · rw [Row.binds] at hk
    split at hk
    swap
    · cases hk
    rw [CascadeRows.changesCurrent, hrow, beq_self_eq_true, Bool.true_and, Bool.or_eq_true, not_or,
      bne_iff_ne, not_not, Bool.and_eq_true, not_and, beq_iff_eq] at hchange
    exact .inl ⟨hchange.1.symm.trans hk, fun hadd => by simpa using hchange.2 hadd⟩

end Kernel

end RhoTkg
