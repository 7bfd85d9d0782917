import RhoTkg.Instant
import RhoTkg.Library.Runs
import RhoTkg.Library.Stabbing
import Mathlib.Data.List.AList
import Mathlib.Data.List.Sort

/-!
# The temporal index

A `TemporalIndex` holds one valid-time interval for every ID.  The map `byID` is the truth.  The first
stabbing query builds a second representation from it, the slice of entries with the position of every
ID, and from then on every mutation maintains both; the order of the slice and the greatest ends of the
implicit tree over it are rebuilt by the next query.

`Inv` says how the two agree, and `queries_exact` what follows for every sequence of calls, wherever the
queries stand in it: the answers are those of the plain map.  One instant is an exception.  An open end
is read as the greatest instant, which is not after itself, so a query at that instant leaves out the open
intervals (`queryAt_max_omits_open`).

The mutation tracking of an index under construction is left out: no answer reads it.
-/

namespace RhoTkg

open List Function

/-- `envelope`: the bounds of one ID.  `vTo = 0` is open. -/
structure Envelope where
  vFrom : Int
  vTo : Int
deriving DecidableEq, Repr

/-- `IntervalEntry`. -/
structure IntervalEntry extends Envelope where
  id : Int
deriving DecidableEq, Repr

/-- `effTo`: an open end is the greatest instant. -/
def effTo (vTo : Int) : Int := if vTo = 0 then maxInt64 else vTo

/-- `unionTo`: the later of two ends. -/
def unionTo (a b : Int) : Int := if a = 0 ∨ b = 0 then 0 else if a < b then b else a

/-- The rule of `Extend`: the least interval around two. -/
def Envelope.union (old new : Envelope) : Envelope :=
  ⟨min old.vFrom new.vFrom, unionTo old.vTo new.vTo⟩

/-- The interval ends after `t`. -/
def Envelope.EndsAfter (e : Envelope) (t : Int) : Prop := e.vTo = 0 ∨ t < e.vTo

/-- `TemporalIndex`.  `byID` is the map of envelopes; `entries`, `subMax` and `posByID` are the stabbing
structure once `queried`. -/
structure TemporalIndex where
  entries : List IntervalEntry
  subMax : Nat → Int
  dirty : Bool
  queried : Bool
  byID : AList fun _ : Int => Envelope
  posByID : Int → Option Nat

namespace TemporalIndex

/-- `NewTemporalIndex`. -/
def new : TemporalIndex := ⟨[], fun _ => 0, false, false, ∅, fun _ => none⟩

/-- `EnvelopeOf`. -/
def envelopeOf (ti : TemporalIndex) (id : Int) : Option Envelope := ti.byID.lookup id

/-! ## Mutators -/

def setByID (ti : TemporalIndex) (id : Int) (e : Envelope) : TemporalIndex :=
  { ti with byID := ti.byID.insert id e }

def extendByID (ti : TemporalIndex) (id : Int) (e : Envelope) : TemporalIndex :=
  match ti.byID.lookup id with
  | some old => ti.setByID id (old.union e)
  | none => ti.setByID id e

/-- An entry at the end of the slice, the common tail of `Add`, `Extend` and `AddKnownAbsent`. -/
def appendEntry (ti : TemporalIndex) (id : Int) (e : Envelope) : TemporalIndex :=
  { ti.setByID id e with
    entries := ti.entries ++ [⟨e, id⟩]
    posByID := Function.update ti.posByID id (some ti.entries.length)
    dirty := true }

/-- `setPos` of every ID of a slice that starts at position `k`. -/
def setPositions (pos : Int → Option Nat) (ids : List Int) (k : Nat) : Int → Option Nat :=
  (ids.zipIdx k).foldl (fun pos p => Function.update pos p.1 (some p.2)) pos

/-- `Remove`. -/
def remove (ti : TemporalIndex) (id : Int) : TemporalIndex :=
  if !ti.queried then { ti with byID := ti.byID.erase id, dirty := true }
  else
    let out := ti.entries.filter fun e => decide (e.id ≠ id)
    { ti with
      entries := out
      byID := ti.byID.erase id
      posByID := Function.update (setPositions ti.posByID (out.map (·.id)) 0) id none
      dirty := true }

/-- `Add`. -/
def add (ti : TemporalIndex) (id : Int) (e : Envelope) : TemporalIndex :=
  if !ti.queried then { ti.setByID id e with dirty := true }
  else (ti.remove id).appendEntry id e

/-- `Extend`. -/
def extend (ti : TemporalIndex) (id : Int) (e : Envelope) : TemporalIndex :=
  if !ti.queried then { ti.extendByID id e with dirty := true }
  else
    match ti.posByID id with
    | some i =>
      match ti.entries[i]? with
      | some old =>
        { ti.setByID id (old.union e) with
          entries := ti.entries.set i ⟨old.union e, old.id⟩
          dirty := true }
      -- a position outside the slice would be an out-of-range access
      | none => ti
    | none => ti.appendEntry id e

/-- `AddKnownAbsent`. -/
def addKnownAbsent (ti : TemporalIndex) (id : Int) (e : Envelope) : TemporalIndex :=
  if !ti.queried then { ti.extendByID id e with dirty := true }
  else ti.appendEntry id e

/-! ## Queries -/

/-- `materialize`.  The iteration order of the map does not matter: the slice is sorted next. -/
def materialize (ti : TemporalIndex) : TemporalIndex :=
  { ti with entries := ti.byID.entries.map fun p => ⟨p.2, p.1⟩, queried := true, dirty := true }

/-- The order of the slice. -/
def byStart (a b : IntervalEntry) : Prop := a.vFrom < b.vFrom ∨ a.vFrom = b.vFrom ∧ a.id ≤ b.id

instance : DecidableRel byStart := fun _ _ => inferInstanceAs (Decidable (_ ∨ _))

/-- The effective end of an entry. -/
def stop (e : IntervalEntry) : Int := effTo e.vTo

/-- `sortIfDirty`; `fillSubMax` is `Stabbing.fill`. -/
def sortIfDirty (ti : TemporalIndex) : TemporalIndex :=
  let ti := if ti.queried then ti else ti.materialize
  if !ti.dirty then ti
  else
    let sorted := ti.entries.insertionSort byStart
    { ti with
      entries := sorted
      posByID := setPositions ti.posByID (sorted.map (·.id)) 0
      subMax := (Stabbing.fill stop sorted sorted.length 0 sorted.length ti.subMax).2
      dirty := false }

/-- A query for the entries that satisfy `visit` and end after `start`; `stabAt` and `stabOverlap` are
`Stabbing.stab`. -/
def query (ti : TemporalIndex) (visit : IntervalEntry → Bool) (start : Int) :
    TemporalIndex × List Int :=
  if ti.byID.entries = [] then (ti, [])
  else
    let ti := ti.sortIfDirty
    (ti, ((Stabbing.stab stop ti.entries visit ti.subMax start ti.entries.length 0
      ti.entries.length).map (·.id)).insertionSort (· ≤ ·))

/-- `QueryAt`. -/
def queryAt (ti : TemporalIndex) (t : Int) : TemporalIndex × List Int :=
  ti.query (fun e => decide (e.vFrom ≤ t)) t

/-- `QueryOverlap`. -/
def queryOverlap (ti : TemporalIndex) (start end_ : Int) : TemporalIndex × List Int :=
  if end_ ≤ start then (ti, []) else ti.query (fun e => decide (e.vFrom < end_)) start

/-! ## The invariant -/

/-- The slice holds the envelopes of the map, each ID at its recorded position. -/
structure Built (ti : TemporalIndex) : Prop where
  nodup : (ti.entries.map IntervalEntry.id).Nodup
  mem : ∀ e, e ∈ ti.entries ↔ ti.byID.lookup e.id = some e.toEnvelope
  pos : ∀ id i, ti.posByID id = some i ↔ (ti.entries.map IntervalEntry.id)[i]? = some id

/-- How the two representations agree. -/
structure Inv (ti : TemporalIndex) : Prop where
  built : ti.queried = true → ti.Built
  clean : ti.queried = true → ti.dirty = false → ti.entries.Pairwise byStart ∧
    Stabbing.Bounds stop ti.entries ti.subMax ti.entries.length 0 ti.entries.length
  unbuilt : ti.queried = false → ∀ id, ti.posByID id = none

variable {ti : TemporalIndex} {id : Int} {e : Envelope}

theorem lookup_insert_eq (s : AList fun _ : Int => Envelope) (id x : Int) (e : Envelope) :
    (s.insert id e).lookup x = if x = id then some e else s.lookup x := by
  split
  · rename_i heq
    rw [heq, AList.lookup_insert]
  · rename_i hne
    exact AList.lookup_insert_ne hne

theorem lookup_erase_eq (s : AList fun _ : Int => Envelope) (id x : Int) :
    (s.erase id).lookup x = if x = id then none else s.lookup x := by
  split
  · rename_i heq
    rw [heq, AList.lookup_erase]
  · rename_i hne
    exact AList.lookup_erase_ne hne

/-- Where `setPositions` puts an ID. -/
theorem setPositions_eq_some {ids : List Int} (hnodup : ids.Nodup) (pos : Int → Option Nat)
    (k : Nat) (x : Int) (i : Nat) : setPositions pos ids k x = some i ↔
      (∃ j, ids[j]? = some x ∧ i = k + j) ∨ (x ∉ ids ∧ pos x = some i) := by
  induction ids generalizing pos k with
  | nil => simp [setPositions]
  | cons a ids ih =>
    obtain ⟨hnotin, hnodup⟩ := nodup_cons.mp hnodup
    have hstep : setPositions pos (a :: ids) k =
        setPositions (update pos a (some k)) ids (k + 1) := rfl
    rw [hstep, ih hnodup]
    by_cases hx : x = a
    · subst hx
      rw [update_self]
      constructor
      · rintro (⟨j, hj, -⟩ | ⟨-, hi⟩)
        · exact absurd (mem_of_getElem? hj) hnotin
        · exact .inl ⟨0, rfl, (Option.some.inj hi).symm⟩
      · rintro (⟨j, hj, rfl⟩ | ⟨hmem, -⟩)
        · cases j with
          | zero => exact .inr ⟨hnotin, rfl⟩
          | succ j =>
            rw [getElem?_cons_succ] at hj
            exact absurd (mem_of_getElem? hj) hnotin
        · exact absurd mem_cons_self hmem
    · rw [update_of_ne hx, mem_cons, not_or]
      constructor
      · rintro (⟨j, hj, rfl⟩ | ⟨hmem, hi⟩)
        · exact .inl ⟨j + 1, hj, by omega⟩
        · exact .inr ⟨⟨hx, hmem⟩, hi⟩
      · rintro (⟨j, hj, rfl⟩ | ⟨⟨-, hmem⟩, hi⟩)
        · cases j with
          | zero => exact absurd (Option.some.inj hj).symm hx
          | succ j => exact .inl ⟨j, hj, by omega⟩
        · exact .inr ⟨hmem, hi⟩

/-- A new ID stands at the end only. -/
theorem getElem?_append_singleton {ids : List Int} {x : Int} {i : Nat} (hnotin : id ∉ ids) :
    (ids ++ [id])[i]? = some x ↔ if x = id then i = ids.length else ids[i]? = some x := by
  grind

/-- An ID without an envelope has no entry. -/
theorem Built.notMem_ids (h : ti.Built) : id ∉ ti.entries.map IntervalEntry.id ↔ ti.byID.lookup id = none := by
  constructor
  · intro hid
    by_contra hne
    obtain ⟨e, he⟩ := Option.ne_none_iff_exists'.mp hne
    exact hid (mem_map.mpr ⟨⟨e, id⟩, (h.mem ⟨e, id⟩).mpr he, rfl⟩)
  · rintro hnone hid
    obtain ⟨e, he, rfl⟩ := mem_map.mp hid
    rw [(h.mem e).mp he] at hnone
    cases hnone

theorem Built.appendEntry (h : ti.Built) (habsent : ti.byID.lookup id = none) :
    (ti.appendEntry id e).Built := by
  have hnotin := h.notMem_ids.mpr habsent
  refine ⟨?_, fun x => ?_, fun x i => ?_⟩
  · simpa [TemporalIndex.appendEntry, nodup_append, h.nodup] using fun x hx heq =>
      hnotin (mem_map.mpr ⟨x, hx, heq⟩)
  · show x ∈ ti.entries ++ [⟨e, id⟩] ↔ (ti.byID.insert id e).lookup x.id = some x.toEnvelope
    rw [lookup_insert_eq, mem_append, mem_singleton, h.mem]
    split
    · rename_i heq
      rw [heq, habsent]
      constructor
      · rintro (hx | rfl)
        · cases hx
        · rfl
      · intro hx
        cases hx
        exact .inr (by rw [← heq])
    · rename_i hne
      exact or_iff_left fun hx => hne (by rw [hx])
  · show update ti.posByID id (some ti.entries.length) x = some i ↔
      ((ti.entries ++ [(⟨e, id⟩ : IntervalEntry)]).map IntervalEntry.id)[i]? = some x
    have happend := getElem?_append_singleton (x := x) (i := i) hnotin
    rw [length_map] at happend
    rw [map_append, map_singleton, happend, update_apply]
    split
    · exact Option.some_inj.trans eq_comm
    · exact h.pos x i

theorem Built.remove (h : ti.Built) (id : Int) (hq : ti.queried = true) : (ti.remove id).Built := by
  have hout : (ti.remove id).entries = ti.entries.filter fun e => decide (e.id ≠ id) := by
    simp [TemporalIndex.remove, hq]
  have hbyID : (ti.remove id).byID = ti.byID.erase id := by simp [TemporalIndex.remove, hq]
  have hnodup : ((ti.remove id).entries.map IntervalEntry.id).Nodup := by
    rw [hout]
    exact h.nodup.sublist (filter_sublist.map _)
  have hids : ∀ x, x ∈ (ti.remove id).entries.map IntervalEntry.id ↔
      x ∈ ti.entries.map IntervalEntry.id ∧ x ≠ id := by
    intro x
    rw [hout]
    simp only [mem_map, mem_filter, decide_eq_true_eq]
    constructor
    · rintro ⟨e, ⟨he, hne⟩, rfl⟩
      exact ⟨⟨e, he, rfl⟩, hne⟩
    · rintro ⟨⟨e, he, rfl⟩, hne⟩
      exact ⟨e, ⟨he, hne⟩, rfl⟩
  refine ⟨hnodup, fun x => ?_, fun x i => ?_⟩
  · rw [hout, hbyID, lookup_erase_eq, mem_filter, h.mem, decide_eq_true_eq]
    split
    · rename_i heq
      simp [heq]
    · rename_i hne
      exact and_iff_left hne
  · have hpos : (ti.remove id).posByID = update
        (setPositions ti.posByID ((ti.remove id).entries.map IntervalEntry.id) 0) id none := by
      simp [TemporalIndex.remove, hq]
    rw [hpos, update_apply]
    split
    · rename_i heq
      subst heq
      refine ⟨nofun, fun hi => ?_⟩
      exact absurd rfl ((hids x).mp (mem_of_getElem? hi)).2
    · rename_i hne
      rw [setPositions_eq_some hnodup]
      constructor
      · rintro (⟨j, hj, rfl⟩ | ⟨hx, hi⟩)
        · rwa [Nat.zero_add]
        · have hmem := mem_of_getElem? ((h.pos x i).mp hi)
          exact absurd ((hids x).mpr ⟨hmem, hne⟩) hx
      · exact fun hi => .inl ⟨i, hi, (Nat.zero_add i).symm⟩

/-- Another envelope for the entry at the position of its ID. -/
theorem Built.set (h : ti.Built) {i : Nat} {old : IntervalEntry} (hi : ti.entries[i]? = some old) :
    Built { ti.setByID old.id e with entries := ti.entries.set i ⟨e, old.id⟩, dirty := true } := by
  have hids : (ti.entries.set i ⟨e, old.id⟩).map IntervalEntry.id =
      ti.entries.map IntervalEntry.id := by
    rw [map_set]
    obtain ⟨hlt, rfl⟩ := List.getElem?_eq_some_iff.mp hi
    refine ext_getElem (length_set ..) fun k hk hk' => ?_
    rw [getElem_set]
    split
    · rename_i heq
      subst heq
      rw [getElem_map]
    · rfl
  have hpos : ∀ k x, ti.entries[k]? = some x → x.id = old.id → i = k := by
    intro k x hk hid
    have hk' : (ti.entries.map IntervalEntry.id)[k]? = some old.id := by
      rw [getElem?_map, hk, Option.map_some, hid]
    have hi' : (ti.entries.map IntervalEntry.id)[i]? = some old.id := by
      rw [getElem?_map, hi, Option.map_some]
    exact (List.getElem?_inj (List.getElem?_eq_some_iff.mp hi').1 h.nodup).mp (hi'.trans hk'.symm)
  refine ⟨hids ▸ h.nodup, fun x => ?_, fun x j => hids ▸ h.pos x j⟩
  show x ∈ ti.entries.set i ⟨e, old.id⟩ ↔ (ti.byID.insert old.id e).lookup x.id = some x.toEnvelope
  rw [lookup_insert_eq, mem_iff_getElem?]
  simp only [getElem?_set]
  constructor
  · rintro ⟨k, hk⟩
    split at hk
    · split at hk
      · cases hk
        exact if_pos rfl
      · cases hk
    · rename_i hne
      rw [if_neg fun hid => hne (hpos k x hk hid)]
      exact (h.mem x).mp (mem_of_getElem? hk)
  · intro hx
    split at hx
    · rename_i hid
      refine ⟨i, ?_⟩
      rw [if_pos rfl, if_pos (List.getElem?_eq_some_iff.mp hi).1]
      cases x
      cases hx
      cases hid
      rfl
    · rename_i hid
      obtain ⟨k, hk⟩ := mem_iff_getElem?.mp ((h.mem x).mpr hx)
      refine ⟨k, ?_⟩
      rw [if_neg, hk]
      rintro rfl
      cases hi.symm.trans hk
      exact hid rfl

theorem Built.materialize (ti : TemporalIndex) :
    (ti.materialize.entries.map IntervalEntry.id).Nodup ∧
      ∀ e, e ∈ ti.materialize.entries ↔ ti.materialize.byID.lookup e.id = some e.toEnvelope := by
  have hids : ti.materialize.entries.map IntervalEntry.id = ti.byID.entries.keys := by
    simp only [TemporalIndex.materialize, map_map]
    rfl
  refine ⟨hids ▸ ti.byID.nodupKeys, fun e => ?_⟩
  have hlookup : ti.byID.lookup e.id = some e.toEnvelope ↔ ⟨e.id, e.toEnvelope⟩ ∈ ti.byID.entries :=
    AList.mem_lookup_iff
  show e ∈ ti.byID.entries.map _ ↔ ti.byID.lookup e.id = _
  rw [hlookup, mem_map]
  constructor
  · rintro ⟨⟨id, x⟩, hp, rfl⟩
    exact hp
  · exact fun hp => ⟨_, hp, rfl⟩

instance : Std.Total byStart := ⟨fun a b => by unfold byStart; omega⟩

instance : IsTrans IntervalEntry byStart := ⟨fun a b c => by unfold byStart; omega⟩

/-- **A query finds the structure ready**: built, sorted and with the bounds of the tree. -/
theorem Inv.sortIfDirty (h : ti.Inv) : ti.sortIfDirty.Inv ∧ ti.sortIfDirty.queried = true ∧
    ti.sortIfDirty.dirty = false ∧ ti.sortIfDirty.byID = ti.byID := by
  -- before the sort: the slice holds the map, and no other ID has a position
  obtain ⟨ti', hti', hbyID, hq, hclean, hnodup, hmem, hpos⟩ : ∃ ti' : TemporalIndex,
      ti' = (if ti.queried then ti else ti.materialize) ∧ ti'.byID = ti.byID ∧ ti'.queried = true ∧
      (ti'.dirty = false → ti'.Inv) ∧ (ti'.entries.map IntervalEntry.id).Nodup ∧
      (∀ e, e ∈ ti'.entries ↔ ti'.byID.lookup e.id = some e.toEnvelope) ∧
      ∀ id, id ∉ ti'.entries.map IntervalEntry.id → ti'.posByID id = none := by
    by_cases hq : ti.queried = true
    · have hb := h.built hq
      refine ⟨ti, by rw [if_pos hq], rfl, hq, fun _ => h, hb.nodup, hb.mem, fun id hid => ?_⟩
      refine Option.eq_none_iff_forall_ne_some.mpr fun i hi => ?_
      exact hid (mem_of_getElem? ((hb.pos id i).mp hi))
    · obtain ⟨hnodup, hmem⟩ := Built.materialize ti
      rw [Bool.not_eq_true] at hq
      exact ⟨ti.materialize, by rw [hq]; rfl, rfl, rfl, nofun, hnodup, hmem,
        fun id _ => h.unbuilt hq id⟩
  have hsort : ti.sortIfDirty = if !ti'.dirty then ti' else
      { ti' with
        entries := ti'.entries.insertionSort byStart
        posByID := setPositions ti'.posByID
          ((ti'.entries.insertionSort byStart).map IntervalEntry.id) 0
        subMax := (Stabbing.fill stop (ti'.entries.insertionSort byStart)
          (ti'.entries.insertionSort byStart).length 0
          (ti'.entries.insertionSort byStart).length ti'.subMax).2
        dirty := false } := by
    rw [hti']
    rfl
  rw [hsort]
  cases hdirty : ti'.dirty with
  | false => exact ⟨hclean hdirty, hq, hdirty, hbyID⟩
  | true =>
    have hperm := perm_insertionSort byStart ti'.entries
    have hnodup' := (hperm.map IntervalEntry.id).nodup_iff.mpr hnodup
    refine ⟨⟨fun _ => ⟨hnodup', fun e => hperm.mem_iff.trans (hmem e), fun x i => ?_⟩,
      fun _ _ => ⟨pairwise_insertionSort _ _, ?_⟩, fun hq' => ?_⟩, hq, rfl, hbyID⟩
    · refine (setPositions_eq_some hnodup' _ 0 x i).trans ⟨?_, fun hi => .inl ⟨i, hi, ?_⟩⟩
      · rintro (⟨j, hj, rfl⟩ | ⟨hx, hi⟩)
        · rwa [Nat.zero_add]
        · rw [hpos x ((hperm.map IntervalEntry.id).mem_iff.not.mp hx)] at hi
          cases hi
      · exact (Nat.zero_add i).symm
    · exact (Stabbing.fill_spec _ le_rfl (Nat.sub_le ..)).2.2
    · cases hq.symm.trans hq'

/-- **What a query answers**, in ascending order: the IDs whose envelope is visited and ends after
`start` by its effective end. -/
theorem Inv.query (h : ti.Inv) (visit : IntervalEntry → Bool) (start : Int)
    (hvisit : ∀ a b, byStart a b → visit b = true → visit a = true) :
    (ti.query visit start).1.Inv ∧ (ti.query visit start).1.byID = ti.byID ∧
      (ti.query visit start).2.Pairwise (· < ·) ∧
      ∀ id, id ∈ (ti.query visit start).2 ↔
        ∃ e, ti.byID.lookup id = some e ∧ visit ⟨e, id⟩ = true ∧ start < effTo e.vTo := by
  unfold TemporalIndex.query
  split
  · rename_i hempty
    refine ⟨h, rfl, Pairwise.nil, fun id => ⟨nofun, ?_⟩⟩
    rintro ⟨e, he, -⟩
    have hmem := AList.mem_lookup_iff.mp he
    rw [hempty] at hmem
    cases hmem
  obtain ⟨hinv, hq, hdirty, hbyID⟩ := h.sortIfDirty
  have hbuilt := hinv.built hq
  obtain ⟨hsorted, hbounds⟩ := hinv.clean hq hdirty
  dsimp only
  rw [Stabbing.stab_eq (hsorted.imp fun {a b} => hvisit a b) le_rfl (Nat.sub_le ..) hbounds,
    drop_zero, take_length]
  have hnodup : ((ti.sortIfDirty.entries.filter fun x =>
      visit x && decide (start < stop x)).map IntervalEntry.id).Nodup :=
    hbuilt.nodup.sublist (filter_sublist.map _)
  refine ⟨hinv, hbyID, ?_, fun id => ?_⟩
  · have hle := pairwise_insertionSort (· ≤ ·) ((ti.sortIfDirty.entries.filter fun x =>
      visit x && decide (start < stop x)).map IntervalEntry.id)
    have hne := (perm_insertionSort (· ≤ ·) _).nodup_iff.mpr hnodup
    exact hle.imp₂ (fun a b hle hne => lt_of_le_of_ne hle hne) hne
  · simp only [mem_insertionSort, mem_map, mem_filter, Bool.and_eq_true,
      decide_eq_true_eq]
    constructor
    · rintro ⟨x, ⟨hx, hv, hstop⟩, rfl⟩
      exact ⟨x.toEnvelope, hbyID ▸ (hbuilt.mem x).mp hx, hv, hstop⟩
    · rintro ⟨e, he, hv, hstop⟩
      exact ⟨⟨e, id⟩, ⟨(hbuilt.mem ⟨e, id⟩).mpr (hbyID ▸ he), hv, hstop⟩, rfl⟩

/-! ## Runs -/

theorem inv_of_unqueried (hq : ti.queried = false) (hpos : ∀ id, ti.posByID id = none) : ti.Inv :=
  ⟨fun h => absurd (hq ▸ h) (by decide), fun h => absurd (hq ▸ h) (by decide), fun _ => hpos⟩

theorem Built.inv (h : ti.Built) (hq : ti.queried = true) (hd : ti.dirty = true) : ti.Inv :=
  ⟨fun _ => h, fun _ h' => absurd (hd ▸ h') (by decide), fun h' => absurd (hq ▸ h') (by decide)⟩

theorem envelopeOf_insert {s : AList fun _ : Int => Envelope} (h : ti.byID = s.insert id e) :
    ti.envelopeOf = Function.update (fun x => s.lookup x) id (some e) := by
  funext x
  rw [update_apply, envelopeOf, h, lookup_insert_eq]

theorem envelopeOf_erase {s : AList fun _ : Int => Envelope} (h : ti.byID = s.erase id) :
    ti.envelopeOf = Function.update (fun x => s.lookup x) id none := by
  funext x
  rw [update_apply, envelopeOf, h, lookup_erase_eq]

theorem Inv.remove (h : ti.Inv) (id : Int) : (ti.remove id).Inv ∧
    (ti.remove id).envelopeOf = Function.update ti.envelopeOf id none := by
  cases hq : ti.queried with
  | false =>
    have hstep : ti.remove id = { ti with byID := ti.byID.erase id, dirty := true } := by
      simp [TemporalIndex.remove, hq]
    exact ⟨hstep ▸ inv_of_unqueried hq (h.unbuilt hq), envelopeOf_erase (by rw [hstep])⟩
  | true =>
    have hbuilt := (h.built hq).remove id hq
    refine ⟨hbuilt.inv ?_ ?_, envelopeOf_erase ?_⟩ <;> simp [TemporalIndex.remove, hq]

theorem Inv.appendEntry (h : ti.Inv) (hq : ti.queried = true) (habsent : ti.envelopeOf id = none) :
    (ti.appendEntry id e).Inv ∧
      (ti.appendEntry id e).envelopeOf = Function.update ti.envelopeOf id (some e) :=
  ⟨((h.built hq).appendEntry habsent).inv hq rfl, envelopeOf_insert rfl⟩

theorem Inv.add (h : ti.Inv) : (ti.add id e).Inv ∧
    (ti.add id e).envelopeOf = Function.update ti.envelopeOf id (some e) := by
  cases hq : ti.queried with
  | false =>
    have hstep : ti.add id e = { ti.setByID id e with dirty := true } := by
      simp [TemporalIndex.add, hq]
    exact ⟨hstep ▸ inv_of_unqueried hq (h.unbuilt hq), envelopeOf_insert (by rw [hstep]; rfl)⟩
  | true =>
    obtain ⟨hremoved, henv⟩ := h.remove id
    have hstep : ti.add id e = (ti.remove id).appendEntry id e := by simp [TemporalIndex.add, hq]
    have hq' : (ti.remove id).queried = true := by simp [TemporalIndex.remove, hq]
    obtain ⟨hinv, henv'⟩ := hremoved.appendEntry (e := e) hq' (by rw [henv, update_self])
    rw [hstep, henv', henv, update_idem]
    exact ⟨hinv, rfl⟩

/-- What `Extend` records. -/
def extended (old : Option Envelope) (e : Envelope) : Envelope :=
  match old with
  | some old => old.union e
  | none => e

theorem Inv.extendByID (h : ti.Inv) (id : Int) (e : Envelope) (hq : ti.queried = false) :
    Inv { ti.extendByID id e with dirty := true } ∧
      envelopeOf { ti.extendByID id e with dirty := true } =
        Function.update ti.envelopeOf id (some (extended (ti.envelopeOf id) e)) := by
  have hstep : ti.extendByID id e = ti.setByID id (extended (ti.envelopeOf id) e) := by
    unfold TemporalIndex.extendByID extended envelopeOf
    cases ti.byID.lookup id <;> rfl
  rw [hstep]
  exact ⟨inv_of_unqueried hq (h.unbuilt hq), envelopeOf_insert rfl⟩

theorem Inv.extend (h : ti.Inv) : (ti.extend id e).Inv ∧ (ti.extend id e).envelopeOf =
    Function.update ti.envelopeOf id (some (extended (ti.envelopeOf id) e)) := by
  unfold TemporalIndex.extend
  cases hq : ti.queried with
  | false => exact h.extendByID id e hq
  | true =>
    have hbuilt := h.built hq
    cases hpos : ti.posByID id with
    | none =>
      have habsent : ti.envelopeOf id = none := by
        refine hbuilt.notMem_ids.mp fun hid => ?_
        obtain ⟨i, hi⟩ := mem_iff_getElem?.mp hid
        rw [(hbuilt.pos id i).mpr hi] at hpos
        cases hpos
      rw [habsent]
      exact h.appendEntry hq habsent
    | some i =>
      have hid := (hbuilt.pos id i).mp hpos
      rw [getElem?_map] at hid
      obtain ⟨old, hold, rfl⟩ := Option.map_eq_some_iff.mp hid
      have henv : ti.envelopeOf old.id = some old.toEnvelope :=
        (hbuilt.mem old).mp (mem_of_getElem? hold)
      dsimp only
      rw [hold, henv]
      exact ⟨(hbuilt.set hold).inv hq rfl, envelopeOf_insert rfl⟩

theorem Inv.addKnownAbsent (h : ti.Inv) (habsent : ti.envelopeOf id = none) :
    (ti.addKnownAbsent id e).Inv ∧
      (ti.addKnownAbsent id e).envelopeOf = Function.update ti.envelopeOf id (some e) := by
  unfold TemporalIndex.addKnownAbsent
  cases hq : ti.queried with
  | false =>
    have hext := h.extendByID id e hq
    rwa [habsent] at hext
  | true => exact h.appendEntry hq habsent

/-- A call of the index. -/
inductive Call where
  | add (id : Int) (e : Envelope)
  | extend (id : Int) (e : Envelope)
  | addKnownAbsent (id : Int) (e : Envelope)
  | remove (id : Int)
  | queryAt (t : Int)
  | queryOverlap (start end_ : Int)

/-- The index after a call. -/
def step (ti : TemporalIndex) : Call → TemporalIndex
  | .add id e => ti.add id e
  | .extend id e => ti.extend id e
  | .addKnownAbsent id e => ti.addKnownAbsent id e
  | .remove id => ti.remove id
  | .queryAt t => (ti.queryAt t).1
  | .queryOverlap start end_ => (ti.queryOverlap start end_).1

/-- What a call means for the intervals: `Add` replaces, `Extend` unites, `Remove` deletes. -/
def Call.apply (m : Int → Option Envelope) : Call → Int → Option Envelope
  | .add id e => Function.update m id (some e)
  | .extend id e => Function.update m id (some (extended (m id) e))
  | .addKnownAbsent id e => Function.update m id (some e)
  | .remove id => Function.update m id none
  | .queryAt _ => m
  | .queryOverlap _ _ => m

/-- `AddKnownAbsent` is called for an absent ID. -/
def Call.KnownAbsent (m : Int → Option Envelope) : Call → Prop
  | .addKnownAbsent id _ => m id = none
  | _ => True

theorem byStart_vFrom {a b : IntervalEntry} (h : byStart a b) : a.vFrom ≤ b.vFrom := by
  unfold byStart at h
  omega

theorem Inv.queryAt (h : ti.Inv) (t : Int) : (ti.queryAt t).1.Inv ∧ (ti.queryAt t).1.byID = ti.byID ∧
    (ti.queryAt t).2.Pairwise (· < ·) ∧ ∀ id, id ∈ (ti.queryAt t).2 ↔
      ∃ e, ti.envelopeOf id = some e ∧ e.vFrom ≤ t ∧ t < effTo e.vTo := by
  have hq := h.query (fun e => decide (e.vFrom ≤ t)) t fun a b hab hb =>
    decide_eq_true ((byStart_vFrom hab).trans (of_decide_eq_true hb))
  simp only [decide_eq_true_eq] at hq
  exact hq

theorem Inv.queryOverlap (h : ti.Inv) (start end_ : Int) : (ti.queryOverlap start end_).1.Inv ∧
    (ti.queryOverlap start end_).1.byID = ti.byID ∧
    (ti.queryOverlap start end_).2.Pairwise (· < ·) ∧
    (start < end_ → ∀ id, id ∈ (ti.queryOverlap start end_).2 ↔
      ∃ e, ti.envelopeOf id = some e ∧ e.vFrom < end_ ∧ start < effTo e.vTo) := by
  unfold TemporalIndex.queryOverlap
  split
  · rename_i hle
    exact ⟨h, rfl, Pairwise.nil, fun hlt => absurd hlt (not_lt.mpr hle)⟩
  · have hq := h.query (fun e => decide (e.vFrom < end_)) start fun a b hab hb =>
      decide_eq_true ((byStart_vFrom hab).trans_lt (of_decide_eq_true hb))
    simp only [decide_eq_true_eq] at hq
    exact ⟨hq.1, hq.2.1, hq.2.2.1, fun _ => hq.2.2.2⟩

/-- **Every call keeps the agreement** and does to the map what it does to the intervals. -/
theorem Inv.step (h : ti.Inv) {c : Call} (habsent : c.KnownAbsent ti.envelopeOf) :
    (ti.step c).Inv ∧ (ti.step c).envelopeOf = c.apply ti.envelopeOf := by
  cases c with
  | add id e => exact h.add
  | extend id e => exact h.extend
  | addKnownAbsent id e => exact h.addKnownAbsent habsent
  | remove id => exact h.remove id
  | queryAt t =>
    obtain ⟨hinv, hbyID, -⟩ := h.queryAt t
    exact ⟨hinv, funext fun x => congrArg (AList.lookup x) hbyID⟩
  | queryOverlap start end_ =>
    obtain ⟨hinv, hbyID, -⟩ := h.queryOverlap start end_
    exact ⟨hinv, funext fun x => congrArg (AList.lookup x) hbyID⟩

/-- An index and the intervals its calls describe. -/
abbrev Trace := TemporalIndex × (Int → Option Envelope)

/-- A new index and no interval. -/
def Trace.Start (s : Trace) : Prop := s = (new, fun _ => none)

def Trace.step (s : Trace) (c : Call) : Trace := (s.1.step c, c.apply s.2)

/-- The steps in which `AddKnownAbsent` is called for an absent ID. -/
abbrev Trace.Next : Trace → Call → Trace → Prop :=
  Runs.Guarded Trace.step fun s c => c.KnownAbsent s.2

/-- The list is, in ascending order, the IDs whose interval satisfies `P`. -/
def Answers (m : Int → Option Envelope) (P : Envelope → Prop) (ids : List Int) : Prop :=
  ids.Pairwise (· < ·) ∧ ∀ id, id ∈ ids ↔ ∃ e, m id = some e ∧ P e

theorem Answers.unique {m : Int → Option Envelope} {P : Envelope → Prop} {ids ids' : List Int}
    (h : Answers m P ids) (h' : Answers m P ids') : ids = ids' := by
  have hperm : ids.Perm ids' := (perm_ext_iff_of_nodup (h.1.imp fun hlt => hlt.ne)
    (h'.1.imp fun hlt => hlt.ne)).mpr fun id => (h.2 id).trans (h'.2 id).symm
  exact hperm.eq_of_pairwise (fun a b _ _ hab hba => absurd hab (not_lt.mpr hba.le)) h.1 h'.1

theorem Trace.inv {s : Trace} (h : Runs.Reachable Trace.Start Trace.Next s) :
    s.1.Inv ∧ s.1.envelopeOf = s.2 := by
  refine h.invariant (I := fun s => s.1.Inv ∧ s.1.envelopeOf = s.2) (fun s hs => ?_)
    fun s c s' _ hs hnext => ?_
  · rw [hs]
    exact ⟨inv_of_unqueried rfl fun _ => rfl, rfl⟩
  · obtain ⟨habsent, rfl⟩ := hnext
    obtain ⟨hinv, henv⟩ := hs.1.step (hs.2 ▸ habsent)
    exact ⟨hinv, henv.trans (by rw [hs.2]; rfl)⟩

/-- An effective end is the end, below the greatest instant. -/
theorem lt_effTo_iff {t vTo : Int} (ht : t < maxInt64) : t < effTo vTo ↔ vTo = 0 ∨ t < vTo := by
  unfold effTo
  split
  · rename_i h
    exact iff_of_true ht (.inl h)
  · rename_i h
    exact (or_iff_right h).symm

/-- **The index is a dynamic interval stabbing structure.**  In every run, `EnvelopeOf` is the interval of
the ID, `QueryOverlap` answers exactly the intervals that meet the window, and `QueryAt` those that contain
the instant --- the greatest instant apart, at which it does so exactly when no open interval has begun.
The answers depend on the intervals only, so not on when earlier queries ran. -/
theorem queries_exact {s : Trace} (h : Runs.Reachable Trace.Start Trace.Next s) :
    s.1.envelopeOf = s.2 ∧
    (∀ a b, a < b → b ≤ maxInt64 →
      Answers s.2 (fun e => e.vFrom < b ∧ e.EndsAfter a) (s.1.queryOverlap a b).2) ∧
    (∀ t, t ≤ maxInt64 →
      (Answers s.2 (fun e => e.vFrom ≤ t ∧ e.EndsAfter t) (s.1.queryAt t).2 ↔
        (t = maxInt64 → ∀ id e, s.2 id = some e → e.vFrom ≤ t → e.vTo ≠ 0))) ∧
    ∀ s', Runs.Reachable Trace.Start Trace.Next s' → s'.2 = s.2 →
      (∀ t, (s'.1.queryAt t).2 = (s.1.queryAt t).2) ∧
      ∀ a b, (s'.1.queryOverlap a b).2 = (s.1.queryOverlap a b).2 := by
  obtain ⟨hinv, henv⟩ := Trace.inv h
  refine ⟨henv, fun a b hab hb => ?_, fun t ht => ?_, fun s' hs' hsame => ?_⟩
  · obtain ⟨-, -, hsorted, hmem⟩ := hinv.queryOverlap a b
    refine ⟨hsorted, fun id => ?_⟩
    rw [hmem hab, henv]
    simp only [lt_effTo_iff (hab.trans_le hb)]
    rfl
  · obtain ⟨-, -, hsorted, hmem⟩ := hinv.queryAt t
    rw [henv] at hmem
    constructor
    · rintro hans rfl id e he hle hopen
      obtain ⟨e', he', -, hlt⟩ := (hmem id).mp ((hans.2 id).mpr ⟨e, he, hle, .inl hopen⟩)
      cases he.symm.trans he'
      rw [effTo, if_pos hopen] at hlt
      exact lt_irrefl _ hlt
    · refine fun hclosed => ⟨hsorted, fun id => (hmem id).trans ?_⟩
      refine exists_congr fun e => and_congr_right fun he => and_congr_right fun hle => ?_
      rcases lt_or_eq_of_le ht with hlt | heq
      · exact lt_effTo_iff hlt
      · have hne := hclosed heq id e he hle
        rw [effTo, if_neg hne]
        exact (or_iff_right hne).symm
  · obtain ⟨hinv', henv'⟩ := Trace.inv hs'
    refine ⟨fun t => ?_, fun a b => ?_⟩
    · obtain ⟨-, -, hsorted, hmem⟩ := hinv.queryAt t
      obtain ⟨-, -, hsorted', hmem'⟩ := hinv'.queryAt t
      rw [henv', hsame, ← henv] at hmem'
      exact Answers.unique ⟨hsorted', hmem'⟩ ⟨hsorted, hmem⟩
    · obtain ⟨-, -, hsorted, hmem⟩ := hinv.queryOverlap a b
      obtain ⟨-, -, hsorted', hmem'⟩ := hinv'.queryOverlap a b
      rw [henv', hsame, ← henv] at hmem'
      by_cases hab : a < b
      · exact Answers.unique ⟨hsorted', hmem' hab⟩ ⟨hsorted, hmem hab⟩
      · simp [TemporalIndex.queryOverlap, not_lt.mp hab]

instance (m : Int → Option Envelope) : (c : Call) → Decidable (c.KnownAbsent m)
  | .add _ _ => isTrue trivial
  | .extend _ _ => isTrue trivial
  | .addKnownAbsent id _ => inferInstanceAs (Decidable (m id = none))
  | .remove _ => isTrue trivial
  | .queryAt _ => isTrue trivial
  | .queryOverlap _ _ => isTrue trivial

/-- The trace of a list of calls. -/
def traceOf (calls : List Call) : Trace := calls.foldl Trace.step (new, fun _ => none)

/-- Mutations before and after the first query, of new and of present IDs. -/
def mixedCalls : List Call :=
  [.addKnownAbsent 7 ⟨1, 5⟩, .add 3 ⟨2, 0⟩, .queryAt 4, .extend 7 ⟨0, 9⟩, .add 3 ⟨6, 8⟩,
    .addKnownAbsent 5 ⟨4, 0⟩, .queryOverlap 2 6, .remove 7, .extend 2 ⟨8, 3⟩]

theorem queries_exact_mixedCalls : Answers (traceOf mixedCalls).2
    (fun e => e.vFrom ≤ 7 ∧ e.EndsAfter 7) ((traceOf mixedCalls).1.queryAt 7).2 :=
  ((queries_exact (.foldl (.start rfl) (by decide +kernel))).2.2.1 7 (by decide)).mpr
    fun h => absurd h (by decide)

/-- An open interval, queried at the greatest instant. -/
theorem queryAt_max_omits_open :
    Runs.Reachable Trace.Start Trace.Next (traceOf [.add 1 ⟨3, 0⟩]) ∧
      ¬ Answers (traceOf [.add 1 ⟨3, 0⟩]).2 (fun e => e.vFrom ≤ maxInt64 ∧ e.EndsAfter maxInt64)
        ((traceOf [.add 1 ⟨3, 0⟩]).1.queryAt maxInt64).2 := by
  refine ⟨.foldl (.start rfl) (by decide +kernel), fun h => ?_⟩
  have hmem := (h.2 1).mpr ⟨⟨3, 0⟩, by decide +kernel, by decide, .inl rfl⟩
  cases hmem

end TemporalIndex

end RhoTkg
