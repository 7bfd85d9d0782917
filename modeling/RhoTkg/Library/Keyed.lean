import Mathlib.Data.Nat.Basic
import Mathlib.Order.Lattice
import Mathlib.Tactic.Common

/-!
# Lists keyed by a linear order

A list sorted by a key holds at most one entry per key.  `put` stores an entry under its key: it
replaces the entry of that key or goes where the key belongs.  Entries above every key are appended
(`put_eq_append`, `foldl_put_eq_append`), and storing another entry under a key exchanges the two
(`put_exchange`).
-/

namespace Keyed

open List

variable {α κ : Type*} [LinearOrder κ] (key : α → κ)

/-- Store `x` under its key. -/
def put : List α → α → List α
  | [], x => [x]
  | y :: l, x =>
    if key y < key x then y :: put l x
    else if key y = key x then x :: l
    else x :: y :: l

/-- Strictly ascending keys. -/
abbrev Sorted (l : List α) : Prop := l.Pairwise fun x y => key x < key y

variable {key}

variable {l m : List α} {x y : α}

theorem put_eq_append (habove : ∀ y ∈ l, key y < key x) : put key l x = l ++ [x] := by
  induction l with
  | nil => rfl
  | cons y l ih =>
    rw [put, if_pos (habove y mem_cons_self),
      ih fun z hz => habove z (mem_cons_of_mem _ hz), cons_append]

theorem put_append (habove : ∀ y ∈ m, key x < key y) : put key (l ++ m) x = put key l x ++ m := by
  induction l with
  | nil =>
    cases m with
    | nil => rfl
    | cons y m =>
      have hlt := habove y mem_cons_self
      show put key (y :: m) x = x :: y :: m
      rw [put, if_neg hlt.asymm, if_neg hlt.ne']
  | cons y l ih =>
    rw [cons_append, put, put]
    split
    · rw [ih, cons_append]
    · split <;> rfl

/-- A map that keeps the keys commutes with storing. -/
theorem map_put {β : Type*} {key' : β → κ} {f : α → β} (hf : ∀ y, key' (f y) = key y) (l : List α)
    (x : α) : (put key l x).map f = put key' (l.map f) (f x) := by
  induction l with
  | nil => rfl
  | cons y l ih =>
    rw [map_cons, put, put, hf, hf]
    split
    · rw [map_cons, ih]
    · split <;> rfl

/-- The entry found under a key is the one stored there last. -/
theorem find?_put (l : List α) (x : α) : (put key l x).find? (fun y => key y == key x) = some x := by
  induction l with
  | nil => simp [put]
  | cons y l ih =>
    rw [put]
    split
    · rename_i hlt
      rw [find?_cons_of_neg (by simpa using hlt.ne), ih]
    · split <;> simp

/-- Entries under different keys are stored in either order. -/
theorem put_comm (hne : key x ≠ key y) : put key (put key l x) y = put key (put key l y) x := by
  induction l with
  | nil =>
    rcases lt_or_gt_of_ne hne with h | h
    · simp [put, h, h.asymm, hne.symm]
    · simp [put, h, h.asymm, hne]
  | cons z l ih =>
    rcases lt_trichotomy (key z) (key x) with hx | hx | hx <;>
      rcases lt_trichotomy (key z) (key y) with hy | hy | hy
    · simp [put, hx, hy, ih]
    · simp [put, hy, hy ▸ hx]
    · have hyx := hy.trans hx
      simp [put, hx, hy.asymm, hy.ne', hyx]
    · simp [put, hx, hx ▸ hy]
    · exact absurd (hx.symm.trans hy) hne
    · have hyx : key y < key x := hx ▸ hy
      simp [put, hx, hyx, hyx.asymm, hyx.ne']
    · have hxy := hx.trans hy
      simp [put, hx.asymm, hx.ne', hy, hxy]
    · have hxy : key x < key y := hy ▸ hx
      simp [put, hy, hxy, hxy.asymm, hxy.ne']
    · rcases lt_or_gt_of_ne hne with h | h
      · simp [put, hx.asymm, hx.ne', hy.asymm, hy.ne', h, h.asymm, hne.symm]
      · simp [put, hx.asymm, hx.ne', hy.asymm, hy.ne', h, h.asymm, hne]

theorem foldl_put_eq_append (hm : Sorted key m) (habove : ∀ x ∈ l, ∀ y ∈ m, key x < key y) :
    m.foldl (put key) l = l ++ m := by
  induction m generalizing l with
  | nil => simp
  | cons x m ih =>
    have hcons := pairwise_cons.mp hm
    rw [foldl_cons, put_eq_append fun y hy => habove y hy x mem_cons_self, ih hcons.2,
      append_assoc, singleton_append]
    intro y hy z hz
    rcases mem_append.mp hy with hy | hy
    · exact habove y hy z (mem_cons_of_mem _ hz)
    · rw [mem_singleton.mp hy]
      exact hcons.1 z hz

/-- Storing an entry that is there changes nothing. -/
theorem put_of_mem (hsort : Sorted key l) (hx : x ∈ l) : put key l x = l := by
  induction l with
  | nil => exact absurd hx not_mem_nil
  | cons y l ih =>
    have hcons := pairwise_cons.mp hsort
    rw [put]
    rcases mem_cons.mp hx with rfl | hx
    · rw [if_neg (lt_irrefl _), if_pos rfl]
    · rw [if_pos (hcons.1 x hx), ih hcons.2 hx]

/-- A put adds no other entry. -/
theorem mem_of_mem_put (h : y ∈ put key l x) : y = x ∨ y ∈ l := by
  induction l with
  | nil => exact .inl (by simpa [put] using h)
  | cons z l ih =>
    rw [put] at h
    split at h
    · rcases mem_cons.mp h with rfl | h
      · exact .inr mem_cons_self
      · exact (ih h).imp_right (mem_cons_of_mem _)
    · split at h
      · exact (mem_cons.mp h).imp_right (mem_cons_of_mem _)
      · exact mem_cons.mp h

theorem mem_of_mem_foldl_put (h : y ∈ m.foldl (put key) l) : y ∈ m ∨ y ∈ l := by
  refine @foldlRecOn _ _ (fun l' => y ∈ l' → y ∈ m ∨ y ∈ l) m _ _ .inr (fun l' hl' x hx h => ?_) h
  rcases mem_of_mem_put h with rfl | h
  · exact .inl hx
  · exact hl' h

/-- The entries after a put: the new one, and those under other keys. -/
theorem mem_put (hsort : Sorted key l) : y ∈ put key l x ↔ y = x ∨ (y ∈ l ∧ key y ≠ key x) := by
  induction l with
  | nil => simp [put]
  | cons z l ih =>
    have hcons := pairwise_cons.mp hsort
    have hafter : key x ≤ key z → ∀ w ∈ l, key w ≠ key x := fun hle w hw =>
      (hle.trans_lt (hcons.1 w hw)).ne'
    rw [put]
    split
    · rename_i hlt
      rw [mem_cons, ih hcons.2, mem_cons]
      constructor
      · rintro (rfl | rfl | hy)
        · exact .inr ⟨.inl rfl, hlt.ne⟩
        · exact .inl rfl
        · exact .inr ⟨.inr hy.1, hy.2⟩
      · rintro (rfl | ⟨rfl | hy, hne⟩)
        · exact .inr (.inl rfl)
        · exact .inl rfl
        · exact .inr (.inr ⟨hy, hne⟩)
    · rename_i hge
      rw [not_lt] at hge
      split
      · rename_i heq
        rw [mem_cons, mem_cons]
        constructor
        · rintro (rfl | hy)
          · exact .inl rfl
          · exact .inr ⟨.inr hy, hafter hge y hy⟩
        · rintro (rfl | ⟨rfl | hy, hne⟩)
          · exact .inl rfl
          · exact absurd heq hne
          · exact .inr hy
      · rename_i hne
        rw [mem_cons, mem_cons]
        constructor
        · rintro (rfl | rfl | hy)
          · exact .inl rfl
          · exact .inr ⟨.inl rfl, hne⟩
          · exact .inr ⟨.inr hy, hafter hge y hy⟩
        · rintro (rfl | ⟨hy, -⟩)
          · exact .inl rfl
          · exact .inr hy

theorem sorted_put (hsort : Sorted key l) (x : α) : Sorted key (put key l x) := by
  induction l with
  | nil => simp [put]
  | cons y l ih =>
    have hcons := pairwise_cons.mp hsort
    rw [put]
    split
    · rename_i hlt
      refine pairwise_cons.mpr ⟨fun z hz => ?_, ih hcons.2⟩
      rcases (mem_put hcons.2).mp hz with rfl | ⟨hz, -⟩
      · exact hlt
      · exact hcons.1 z hz
    · split
      · rename_i heq
        refine pairwise_cons.mpr ⟨fun z hz => ?_, hcons.2⟩
        rw [← heq]
        exact hcons.1 z hz
      · rename_i hge hne
        have hlt : key x < key y := lt_of_le_of_ne (not_lt.mp hge) (Ne.symm hne)
        refine pairwise_cons.mpr ⟨fun z hz => ?_, hsort⟩
        rcases mem_cons.mp hz with rfl | hz
        · exact hlt
        · exact hlt.trans (hcons.1 z hz)

theorem sorted_foldl_put (hsort : Sorted key l) (m : List α) :
    Sorted key (m.foldl (put key) l) :=
  foldlRecOn m _ hsort fun _ h x _ => sorted_put h x

/-- Storing another entry under a key exchanges the entry of that key. -/
theorem put_exchange (hsort : Sorted key l) {x' : α} (hkey : key x' = key x) :
    put key l x' = (put key l x).map fun y => if key y = key x then x' else y := by
  induction l with
  | nil => simp [put]
  | cons y l ih =>
    have hcons := pairwise_cons.mp hsort
    have hrest : key x ≤ key y → (l.map fun z => if key z = key x then x' else z) = l := by
      intro hle
      refine (map_congr_left fun z hz => ?_).trans (map_id l)
      exact if_neg (hle.trans_lt (hcons.1 z hz)).ne'
    simp only [put, hkey]
    split
    · rename_i hlt
      rw [map_cons, if_neg hlt.ne, ih hcons.2]
    · rename_i hge
      rw [not_lt] at hge
      split
      · rw [map_cons, if_pos rfl, hrest hge]
      · rename_i hne
        rw [map_cons, if_pos rfl, map_cons, if_neg hne, hrest hge]

/-- An entry under a new key is added. -/
theorem perm_put (hnew : ∀ y ∈ l, key y ≠ key x) : (put key l x).Perm (x :: l) := by
  induction l with
  | nil => exact .refl _
  | cons y l ih =>
    rw [put, if_neg (hnew y mem_cons_self)]
    split
    · have ih := ih fun z hz => hnew z (mem_cons_of_mem _ hz)
      exact (ih.cons y).trans (Perm.swap x y l)
    · exact .refl _

/-- Entries of a sorted list under one key are equal. -/
theorem Sorted.eq_of_key_eq (hsort : Sorted key l) (hx : x ∈ l) (hy : y ∈ l)
    (hkey : key x = key y) : x = y := by
  obtain ⟨i, hi, rfl⟩ := getElem_of_mem hx
  obtain ⟨j, hj, rfl⟩ := getElem_of_mem hy
  rcases lt_trichotomy i j with hij | rfl | hij
  · exact absurd hkey (pairwise_iff_getElem.mp hsort i j hi hj hij).ne
  · rfl
  · exact absurd hkey (pairwise_iff_getElem.mp hsort j i hj hi hij).ne'

/-- A prefix of a sorted list holds every entry up to one of its own. -/
theorem Sorted.mem_initial (hsort : Sorted key l) (hm : m <+: l) (hx : x ∈ m) (hy : y ∈ l)
    (hle : key y ≤ key x) : y ∈ m := by
  obtain ⟨rest, rfl⟩ := hm
  rcases mem_append.mp hy with hy | hy
  · exact hy
  · exact absurd ((pairwise_append.mp hsort).2.2 x hx y hy) (not_lt.mpr hle)

/-- The last entry has the largest key. -/
theorem Sorted.le_getLast (hsort : Sorted key l) (hy : l.getLast? = some y) (hx : x ∈ l) :
    key x ≤ key y := by
  obtain ⟨rest, rfl⟩ := getLast?_eq_some_iff.mp hy
  rcases mem_append.mp hx with hx | hx
  · exact ((pairwise_append.mp hsort).2.2 x hx y mem_cons_self).le
  · rw [mem_singleton.mp hx]

/-- A sorted list is determined by its entries. -/
theorem Sorted.ext (hl : Sorted key l) (hm : Sorted key m) (h : ∀ x, x ∈ l ↔ x ∈ m) : l = m := by
  have hnodup : ∀ {l : List α}, Sorted key l → l.Nodup := fun hsort =>
    hsort.imp fun hlt heq => absurd (congrArg key heq) hlt.ne
  have hperm : l.Perm m := (perm_ext_iff_of_nodup (hnodup hl) (hnodup hm)).mpr h
  exact hperm.eq_of_pairwise (fun x y _ _ hxy hyx => absurd hxy hyx.asymm) hl hm

/-- Storing the entries of a sorted list gives the list. -/
theorem Sorted.foldl_put_nil (hl : Sorted key l) : l.foldl (put key) [] = l :=
  foldl_put_eq_append hl nofun

end Keyed
