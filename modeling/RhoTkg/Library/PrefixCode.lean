import Mathlib.Data.List.Basic
import Mathlib.Tactic.Common
import Mathlib.Tactic.Ring

/-!
# Prefix codes

An encoding is a prefix code on a set of values when a code word can be told from whatever follows
it: two streams that begin with code words and are equal begin with the same one.  Prefix codes
compose --- pairs, lists of a known length, lists behind a count --- and an injective encoding of
constant length is one.

`bigEndian n v` are the `n` low bytes of `v`, the most significant first.
-/

namespace PrefixCode

open List

variable {α α' β : Type*} {P : α → Prop} {Q : α' → Prop} {enc : α → List β} {enc' : α' → List β}

/-- Code words of `enc` on `P` can be told from what follows them. -/
def On (P : α → Prop) (enc : α → List β) : Prop :=
  ∀ ⦃a b : α⦄ ⦃r s : List β⦄, P a → P b → enc a ++ r = enc b ++ s → a = b ∧ r = s

theorem On.of_length (n : ℕ) (hlen : ∀ a, P a → (enc a).length = n)
    (hinj : ∀ a b, P a → P b → enc a = enc b → a = b) : On P enc := by
  intro a b r s ha hb h
  obtain ⟨henc, hrest⟩ := append_inj h ((hlen a ha).trans (hlen b hb).symm)
  exact ⟨hinj a b ha hb henc, hrest⟩

theorem On.pair (h : On P enc) (h' : On Q enc') :
    On (fun p : α × α' => P p.1 ∧ Q p.2) (fun p => enc p.1 ++ enc' p.2) := by
  rintro ⟨a, a'⟩ ⟨b, b'⟩ r s ⟨ha, ha'⟩ ⟨hb, hb'⟩ heq
  simp only [append_assoc] at heq
  obtain ⟨rfl, htail⟩ := h ha hb heq
  obtain ⟨rfl, hrest⟩ := h' ha' hb' htail
  exact ⟨rfl, hrest⟩

/-- Lists of one length. -/
theorem On.flatMap (h : On P enc) {l m : List α} {r s : List β} (hl : ∀ a ∈ l, P a)
    (hm : ∀ a ∈ m, P a) (hlen : l.length = m.length)
    (heq : l.flatMap enc ++ r = m.flatMap enc ++ s) : l = m ∧ r = s := by
  induction l generalizing m with
  | nil =>
    cases m with
    | nil => exact ⟨rfl, heq⟩
    | cons b m => cases hlen
  | cons a l ih =>
    cases m with
    | nil => cases hlen
    | cons b m =>
      simp only [flatMap_cons, append_assoc] at heq
      obtain ⟨rfl, htail⟩ := h (hl a mem_cons_self) (hm b mem_cons_self) heq
      obtain ⟨rfl, hrest⟩ := ih (fun a ha => hl a (mem_cons_of_mem _ ha))
        (fun b hb => hm b (mem_cons_of_mem _ hb)) (Nat.succ.inj hlen) htail
      exact ⟨rfl, hrest⟩

/-- Lists behind their length. -/
theorem On.counted {bound : ℕ → Prop} {num : ℕ → List β} (hnum : On bound num) (h : On P enc) :
    On (fun l : List α => bound l.length ∧ ∀ a ∈ l, P a)
      (fun l => num l.length ++ l.flatMap enc) := by
  rintro l m r s ⟨hl, hlP⟩ ⟨hm, hmP⟩ heq
  simp only [append_assoc] at heq
  obtain ⟨hlen, heq⟩ := hnum hl hm heq
  exact h.flatMap hlP hmP hlen heq

/-- A sequence of code words that ends with the stream is read back, when no code word is empty. -/
theorem On.flatMap_inj (h : On P enc) (hne : ∀ a, enc a ≠ []) {l m : List α} (hl : ∀ a ∈ l, P a)
    (hm : ∀ a ∈ m, P a) (heq : l.flatMap enc = m.flatMap enc) : l = m := by
  induction l generalizing m with
  | nil =>
    cases m with
    | nil => rfl
    | cons b m =>
      exact absurd (append_eq_nil_iff.mp heq.symm).1 (hne b)
  | cons a l ih =>
    cases m with
    | nil =>
      exact absurd (append_eq_nil_iff.mp heq).1 (hne a)
    | cons b m =>
      obtain ⟨rfl, htail⟩ := h (hl a mem_cons_self) (hm b mem_cons_self) heq
      rw [ih (fun a ha => hl a (mem_cons_of_mem _ ha))
        (fun b hb => hm b (mem_cons_of_mem _ hb)) htail]

/-! ## Numbers -/

/-- A byte string. -/
abbrev Bytes := List UInt8

/-- The `n` low bytes of `v`, the most significant first. -/
def bigEndian : ℕ → ℕ → Bytes
  | 0, _ => []
  | n + 1, v => UInt8.ofNat (v / 256 ^ n) :: bigEndian n v

@[simp] theorem length_bigEndian (n v : ℕ) : (bigEndian n v).length = n := by
  induction n with
  | zero => rfl
  | succ n ih => rw [bigEndian, List.length_cons, ih]

theorem mod_eq_of_bigEndian_eq {n v w : ℕ} (h : bigEndian n v = bigEndian n w) :
    v % 256 ^ n = w % 256 ^ n := by
  induction n with
  | zero => simp [Nat.mod_one]
  | succ n ih =>
    simp only [bigEndian, cons.injEq] at h
    have hdigit : v / 256 ^ n % 256 = w / 256 ^ n % 256 := by
      simpa using congrArg UInt8.toNat h.1
    rw [Nat.pow_succ, Nat.mod_mul, Nat.mod_mul, ih h.2, hdigit]

/-- Numbers below `256 ^ n` in `n` bytes. -/
theorem bigEndian_on (n : ℕ) : On (· < 256 ^ n) (bigEndian n) := by
  refine On.of_length n (fun v _ => length_bigEndian n v) fun v w hv hw heq => ?_
  rw [← Nat.mod_eq_of_lt hv, ← Nat.mod_eq_of_lt hw, mod_eq_of_bigEndian_eq heq]

/-- The number whose bytes are given, the most significant first. -/
def ofBigEndian (bs : Bytes) : ℕ := bs.foldl (fun v b => v * 256 + b.toNat) 0

theorem foldl_bigEndian (n v a : ℕ) :
    (bigEndian n v).foldl (fun v b => v * 256 + b.toNat) a = a * 256 ^ n + v % 256 ^ n := by
  induction n generalizing a with
  | zero => simp [bigEndian, Nat.mod_one]
  | succ n ih =>
    have hdigit : (UInt8.ofNat (v / 256 ^ n)).toNat = v / 256 ^ n % 256 := by simp
    rw [bigEndian, foldl_cons, ih, hdigit, Nat.pow_succ, Nat.mod_mul (x := v)]
    ring

/-- A number that fits its bytes is read back. -/
theorem ofBigEndian_bigEndian {n v : ℕ} (h : v < 256 ^ n) : ofBigEndian (bigEndian n v) = v := by
  rw [ofBigEndian, foldl_bigEndian, Nat.zero_mul, Nat.zero_add, Nat.mod_eq_of_lt h]

end PrefixCode
