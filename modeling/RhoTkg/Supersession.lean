import RhoTkg.Chain
import RhoTkg.Library.Search
import Mathlib.Data.List.DropRight
import Mathlib.Data.List.GetD
import Mathlib.Order.Bounds.Basic

/-!
# Supersession: where a replacing write ends an older belief

A replacing write (`Update`, `CloseVersion`, a label change) stamps the row it replaces with `TxTo`,
the `TxFrom` of its own row.  In the own-bounds arm such a row ends, at its start, every older
belief that started at or before it.  `supersessionCaps` computes those ends for a chain sorted by
start.

The algorithm walks the chain from the latest start to the earliest and keeps a stack of replacing
rows, bottom first: towards the top the starts fall and the beliefs age, so the replacing rows newer
than a given row are a bottom run of the stack, and the top of that run has the least start.  Two
galloping searches keep the walk linear on the usual chain; `hint` is the answer of the previous
search over the replaced rows.

`supersessionCaps_spec` is what the walk computes: the least start at or after a row's own of a
replacing row newer than it.  The starts are a parameter, as in the source: nodes and relationships
pass their own key.
-/

namespace RhoTkg

open List

variable {V : Type}

/-- `replacedRow`: a row a replacing write superseded --- the write's `TxFrom` and the row's
version. -/
structure ReplacedRow where
  tx : Int
  version : Nat
deriving DecidableEq, Repr, Inhabited

/-- The order `byTx` of replaced rows. -/
def ReplacedRow.byTx (a b : ReplacedRow) : Prop :=
  a.tx < b.tx ∨ (a.tx = b.tx ∧ a.version ≤ b.version)

instance : DecidableRel ReplacedRow.byTx := fun _ _ => inferInstanceAs (Decidable (_ ∨ _))

/-- The row was replaced: a `TxTo` after its own `TxFrom` on a row that is no tombstone. -/
def Row.replacedRow (r : Row V) : Option ReplacedRow :=
  match r.temporal with
  | some tm =>
    if tm.txFrom < tm.txTo ∧ tm.deletedAt = 0 then some ⟨tm.txTo, r.version⟩ else none
  | none => none

/-- The replaced rows of a chain, sorted by transaction instant, then version. -/
def replacedRows (chain : List (Row V)) : List ReplacedRow :=
  (chain.filterMap Row.replacedRow).insertionSort ReplacedRow.byTx

/-- What the walk reads of a row: `starts[i]`, `txs[i]` and `versions[i]`. -/
structure Belief where
  start : Int
  tx : Int
  version : Nat
deriving DecidableEq, Repr, Inhabited

namespace Supersession

/-- Lower bound of `tx` among the replaced rows, searched from the previous answer. -/
def lowerBound (replaced : List ReplacedRow) (hint : Nat) (tx : Int) : Nat :=
  let p := fun k => decide (tx ≤ (replaced.getD k default).tx)
  if hint = replaced.length ∨ p hint = true then Search.gallop p hint
  else Search.bisect p replaced.length (hint + 1) replaced.length

/-- `replacing`: the row was recorded at the `TxTo` of a lower version it replaced.  The first
component is the next hint. -/
def replacing (replaced : List ReplacedRow) (hint : Nat) (b : Belief) : Nat × Bool :=
  let lo := lowerBound replaced hint b.tx
  (lo, decide (lo < replaced.length) && (replaced.getD lo default).tx == b.tx &&
    decide ((replaced.getD lo default).version < b.version))

/-- `newer`: position `a` holds a newer belief than position `b`. -/
def newer (rows : List Belief) (a b : Nat) : Bool :=
  let x := rows.getD a default
  let y := rows.getD b default
  if x.tx ≠ y.tx then decide (y.tx < x.tx)
  else if x.version ≠ y.version then decide (y.version < x.version)
  else decide (a < b)

/-- The state of the walk: the hint, the stack (bottom first), and the caps of the rows visited so
far, in chain order. -/
structure Scan where
  hint : Nat
  stack : List Nat
  caps : List (Option Int)

/-- Visiting position `p` for the stack: a replacing row takes the place of the rows at the top it
dominates. -/
def pushReplacing (rows : List Belief) (replaced : List ReplacedRow) (s : Scan) (p : Nat) : Scan :=
  let r := replacing replaced s.hint (rows.getD p default)
  if r.2 then
    { s with hint := r.1, stack := s.stack.rdropWhile (fun q => !newer rows q p) ++ [p] }
  else { s with hint := r.1 }

/-- The start of the top of the bottom run of rows newer than `p`. -/
def beliefCap (rows : List Belief) (stack : List Nat) (p : Nat) : Option Int :=
  let older := fun k => !newer rows (stack.getD k 0) p
  let m :=
    if stack.length = 0 then 0
    else if older (stack.length - 1) then Search.gallop older (stack.length - 1)
    else stack.length
  if 0 < m then some (rows.getD (stack.getD (m - 1) 0) default).start else none

/-- The first position of the run of equal starts that ends at `i`, looked for below `j`. -/
def groupStart (rows : List Belief) (i : Nat) : Nat → Nat
  | 0 => 0
  | j + 1 =>
    if (rows.getD j default).start = (rows.getD i default).start then groupStart rows i j
    else j + 1

/-- The `k` positions from `j + k - 1` down to `j`. -/
def positionsDown (j : Nat) : Nat → List Nat
  | 0 => []
  | k + 1 => (j + k) :: positionsDown j k

/-- The walk over the first `n` positions, from the last one down: a run of equal starts is pushed
as a whole before its rows are capped. -/
def walk (rows : List Belief) (replaced : List ReplacedRow) : Nat → Nat → Scan → Scan
  | 0, _, s => s
  | _ + 1, 0, s => s
  | fuel + 1, i + 1, s =>
    let j := groupStart rows i i
    let s := (positionsDown j (i + 1 - j)).foldl (pushReplacing rows replaced) s
    let s := (positionsDown j (i + 1 - j)).foldl
      (fun s p => { s with caps := beliefCap rows s.stack p :: s.caps }) s
    walk rows replaced fuel j s

end Supersession

/-- The beliefs of a chain whose rows start at `start`. -/
def beliefs (start : Row V → Int) (chain : List (Row V)) : List Belief :=
  chain.map fun r => ⟨start r, r.beliefTx, r.version⟩

/-- `supersessionCaps`: the belief ends of a chain sorted by start; the empty list caps nothing. -/
def supersessionCaps (start : Row V → Int) (chain : List (Row V)) : List (Option Int) :=
  let replaced := replacedRows chain
  if replaced = [] then []
  else
    let caps := (Supersession.walk (beliefs start chain) replaced chain.length chain.length
      ⟨replaced.length, [], []⟩).caps
    if caps.all (·.isNone) then [] else caps

/-- The beliefs of a chain under the resolver's start key. -/
def Core.beliefs (c : Core) (chain : List (Row V)) : List Belief :=
  RhoTkg.beliefs c.nodeValidFrom chain

/-- The belief ends under the resolver's start key. -/
def Core.supersessionCaps (c : Core) (chain : List (Row V)) : List (Option Int) :=
  RhoTkg.supersessionCaps c.nodeValidFrom chain

/-- `superCaps.end`: the valid end `vEnd` of position `i` capped at its belief end, `none` when the
cap leaves nothing of the row. -/
def superCapsEnd (a : ValidAxis) (caps : List (Option Int)) (i : Nat) (vStart vEnd : Int) :
    Option Int :=
  match caps.getD i none with
  | none => some vEnd
  | some cap =>
    if cap ≤ vStart then none
    else if a.isOpen vEnd || cap < vEnd then some cap
    else some vEnd

namespace Supersession

/-! ## Belief order -/

variable {a b hint : Nat} {replaced : List ReplacedRow}

theorem newer_trans {rows : List Belief} {c : Nat} (hab : newer rows a b = true)
    (hbc : newer rows b c = true) : newer rows a c = true := by
  simp only [newer] at *
  split_ifs at * <;> simp only [decide_eq_true_eq] at * <;> omega

theorem newer_total (rows : List Belief) (hne : a ≠ b) :
    newer rows a b = true ∨ newer rows b a = true := by
  simp only [newer]
  split_ifs <;> simp only [decide_eq_true_eq] <;> omega

/-! ## Replacing rows -/

instance : Std.Total ReplacedRow.byTx := ⟨fun a b => by unfold ReplacedRow.byTx; omega⟩

instance : IsTrans ReplacedRow ReplacedRow.byTx :=
  ⟨fun a b c => by unfold ReplacedRow.byTx; omega⟩

theorem replacedRows_pairwise (chain : List (Row V)) :
    (replacedRows chain).Pairwise ReplacedRow.byTx :=
  pairwise_insertionSort _ _

theorem byTx_getD (hs : replaced.Pairwise ReplacedRow.byTx) {i j : Nat} (hij : i ≤ j)
    (hj : j < replaced.length) :
    ReplacedRow.byTx (replaced.getD i default) (replaced.getD j default) := by
  rw [getD_eq_getElem _ _ (lt_of_le_of_lt hij hj), getD_eq_getElem _ _ hj]
  rcases Nat.eq_or_lt_of_le hij with rfl | hlt
  · exact .inr ⟨rfl, le_rfl⟩
  · exact pairwise_iff_getElem.mp hs i j _ hj hlt

theorem lowerBound_isFirst (hs : replaced.Pairwise ReplacedRow.byTx)
    (hhint : hint ≤ replaced.length) (tx : Int) :
    Search.IsFirst (fun k => decide (tx ≤ (replaced.getD k default).tx)) replaced.length
      (lowerBound replaced hint tx) := by
  have hmono : Search.MonoBelow (fun k => decide (tx ≤ (replaced.getD k default).tx))
      replaced.length := by
    intro i j hij hj hi
    rw [decide_eq_true_eq] at hi ⊢
    rcases byTx_getD hs hij hj with hlt | ⟨heq, -⟩ <;> omega
  unfold lowerBound
  simp only
  split
  · rename_i hcond
    refine Search.gallop_isFirst hmono hhint fun j hj hjn => ?_
    rcases hcond with heq | htrue
    · omega
    · exact hmono hint j hj hjn htrue
  · rename_i hcond
    rw [not_or] at hcond
    refine Search.bisect_isFirst hmono _ _ _ (by omega) (by omega) le_rfl (fun j hj => ?_)
      (by omega)
    by_contra htrue
    exact hcond.2 (hmono j hint (by omega) (by omega) (by simpa using htrue))

/-- The row at the lower bound decides: it has the lowest version replaced at that instant. -/
theorem replacing_iff (hs : replaced.Pairwise ReplacedRow.byTx) (hhint : hint ≤ replaced.length)
    (b : Belief) :
    (replacing replaced hint b).2 = true ↔
      ∃ r ∈ replaced, r.tx = b.tx ∧ r.version < b.version := by
  have hfirst := lowerBound_isFirst hs hhint b.tx
  simp only [replacing, Bool.and_eq_true, decide_eq_true_eq, beq_iff_eq]
  constructor
  · rintro ⟨⟨hlt, htx⟩, hver⟩
    refine ⟨replaced.getD (lowerBound replaced hint b.tx) default, ?_, htx, hver⟩
    rw [getD_eq_getElem _ _ hlt]
    exact getElem_mem hlt
  · rintro ⟨r, hr, htx, hver⟩
    obtain ⟨k, hk, rfl⟩ := getElem_of_mem hr
    have hle : lowerBound replaced hint b.tx ≤ k := by
      by_contra hgt
      have hfalse := hfirst.before k (by omega)
      rw [decide_eq_false_iff_not, getD_eq_getElem _ _ hk] at hfalse
      omega
    have hlt := lt_of_le_of_lt hle hk
    have hge := hfirst.after _ le_rfl hlt
    rw [decide_eq_true_eq] at hge
    have hby := byTx_getD hs hle hk
    rw [getD_eq_getElem _ _ hk] at hby
    unfold ReplacedRow.byTx at hby
    omega

theorem replacing_hint_le (hs : replaced.Pairwise ReplacedRow.byTx) (hhint : hint ≤ replaced.length)
    (b : Belief) : (replacing replaced hint b).1 ≤ replaced.length :=
  (lowerBound_isFirst hs hhint b.tx).le

end Supersession

/-- Position `q` of a chain's beliefs is a replacing row. -/
def IsReplacing (rows : List Belief) (replaced : List ReplacedRow) (q : Nat) : Prop :=
  ∃ r ∈ replaced, r.tx = (rows.getD q default).tx ∧ r.version < (rows.getD q default).version

namespace Supersession

/-! ## The stack -/

/-- The stack after the walk has pushed every position from `j` on: replacing rows whose positions
and beliefs fall towards the top, such that every replacing row visited is dominated by one of
them. -/
structure StackInv (rows : List Belief) (replaced : List ReplacedRow) (j : Nat)
    (stack : List Nat) : Prop where
  mem : ∀ q ∈ stack, j ≤ q ∧ q < rows.length ∧ IsReplacing rows replaced q
  falling : stack.Pairwise fun a b => b < a ∧ newer rows a b = true
  dominated : ∀ q, j ≤ q → q < rows.length → IsReplacing rows replaced q →
    ∃ s ∈ stack, s ≤ q ∧ (s = q ∨ newer rows s q = true)

theorem stackInv_nil (rows : List Belief) (replaced : List ReplacedRow) :
    StackInv rows replaced rows.length [] :=
  ⟨by simp, Pairwise.nil, by omega⟩

variable {p q : Nat} {rows : List Belief} {stack : List Nat} {replaced : List ReplacedRow}

/-- What is left of the stack below a new row `p` is newer than `p`. -/
theorem newer_of_mem_rdropWhile (hfall : stack.Pairwise fun a b => b < a ∧ newer rows a b = true)
    (hq : q ∈ stack.rdropWhile fun q => !newer rows q p) : newer rows q p = true := by
  have hne : stack.rdropWhile (fun q => !newer rows q p) ≠ [] := ne_nil_of_mem hq
  have hlast := rdropWhile_last_not (fun q => !newer rows q p) stack hne
  rw [Bool.not_eq_true', Bool.not_eq_false] at hlast
  have hsub : (stack.rdropWhile fun q => !newer rows q p).Pairwise
      fun a b => b < a ∧ newer rows a b = true :=
    hfall.sublist ( rdropWhile_prefix _ _).sublist
  rw [← dropLast_append_getLast hne] at hq hsub
  rcases mem_append.mp hq with hq | hq
  · have hrel := (pairwise_append.mp hsub).2.2 q hq _ mem_cons_self
    exact newer_trans hrel.2 hlast
  · exact mem_singleton.mp hq ▸ hlast

/-- A row that `p` pushed off the stack is dominated by `p`. -/
theorem newer_of_dropped (hq : q ∈ stack) (hne : q ≠ p)
    (hdrop : q ∉ stack.rdropWhile fun q => !newer rows q p) : newer rows p q = true := by
  have htake : q ∈ stack.rtakeWhile fun q => !newer rows q p := by
    rw [← rdropWhile_append_rtakeWhile (p := fun q => !newer rows q p) (l := stack)] at hq
    exact (mem_append.mp hq).resolve_left hdrop
  have hnot := mem_rtakeWhile_imp htake
  rw [Bool.not_eq_true'] at hnot
  rcases newer_total rows hne with h | h
  · cases hnot.symm.trans h
  · exact h

/-- Pushing the next position down keeps the stack's invariant, and the hint stays a position of
the replaced rows. -/
theorem StackInv.push (hs : replaced.Pairwise ReplacedRow.byTx) {s : Scan} (hp : p < rows.length)
    (hinv : StackInv rows replaced (p + 1) s.stack) (hhint : s.hint ≤ replaced.length) :
    StackInv rows replaced p (pushReplacing rows replaced s p).stack ∧
      (pushReplacing rows replaced s p).hint ≤ replaced.length ∧
      (pushReplacing rows replaced s p).caps = s.caps := by
  have hrepl := replacing_iff hs hhint (rows.getD p default)
  have hle := replacing_hint_le hs hhint (rows.getD p default)
  unfold pushReplacing
  simp only
  split
  · rename_i hyes
    refine ⟨⟨?_, ?_, ?_⟩, hle, rfl⟩
    · intro q hq
      rcases mem_append.mp hq with hq | hq
      · have hmem := hinv.mem q (( rdropWhile_prefix _ _).mem hq)
        exact ⟨by omega, hmem.2⟩
      · obtain rfl := mem_singleton.mp hq
        exact ⟨le_rfl, hp, hrepl.mp hyes⟩
    · refine pairwise_append.mpr
        ⟨hinv.falling.sublist ( rdropWhile_prefix _ _).sublist, pairwise_singleton _ _,
          fun a ha b hb => ?_⟩
      obtain rfl := mem_singleton.mp hb
      have hmem := hinv.mem a (( rdropWhile_prefix _ _).mem ha)
      exact ⟨by omega, newer_of_mem_rdropWhile hinv.falling ha⟩
    · intro q hpq hq hR
      rcases Nat.eq_or_lt_of_le hpq with rfl | hlt
      · exact ⟨p, by simp, le_rfl, .inl rfl⟩
      · obtain ⟨t, ht, htq, hdom⟩ := hinv.dominated q hlt hq hR
        by_cases hkeep : t ∈ s.stack.rdropWhile fun q => !newer rows q p
        · exact ⟨t, mem_append_left _ hkeep, htq, hdom⟩
        · have hmem := hinv.mem t ht
          have hpt := newer_of_dropped ht (by omega) hkeep
          refine ⟨p, by simp, hpq, .inr ?_⟩
          rcases hdom with rfl | hdom
          · exact hpt
          · exact newer_trans hpt hdom
  · rename_i hno
    refine ⟨⟨fun q hq => ?_, hinv.falling, fun q hpq hq hR => ?_⟩, hle, rfl⟩
    · have hmem := hinv.mem q hq
      exact ⟨by omega, hmem.2⟩
    · rcases Nat.eq_or_lt_of_le hpq with rfl | hlt
      · exact absurd (hrepl.mpr hR) hno
      · exact hinv.dominated q hlt hq hR

/-- What the cap of a position has to be: the least start, at or after its own, of a replacing row
newer than it. -/
def IsCap (rows : List Belief) (replaced : List ReplacedRow) (p : Nat) : Option Int → Prop
  | none => ∀ q, q < rows.length → IsReplacing rows replaced q → newer rows q p = true →
      (rows.getD q default).start < (rows.getD p default).start
  | some cap =>
      (∃ q, q < rows.length ∧ IsReplacing rows replaced q ∧ newer rows q p = true ∧
        (rows.getD p default).start ≤ (rows.getD q default).start ∧
        (rows.getD q default).start = cap) ∧
      ∀ q, q < rows.length → IsReplacing rows replaced q → newer rows q p = true →
        (rows.getD p default).start ≤ (rows.getD q default).start →
        cap ≤ (rows.getD q default).start

/-- The rows are sorted by start. -/
def SortedByStart (rows : List Belief) : Prop :=
  ∀ i j, i ≤ j → j < rows.length → (rows.getD i default).start ≤ (rows.getD j default).start

/-- The bottom run of a stack: how many of its rows are newer than `p`. -/
theorem beliefCap_run (hfall : stack.Pairwise fun a b => b < a ∧ newer rows a b = true) :
    ∃ m, Search.IsFirst (fun k => !newer rows (stack.getD k 0) p) stack.length m ∧
      beliefCap rows stack p =
        if 0 < m then some (rows.getD (stack.getD (m - 1) 0) default).start else none := by
  have hmono : Search.MonoBelow (fun k => !newer rows (stack.getD k 0) p) stack.length := by
    intro i j hij hj hi
    rcases Nat.eq_or_lt_of_le hij with rfl | hlt
    · exact hi
    · rw [Bool.not_eq_true'] at hi ⊢
      have hrel := pairwise_iff_getElem.mp hfall i j (by omega) hj hlt
      rw [getD_eq_getElem _ _ (by omega)] at hi
      rw [getD_eq_getElem _ _ hj]
      by_contra htrue
      rw [Bool.not_eq_false] at htrue
      rw [newer_trans hrel.2 htrue] at hi
      cases hi
  unfold beliefCap
  simp only
  split
  · exact ⟨0, ⟨Nat.zero_le _, by omega, by omega⟩, rfl⟩
  · split
    · rename_i hpos htop
      exact ⟨_, Search.gallop_isFirst hmono (by omega) fun j hj hjn => by
        obtain rfl : j = stack.length - 1 := by omega
        exact htop, rfl⟩
    · rename_i hpos htop
      refine ⟨_, ⟨le_rfl, fun j hj => ?_, by omega⟩, rfl⟩
      by_contra htrue
      exact htop (hmono j _ (by omega) (by omega) (by simpa using htrue))

/-- The cap read off the stack is the cap of the row, when the stack holds the positions from `j`
on and those are exactly the rows that start at or after it. -/
theorem StackInv.isCap {j : Nat} (hinv : StackInv rows replaced j stack)
    (hsort : SortedByStart rows)
    (hj : ∀ q, q < rows.length → ((rows.getD p default).start ≤ (rows.getD q default).start ↔ j ≤
      q)) : IsCap rows replaced p (beliefCap rows stack p) := by
  obtain ⟨m, hm, hcap⟩ := beliefCap_run (p := p) hinv.falling
  -- a replacing row newer than `p` is dominated by a row of the bottom run
  have hdom : ∀ q, q < rows.length → IsReplacing rows replaced q → newer rows q p = true →
      (rows.getD p default).start ≤ (rows.getD q default).start →
      ∃ k, k < m ∧ stack.getD k 0 ≤ q := by
    intro q hq hR hnew hstart
    obtain ⟨t, ht, htq, hdom⟩ := hinv.dominated q ((hj q hq).mp hstart) hq hR
    have hnewt : newer rows t p = true := by
      rcases hdom with rfl | hdom
      · exact hnew
      · exact newer_trans hdom hnew
    obtain ⟨k, hk, rfl⟩ := getElem_of_mem ht
    refine ⟨k, ?_, by rwa [getD_eq_getElem _ _ hk]⟩
    by_contra hge
    have hold := hm.after k (by omega) hk
    rw [getD_eq_getElem _ _ hk, hnewt] at hold
    cases hold
  rw [hcap]
  split
  · have hlen : m - 1 < stack.length := by
      have := hm.le
      omega
    have hmem := hinv.mem _ (getElem_mem hlen)
    have hnew := hm.before (m - 1) (by omega)
    rw [Bool.not_eq_false', getD_eq_getElem _ _ hlen] at hnew
    refine ⟨⟨stack[m - 1], hmem.2.1, hmem.2.2, hnew, (hj _ hmem.2.1).mpr hmem.1,
      by rw [getD_eq_getElem stack _ hlen]⟩, fun q hq hR hnewq hstart => ?_⟩
    obtain ⟨k, hk, hkq⟩ := hdom q hq hR hnewq hstart
    have hklen : k < stack.length := lt_of_lt_of_le hk hm.le
    have hle : stack.getD (m - 1) 0 ≤ stack.getD k 0 := by
      rcases Nat.eq_or_lt_of_le (show k ≤ m - 1 by omega) with rfl | hlt
      · exact le_rfl
      · rw [getD_eq_getElem _ _ hlen, getD_eq_getElem _ _ hklen]
        exact (pairwise_iff_getElem.mp hinv.falling k (m - 1) hklen hlen hlt).1.le
    exact hsort _ _ (le_trans hle hkq) hq
  · intro q hq hR hnew
    by_contra hstart
    obtain ⟨k, hk, -⟩ := hdom q hq hR hnew (not_lt.mp hstart)
    omega

/-! ## The walk -/

theorem groupStart_spec (rows : List Belief) (i : Nat) : ∀ j, groupStart rows i j ≤ j ∧
    (∀ k, groupStart rows i j ≤ k → k < j →
      (rows.getD k default).start = (rows.getD i default).start) ∧
    (0 < groupStart rows i j →
      (rows.getD (groupStart rows i j - 1) default).start ≠ (rows.getD i default).start)
  | 0 => ⟨le_rfl, by omega, fun h => absurd h (by simp [groupStart])⟩
  | j + 1 => by
    rw [groupStart]
    split
    · rename_i heq
      obtain ⟨hle, hrun, hstop⟩ := groupStart_spec rows i j
      refine ⟨by omega, fun k hk hkj => ?_, hstop⟩
      rcases Nat.eq_or_lt_of_le (Nat.le_of_lt_succ hkj) with rfl | hlt
      · exact heq
      · exact hrun k hk hlt
    · rename_i hne
      exact ⟨le_rfl, by omega, fun _ => hne⟩

/-- In a sorted chain the rows that start at or after a row of the group are those from the
group's first position on. -/
theorem groupStart_le_iff (hsort : SortedByStart rows) {i : Nat} (hi : i < rows.length)
    (hp : groupStart rows i i ≤ p) (hpi : p ≤ i) (hq : q < rows.length) :
    (rows.getD p default).start ≤ (rows.getD q default).start ↔ groupStart rows i i ≤ q := by
  obtain ⟨hle, hrun, hstop⟩ := groupStart_spec rows i i
  have hstart : ∀ k, groupStart rows i i ≤ k → k ≤ i →
      (rows.getD k default).start = (rows.getD i default).start := by
    intro k hk hki
    rcases Nat.eq_or_lt_of_le hki with rfl | hlt
    · rfl
    · exact hrun k hk hlt
  constructor
  · intro hpq
    by_contra hlt
    have hprev := hsort q (groupStart rows i i - 1) (by omega) (by omega)
    have hlast := hsort (groupStart rows i i - 1) i (by omega) hi
    rw [hstart p hp hpi] at hpq
    omega
  · intro hle'
    rw [hstart p hp hpi, ← hstart _ le_rfl hle]
    exact hsort _ _ hle' hq

theorem foldl_pushReplacing (hs : replaced.Pairwise ReplacedRow.byTx) (j : Nat) :
    ∀ (k : Nat) (s : Scan),
    j + k ≤ rows.length → StackInv rows replaced (j + k) s.stack → s.hint ≤ replaced.length →
    StackInv rows replaced j ((positionsDown j k).foldl (pushReplacing rows replaced) s).stack ∧
      ((positionsDown j k).foldl (pushReplacing rows replaced) s).hint ≤ replaced.length ∧
      ((positionsDown j k).foldl (pushReplacing rows replaced) s).caps = s.caps
  | 0, _, _, hinv, hhint => ⟨hinv, hhint, rfl⟩
  | k + 1, s, hlen, hinv, hhint => by
    have hpush := StackInv.push hs (show j + k < rows.length by omega) hinv hhint
    have hrest := foldl_pushReplacing hs j k _ (by omega) hpush.1 hpush.2.1
    rw [positionsDown, foldl_cons]
    exact ⟨hrest.1, hrest.2.1, hrest.2.2.trans hpush.2.2⟩

theorem foldl_beliefCap (rows : List Belief) (j : Nat) : ∀ (k : Nat) (s : Scan),
    (positionsDown j k).foldl
      (fun s p => { s with caps := beliefCap rows s.stack p :: s.caps }) s =
    { s with caps := (List.range k).map (fun t => beliefCap rows s.stack (j + t)) ++ s.caps }
  | 0, _ => rfl
  | k + 1, s => by
    rw [positionsDown, List.foldl_cons, foldl_beliefCap rows j k, List.range_succ]
    simp

/-- The walk gives every position its cap. -/
theorem walk_isCap (hs : replaced.Pairwise ReplacedRow.byTx) (hsort : SortedByStart rows) :
    ∀ (fuel i : Nat) (s : Scan), i ≤ fuel → i ≤ rows.length →
      StackInv rows replaced i s.stack → s.hint ≤ replaced.length →
      s.caps.length = rows.length - i →
      (∀ t, i ≤ t → t < rows.length → IsCap rows replaced t (s.caps.getD (t - i) none)) →
      (walk rows replaced fuel i s).caps.length = rows.length ∧
        ∀ t, t < rows.length → IsCap rows replaced t ((walk rows replaced fuel i s).caps.getD t none)
  | 0, i, s, hfuel, _, _, _, hlen, hcaps => by
    obtain rfl : i = 0 := by omega
    exact ⟨hlen, fun t ht => hcaps t (Nat.zero_le t) ht⟩
  | _ + 1, 0, s, _, _, _, _, hlen, hcaps => ⟨hlen, fun t ht => hcaps t (Nat.zero_le t) ht⟩
  | fuel + 1, i + 1, s, hfuel, hi, hinv, hhint, hlen, hcaps => by
    have hj := (groupStart_spec rows i i).1
    have hcount : groupStart rows i i + (i + 1 - groupStart rows i i) = i + 1 := by omega
    have hpush := foldl_pushReplacing hs (groupStart rows i i) (i + 1 - groupStart rows i i) s
      (hcount.trans_le hi) (hcount.symm ▸ hinv) hhint
    rw [walk]
    simp only [foldl_beliefCap]
    refine walk_isCap hs hsort fuel _ _ (by omega) (by omega) hpush.1 hpush.2.1 ?_ ?_
    · simp only [length_append, length_map, length_range, hpush.2.2]
      omega
    · intro t hjt ht
      simp only
      by_cases htop : t ≤ i
      · rw [getD_append _ _ _ _ (by simp; omega), getD_eq_getElem _ _ (by simp; omega),
          getElem_map, getElem_range, Nat.add_sub_cancel' hjt]
        exact hpush.1.isCap hsort fun q hq =>
          groupStart_le_iff hsort (by omega) hjt htop hq
      · rw [getD_append_right _ _ _ _ (by simp; omega), hpush.2.2]
        have hold := hcaps t (by omega) ht
        convert hold using 2
        simp only [length_map, length_range]
        omega

end Supersession

section Spec

variable (start : Row V → Int) {chain : List (Row V)}

@[simp] theorem length_beliefs (chain : List (Row V)) :
    (beliefs start chain).length = chain.length := List.length_map ..

variable {q : Nat} {x : ReplacedRow}

theorem getD_beliefs (hq : q < chain.length) :
    (beliefs start chain).getD q default = ⟨start chain[q], chain[q].beliefTx, chain[q].version⟩ := by
  rw [getD_eq_getElem _ _ (by simpa using hq)]
  simp [beliefs]

theorem sortedByStart_of_pairwise (hsort : chain.Pairwise fun a b => start a ≤ start b) :
    Supersession.SortedByStart (beliefs start chain) := by
  intro i j hij hj
  rw [length_beliefs] at hj
  rw [getD_beliefs start (lt_of_le_of_lt hij hj), getD_beliefs start hj]
  rcases Nat.eq_or_lt_of_le hij with rfl | hlt
  · exact le_rfl
  · exact pairwise_iff_getElem.mp hsort i j _ hj hlt

/-- The walk over a whole chain. -/
theorem walk_caps (hsort : Supersession.SortedByStart (beliefs start chain)) :
    let caps := (Supersession.walk (beliefs start chain) (replacedRows chain) chain.length
      chain.length ⟨(replacedRows chain).length, [], []⟩).caps
    caps.length = chain.length ∧ ∀ i, i < chain.length →
      Supersession.IsCap (beliefs start chain) (replacedRows chain) i (caps.getD i none) := by
  have hstart := Supersession.stackInv_nil (beliefs start chain) (replacedRows chain)
  rw [length_beliefs] at hstart
  have hwalk := Supersession.walk_isCap (Supersession.replacedRows_pairwise chain) hsort
    chain.length chain.length ⟨(replacedRows chain).length, [], []⟩ le_rfl (by simp) hstart le_rfl
    (by simp) (by simp only [length_beliefs]; omega)
  rwa [length_beliefs] at hwalk

/-- On a chain sorted by start, the belief end of every row is its cap. -/
theorem supersessionCaps_isCap (hsort : Supersession.SortedByStart (beliefs start chain)) {i : Nat}
    (hi : i < chain.length) :
    Supersession.IsCap (beliefs start chain) (replacedRows chain) i
      ((supersessionCaps start chain).getD i none) := by
  obtain ⟨hlen, hcaps⟩ := walk_caps start hsort
  unfold supersessionCaps
  simp only
  split
  · rename_i hnil
    intro q _ hR
    obtain ⟨r, hr, -⟩ := hR
    rw [hnil] at hr
    cases hr
  · split
    · rename_i hall
      have hcap := hcaps i hi
      have hil := hlen.ge.trans_lt' hi
      rw [getD_eq_getElem _ _ hil] at hcap
      have hnone := all_eq_true.mp hall _ (getElem_mem hil)
      rw [Option.isNone_iff_eq_none] at hnone
      rw [hnone] at hcap
      exact hcap
    · exact hcaps i hi

/-! ## The specification -/

theorem mem_replacedRows : x ∈ replacedRows chain ↔ ∃ r ∈ chain, r.replacedRow = some x := by
  unfold replacedRows
  rw [mem_insertionSort, mem_filterMap]

theorem Row.replacedRow_eq_some {r : Row V} :
    r.replacedRow = some x ↔
      r.beliefTx < r.txTo ∧ r.deletedAt = 0 ∧ x = ⟨r.txTo, r.version⟩ := by
  unfold replacedRow beliefTx txTo deletedAt
  cases r.temporal with
  | none => simp
  | some tm =>
    simp only [Option.map_some, Option.getD_some]
    split
    · rename_i h
      simp [h, eq_comm]
    · rename_i h
      constructor
      · intro h'
        cases h'
      · rintro ⟨h1, h2, -⟩
        exact absurd ⟨h1, h2⟩ h

/-- A replacing row of the chain: it was recorded at the `TxTo` of a lower version that is no
tombstone. -/
def Replacing (chain : List (Row V)) (s : Row V) : Prop :=
  ∃ r ∈ chain, r.beliefTx < r.txTo ∧ r.deletedAt = 0 ∧ s.beliefTx = r.txTo ∧ r.version < s.version

/-- Position `q` holds a newer belief than position `i`: by `TxFrom`, then version, then the earlier
position. -/
def NewerBelief (chain : List (Row V)) (q i : Fin chain.length) : Prop :=
  chain[i].beliefTx < chain[q].beliefTx ∨ chain[q].beliefTx = chain[i].beliefTx ∧
    (chain[i].version < chain[q].version ∨ chain[q].version = chain[i].version ∧ q < i)

/-- The starts at which a replacing row ends the belief at position `i`. -/
def beliefEnds (chain : List (Row V)) (i : Fin chain.length) : Set Int :=
  {S | ∃ q : Fin chain.length, Replacing chain chain[q] ∧ NewerBelief chain q i ∧
    start chain[i] ≤ start chain[q] ∧ start chain[q] = S}

theorem isReplacing_iff (hq : q < chain.length) :
    IsReplacing (beliefs start chain) (replacedRows chain) q ↔ Replacing chain chain[q] := by
  simp only [IsReplacing, getD_beliefs start hq, mem_replacedRows, Row.replacedRow_eq_some]
  constructor
  · rintro ⟨x, ⟨r, hr, hlt, hdel, rfl⟩, htx, hver⟩
    exact ⟨r, hr, hlt, hdel, htx.symm, hver⟩
  · rintro ⟨r, hr, hlt, hdel, htx, hver⟩
    exact ⟨_, ⟨r, hr, hlt, hdel, rfl⟩, htx.symm, hver⟩

theorem newer_iff (q i : Fin chain.length) :
    Supersession.newer (beliefs start chain) q i = true ↔ NewerBelief chain q i := by
  simp only [Supersession.newer, getD_beliefs start q.isLt, getD_beliefs start i.isLt, NewerBelief,
    Fin.getElem_fin, Fin.lt_def]
  split_ifs <;> simp only [decide_eq_true_eq] <;> omega

/-- A cap is the least of the starts that end the belief; without a cap there is none. -/
theorem isCap_iff (i : Fin chain.length) (cap : Option Int) :
    Supersession.IsCap (beliefs start chain) (replacedRows chain) i cap ↔
      match cap with
      | none => beliefEnds start chain i = ∅
      | some S => IsLeast (beliefEnds start chain i) S := by
  have hi := getD_beliefs start i.isLt
  cases cap with
  | none =>
    simp only [Supersession.IsCap, length_beliefs, hi]
    constructor
    · refine fun h => Set.eq_empty_of_forall_notMem ?_
      rintro S ⟨q, hR, hnew, hle, -⟩
      have hlt := h q q.isLt ((isReplacing_iff start q.isLt).mpr hR) ((newer_iff start q i).mpr hnew)
      rw [getD_beliefs start q.isLt] at hlt
      exact absurd hle (not_le.mpr hlt)
    · intro h q hq hR hnew
      rw [getD_beliefs start hq]
      by_contra hle
      have hmem : start chain[q] ∈ beliefEnds start chain i := ⟨⟨q, hq⟩,
        (isReplacing_iff start hq).mp hR, (newer_iff start ⟨q, hq⟩ i).mp hnew, not_lt.mp hle, rfl⟩
      rw [h] at hmem
      exact hmem
  | some S =>
    simp only [Supersession.IsCap, length_beliefs, hi]
    constructor
    · rintro ⟨⟨q, hq, hR, hnew, hle, hS⟩, hmin⟩
      rw [getD_beliefs start hq] at hle hS
      refine ⟨⟨⟨q, hq⟩, (isReplacing_iff start hq).mp hR, (newer_iff start ⟨q, hq⟩ i).mp hnew, hle,
        hS⟩, ?_⟩
      rintro T ⟨q', hR', hnew', hle', rfl⟩
      have hcap := hmin q' q'.isLt ((isReplacing_iff start q'.isLt).mpr hR')
        ((newer_iff start q' i).mpr hnew')
      rw [getD_beliefs start q'.isLt] at hcap
      exact hcap hle'
    · rintro ⟨⟨q, hR, hnew, hle, hS⟩, hmin⟩
      refine ⟨⟨q, q.isLt, (isReplacing_iff start q.isLt).mpr hR, (newer_iff start q i).mpr hnew, ?_⟩,
        fun q' hq' hR' hnew' hle' => ?_⟩
      · rw [getD_beliefs start q.isLt]
        exact ⟨hle, hS⟩
      · rw [getD_beliefs start hq'] at hle' ⊢
        exact hmin ⟨⟨q', hq'⟩, (isReplacing_iff start hq').mp hR',
          (newer_iff start ⟨q', hq'⟩ i).mp hnew', hle', rfl⟩

/-- **What `supersessionCaps` computes.**  On a chain sorted by start, a row is capped exactly when a
replacing row that starts at or after it is a newer belief, at the least start of such a row; the caps
are aligned with the chain, and none are returned exactly when no row is capped. -/
theorem supersessionCaps_spec (hsort : chain.Pairwise fun a b => start a ≤ start b) :
    (∀ i : Fin chain.length,
      (((supersessionCaps start chain).getD i none).isSome = true ↔
        (beliefEnds start chain i).Nonempty) ∧
      ∀ S, (supersessionCaps start chain).getD i none = some S →
        IsLeast (beliefEnds start chain i) S) ∧
    (supersessionCaps start chain = [] ∨ (supersessionCaps start chain).length = chain.length) ∧
    (supersessionCaps start chain = [] ↔ ∀ i, beliefEnds start chain i = ∅) := by
  have hstarts := sortedByStart_of_pairwise start hsort
  have hcap : ∀ i : Fin chain.length, _ := fun i =>
    (isCap_iff start i _).mp (supersessionCaps_isCap start hstarts i.isLt)
  have hshape : supersessionCaps start chain = [] ∨
      (supersessionCaps start chain).length = chain.length ∧
        ∃ cap ∈ supersessionCaps start chain, cap ≠ none := by
    unfold supersessionCaps
    simp only
    split
    · exact .inl rfl
    · split
      · exact .inl rfl
      · rename_i hall
        refine .inr ⟨(walk_caps start hstarts).1, ?_⟩
        simpa [Option.isNone_iff_eq_none] using hall
  refine ⟨fun i => ⟨?_, fun S hS => ?_⟩, hshape.imp_right And.left, fun hnil i => ?_, fun hnone => ?_⟩
  · have h := hcap i
    cases hc : (supersessionCaps start chain).getD i none with
    | none =>
      rw [hc] at h
      simp [h]
    | some S =>
      rw [hc] at h
      simpa using ⟨S, h.1⟩
  · have h := hcap i
    rwa [hS] at h
  · have h := hcap i
    rwa [hnil, getD_nil] at h
  · refine hshape.resolve_right ?_
    rintro ⟨hlen, cap, hmem, hne⟩
    obtain ⟨k, hk, rfl⟩ := getElem_of_mem hmem
    have h := hcap ⟨k, hlen ▸ hk⟩
    rw [getD_eq_getElem _ _ hk] at h
    cases hS : (supersessionCaps start chain)[k] with
    | none => exact hne hS
    | some S =>
      rw [hS, hnone] at h
      exact h.1

/-- A row with open validity from 10, replaced at 5 by a row from 20 on. -/
def updatedChain : List (Row Nat) :=
  [⟨0, some { validFrom := 10, validTo := 0, txFrom := 1, txTo := 5 }, [], []⟩,
    ⟨1, some { validFrom := 20, validTo := 0, txFrom := 5 }, [], []⟩]

theorem supersessionCaps_spec_updatedChain :
    IsLeast (beliefEnds (fun r => (r.temporal.map (·.validFrom)).getD 0) updatedChain ⟨0, by decide⟩)
      20 :=
  ((supersessionCaps_spec _ (by decide)).1 ⟨0, by decide⟩).2 20 (by decide +kernel)

end Spec

end RhoTkg
