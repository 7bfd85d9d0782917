import Mathlib.Tactic.Common

/-!
# Programs on storage that may fail

A `Cell` is a piece of storage that is made durable by a sync: besides its content it keeps what a
crash may bring back, the content of the last sync and everything written since.  A program is run
under verdicts: `attempt` performs one operation that succeeds, fails, or is where the machine
stops, and `Triple.attempt` is the rule that follows its three continuations.
-/

namespace Faults

/-- A piece of storage, with the earlier contents a crash may still bring back. -/
structure Cell (α : Type*) where
  now : α
  before : List α
deriving DecidableEq, Repr

namespace Cell

variable {α : Type*} {P : α → Prop} {c : Cell α} {x : α}

/-- What the cell may hold after a crash. -/
def kept (c : Cell α) : List α := c.now :: c.before

/-- A write that is not synced yet. -/
def write (c : Cell α) (x : α) : Cell α := ⟨x, c.kept⟩

/-- From here on a crash keeps the content. -/
def sync (c : Cell α) : Cell α := ⟨c.now, []⟩

/-- A crash: the `n`-th content it may bring back is there, durably. -/
def crash (c : Cell α) (n : Nat) : Cell α := ⟨c.kept.getD n c.now, []⟩

/-- `P` holds of the content, whatever a crash keeps. -/
def Always (P : α → Prop) (c : Cell α) : Prop := ∀ x ∈ c.kept, P x

theorem Always.now (h : c.Always P) : P c.now := h _ List.mem_cons_self

theorem Always.write (h : c.Always P) (hx : P x) : (c.write x).Always P :=
  List.forall_mem_cons.mpr ⟨hx, h⟩

theorem always_sync (h : P c.now) : c.sync.Always P :=
  List.forall_mem_cons.mpr ⟨h, nofun⟩

theorem crash_now_mem (c : Cell α) (n : Nat) : (c.crash n).now ∈ c.kept := by
  show c.kept.getD n c.now ∈ c.kept
  rw [List.getD_eq_getElem?_getD]
  cases h : c.kept[n]? with
  | none => exact List.mem_cons_self
  | some y => exact List.mem_of_getElem? h

theorem Always.crash (h : c.Always P) (n : Nat) : (c.crash n).Always P :=
  always_sync (c := c.crash n) (h _ (c.crash_now_mem n))

end Cell

/-- What becomes of an operation. -/
inductive Verdict
  | ok
  | fails
  /-- the machine stops before the operation is done -/
  | stops
deriving DecidableEq, Repr

/-- A program: what it returns, nothing when the machine stopped, and the storage it leaves. -/
abbrev Prog (σ β : Type*) := σ → Option β × σ

variable {σ β : Type*}

def ret (b : β) : Prog σ β := fun s => (some b, s)

/-- One operation: it is `did` before `next` goes on, and it is as far as `part` when it fails or
when the machine stops. -/
def attempt (v : Verdict) (did part : σ → σ) (failed next : Prog σ β) : Prog σ β := fun s =>
  match v with
  | .ok => next (did s)
  | .fails => failed (part s)
  | .stops => (none, part s)

/-- Run where `pre` holds, `p` ends as `post` says. -/
def Triple (pre : σ → Prop) (p : Prog σ β) (post : Option β → σ → Prop) : Prop :=
  ∀ s, pre s → post (p s).1 (p s).2

variable {pre err : σ → Prop} {post : Option β → σ → Prop} {v : Verdict} {did part : σ → σ}
  {failed next : Prog σ β}

theorem Triple.ret {b : β} (h : ∀ s, pre s → post (some b) s) : Triple pre (ret b) post := h

theorem Triple.weaken {mid : σ → Prop} (h : Triple mid next post) (hpre : ∀ s, pre s → mid s) :
    Triple pre next post :=
  fun s hs => h s (hpre s hs)

/-- **The rule of an operation.** -/
theorem Triple.attempt (mid : σ → Prop) (hdid : ∀ s, pre s → mid (did s))
    (hpart : ∀ s, pre s → err (part s)) (hstops : ∀ s, err s → post none s)
    (hfailed : v = .fails → Triple err failed post) (hnext : v = .ok → Triple mid next post) :
    Triple pre (attempt v did part failed next) post := by
  intro s hs
  cases v with
  | ok => exact hnext rfl _ (hdid s hs)
  | fails => exact hfailed rfl _ (hpart s hs)
  | stops => exact hstops _ (hpart s hs)

/-- An operation that keeps the precondition, done or not. -/
theorem Triple.attempt_keep (hdid : ∀ s, pre s → pre (did s)) (hpart : ∀ s, pre s → pre (part s))
    (hstops : ∀ s, pre s → post none s) (hfailed : v = .fails → Triple pre failed post)
    (hnext : v = .ok → Triple pre next post) : Triple pre (Faults.attempt v did part failed next) post :=
  .attempt pre hdid hpart hstops hfailed hnext

/-- An operation about whose effect nothing is asked. -/
theorem Triple.attempt_any (hstops : ∀ s, post none s) (hfailed : Triple (fun _ => True) failed post)
    (hnext : Triple (fun _ => True) next post) :
    Triple (fun _ => True) (Faults.attempt v did part failed next) post :=
  .attempt_keep (fun _ _ => trivial) (fun _ _ => trivial) (fun s _ => hstops s) (fun _ => hfailed)
    fun _ => hnext

end Faults
