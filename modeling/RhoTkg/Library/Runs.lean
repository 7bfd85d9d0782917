import Mathlib.Tactic.Common

/-!
# Runs of a labelled transition system

A system is a set of initial states and a step relation labelled by events.  `Reachable` collects
the states of all runs; `Reachable.invariant` is the induction every safety result goes through,
and `Reachable.mono` passes from runs that meet an extra step condition to plain runs.  When the steps
are those of a function, `Along` says that a list of events meets a step condition, and
`Reachable.foldl` executes it.
-/

namespace Runs

variable {σ ε : Type*} {init : σ → Prop} {next next' : σ → ε → σ → Prop}

/-- The states reached from `init` by steps of `next`. -/
inductive Reachable (init : σ → Prop) (next : σ → ε → σ → Prop) : σ → Prop
  | start {s : σ} (h : init s) : Reachable init next s
  | step {s : σ} {e : ε} {s' : σ} (hs : Reachable init next s) (h : next s e s') :
      Reachable init next s'

/-- **The invariant rule.**  What holds initially and is kept by every step out of a reachable
state holds in every reachable state. -/
theorem Reachable.invariant {I : σ → Prop} (hinit : ∀ s, init s → I s)
    (hstep : ∀ s e s', Reachable init next s → I s → next s e s' → I s') {s : σ}
    (h : Reachable init next s) : I s := by
  induction h with
  | start h => exact hinit _ h
  | step hs h ih => exact hstep _ _ _ hs ih h

/-- Fewer steps reach fewer states. -/
theorem Reachable.mono (hsub : ∀ s e s', next s e s' → next' s e s') {s : σ}
    (h : Reachable init next s) : Reachable init next' s := by
  induction h with
  | start h => exact .start h
  | step _ h ih => exact .step ih (hsub _ _ _ h)

/-- A computation that succeeds: its first part does, and the rest on what that gave. -/
theorem bind_eq_ok {ε α β : Type*} {x : Except ε α} {f : α → Except ε β} {b : β} :
    x.bind f = .ok b ↔ ∃ a, x = .ok a ∧ f a = .ok b := by
  cases x <;> simp [Except.bind]

/-- The state after a list of events, when every one of them can happen. -/
def exec (step : σ → ε → Option σ) (s : σ) (es : List ε) : Option σ := es.foldlM step s

/-- Executing events from a reachable state ends in a reachable state. -/
theorem Reachable.exec {step : σ → ε → Option σ} {es : List ε} {s s' : σ}
    (h : Reachable init (fun s e s' => step s e = some s') s) (hrun : Runs.exec step s es = some s') :
    Reachable init (fun s e s' => step s e = some s') s' := by
  induction es generalizing s with
  | nil => exact Option.some.inj hrun ▸ h
  | cons e es ih =>
    obtain ⟨t, ht, hrest⟩ := Option.bind_eq_some_iff.mp hrun
    exact ih (h.step ht) hrest

section Guarded

variable (step : σ → ε → σ) (ok : σ → ε → Prop)

/-- Steps of a function that meet a condition on the state before. -/
def Guarded (s : σ) (e : ε) (s' : σ) : Prop := ok s e ∧ s' = step s e

/-- Every event of a list meets the condition when it happens. -/
def Along : σ → List ε → Prop
  | _, [] => True
  | s, e :: es => ok s e ∧ Along (step s e) es

instance decidableAlong [∀ s e, Decidable (ok s e)] : (s : σ) → (es : List ε) →
    Decidable (Along step ok s es)
  | _, [] => inferInstanceAs (Decidable True)
  | s, e :: es =>
    have := decidableAlong (step s e) es
    inferInstanceAs (Decidable (ok s e ∧ Along step ok (step s e) es))

variable {step ok}

/-- Events that meet the condition lead from a reachable state to a reachable state. -/
theorem Reachable.foldl {s : σ} {es : List ε} (h : Reachable init (Guarded step ok) s)
    (hok : Along step ok s es) : Reachable init (Guarded step ok) (es.foldl step s) := by
  induction es generalizing s with
  | nil => exact h
  | cons e es ih => exact ih (h.step ⟨hok.1, rfl⟩) hok.2

end Guarded

end Runs
