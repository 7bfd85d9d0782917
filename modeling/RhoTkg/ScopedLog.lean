import RhoTkg.ChangeLog

/-!
# The change log of the memory store

A standalone call logs its record at once: it gets the next LSN.  A transaction opens a scope; the
records of its calls wait in the scope's buffer, and the commit gives them the LSNs that follow and
splices them behind the log.
-/

namespace RhoTkg

variable {P : Type}

/-- The change-log part of the memory `Store`. -/
structure ScopedLog (P : Type) where
  logSeq : Nat
  changeLog : List (ChangeRecord P)
  scopedTokenSeq : Nat
  scopedLogs : Nat → Option (List P)

namespace ScopedLog

/-- A log without records and scopes. -/
def empty : ScopedLog P := ⟨0, [], 0, fun _ => none⟩

variable (l : ScopedLog P)

/-- `BeginScopedLog`: the log with the new scope, whose token is `scopedTokenSeq`. -/
def beginScopedLog : ScopedLog P :=
  { l with
    scopedTokenSeq := l.scopedTokenSeq + 1
    scopedLogs := Function.update l.scopedLogs (l.scopedTokenSeq + 1) (some []) }

/-- `logChangeLocked` outside a legacy scope. -/
def logChange (p : P) : ScopedLog P :=
  { l with logSeq := l.logSeq + 1, changeLog := l.changeLog ++ [⟨l.logSeq + 1, p⟩] }

/-- `logChangeScopedLocked`; `none` when the token is unknown. -/
def logChangeScoped (token : Nat) (p : P) : Option (ScopedLog P) :=
  (l.scopedLogs token).map fun buf =>
    { l with scopedLogs := Function.update l.scopedLogs token (some (buf ++ [p])) }

/-- The `log…RoutedLocked` family: token 0 logs at once.  A store door has written its rows before it
logs, so an unknown token loses the record. -/
def logRouted (token : Nat) (p : P) : ScopedLog P :=
  if token = 0 then l.logChange p else (l.logChangeScoped token p).getD l

/-- `CommitScopedLog`. -/
def commitScopedLog (token : Nat) : ScopedLog P :=
  match l.scopedLogs token with
  | none => l
  | some buffered =>
    { buffered.foldl logChange l with scopedLogs := Function.update l.scopedLogs token none }

/-- `DiscardScopedLog`. -/
def discardScopedLog (token : Nat) : ScopedLog P :=
  if token = 0 then l else { l with scopedLogs := Function.update l.scopedLogs token none }

/-- The records that wait in a scope. -/
def waiting (token : Nat) : List P := (l.scopedLogs token).getD []

/-- The payloads of the log in LSN order. -/
def payloads : List P := l.changeLog.map (·.payload)

@[simp] theorem payloads_logChange (p : P) : (l.logChange p).payloads = l.payloads ++ [p] := by
  simp [payloads, logChange]

theorem payloads_foldl_logChange (ps : List P) :
    (ps.foldl logChange l).payloads = l.payloads ++ ps := by
  induction ps generalizing l with
  | nil => simp
  | cons p ps ih => simp [ih]

/-- The commit splices the waiting records behind the log. -/
theorem payloads_commitScopedLog (token : Nat) :
    (l.commitScopedLog token).payloads = l.payloads ++ l.waiting token := by
  unfold commitScopedLog waiting
  split
  · simp [*]
  · rename_i buffered hbuf
    rw [hbuf]
    exact l.payloads_foldl_logChange buffered

/-- The LSNs of the log are `1, 2, …`. -/
def Numbered : Prop := l.changeLog.map (·.lsn) = List.range' 1 l.logSeq

variable {l}

theorem Numbered.logChange (h : l.Numbered) (p : P) : (l.logChange p).Numbered := by
  unfold Numbered at *
  simp [ScopedLog.logChange, h, List.range'_concat, Nat.add_comm]

theorem Numbered.foldl_logChange (h : l.Numbered) (ps : List P) :
    (ps.foldl ScopedLog.logChange l).Numbered :=
  List.foldlRecOn ps _ h fun _ h p _ => h.logChange p

theorem Numbered.commitScopedLog (h : l.Numbered) (token : Nat) :
    (l.commitScopedLog token).Numbered := by
  unfold ScopedLog.commitScopedLog
  split
  · exact h
  · exact h.foldl_logChange _

/-- The log is in LSN order. -/
theorem Numbered.ascending (h : l.Numbered) :
    l.changeLog.Pairwise fun a b => a.lsn < b.lsn := by
  have hpair : (List.range' 1 l.logSeq).Pairwise (· < ·) := List.pairwise_lt_range'
  rw [← h, List.pairwise_map] at hpair
  exact hpair

end ScopedLog
end RhoTkg
