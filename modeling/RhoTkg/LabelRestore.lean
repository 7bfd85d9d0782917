import RhoTkg.NodeRollback

/-!
# The label restore reaches its target

`restoreNodeLabels` may only append a label or take one away, and a node that loses its primary label
promotes the first of the others.  `labels_restored`: with a store that accepts every call the loop ends
with the labels of the target in their order, in a number of turns known beforehand, and no call finds
the label it adds or misses the one it removes.
-/

namespace RhoTkg

open List
namespace LabelRestore

/-- The labels of a node, the primary one first. -/
structure LabelTokens where
  tokens : List Nat
  ne_nil : tokens ≠ []
  nodup : tokens.Nodup
  pos : 0 ∉ tokens

/-- `AddLabelTokenRaw`; `none` for `false`. -/
def addLabelTokenRaw (labels : List Nat) (tok : Nat) : Option (List Nat) :=
  if tok = 0 ∨ tok ∈ labels then none else some (labels ++ [tok])

/-- `RemoveLabelTokenRaw`; `none` for `false`. -/
def removeLabelTokenRaw (labels : List Nat) (tok : Nat) : Option (List Nat) :=
  match labels with
  | [] => none
  | primary :: extras =>
    if tok = 0 then none
    else if primary ≠ tok then
      if tok ∈ extras then some (primary :: extras.erase tok) else none
    else (extras.find? (· ≠ 0)).map fun promoted => promoted :: extras.erase promoted

/-- A store call of the loop, with the labels before and after it. -/
structure LabelCall where
  labels : List Nat
  lop : LabelOp
  next : List Nat

/-- The working copy with the change of a turn. -/
def changeLabelRaw (labels : List Nat) (lop : LabelOp) : Option (List Nat) :=
  if lop.add then addLabelTokenRaw labels lop.tok else removeLabelTokenRaw labels lop.tok

/-- The loop of `restoreNodeLabels` over a store that accepts every call: the calls, and the labels
it ends with or `none` for an error.  `none` when it needs more than `fuel` turns. -/
def restoreNodeLabels (target : List Nat) : ℕ → List Nat → Option (List LabelCall × Option (List Nat))
  | 0, _ => none
  | fuel + 1, working =>
    if target = [] then some ([], none)
    else if working = target then some ([], some working)
    else
      match (nextLabelOp working target).bind fun lop =>
          (changeLabelRaw working lop).map fun next => LabelCall.mk working lop next with
      | none => some ([], none)
      | some call => (restoreNodeLabels target fuel call.next).map fun run => (call :: run.1, run.2)

/-- What a call of the loop may do. -/
structure LabelCall.Sound (call : LabelCall) : Prop where
  ne_nil : call.next ≠ []
  nodup : call.next.Nodup
  absent : call.lop.add = true → call.lop.tok ∉ call.labels
  present : call.lop.add = false → call.lop.tok ∈ call.labels ∧ 1 < call.labels.length

variable {labels target : List Nat} {tok : Nat} {lop : LabelOp}

/-- Removing a label keeps the others in their order, also when the primary one goes. -/
theorem removeLabelTokenRaw_eq (hnodup : labels.Nodup) (hpos : 0 ∉ labels) (htok : tok ∈ labels)
    (hlen : 1 < labels.length) : removeLabelTokenRaw labels tok = some (labels.filter (· != tok)) := by
  cases labels with
  | nil => cases htok
  | cons primary extras =>
    have hzero : tok ≠ 0 := fun h => hpos (h ▸ htok)
    rw [← hnodup.erase_eq_filter]
    by_cases heq : primary = tok
    · subst heq
      cases extras with
      | nil => exact absurd hlen (by simp)
      | cons promoted extras =>
        have hne : promoted ≠ 0 := fun h => hpos (by simp [h])
        simp [removeLabelTokenRaw, hzero, hne]
    · have hmem := (mem_cons.mp htok).resolve_left (Ne.symm heq)
      simp [removeLabelTokenRaw, hzero, heq, hmem]

/-- The change of a turn is made, and is sound. -/
theorem changeLabelRaw_turn (labels target : LabelTokens)
    (hturn : LabelTurn labels.tokens target.tokens lop) :
    ∃ next : LabelTokens, changeLabelRaw labels.tokens lop = some next.tokens ∧
      next.tokens = (if lop.add then labels.tokens ++ [lop.tok]
        else labels.tokens.filter (· != lop.tok)) ∧
      LabelCall.Sound ⟨labels.tokens, lop, next.tokens⟩ := by
  obtain ⟨tok, add⟩ := lop
  cases add with
  | true =>
    have hmem : tok ∈ target.tokens := hturn.tok
    have hfresh : tok ∉ labels.tokens := hturn.fresh rfl
    have hzero : tok ≠ 0 := fun h => target.pos (h ▸ hmem)
    have hnodup : (labels.tokens ++ [tok]).Nodup :=
      Nodup.append labels.nodup (nodup_singleton tok) (by simpa using hfresh)
    refine ⟨⟨labels.tokens ++ [tok], by simp, hnodup, ?_⟩, ?_, rfl, by simp, hnodup, fun _ => hfresh,
      nofun⟩
    · simp [labels.pos, hzero.symm]
    · simp [changeLabelRaw, addLabelTokenRaw, hfresh, hzero]
  | false =>
    have hmem : tok ∈ labels.tokens := hturn.tok
    have hlen := hturn.keeps rfl
    have hnodup := labels.nodup.filter (· != tok)
    have hnil : labels.tokens.filter (· != tok) ≠ [] := by
      have herase := length_erase_of_mem hmem
      rw [labels.nodup.erase_eq_filter] at herase
      exact ne_nil_of_length_pos (by omega)
    exact ⟨⟨_, hnil, hnodup, fun h => labels.pos (mem_filter.mp h).1⟩,
      removeLabelTokenRaw_eq labels.nodup labels.pos hmem hlen, rfl, hnil, hnodup, nofun,
      fun _ => ⟨hmem, hlen⟩⟩

/-- The loop ends within the turns it has left. -/
theorem restoreNodeLabels_of_turns (target : LabelTokens) {fuel : ℕ} (working : LabelTokens)
    (hfuel : labelTurns working.tokens target.tokens < fuel + 2) :
    ∃ calls, restoreNodeLabels target.tokens fuel working.tokens = some (calls, some target.tokens) ∧
      ∀ call ∈ calls, call.Sound := by
  induction fuel generalizing working with
  | zero =>
    exfalso
    by_cases heq : working.tokens = target.tokens
    · have hturns := labelTurns_append target.tokens [] []
      simp only [append_nil] at hturns
      rw [heq, hturns] at hfuel
      simp [commonLabelPrefix] at hfuel
    · obtain ⟨lop, -, hturn⟩ := nextLabelOp_turn working.nodup target.nodup target.ne_nil heq
      have hmore := hturn.more
      omega
  | succ fuel ih =>
    rw [restoreNodeLabels, if_neg target.ne_nil]
    by_cases heq : working.tokens = target.tokens
    · rw [if_pos heq, heq]
      exact ⟨[], rfl, by rintro _ ⟨⟩⟩
    · obtain ⟨lop, hlop, hturn⟩ := nextLabelOp_turn working.nodup target.nodup target.ne_nil heq
      obtain ⟨next, hnext, htokens, hsound⟩ := changeLabelRaw_turn working target hturn
      have hless := hturn.turns
      rw [← htokens] at hless
      obtain ⟨calls, hloop, hcalls⟩ := ih next (by omega)
      rw [if_neg heq, hlop, Option.bind_some, hnext, Option.map_some]
      exact ⟨_, by simp only [hloop, Option.map_some], forall_mem_cons.mpr ⟨hsound, hcalls⟩⟩

/-- **The label restore reaches its target.**  For any labels to start from it makes at most as many
turns as both lists have labels, and two. -/
theorem labels_restored (working target : LabelTokens) (more : ℕ) : ∃ calls,
    restoreNodeLabels target.tokens (working.tokens.length + target.tokens.length + 1 + more)
      working.tokens = some (calls, some target.tokens) ∧ ∀ call ∈ calls, call.Sound := by
  refine restoreNodeLabels_of_turns target working ?_
  have hle := labelTurns_le [] working.tokens target.tokens
  rw [nil_append, nil_append] at hle
  omega

end LabelRestore
end RhoTkg
