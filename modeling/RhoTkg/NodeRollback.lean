import Mathlib.Data.List.Nodup
import RhoTkg.NodeSlots
import RhoTkg.Rollback

/-!
# What a rollback leaves of the nodes

`Rollback` goes on after a failed restore, so the nodes it leaves are to be known also when it returns an
error.  A restore of a node cannot stop half way: when the labels of the current row and of the
snapshot's are distinct, `restoreNodeLabels` reaches the labels of the snapshot (`restoreNodeLabels_ok`),
and then the row is accepted.  So every record of the undo log sets the node's row to its own, but for
the update of a node that is gone (`UndoEntry.undoNode`), and after the last record of a node the row is
that record's or none (`GraphTx.nodes_rollback`).
-/

namespace RhoTkg

open List Function Undo Option

/-! ## The turns of the label loop -/

/-- The turns `restoreNodeLabels` still takes, and two. -/
def labelTurns (labels target : List Nat) : Nat :=
  (labels.length - commonLabelPrefix labels target) + (target.length - commonLabelPrefix labels target) +
    if (target[commonLabelPrefix labels target]?).any (labels.contains ·) then 0 else 2

section Labels

variable {P A B A' : List Nat} {a b : Nat}

theorem commonLabelPrefix_append (P A B : List Nat) :
    commonLabelPrefix (P ++ A) (P ++ B) = P.length + commonLabelPrefix A B := by
  induction P with
  | nil => simp
  | cons l P ih => simp only [cons_append, commonLabelPrefix, if_true, ih, length_cons]; omega

/-- Two label lists are one list up to a place, and differ there. -/
theorem exists_commonLabelPrefix (labels target : List Nat) :
    ∃ P A B, labels = P ++ A ∧ target = P ++ B ∧ commonLabelPrefix A B = 0 ∧
      (A.head? = B.head? → A = [] ∧ B = []) := by
  induction labels generalizing target with
  | nil =>
    refine ⟨[], [], target, rfl, rfl, rfl, fun h => ⟨rfl, ?_⟩⟩
    cases target with
    | nil => rfl
    | cons b B => cases h
  | cons a A ih =>
    cases target with
    | nil => exact ⟨[], a :: A, [], rfl, rfl, rfl, nofun⟩
    | cons b B =>
      by_cases hab : a = b
      · subst hab
        obtain ⟨P, A', B', rfl, rfl, hzero, hhead⟩ := ih B
        exact ⟨a :: P, A', B', rfl, rfl, hzero, hhead⟩
      · exact ⟨[], a :: A, b :: B, rfl, rfl, if_neg hab, fun h => absurd (some.inj h) hab⟩

theorem labelTurns_append (P A B : List Nat) :
    labelTurns (P ++ A) (P ++ B) = (A.length - commonLabelPrefix A B) +
      (B.length - commonLabelPrefix A B) +
        if (B[commonLabelPrefix A B]?).any ((P ++ A).contains ·) then 0 else 2 := by
  rw [labelTurns, commonLabelPrefix_append, length_append, length_append,
    Nat.add_sub_add_left, Nat.add_sub_add_left, getElem?_append_right (Nat.le_add_right _ _),
    Nat.add_sub_cancel_left]

theorem labelTurns_le (P A B : List Nat) : labelTurns (P ++ A) (P ++ B) ≤ A.length + B.length + 2 := by
  rw [labelTurns_append]
  split <;> omega

theorem commonLabelPrefix_le (A B : List Nat) :
    commonLabelPrefix A B ≤ A.length ∧ commonLabelPrefix A B ≤ B.length := by
  induction A generalizing B with
  | nil => exact ⟨Nat.zero_le _, Nat.zero_le _⟩
  | cons a A ih =>
    cases B with
    | nil => exact ⟨Nat.zero_le _, Nat.zero_le _⟩
    | cons b B =>
      rw [commonLabelPrefix]
      split
      · exact ⟨Nat.succ_le_succ (ih B).1, Nat.succ_le_succ (ih B).2⟩
      · exact ⟨Nat.zero_le _, Nat.zero_le _⟩

/-- Fewer turns when the next label of the target is there. -/
theorem labelTurns_le_of_mem (hb : b ∈ P ++ A) :
    labelTurns (P ++ A) (P ++ b :: B) ≤ A.length + (b :: B).length := by
  rw [labelTurns_append]
  have hle := commonLabelPrefix_le A (b :: B)
  cases hk : commonLabelPrefix A (b :: B) with
  | zero =>
    have hmem : ((b :: B)[0]?).any ((P ++ A).contains ·) = true := by simpa using mem_append.mp hb
    rw [if_pos hmem]
    omega
  | succ k =>
    split <;> omega

/-- What the change of one turn does to the labels. -/
structure LabelTurn (labels target : List Nat) (lop : LabelOp) : Prop where
  tok : lop.tok ∈ if lop.add then target else labels
  fresh : lop.add = true → lop.tok ∉ labels
  keeps : lop.add = false → 1 < labels.length
  turns : labelTurns (if lop.add then labels ++ [lop.tok] else labels.filter (· != lop.tok)) target <
    labelTurns labels target
  more : 2 < labelTurns labels target

theorem filter_ne_append_cons (h : (P ++ a :: A).Nodup) : (P ++ a :: A).filter (· != a) = P ++ A := by
  have hne : ∀ l ∈ P ++ A, l ≠ a := by
    rintro l hl rfl
    exact (nodup_middle.mp h).notMem hl
  rw [filter_append, filter_cons_of_neg (by simp), ← filter_append, filter_eq_self]
  simpa using hne

/-- A label goes while the next label of the target stays. -/
theorem labelTurn_remove {Q C : List Nat} (hnodup : (P ++ A).Nodup) (hb : b ∈ P ++ A)
    (hturns : labelTurns (P ++ A) (P ++ b :: B) = A.length + (b :: B).length)
    (hA : A = Q ++ a :: C) (hab : a ≠ b) (hlen : 1 < A.length) :
    LabelTurn (P ++ A) (P ++ b :: B) ⟨a, false⟩ := by
  subst hA
  have hfilter : (P ++ (Q ++ a :: C)).filter (· != a) = P ++ (Q ++ C) := by
    rw [← append_assoc] at hnodup ⊢
    rw [filter_ne_append_cons hnodup, append_assoc]
  have hb' : b ∈ P ++ (Q ++ C) := by
    rw [← hfilter, mem_filter]
    exact ⟨hb, by simpa using hab.symm⟩
  refine ⟨by simp, nofun, fun _ => ?_, ?_, ?_⟩
  · rw [length_append]
    omega
  · rw [if_neg Bool.false_ne_true, hfilter, hturns]
    refine (labelTurns_le_of_mem hb').trans_lt ?_
    simp only [length_append, length_cons]
    omega
  · rw [hturns, length_cons]
    omega

/-- **One turn** of the label loop has a change to make, and is one turn less. -/
theorem nextLabelOp_turn {labels target : List Nat} (hlabels : labels.Nodup) (htarget : target.Nodup)
    (htnil : target ≠ []) (hne : labels ≠ target) :
    ∃ lop, nextLabelOp labels target = some lop ∧ LabelTurn labels target lop := by
  obtain ⟨P, A, B, rfl, rfl, hzero, hhead⟩ := exists_commonLabelPrefix labels target
  have hk : commonLabelPrefix (P ++ A) (P ++ B) = P.length := by
    rw [commonLabelPrefix_append, hzero, Nat.add_zero]
  have hget : ∀ C : List Nat, (P ++ C)[P.length]? = C.head? := fun C => by
    rw [getElem?_append_right le_rfl, Nat.sub_self, head?_eq_getElem?]
  have hturns := labelTurns_append P A B
  rw [hzero, Nat.sub_zero, Nat.sub_zero, ← head?_eq_getElem?] at hturns
  unfold nextLabelOp
  dsimp only
  rw [hk, hget, hget]
  cases B with
  | nil =>
    -- the target is a part of the labels, and the label behind it goes
    rw [append_nil] at htnil
    have hP : P.length ≠ 0 := fun h => htnil (length_eq_zero_iff.mp h)
    cases A with
    | nil => exact absurd rfl hne
    | cons a A =>
      rw [if_neg (by simp), if_neg (fun h => hP h.1),
        if_neg (by simp only [length_append, length_cons]; omega)]
      rw [head?_nil, any_none, if_neg Bool.false_ne_true] at hturns
      refine ⟨⟨a, false⟩, rfl, by simp, nofun, fun _ => ?_, ?_, ?_⟩
      · simp only [length_append, length_cons]
        omega
      · rw [if_neg Bool.false_ne_true, filter_ne_append_cons hlabels, hturns]
        refine (labelTurns_le P A []).trans_lt ?_
        simp
      · rw [hturns, length_cons]
        omega
  | cons b B =>
    by_cases hb : b ∈ P ++ A
    · have hbA : b ∈ A := by
        rcases mem_append.mp hb with hP | hA
        · exact absurd hP fun h => (disjoint_of_nodup_append htarget) h mem_cons_self
        · exact hA
      cases A with
      | nil => cases hbA
      | cons a A =>
        have hab : a ≠ b := fun h => absurd (hhead (by rw [h]; rfl)).1 (cons_ne_nil _ _)
        have hlen : 1 < (a :: A).length := by
          have := length_pos_of_mem ((mem_cons.mp hbA).resolve_left hab.symm)
          simp only [length_cons]
          omega
        have hcontains : (P ++ a :: A).contains b = true := contains_iff_mem.mpr hb
        rw [head?_cons, any_some, if_pos hcontains, Nat.add_zero] at hturns
        rw [head?_cons, any_some, hcontains, if_neg (by simp)]
        cases P with
        | nil =>
          rw [if_pos ⟨rfl, by simpa using hab⟩]
          by_cases hidx : 1 < idxOf b (a :: A)
          · cases A with
            | nil => simp at hlen
            | cons c A =>
              have hcb : c ≠ b := by
                rintro rfl
                rw [idxOf_cons_ne _ hab, idxOf_cons_self] at hidx
                omega
              refine ⟨⟨c, false⟩, ?_, labelTurn_remove (Q := [a]) hlabels hb hturns rfl hcb hlen⟩
              simp [hidx]
          · refine ⟨⟨a, false⟩, ?_, labelTurn_remove (Q := []) hlabels hb hturns rfl hab hlen⟩
            simp [hidx]
        | cons l P =>
          rw [if_neg (by simp), if_neg (by simp only [length_append, length_cons]; omega)]
          exact ⟨⟨a, false⟩, rfl, labelTurn_remove (Q := []) hlabels hb hturns rfl hab hlen⟩
    · -- the next label of the target is missing, and is added
      have hcontains : (P ++ A).contains b = false := by simpa using hb
      rw [head?_cons, any_some, hcontains, if_neg Bool.false_ne_true] at hturns
      rw [head?_cons, any_some, hcontains, if_pos (by rfl)]
      refine ⟨⟨b, true⟩, rfl, by simp, fun _ => hb, nofun, ?_, ?_⟩
      · rw [if_pos rfl, hturns, append_assoc]
        refine (labelTurns_le_of_mem (by simp)).trans_lt ?_
        simp only [length_append, length_cons, length_nil]
        omega
      · rw [hturns, length_cons]
        omega

end Labels

/-! ## The restore of a row -/

section Rows

variable {V : Type} {s : Store V} {id : Nat} {x y working target : Stored V}

/-- A row the store can hold for the node, with distinct labels. -/
structure NodeRowOk (id : Nat) (x : Stored V) : Prop where
  valid : validSnapshot (.node id) x = true
  nodup : x.row.labels.Nodup

theorem validSnapshot_node : validSnapshot (.node id) x = true ↔
    id ≠ 0 ∧ storable x.row = true ∧ x.ends = none ∧ x.row.labels ≠ [] ∧ ∀ l ∈ x.row.labels, l ≠ 0 := by
  obtain ⟨ends, row⟩ := x
  cases ends with
  | none => simp [validSnapshot, EntityId.valid, and_assoc]
  | some ends => simp [validSnapshot]

variable {lop : LabelOp}

/-- The row with the change of a turn is a row the store can hold, and the store accepts the change. -/
theorem NodeRowOk.changeLabel (hw : NodeRowOk id working) (ht : NodeRowOk id target)
    (hturn : LabelTurn working.row.labels target.row.labels lop) :
    NodeRowOk id (working.changeLabel lop) ∧
      validLabelChange (.node id) working (working.changeLabel lop) lop = true := by
  obtain ⟨tok, add⟩ := lop
  obtain ⟨hid, hstorable, hends, hnil, hpos⟩ := validSnapshot_node.mp hw.valid
  obtain ⟨-, -, -, -, htpos⟩ := validSnapshot_node.mp ht.valid
  cases add with
  | true =>
    have htok := hturn.tok
    have hfresh := hturn.fresh rfl
    have hvalid : validSnapshot (.node id) (working.changeLabel ⟨tok, true⟩) = true := by
      refine validSnapshot_node.mpr ⟨hid, hstorable, hends, by simp [Stored.changeLabel], ?_⟩
      intro l hl
      rcases mem_append.mp hl with hl | hl
      · exact hpos l hl
      · rw [mem_singleton.mp hl]
        exact htpos tok htok
    refine ⟨⟨hvalid, ?_⟩, ?_⟩
    · exact nodup_append'.mpr ⟨hw.nodup, nodup_singleton _, by simpa using hfresh⟩
    · simp only [validLabelChange, if_true, validLabelAddition, hvalid, Bool.true_and]
      simp [Stored.changeLabel, htpos tok htok, hfresh]
      exact fun l hl => .inl hl
  | false =>
    have htok := hturn.tok
    rw [if_neg Bool.false_ne_true] at htok
    have hlen : (working.row.labels.filter (· != tok)).length = working.row.labels.length - 1 := by
      rw [← hw.nodup.erase_eq_filter, length_erase_of_mem htok]
    have hvalid : validSnapshot (.node id) (working.changeLabel ⟨tok, false⟩) = true := by
      refine validSnapshot_node.mpr ⟨hid, hstorable, hends, fun hempty => ?_, fun l hl => ?_⟩
      · have hzero : (working.row.labels.filter (· != tok)).length = 0 := by
          rw [show working.row.labels.filter (· != tok) = [] from hempty]
          rfl
        have := hturn.keeps rfl
        omega
      · exact hpos l (mem_of_mem_filter hl)
    refine ⟨⟨hvalid, hw.nodup.filter _⟩, ?_⟩
    simp only [validLabelChange, Bool.false_eq_true, if_false, validLabelRemoval, hvalid, Bool.true_and]
    simp only [Stored.changeLabel, Bool.false_eq_true, if_false, hlen, beq_self_eq_true, Bool.and_true]
    simp [hpos tok htok, htok]
    exact fun l hl => or_iff_not_imp_left.mpr fun hne => ⟨hl, hne⟩

/-- A call of the label loop. -/
theorem Undo.ofCall_changeNodeLabelToken (hcur : s.nodes id = some working)
    (hvalid : validLabelChange (.node id) working x lop = true) :
    Undo.ofCall (.changeNodeLabelToken id lop x) s = (s.setCurrent (.node id) (some x), none) := by
  have hcall : s.call (.changeNodeLabelToken id lop x) =
      .ok (s.setCurrent (.node id) (some x), some (.put (.node id) x false)) := by
    rw [Store.call, Store.changeNodeLabelToken, Store.replaceRow,
      if_pos (validLabelChange_valid hvalid)]
    simp only [show s.current (.node id) = some working from hcur, hvalid, if_true]
  rw [ofCall, hcall]

/-- The replacement of a row by one with the same labels. -/
theorem Undo.ofCall_replace (hcur : s.nodes id = some y) (hy : NodeRowOk id y) (hx : NodeRowOk id x)
    (hlabels : y.row.labels = x.row.labels) :
    Undo.ofCall (.replace (.node id) x) s = (s.setCurrent (.node id) (some x), none) := by
  have hvalid : validReplacement (.node id) y x = true := by
    rw [validReplacement, hx.valid, hlabels, (validSnapshot_node.mp hx.valid).2.2.1,
      (validSnapshot_node.mp hy.valid).2.2.1]
    simp
  have hcall : s.call (.replace (.node id) x) =
      .ok (s.setCurrent (.node id) (some x), some (.put (.node id) x false)) := by
    rw [Store.call, Store.replace, Store.replaceRow, if_pos hx.valid]
    simp only [show s.current (.node id) = some y from hcur, hvalid, if_true]
  rw [ofCall, hcall]

/-- The label loop reaches the labels of the target. -/
theorem restoreLabelsLoop_ok {fuel : Nat} (hcur : s.nodes id = some working)
    (hw : NodeRowOk id working) (ht : NodeRowOk id target)
    (hfuel : labelTurns working.row.labels target.row.labels < fuel + 2) :
    ∃ s' y, restoreLabelsLoop id target fuel working s = (s', none) ∧
      s'.nodes = Function.update s.nodes id (some y) ∧ NodeRowOk id y ∧
        y.row.labels = target.row.labels := by
  induction fuel generalizing s working with
  | zero =>
    exfalso
    by_cases heq : working.row.labels = target.row.labels
    · rw [heq] at hfuel
      have := labelTurns_append target.row.labels [] []
      simp [commonLabelPrefix] at this
      omega
    · obtain ⟨lop, -, hturn⟩ := nextLabelOp_turn hw.nodup ht.nodup
        (validSnapshot_node.mp ht.valid).2.2.2.1 heq
      have := hturn.more
      omega
  | succ fuel ih =>
    rw [restoreLabelsLoop]
    by_cases heq : working.row.labels = target.row.labels
    · rw [if_pos heq]
      refine ⟨s, working, rfl, ?_, hw, heq⟩
      rw [← hcur, update_eq_self]
    · rw [if_neg heq]
      obtain ⟨lop, hlop, hturn⟩ := nextLabelOp_turn hw.nodup ht.nodup
        (validSnapshot_node.mp ht.valid).2.2.2.1 heq
      obtain ⟨hok, hvalid⟩ := hw.changeLabel ht hturn
      have hnext : labelTurns (working.changeLabel lop).row.labels target.row.labels < fuel + 2 := by
        have hless : labelTurns (working.changeLabel lop).row.labels target.row.labels <
          labelTurns working.row.labels target.row.labels := hturn.turns
        omega
      simp only [hlop]
      rw [andThen, ofCall_changeNodeLabelToken hcur hvalid]
      obtain ⟨s', y, hloop, hnodes, hy, hlabels⟩ :=
        ih (s := s.setCurrent (.node id) (some (working.changeLabel lop)))
          (by rw [Store.nodes_setCurrent_node, update_self]) hok hnext
      refine ⟨s', y, hloop, ?_, hy, hlabels⟩
      rw [hnodes, Store.nodes_setCurrent_node, update_idem]

/-- **The restore of a node that is there** sets its row. -/
theorem replaceNodeRow_ok (hcur : s.nodes id = some y) (hy : NodeRowOk id y) (hx : NodeRowOk id x) :
    (replaceNodeRow id y x s).1.nodes = Function.update s.nodes id (some x) := by
  have hlast : ∀ (t : Store V) (z : Stored V), t.nodes = update s.nodes id (some z) →
      NodeRowOk id z → z.row.labels = x.row.labels →
        (ofCall (.replace (.node id) x) t).1.nodes = update s.nodes id (some x) := by
    intro t z ht hz hlabels
    rw [ofCall_replace (by rw [ht, update_self]) hz hx hlabels]
    rw [Store.nodes_setCurrent_node, ht, update_idem]
  unfold replaceNodeRow andThen
  by_cases hlabels : y.row.labels = x.row.labels
  · rw [if_pos hlabels]
    exact hlast s y (by rw [← hcur, update_eq_self]) hy hlabels
  · rw [if_neg hlabels, restoreNodeLabels,
      if_neg (by simpa using (validSnapshot_node.mp hx.valid).2.2.2.1)]
    have hfuel : labelTurns y.row.labels x.row.labels <
        y.row.labels.length + 2 * x.row.labels.length + 1 + 2 := by
      have hle := labelTurns_le [] y.row.labels x.row.labels
      rw [nil_append, nil_append] at hle
      omega
    obtain ⟨t, z, hloop, ht, hz, hzlabels⟩ := restoreLabelsLoop_ok hcur hy hx hfuel
    rw [hloop]
    exact hlast t z ht hz hzlabels

end Rows

/-! ## The undos that leave the nodes -/

section Kept

variable {V : Type} {e : EntityId} {c : StoreCall V} {cs : List (StoreCall V)} {u v : Undo V}

/-- The undo leaves the nodes, whether it fails or not. -/
def Undo.KeepsNodes (u : Undo V) : Prop := ∀ s, (u s).1.nodes = s.nodes

/-- The call writes no node's slot and deletes no node. -/
def StoreCall.sparesNodes (c : StoreCall V) : Bool := c.slot.isNone && c.deletedNode.isNone

theorem Undo.keepsNodes_ofCall (hc : c.sparesNodes = true) : (Undo.ofCall c).KeepsNodes := by
  intro s
  rw [StoreCall.sparesNodes, Bool.and_eq_true, isNone_iff_eq_none,
    isNone_iff_eq_none] at hc
  unfold ofCall
  split
  · rename_i s' r hcall
    cases Store.nodes_call hcall with
    | same hnodes => exact hnodes
    | deleted hdel => exact nomatch hc.2.symm.trans hdel
    | slot hslot => exact nomatch hc.1.symm.trans hslot
  · rfl

theorem Undo.KeepsNodes.andThen (hu : u.KeepsNodes) (hv : v.KeepsNodes) :
    (u.andThen v).KeepsNodes := by
  intro s
  unfold Undo.andThen
  split
  · rename_i s' h
    rw [hv, ← hu s, h]
  · rename_i s' err h
    rw [← hu s, h]

theorem Undo.keepsNodes_ofCalls (hcs : ∀ c ∈ cs, c.sparesNodes = true) :
    (Undo.ofCalls cs).KeepsNodes := by
  induction cs with
  | nil => exact fun _ => rfl
  | cons c cs ih =>
    exact (keepsNodes_ofCall (hcs c mem_cons_self)).andThen
      (ih fun c' hc' => hcs c' (mem_cons_of_mem _ hc'))

variable {rows : List (Stored V)} {caps : TxCaps} {start : Nat} {snap : Snapshot V}

theorem sparesNodes_putVersions : ∀ c ∈ putVersions e rows, c.sparesNodes = true := by
  intro c hc
  obtain ⟨r, -, rfl⟩ := mem_map.mp hc
  rfl

theorem keepsNodes_restoreHistory : (restoreHistory e rows).KeepsNodes :=
  keepsNodes_ofCalls (forall_mem_cons.mpr ⟨rfl, sparesNodes_putVersions⟩)

theorem keepsNodes_restoreHistoryFrom {above : List (Stored V)} :
    (restoreHistoryFrom caps e start above).KeepsNodes := by
  intro s
  unfold restoreHistoryFrom
  split
  · exact keepsNodes_ofCalls (forall_mem_cons.mpr ⟨rfl, sparesNodes_putVersions⟩) s
  · exact keepsNodes_restoreHistory s

theorem keepsNodes_removeTxRows {keepTo : Nat} :
    (removeTxRows caps e start keepTo : Undo V).KeepsNodes := by
  intro s
  unfold removeTxRows
  split
  · exact keepsNodes_restoreHistory s
  · split
    · exact keepsNodes_ofCall rfl s
    · refine (keepsNodes_ofCall rfl).andThen (fun t => ?_) s
      split
      · exact keepsNodes_ofCalls (forall_mem_cons.mpr ⟨rfl, sparesNodes_putVersions⟩) t
      · rfl

theorem keepsNodes_restoreDeletedHistory : (restoreDeletedHistory caps e snap).KeepsNodes := by
  unfold restoreDeletedHistory
  split
  · exact keepsNodes_restoreHistoryFrom
  · exact keepsNodes_restoreHistory

theorem keepsNodes_restoreSnapshotHistory : (restoreSnapshotHistory caps e snap).KeepsNodes := by
  unfold restoreSnapshotHistory
  split
  · exact keepsNodes_restoreHistoryFrom
  · split
    · exact keepsNodes_removeTxRows
    · exact keepsNodes_restoreHistory

theorem keepsNodes_removeCreatedHistory :
    (removeCreatedHistory caps e start : Undo V).KeepsNodes := by
  intro s
  unfold removeCreatedHistory
  split
  · exact keepsNodes_ofCall rfl s
  · split
    · exact keepsNodes_ofCall rfl s
    · exact keepsNodes_restoreHistory s

end Kept

/-! ## The undo log at a node -/

section Log

variable {V : Type}

/-- What a record makes of the nodes. -/
def UndoEntry.undoNode (f : Nat → Option (Stored V)) : UndoEntry V → Nat → Option (Stored V)
  | .deleted (.node id) snap => Function.update f id (some snap.prev)
  | .updated (.node id) snap => if (f id).isNone then f else Function.update f id (some snap.prev)
  | .created (.node id) _ => Function.update f id none
  | _ => f

/-- The rows of the nodes are rows the store can hold. -/
def NodesOk (f : Nat → Option (Stored V)) : Prop := ∀ id x, f id = some x → NodeRowOk id x

/-- The rows the records bring back are rows the store can hold. -/
def UndoEntry.RowOk (a : UndoEntry V) : Prop :=
  ∀ id, a.entity = .node id → ∀ x, a.row = some x → NodeRowOk id x

variable {s : Store V} {a : UndoEntry V} {entries : List (UndoEntry V)} {caps : TxCaps}

variable {f : Nat → Option (Stored V)} {id : Nat}

theorem NodesOk.update (hf : NodesOk f) {x : Option (Stored V)}
    (hx : ∀ y, x = some y → NodeRowOk id y) : NodesOk (Function.update f id x) := by
  intro b y hy
  by_cases hb : b = id
  · subst hb
    rw [update_self] at hy
    exact hx y hy
  · rw [update_of_ne hb] at hy
    exact hf b y hy

theorem NodesOk.undoNode (hf : NodesOk f) (ha : a.RowOk) : NodesOk (a.undoNode f) := by
  cases a with
  | deleted e snap =>
    cases e with
    | node id => exact hf.update fun y hy => ha id rfl y hy
    | rel id => exact hf
  | updated e snap =>
    cases e with
    | node id =>
      rw [UndoEntry.undoNode]
      split
      · exact hf
      · exact hf.update fun y hy => ha id rfl y hy
    | rel id => exact hf
  | created e version =>
    cases e with
    | node id => exact hf.update (fun _ h => nomatch h)
    | rel id => exact hf

theorem nodes_restoreDeletedRow {x : Stored V} (hs : NodesOk s.nodes) (hx : NodeRowOk id x) :
    (restoreDeletedRow (.node id) x s).1.nodes = Function.update s.nodes id (some x) := by
  unfold restoreDeletedRow
  split
  · rename_i hnone
    have hcall : s.call (.put (.node id) x) =
        .ok (s.setCurrent (.node id) (some x), some (.put (.node id) x false)) := by
      unfold Store.call Store.put
      dsimp only
      rw [if_pos hx.valid]
      exact if_neg (by simp [hnone])
    rw [ofCall, hcall]
    exact Store.nodes_setCurrent_node _ _ _
  · rename_i current hcur
    exact replaceNodeRow_ok hcur (hs id current hcur) hx

theorem nodes_undoCreate (hs : NodesOk s.nodes) :
    (undoCreate (.node id) s).1.nodes = Function.update s.nodes id none := by
  show (ofCall (.deleteNodeCascade id) s).1.nodes = _
  unfold ofCall
  have hgone : s.nodes id = none → s.nodes = update s.nodes id none := fun h => by
    rw [← h, update_eq_self]
  split
  · rename_i s' r hcall
    cases Store.call_effect hcall
    exact Store.nodes_setCurrent_node _ _ _
  · rename_i err hcall
    refine hgone ?_
    cases hcur : s.nodes id with
    | none => rfl
    | some x =>
      have hid := (validSnapshot_node.mp (hs id x hcur).valid).1
      rw [Store.call, Store.deleteNodeCascade, if_neg hid,
        if_neg (by simp [show s.current (.node id) = some x from hcur])] at hcall
      cases hcall

/-- The restores of a relationship leave the nodes. -/
theorem keepsNodes_restores_rel (ha : a.entity.isRel = true) : ∀ u ∈ a.restores caps, u.KeepsNodes := by
  intro u hu
  cases a with
  | deleted e snap =>
    cases e with
    | node id => cases ha
    | rel id =>
      rcases mem_pair.mp hu with rfl | rfl
      · intro s
        unfold restoreDeletedRow
        split
        · exact keepsNodes_ofCall rfl s
        · dsimp only
          split
          · exact keepsNodes_ofCall rfl s
          · exact keepsNodes_ofCalls (by simp [StoreCall.sparesNodes, StoreCall.slot,
              StoreCall.deletedNode]) s
      · exact keepsNodes_restoreDeletedHistory
  | updated e snap =>
    cases e with
    | node id => cases ha
    | rel id =>
      rcases mem_pair.mp hu with rfl | rfl
      · exact keepsNodes_ofCall rfl
      · exact keepsNodes_restoreSnapshotHistory
  | created e version =>
    cases e with
    | node id => cases ha
    | rel id =>
      rcases mem_pair.mp hu with rfl | rfl
      · exact keepsNodes_ofCall rfl
      · exact keepsNodes_removeCreatedHistory

theorem Undo.captured_append_fst (us vs : List (Undo V)) (s : Store V) :
    (Undo.captured (us ++ vs) s).1 = (Undo.captured vs (Undo.captured us s).1).1 := by
  induction us generalizing s with
  | nil => rfl
  | cons u us ih => exact ih (u s).1

theorem Undo.captured_keepsNodes {us : List (Undo V)} (h : ∀ u ∈ us, u.KeepsNodes) :
    (Undo.captured us).KeepsNodes := by
  intro s
  induction us generalizing s with
  | nil => rfl
  | cons u us ih =>
    exact (ih (fun v hv => h v (mem_cons_of_mem _ hv)) (u s).1).trans (h u mem_cons_self s)

/-- The two restores of a record, whether they fail or not. -/
theorem nodes_restores (hs : NodesOk s.nodes) (ha : a.RowOk) :
    (Undo.captured (a.restores caps) s).1.nodes = a.undoNode s.nodes := by
  have hpair : ∀ (u v : Undo V), v.KeepsNodes →
      (captured [u, v] s).1.nodes = (u s).1.nodes := fun u v hv => hv _
  cases a with
  | deleted e snap =>
    cases e with
    | node id =>
      exact (hpair _ _ keepsNodes_restoreDeletedHistory).trans
        (nodes_restoreDeletedRow hs (ha id rfl _ rfl))
    | rel id => exact captured_keepsNodes (keepsNodes_restores_rel rfl) s
  | updated e snap =>
    cases e with
    | node id =>
      refine (hpair _ _ keepsNodes_restoreSnapshotHistory).trans ?_
      unfold restoreUpdatedRow
      rw [UndoEntry.undoNode]
      cases hcur : s.nodes id with
      | none =>
        simp only [show s.current (.node id) = none from hcur]
        rfl
      | some y =>
        simp only [show s.current (.node id) = some y from hcur]
        exact replaceNodeRow_ok hcur (hs id y hcur) (ha id rfl _ rfl)
    | rel id => exact captured_keepsNodes (keepsNodes_restores_rel rfl) s
  | created e version =>
    cases e with
    | node id => exact (hpair _ _ keepsNodes_removeCreatedHistory).trans (nodes_undoCreate hs)
    | rel id => exact captured_keepsNodes (keepsNodes_restores_rel rfl) s

theorem nodes_captured (hs : NodesOk s.nodes) (hentries : ∀ a ∈ entries, a.RowOk) :
    (Undo.captured (entries.flatMap (·.restores caps)) s).1.nodes =
      entries.foldl (fun f a => a.undoNode f) s.nodes := by
  induction entries generalizing s with
  | nil => rfl
  | cons a entries ih =>
    have hfirst : (captured (a.restores caps) s).1.nodes = a.undoNode s.nodes :=
      nodes_restores hs (hentries a mem_cons_self)
    rw [flatMap_cons, captured_append_fst, foldl_cons, ← hfirst]
    refine ih ?_ fun b hb => hentries b (mem_cons_of_mem _ hb)
    rw [hfirst]
    exact hs.undoNode (hentries a mem_cons_self)

/-- The row the undo log has for a node: that of its last record, else the current one. -/
def rolledRow (entries : List (UndoEntry V)) (f : Nat → Option (Stored V)) (id : Nat) :
    Option (Stored V) :=
  match UndoEntry.lastOf (.node id) entries with
  | none => f id
  | some a => a.row

/-- The nodes after the records: gone, or the row of the last record. -/
theorem foldl_undoNode (entries : List (UndoEntry V)) (f : Nat → Option (Stored V)) (id : Nat) :
    entries.foldl (fun f a => a.undoNode f) f id = none ∨
      entries.foldl (fun f a => a.undoNode f) f id = rolledRow entries f id := by
  induction entries using reverseRecOn with
  | nil => exact .inr rfl
  | append_singleton entries a ih =>
    rw [foldl_append, foldl_cons, foldl_nil]
    have hlast : rolledRow (entries ++ [a]) f id =
        if a.entity = .node id then a.row else rolledRow entries f id := by
      rw [rolledRow, UndoEntry.lastOf_append, UndoEntry.lastOf_cons]
      by_cases h : a.entity = .node id
      · rw [if_pos h, if_pos h]
        rfl
      · rw [if_neg h, if_neg h]
        rfl
    have hother : a.entity ≠ .node id → a.undoNode (entries.foldl (fun f a => a.undoNode f) f) id =
        entries.foldl (fun f a => a.undoNode f) f id := by
      intro hne
      cases a with
      | deleted e snap =>
        cases e with
        | node n => exact update_of_ne (fun h => hne (by rw [h]; rfl)) _ _
        | rel n => rfl
      | updated e snap =>
        cases e with
        | node n =>
          rw [UndoEntry.undoNode]
          split
          · rfl
          · exact update_of_ne (fun h => hne (by rw [h]; rfl)) _ _
        | rel n => rfl
      | created e version =>
        cases e with
        | node n => exact update_of_ne (fun h => hne (by rw [h]; rfl)) _ _
        | rel n => rfl
    by_cases hid : a.entity = .node id
    · rw [hlast, if_pos hid]
      cases a with
      | deleted e snap =>
        cases hid
        exact .inr (update_self _ _ _)
      | updated e snap =>
        cases hid
        rw [UndoEntry.undoNode]
        split
        · rename_i hnone
          exact .inl (isNone_iff_eq_none.mp hnone)
        · exact .inr (update_self _ _ _)
      | created e version =>
        cases hid
        exact .inl (update_self _ _ _)
    · rw [hlast, if_neg hid, hother hid]
      exact ih

/-- **The nodes after a rollback**, also one that returns an error: a node is gone or has the row of its
last record, and one without a record has the row it had. -/
theorem GraphTx.nodes_rollback {tx : GraphTx V} (hs : NodesOk s.nodes)
    (htx : ∀ a ∈ tx.undoEntries, a.RowOk) (id : Nat) :
    (tx.rollback caps s).1.nodes id = none ∨
      (tx.rollback caps s).1.nodes id = rolledRow tx.undoEntries s.nodes id := by
  rw [GraphTx.rollback, nodes_captured hs htx]
  exact foldl_undoNode _ _ _

end Log

end RhoTkg
