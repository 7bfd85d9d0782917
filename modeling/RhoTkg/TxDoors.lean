import RhoTkg.GraphTx
import RhoTkg.TxWrites

/-!
# The doors a transaction records

What the doors of a transaction do to the rows, as far as the undo log depends on it.  A door for
which no snapshot is taken writes nothing (`Primary.store_of_noSnapshot`); a create that is accepted
starts a life above the rows of the chain (`Primary.created_runDoor`); a delete turns the current row,
and for a node the current rows of its relationships, into tombstones (`Primary.deletedNode_runDoor`,
`Primary.deletedRel_runDoor`).
-/

namespace RhoTkg

open List Function Store

variable {V : Type}

/-! ## Doors without a snapshot -/

section NoSnapshot

variable {cfg : DoorConfig} {st st' : NodeState V} {e : EntityId} {ends : Option (Nat × Nat)}
  {ev : NodeEvent V}

/-- The rows are the same. -/
def NodeState.SameRows (st st' : NodeState V) : Prop :=
  st'.history = st.history ∧ st'.current = st.current

theorem NodeState.storeCalls_of_sameRows (h : st.SameRows st') :
    st.storeCalls e ends ev cfg st' = [] := by
  have hcascade : ∀ current prev : Row V,
      cascadeCalls e ends ev st st' current current prev = [] := by
    intro current prev
    rw [cascadeCalls, if_pos rfl, append_nil, map_eq_nil_iff, filter_eq_nil_iff]
    intro r hr
    rw [h.1] at hr
    have hle : r.version ≤ topVersion st.history current := version_le_topVersion (.inr hr)
    simpa using hle
  unfold storeCalls
  rw [h.2]
  cases st.current with
  | none => rfl
  | some current =>
    dsimp only
    rw [hcascade, if_pos rfl, ite_self]

variable [DecidableEq V]

variable {patch : Patch V} {prov : Bool} {wall : Int64}

theorem NodeState.cascadeNodeMode_none {newVF newVT : Int} {mode : CascadeMode}
    {lop : Option LabelOp} {wall : Int} (h : st.current = none) :
    st.SameRows (st.cascadeNodeMode cfg newVF newVT patch mode prov lop wall).1 := by
  unfold cascadeNodeMode
  split
  · exact ⟨rfl, rfl⟩
  · split
    · exact ⟨rfl, rfl⟩
    · rename_i hcur
      cases h.symm.trans hcur

theorem NodeState.sameRows_update {vf vt : Option (Option Int64)}
    (h :
      (NodeEvent.update patch vf vt prov wall).takesSnapshot cfg st = false ∨ st.current = none) :
    st.SameRows (st.step cfg (.update patch vf vt prov wall)).1 := by
  show st.SameRows (st.update cfg patch _ _ prov wall.toInt).1
  unfold update
  split
  · exact ⟨rfl, rfl⟩
  · exact ⟨rfl, rfl⟩
  rename_i tmp _ htmp
  split
  · exact ⟨rfl, rfl⟩
  rename_i hempty
  split
  · rename_i hwhole
    rcases h with h | h
    · simp only [NodeEvent.takesSnapshot, htmp] at h
      rw [if_neg (by simpa using hempty)] at h
      simp [hwhole] at h
    · exact cascadeNodeMode_none h
  split
  · exact ⟨rfl, rfl⟩
  rename_i current hcur
  split
  · rename_i hmut
    rcases h with h | h
    · simp only [NodeEvent.takesSnapshot, htmp] at h
      rw [if_neg (by simpa using hempty)] at h
      simp only [hcur, Option.any_some, Bool.or_eq_false_iff] at h
      simp [h] at hmut
    · cases hcur.symm.trans h
  · exact ⟨rfl, rfl⟩

theorem NodeState.sameRows_changeLabel {lop : LabelOp}
    (h : (NodeEvent.changeLabel lop wall : NodeEvent V).takesSnapshot cfg st = false ∨ st.current =
      none) : st.SameRows (st.step cfg (.changeLabel lop wall)).1 := by
  show st.SameRows (st.changeLabel cfg lop wall.toInt).1
  unfold changeLabel
  split
  · exact ⟨rfl, rfl⟩
  · exact ⟨rfl, rfl⟩
  rename_i current _ hcur
  rcases h with h | h
  swap
  · cases hcur.symm.trans h
  simp only [NodeEvent.takesSnapshot, hcur, Option.any_some] at h
  split
  · rename_i hsegment
    rw [if_pos hsegment] at h
    cases h
  · rename_i hsegment
    rw [if_neg hsegment] at h
    split
    · exact ⟨rfl, rfl⟩
    · rename_i hdiff
      split
      · exact ⟨rfl, rfl⟩
      · rename_i labels hlabels
        split
        · exact ⟨rfl, rfl⟩
        · rename_i hopen
          rw [hlabels] at h
          rw [Bool.not_eq_false] at hopen
          have hne : (current.labels.contains lop.tok != lop.add) = true := by
            simpa using hdiff
          rw [hne, hopen] at h
          cases h

/-- A door of a transaction for which no snapshot is taken, and any door but a create on an entity
that is not there, leaves the rows. -/
theorem NodeState.sameRows_step (hin : (Door.chain e ends ev).inTx = true)
    (haccepts : e.accepts ev = true) (hcreate : ev.isCreate = false)
    (h : ev.takesSnapshot cfg st = false ∨ st.current = none) :
    st.SameRows (st.step cfg ev).1 := by
  cases ev with
  | tick wall => exact ⟨rfl, rfl⟩
  | add | reimport => cases hcreate
  | update => exact sameRows_update h
  | closeVersion => cases hin
  | replaceVersion props vf vt wall =>
    have hnone := h.resolve_left (by simp [NodeEvent.takesSnapshot])
    show st.SameRows (st.replaceVersion cfg props vf.toInt vt.toInt wall.toInt).1
    unfold replaceVersion
    rw [hnone]
    split
    · exact ⟨rfl, hnone.symm ▸ rfl⟩
    · exact ⟨rfl, hnone.symm ▸ rfl⟩
    · rename_i heq
      cases heq
  | changeLabel => exact sameRows_changeLabel h
  | setInterval vf vt patch wall =>
    have hnone := h.resolve_left (by simp [NodeEvent.takesSnapshot])
    show st.SameRows (st.setNodeVersionInterval cfg _ _ patch _).1
    unfold setNodeVersionInterval
    split
    · exact ⟨rfl, rfl⟩
    · exact cascadeNodeMode_none hnone
  | excise vf vt wall =>
    show st.SameRows (st.exciseNodeValidity cfg vf.toInt vt.toInt wall.toInt).1
    unfold exciseNodeValidity
    split
    · exact ⟨rfl, rfl⟩
    · rcases h with h | h
      · unfold cascadeNodeMode
        split
        · exact ⟨rfl, rfl⟩
        · rename_i hinterval
          simp only [NodeEvent.takesSnapshot, Bool.and_eq_false_iff, Bool.or_eq_false_iff,
            decide_eq_false_iff_not, not_lt] at h
          exact absurd h hinterval
      · exact cascadeNodeMode_none h
  | endNode => cases e <;> cases haccepts

variable {gcfg : GraphConfig} {p : Primary V}

/-- The store after a door without a snapshot. -/
theorem Primary.store_of_noSnapshot (hin : (Door.chain e ends ev).inTx = true)
    (hcreate : ev.isCreate = false)
    (h : (e.accepts ev && ev.takesSnapshot (gcfg.forEntity e) (p.store.chainState p.clock e)) = false ∨
      p.store.current e = none) (token : Nat) :
    (p.runDoor gcfg token (.chain e ends ev)).store = p.store := by
  have hcalls : (p.doorCalls gcfg (.chain e ends ev)).2 = [] := by
    rw [doorCalls]
    split
    · rename_i haccepts
      dsimp only
      split
      · refine NodeState.storeCalls_of_sameRows (NodeState.sameRows_step hin haccepts hcreate ?_)
        rw [haccepts, Bool.true_and] at h
        exact h.imp_right fun h => by simp [chainState, h]
      · rfl
    · rfl
  rw [runDoor, hcalls]
  rfl

end NoSnapshot

/-! ## Creates -/

section Create

variable [DecidableEq V] {cfg : DoorConfig} {st : NodeState V} {ev : NodeEvent V}

/-- What a create does to the rows. -/
def NodeState.CreatesIn (st st' : NodeState V) : Prop :=
  st'.history = st.history ∧ (st'.current = st.current ∨
    st.current = none ∧ ∃ row, st'.current = some row ∧
      lifeStartOf st.history = .ok ⟨row.version, maxStampOf st.history⟩)

omit [DecidableEq V] in
theorem NodeState.createsIn_putCreated {clock : Clock} {row : Row V} (hcur : st.current = none)
    (hlife : lifeStartOf st.history = .ok ⟨row.version, maxStampOf st.history⟩) :
    st.CreatesIn (st.putCreated clock row).1 := by
  unfold putCreated
  split
  · exact ⟨rfl, .inr ⟨hcur, row, rfl, hlife⟩⟩
  · exact ⟨rfl, .inl rfl⟩

theorem NodeState.createsIn_step (cfg : DoorConfig) (st : NodeState V) (hcreate : ev.isCreate = true) :
    st.CreatesIn (st.step cfg ev).1 := by
  cases ev with
  | add labels props vf vt wall =>
    show st.CreatesIn (st.addNode cfg labels props _ _ _).1
    unfold addNode
    split
    · exact ⟨rfl, .inl rfl⟩
    · exact ⟨rfl, .inl rfl⟩
    · split
      · rename_i hempty
        obtain ⟨hhist, hcur⟩ : st.history = [] ∧ st.current = none := by
          simpa [chain, chainOf, Option.toList_eq_nil_iff] using hempty
        exact createsIn_putCreated hcur (by rw [hhist]; rfl)
      · exact ⟨rfl, .inl rfl⟩
  | reimport labels props vf vt wall =>
    show st.CreatesIn (st.importNode cfg labels props _ _ _).1
    unfold importNode
    split
    · exact ⟨rfl, .inl rfl⟩
    · exact ⟨rfl, .inl rfl⟩
    · split
      · exact ⟨rfl, .inl rfl⟩
      · rename_i hnone
        split
        · exact ⟨rfl, .inl rfl⟩
        · rename_i life hlife
          refine createsIn_putCreated (by simpa using hnone) ?_
          rw [hlife, ← lifeStartOf_maxStamp hlife]
          rfl
  | tick | update | closeVersion | replaceVersion | changeLabel | setInterval | excise | endNode =>
    cases hcreate

omit [DecidableEq V] in
/-- The store is as it was, or has a life of the entity that starts right above the chain. -/
def Store.CreatedAt (s : Store V) (e : EntityId) (s' : Store V) : Prop :=
  s'.history e = s.history e ∧ (s'.current e = s.current e ∨
    s.current e = none ∧ ∃ y, s'.current e = some y ∧ y.version ≤ maxUint32 ∧
      (∀ r ∈ s.history e, r.version < y.version) ∧ ∀ w < y.version, ∃ r ∈ s.history e, w ≤ r.version)

/-- The store after a create. -/
theorem Primary.created_runDoor {cfg : GraphConfig} {p : Primary V} {e : EntityId}
    {ends : Option (Nat × Nat)} (hcreate : ev.isCreate = true) (hver : p.store.VersionsOk e)
    (token : Nat) : p.store.CreatedAt e (p.runDoor cfg token (.chain e ends ev)).store := by
  have hcalls : Leads (p.store.CreatedAt e) p.store (p.doorCalls cfg (.chain e ends ev)).2 := by
    rw [doorCalls]
    split
    swap
    · exact ⟨rfl, .inl rfl⟩
    dsimp only
    split
    swap
    · exact ⟨rfl, .inl rfl⟩
    obtain ⟨hhist, hsame | ⟨hnone, row, hrow, hlife⟩⟩ :=
      NodeState.createsIn_step (cfg.forEntity e) (p.store.chainState p.clock e) hcreate
    · rw [NodeState.storeCalls_of_sameRows ⟨hhist, hsame⟩]
      exact ⟨rfl, .inl rfl⟩
    · have hcur : p.store.current e = none := by simpa [chainState] using hnone
      have hfits := fits_lifeStartOf (fun r hr => by
        obtain ⟨x, hx, rfl⟩ := mem_map.mp hr
        exact hver x (.inl hx)) hlife
      unfold NodeState.storeCalls
      rw [hnone, hrow]
      refine ⟨⟨rfl, .inl rfl⟩, fun s' r hcall => ?_⟩
      have hput : s'.history = p.store.history ∧ s'.current =
          update p.store.current e (some ⟨p.store.endsOf e ends, row⟩) := by
        cases call_effect hcall <;> exact ⟨rfl, rfl⟩
      refine ⟨by rw [hput.1], .inr ⟨hcur, ⟨p.store.endsOf e ends, row⟩,
        by rw [hput.2, update_self], hfits.1, fun r hr => ?_, fun w hw => ?_⟩⟩
      · exact version_lt_of_lifeStartOf hlife (mem_map_of_mem hr)
      · obtain ⟨r, hr, hle⟩ := hfits.2 w hw
        obtain ⟨x, hx, rfl⟩ := mem_map.mp hr
        exact ⟨x, hx, hle⟩
  exact hcalls.runCalls (p := { p with clock := (p.doorCalls cfg (.chain e ends ev)).1 }) token

end Create

/-! ## Deletes -/

/-- The current row of an entity has become a tombstone. -/
def Store.Ended (s : Store V) (e : EntityId) (s' : Store V) : Prop :=
  ∃ x tombstone, s.current e = some x ∧ tombstone.version = x.version ∧ s'.current e = none ∧
    s'.history e = Keyed.put Stored.version (s.history e) tombstone

/-- The rows of an entity are the same. -/
def Store.SameAt (s : Store V) (e : EntityId) (s' : Store V) : Prop :=
  s'.current e = s.current e ∧ s'.history e = s.history e

section Delete

variable {s s' : Store V}

variable {rels : List (RelTombstone V)} {id : Nat}

theorem history_foldl_putHistoryRow_of_not_mem {e : EntityId} (h : ∀ rt ∈ rels, .rel rt.id ≠ e) :
    (rels.foldl (fun s rt => s.putHistoryRow (.rel rt.id) rt.tombstone) s).history e =
      s.history e := by
  induction rels generalizing s with
  | nil => rfl
  | cons rt rels ih =>
    rw [foldl_cons, ih fun r hr => h r (mem_cons_of_mem _ hr),
      history_putHistoryRow, update_of_ne (h rt mem_cons_self).symm]

theorem history_foldl_putHistoryRow_of_mem {rt : RelTombstone V} (hnodup : (rels.map (·.id)).Nodup)
    (h : rt ∈ rels) :
    (rels.foldl (fun s rt => s.putHistoryRow (.rel rt.id) rt.tombstone) s).history (.rel rt.id) =
      Keyed.put Stored.version (s.history (.rel rt.id)) rt.tombstone := by
  induction rels generalizing s with
  | nil => cases h
  | cons a rels ih =>
    rw [map_cons, nodup_cons] at hnodup
    rw [foldl_cons]
    rcases mem_cons.mp h with rfl | h
    · rw [history_foldl_putHistoryRow_of_not_mem, history_putHistoryRow, update_self]
      intro r hr heq
      exact hnodup.1 (EntityId.rel.inj heq ▸ mem_map_of_mem hr)
    · have hne : EntityId.rel rt.id ≠ .rel a.id := by
        intro heq
        exact hnodup.1 (EntityId.rel.inj heq ▸ mem_map_of_mem h)
      rw [ih hnodup.2 h, history_putHistoryRow, update_of_ne hne]

theorem Store.mem_cascadedRels {r : Nat} {x : Stored V} :
    (r, x) ∈ s.cascadedRels id ↔ r ∈ s.relIDs id ∧ s.current (.rel r) = some x := by
  unfold cascadedRels
  simp only [mem_filterMap, Finset.mem_sort, cascadedRelIDs, Finset.mem_filter,
    Option.map_eq_some_iff, Prod.mk.injEq]
  constructor
  · rintro ⟨a, ⟨ha, -⟩, y, hy, rfl, rfl⟩
    exact ⟨ha, hy⟩
  · rintro ⟨hr, hx⟩
    exact ⟨r, ⟨hr, by simp [hx]⟩, x, hx, rfl, rfl⟩

theorem Store.deleteNodeWithHistory_ok {v : Nat} {tombstone : Stored V} {r : Option (Change V)}
    (h : s.call (.deleteNodeWithHistory id v tombstone rels) = .ok (s', r)) :
    (∃ x, s.current (.node id) = some x ∧ tombstone.version = x.version) ∧
      (rels.map (·.id)).Nodup ∧
      (∀ rt ∈ rels, ∃ x, s.current (.rel rt.id) = some x ∧ rt.tombstone.version = x.version) ∧
      s' = s.nodeDeleted id tombstone rels := by
  simp only [call, deleteNodeWithHistory] at h
  split at h
  swap
  · cases h
  rename_i hvalid
  rw [Bool.and_eq_true, validVersionSnapshot, Bool.and_eq_true, beq_iff_eq,
    all_eq_true] at hvalid
  split at h
  · cases h
  rename_i old hcur
  split at h
  · cases h
  rename_i hok
  rw [not_or, Bool.not_eq_false, Bool.and_eq_true, beq_iff_eq, not_not] at hok
  split at h
  · cases h
  rename_i hrels
  split at h
  · cases h
    refine ⟨⟨old, hcur, by rw [hvalid.1.2, hok.1.1]⟩, hok.2, fun rt hrt => ?_, rfl⟩
    have herror := findSome?_eq_none_iff.mp hrels rt hrt
    unfold relTombstoneError at herror
    split at herror
    · split at herror
      · cases herror
      · rename_i x hx
        split at herror
        · rename_i hvers
          rw [Bool.and_eq_true, beq_iff_eq] at hvers
          have hsnap := hvalid.2 rt hrt
          rw [validVersionSnapshot, Bool.and_eq_true, beq_iff_eq] at hsnap
          exact ⟨x, hx, by rw [hsnap.2, hvers.1]⟩
        · cases herror
    · cases herror
  · cases h

/-- The relationships a cascade ends are those of the node. -/
theorem Store.Adjacent.mem_relIDs_iff (hadj : s.Adjacent) {r : Nat}
    (hids : rels.map (·.id) = (s.cascadedRels id).map (·.1)) :
    r ∈ s.relIDs id ↔ ∃ rt ∈ rels, rt.id = r := by
  rw [← mem_map (f := fun rt : RelTombstone V => rt.id), hids, mem_map]
  constructor
  · intro hr
    obtain ⟨y, hy⟩ := Option.ne_none_iff_exists'.mp (hadj.current_of_mem_relIDs hr)
    exact ⟨(r, y), mem_cascadedRels.mpr ⟨hr, hy⟩, rfl⟩
  · rintro ⟨⟨r', y⟩, hy, rfl⟩
    exact (mem_cascadedRels.mp hy).1

section NodeDeleted

variable {tombstone : Stored V} {n : Nat}

theorem Store.current_nodeDeleted_node : (s.nodeDeleted id tombstone rels).current (.node n) =
    if n = id then none else s.current (.node n) := by
  simp [nodeDeleted, update_apply]

theorem Store.current_nodeDeleted_rel : (s.nodeDeleted id tombstone rels).current (.rel n) =
    if n ∈ s.relIDs id then none else s.current (.rel n) := by
  simp [nodeDeleted]

theorem Store.history_nodeDeleted_node : (s.nodeDeleted id tombstone rels).history (.node n) =
    (s.putHistoryRow (.node id) tombstone).history (.node n) :=
  history_foldl_putHistoryRow_of_not_mem fun _ _ h => EntityId.noConfusion h

theorem Store.history_nodeDeleted_rel {rt : RelTombstone V} (hnodup : (rels.map (·.id)).Nodup)
    (h : rt ∈ rels) : (s.nodeDeleted id tombstone rels).history (.rel rt.id) =
      Keyed.put Stored.version (s.history (.rel rt.id)) rt.tombstone :=
  history_foldl_putHistoryRow_of_mem hnodup h

theorem Store.history_nodeDeleted_else (h : ¬∃ rt ∈ rels, rt.id = n) :
    (s.nodeDeleted id tombstone rels).history (.rel n) = s.history (.rel n) :=
  history_foldl_putHistoryRow_of_not_mem fun rt hrt heq => h ⟨rt, hrt, EntityId.rel.inj heq⟩

end NodeDeleted

variable [DecidableEq V] {cfg : GraphConfig} {p : Primary V}

/-- The store after a door with at most one store call. -/
theorem Primary.runDoor_single {d : Door V} {c : RoutedCall V} (token : Nat)
    (h : (p.doorCalls cfg d).2 = [] ∨ (p.doorCalls cfg d).2 = [c]) :
    (p.runDoor cfg token d).store = p.store ∨
      ∃ r, p.store.call c.call = .ok ((p.runDoor cfg token d).store, r) := by
  unfold Primary.runDoor
  rcases h with h | h
  · rw [h]
    exact .inl rfl
  · rw [h, Primary.runCalls]
    split
    · exact .inl rfl
    · rename_i hrun
      obtain ⟨r, hcall⟩ := Primary.call_of_runCall hrun
      exact .inr ⟨r, hcall⟩

/-- **A node delete** ends the node and its relationships, or does nothing. -/
theorem Primary.deletedNode_runDoor (cfg : GraphConfig) (hadj : p.store.Adjacent) (id : Nat)
    (spec : NodeState.TombstoneSpec) (wall : List Int64) (token : Nat) :
    (p.runDoor cfg token (.deleteNode id spec wall)).store = p.store ∨
      p.store.Ended (.node id) (p.runDoor cfg token (.deleteNode id spec wall)).store ∧
      (∀ r ∈ p.store.relIDs id,
        p.store.Ended (.rel r) (p.runDoor cfg token (.deleteNode id spec wall)).store) ∧
      ∀ e, e ≠ .node id → (∀ r ∈ p.store.relIDs id, e ≠ .rel r) →
        p.store.SameAt e (p.runDoor cfg token (.deleteNode id spec wall)).store := by
  obtain ⟨current, tombstone, rels, hids, hcalls⟩ :
      ∃ (current : Nat) (tombstone : Stored V) (rels : List (RelTombstone V)),
        rels.map (·.id) = (p.store.cascadedRels id).map (·.1) ∧
        ((p.doorCalls cfg (.deleteNode id spec wall)).2 = [] ∨
          (p.doorCalls cfg (.deleteNode id spec wall)).2 =
            [⟨.deleteNodeWithHistory id current tombstone rels, true⟩]) := by
    rw [doorCalls]
    split
    · refine ⟨_, _, _, ?_, .inr rfl⟩
      rw [map_map]
      rfl
    · refine ⟨0, ⟨none, ⟨0, none, [], []⟩⟩, (p.store.cascadedRels id).map fun x => ⟨x.1, 0, x.2⟩, ?_,
        .inl rfl⟩
      rw [map_map]
      rfl
  rcases Primary.runDoor_single token hcalls with h | ⟨r, hcall⟩
  · exact .inl h
  · refine .inr ?_
    obtain ⟨⟨x, hx, hver⟩, hnodup, hrels, hs'⟩ := deleteNodeWithHistory_ok hcall
    have hmem : ∀ {r}, r ∈ p.store.relIDs id ↔ ∃ rt ∈ rels, rt.id = r := hadj.mem_relIDs_iff hids
    generalize (p.runDoor cfg token (.deleteNode id spec wall)).store = s' at hs'
    subst hs'
    refine ⟨⟨x, tombstone, hx, hver, ?_, ?_⟩, fun r hr => ?_, fun e he hnot => ?_⟩
    · rw [current_nodeDeleted_node, if_pos rfl]
    · rw [history_nodeDeleted_node, history_putHistoryRow, update_self]
    · obtain ⟨rt, hrt, rfl⟩ := hmem.mp hr
      obtain ⟨y, hy, hyver⟩ := hrels rt hrt
      exact ⟨y, rt.tombstone, hy, hyver, by rw [current_nodeDeleted_rel, if_pos hr],
        history_nodeDeleted_rel hnodup hrt⟩
    · cases e with
      | node n =>
        have hn : n ≠ id := fun h => he (h ▸ rfl)
        exact ⟨by rw [current_nodeDeleted_node, if_neg hn],
          by rw [history_nodeDeleted_node, history_putHistoryRow, update_of_ne he]⟩
      | rel n =>
        have hn : n ∉ p.store.relIDs id := fun h => hnot n h rfl
        exact ⟨by rw [current_nodeDeleted_rel, if_neg hn],
          history_nodeDeleted_else (mt hmem.mpr hn)⟩

/-- A relationship delete ends the relationship, or does nothing. -/
theorem Primary.deletedRel_runDoor (cfg : GraphConfig) (p : Primary V) (id : Nat)
    (spec : NodeState.TombstoneSpec) (wall : List Int64) (token : Nat) :
    (p.runDoor cfg token (.deleteRel id spec wall)).store = p.store ∨
      p.store.Ended (.rel id) (p.runDoor cfg token (.deleteRel id spec wall)).store ∧
      ∀ e, e ≠ .rel id → p.store.SameAt e (p.runDoor cfg token (.deleteRel id spec wall)).store := by
  obtain ⟨current, tombstone, hcalls⟩ : ∃ (current : Nat) (tombstone : Stored V),
      (p.doorCalls cfg (.deleteRel id spec wall)).2 = [] ∨
        (p.doorCalls cfg (.deleteRel id spec wall)).2 =
          [⟨.deleteRelWithHistory id current tombstone, true⟩] := by
    rw [doorCalls]
    split
    · exact ⟨_, _, .inr rfl⟩
    · exact ⟨0, ⟨none, ⟨0, none, [], []⟩⟩, .inl rfl⟩
  rcases Primary.runDoor_single token hcalls with h | ⟨r, hcall⟩
  · exact .inl h
  · refine .inr ?_
    generalize (p.runDoor cfg token (.deleteRel id spec wall)).store = s' at hcall
    cases call_effect hcall with
    | relEnded hcur hvalid =>
      rw [validVersionSnapshot, Bool.and_eq_true, beq_iff_eq] at hvalid
      refine ⟨⟨_, tombstone, hcur, hvalid.2, by simp, ?_⟩, fun e he => ⟨?_, ?_⟩⟩
      · rw [history_removeRels, history_putHistoryRow, update_self]
      · cases e with
        | node n => rfl
        | rel n =>
          rw [current_removeRels_rel, if_neg (by simpa using he)]
          rfl
      · rw [history_removeRels, history_putHistoryRow, update_of_ne he]

end Delete

end RhoTkg
