import RhoTkg.RelDegrees

/-!
# Tracked degree statistics are exact

`tracked_answers_exact`: in every interleaving in which no call copies the stats of a base while a
refresh assigns to them, an answer is the fresh count of the type's relationships at some moment
during the call.

The counts of a base are the tally of some relationships, and the identity the refresh checks holds
only if the relationships stored now are those and the recorded creates (`TrackOk`): a store step
moves the stamp at least as far as the records it leads to, and further when it does anything else.
A count that ends with the stamp it began with has seen one state of the type (`CallOk`).

The copy is not under a lock.  `copy_torn_by_refresh` is a run in which a refresh that has made the
first of its assignments is overtaken by the copy.
-/

namespace RhoTkg

open List Function
namespace RelDegrees

open Tally (Map bump tally top topStep Counts IsTop counts_tally counts_empty)

/-! ## The statistics -/

theorem StatField.mem_all (f : StatField) : f ∈ StatField.all := by
  cases f <;> decide

theorem RelTypeDegreeStats.get_set (st : RelTypeDegreeStats) (f f' : StatField) (v : ℕ) :
    (st.set f v).get f' = if f' = f then v else st.get f' := by
  cases f <;> cases f' <;> rfl

/-- The fields are all of the stats but the mark. -/
theorem RelTypeDegreeStats.eq_of_get {st st' : RelTypeDegreeStats} (h : ∀ f, st.get f = st'.get f) :
    { st with exact := true } = { st' with exact := true } := by
  rw [RelTypeDegreeStats.mk.injEq]
  exact ⟨h .rels, h .starts, h .ends, h .maxOut, h .maxIn, h .maxOutNode, h .maxInNode, rfl⟩

section Stats

variable {out in_ : Map ℕ} {es es' : List DegreeEdge}

/-- The statistics depend on what was counted only. -/
theorem degreeStatsFromCounts_eq (hout : Counts out (es.map DegreeEdge.start))
    (hin : Counts in_ (es.map DegreeEdge.end_)) :
    degreeStatsFromCounts es.length out in_ = degreeStats es := by
  have hout' := counts_tally (es.map DegreeEdge.start)
  have hin' := counts_tally (es.map DegreeEdge.end_)
  unfold degreeStats degreeStatsFromCounts
  rw [hout.top_eq hout', hin.top_eq hin', hout.length_keys, hin.length_keys, hout'.length_keys,
    hin'.length_keys]

theorem degreeStats_perm (h : es.Perm es') : degreeStats es = degreeStats es' := by
  have heq := degreeStatsFromCounts_eq ((counts_tally _).perm (h.map DegreeEdge.start))
    ((counts_tally _).perm (h.map DegreeEdge.end_))
  rw [← heq, ← h.length_eq]
  rfl

/-- A base holds the counts of `es`. -/
structure Tallied (b : DegreeBase) (es : List DegreeEdge) : Prop where
  out : Counts b.out (es.map DegreeEdge.start)
  in_ : Counts b.in_ (es.map DegreeEdge.end_)
  stats : b.stats = degreeStats es

/-- The number of nodes of a side after one more relationship. -/
theorem length_keys_cons (k : ℕ) (ks : List ℕ) : (tally (k :: ks)).keys.length =
    if ks.count k + 1 = 1 then (tally ks).keys.length + 1 else (tally ks).keys.length := by
  rw [(counts_tally (k :: ks)).length_keys, (counts_tally ks).length_keys, toFinset_cons]
  by_cases hk : k ∈ ks
  · have hpos := count_pos_iff.mpr hk
    rw [if_neg (by omega), Finset.insert_eq_of_mem (mem_toFinset.mpr hk)]
  · rw [if_pos (by rw [count_eq_zero_of_not_mem hk]),
      Finset.card_insert_of_notMem (by rwa [mem_toFinset])]

/-- The largest count of a side after one more relationship. -/
theorem top_tally_cons (k : ℕ) (ks : List ℕ) :
    top (tally (k :: ks)) = topStep (top (tally ks)) ⟨k, ks.count k + 1⟩ :=
  (counts_tally (k :: ks)).isTop_top.unique ((counts_tally ks).isTop_top.cons k)

/-- What the assignments of one side leave in its three fields. -/
theorem assign_addWrites (b : DegreeBase) (e : DegreeEdge) :
    b.stats.assign (b.addWrites e) =
      { b.stats with
        rels := b.stats.rels + 1
        starts := if Tally.get b.out e.start + 1 = 1 then b.stats.starts + 1 else b.stats.starts
        maxOut := (topStep (b.stats.maxOut, b.stats.maxOutNode)
          ⟨e.start, Tally.get b.out e.start + 1⟩).1
        maxOutNode := (topStep (b.stats.maxOut, b.stats.maxOutNode)
          ⟨e.start, Tally.get b.out e.start + 1⟩).2
        ends := if Tally.get b.in_ e.end_ + 1 = 1 then b.stats.ends + 1 else b.stats.ends
        maxIn := (topStep (b.stats.maxIn, b.stats.maxInNode)
          ⟨e.end_, Tally.get b.in_ e.end_ + 1⟩).1
        maxInNode := (topStep (b.stats.maxIn, b.stats.maxInNode)
          ⟨e.end_, Tally.get b.in_ e.end_ + 1⟩).2 } := by
  unfold DegreeBase.addWrites DegreeBase.sideWrites topStep
  split_ifs <;> rfl

variable {b : DegreeBase}

/-- `degreeBase.add` counts one more relationship. -/
theorem Tallied.add (h : Tallied b es) (e : DegreeEdge) : Tallied (b.add e) (e :: es) := by
  refine ⟨h.out.bump e.start, h.in_.bump e.end_, ?_⟩
  change b.stats.assign (b.addWrites e) = _
  rw [assign_addWrites, h.out.get_eq, h.in_.get_eq, h.stats]
  simp only [degreeStats, degreeStatsFromCounts, map_cons, length_cons, length_keys_cons,
    top_tally_cons, Prod.mk.eta]

theorem Tallied.perm (h : Tallied b es) (hperm : es.Perm es') : Tallied b es' :=
  ⟨h.out.perm (hperm.map _), h.in_.perm (hperm.map _), h.stats.trans (degreeStats_perm hperm)⟩

/-- The loop of a refresh counts the recorded creates. -/
theorem Tallied.addAll (h : Tallied b es) (ps : List DegreeEdge) :
    Tallied (b.addAll ps) (ps ++ es) := by
  induction ps generalizing b es with
  | nil => exact h
  | cons p ps ih => exact (ih (h.add p)).perm perm_middle

theorem tok_addAll (b : DegreeBase) (ps : List DegreeEdge) : (b.addAll ps).tok = b.tok := by
  induction ps generalizing b with
  | nil => rfl
  | cons p ps ih => exact ih (b.add p)

/-- The assignments of the loop, one after the other. -/
theorem stats_addAll (b : DegreeBase) (ps : List DegreeEdge) :
    (b.addAll ps).stats = b.stats.assign (b.allWrites ps) := by
  induction ps generalizing b with
  | nil => rfl
  | cons p ps ih =>
    exact (ih (b.add p)).trans (foldl_append ..).symm

end Stats

/-! ## The memory store -/

namespace RelStore

variable (s : RelStore)

/-- The stamps after a bump of some types. -/
theorem epochs_bumpForTypes (rels : List Rel) (epochs : ℕ → ℕ) (stripe : ℕ) :
    rels.foldl (fun epochs (r : Rel) =>
      Function.update epochs (r.typeToken % relTypeEpochStripes)
        (epochs (r.typeToken % relTypeEpochStripes) + 1)) epochs stripe =
    epochs stripe +
      (rels.filter fun r => r.typeToken % relTypeEpochStripes == stripe).length := by
  induction rels generalizing epochs with
  | nil => rfl
  | cons r rels ih =>
    rw [foldl_cons, ih]
    by_cases hr : r.typeToken % relTypeEpochStripes = stripe
    · subst hr
      rw [update_self, filter_cons_of_pos (by simp), length_cons]
      omega
    · rw [update_of_ne (Ne.symm hr), filter_cons_of_neg (by simpa using hr)]

/-- Relationships of a type are in its stripe. -/
theorem length_ofType_le_stripe (rels : List Rel) (tok : ℕ) :
    (rels.filter fun r => r.typeToken == tok).length ≤
      (rels.filter fun r => r.typeToken % relTypeEpochStripes ==
        tok % relTypeEpochStripes).length := by
  rw [← countP_eq_length_filter, ← countP_eq_length_filter]
  refine countP_mono_left fun r _ hr => ?_
  rw [beq_iff_eq] at hr ⊢
  rw [hr]

/-- A put moves the stamp of every type by one for each relationship of the type. -/
theorem accounted_put {rels : List Rel} (h : s.Puts rels) : s.Accounted (s.put rels h) rels := by
  have hany : (rels.any fun r => r.typeToken == 0) = false := by
    rw [any_eq_false]
    intro r hr
    simpa using h.1 r hr
  have hput : s.put rels h = { s with
      rels := rels ++ s.rels
      ids_nodup := h.2
      relTypeEpochs := rels.foldl (fun epochs r =>
        update epochs (r.typeToken % relTypeEpochStripes)
          (epochs (r.typeToken % relTypeEpochStripes) + 1)) s.relTypeEpochs } := by
    unfold put bumpRelEpochForTypes
    rw [hany]
    rfl
  rw [hput]
  refine ⟨fun stripe => ?_, le_rfl, fun tok => .inl ⟨?_, ?_⟩⟩
  · simp only [epochs_bumpForTypes]
    omega
  · have hle := length_ofType_le_stripe rels tok
    simp only [relMutationEpochForType, epochs_bumpForTypes]
    omega
  · simp only [ofType, filter_append]
    exact .refl _

/-- A delete moves the stamp of every type. -/
theorem accounted_delete (ids : List ℕ) : s.Accounted (s.delete ids) [] :=
  ⟨fun _ => le_rfl, Nat.le_succ _, fun tok => .inr (by
    simp only [filter_nil, length_nil, relMutationEpochForType, delete, bumpRelEpoch]
    omega)⟩

/-- A replacement, a history row and a refused call move stamps and change no relationship. -/
theorem accounted_bump (rels : List Rel) : s.Accounted (s.bumpRelEpochForTypes rels) [] := by
  unfold bumpRelEpochForTypes
  split
  · refine ⟨fun _ => le_rfl, Nat.le_succ _, fun tok => .inl ⟨?_, .refl _⟩⟩
    simp only [filter_nil, length_nil, relMutationEpochForType, bumpRelEpoch]
    omega
  · refine ⟨fun stripe => ?_, le_rfl, fun tok => .inl ⟨?_, .refl _⟩⟩
    · simp only [epochs_bumpForTypes]
      omega
    · simp only [filter_nil, length_nil, relMutationEpochForType, epochs_bumpForTypes]
      omega

variable {s}

/-- A relationship of the type is found by its ID. -/
theorem read_eq {tok : ℕ} {r : Rel} (h : r ∈ s.ofType tok) : s.read tok r.id = some r := by
  unfold read
  cases hfind : (s.ofType tok).find? fun x => x.id == r.id with
  | none =>
    have hno := find?_eq_none.mp hfind r h
    simp at hno
  | some x =>
    have hx := mem_of_find?_eq_some hfind
    have hid : x.id = r.id := by simpa using find?_some hfind
    have hmem : ∀ y ∈ s.ofType tok, y ∈ s.rels := fun y hy => (mem_filter.mp hy).1
    exact congrArg some (inj_on_of_nodup_map s.ids_nodup (hmem x hx) (hmem r h) hid)

end RelStore

/-! ## The invariant -/

section Invariant

variable {ν : Type} {cfg : Config ν} {s : State ν} {i : ℕ} {c : Call ν}

namespace State

/-- The assignments a refresh has still to make to a base. -/
def todo (s : State ν) (b : ℕ) : List (StatField × ℕ) :=
  match s.refresh with
  | none => []
  | some r => if r.base = b then r.todo else []

end State

/-- A base holds the counts of `es`, once the assignments `todo` are made. -/
structure Holds (base : DegreeBase) (todo : List (StatField × ℕ)) (es : List DegreeEdge) : Prop where
  out : Counts base.out (es.map DegreeEdge.start)
  in_ : Counts base.in_ (es.map DegreeEdge.end_)
  stats : base.stats.assign todo = degreeStats es

/-- A count so far: if the stamp has not moved, the rows read and those left are the type's. -/
def CountOk (store : RelStore) (tok before : ℕ) (ids : List ℕ) (out in_ : Map ℕ) (rels : ℕ) : Prop :=
  before ≤ store.relMutationEpochForType tok ∧
    (store.relMutationEpochForType tok = before → ∃ seen rest : List Rel,
      rest.map Rel.id = ids ∧ (seen ++ rest).Perm (store.ofType tok) ∧
      Counts out (seen.map Rel.start) ∧ Counts in_ (seen.map Rel.end_) ∧ rels = seen.length)

/-- A copy so far: the stats of the base are, once the assignments `todo` are made, those of one of
the moments, and what is copied of them is still there. -/
structure CopyOk (base : DegreeBase) (todo : List (StatField × ℕ)) (moments : List RelStore) (tok : ℕ)
    (copied : RelTypeDegreeStats) (left : List StatField) : Prop where
  tok_eq : base.tok = tok
  left_ne : left ≠ []
  moment : ∃ m ∈ moments, base.stats.assign todo = m.degreeStats tok
  still : left ≠ StatField.all → todo = []
  same : ∀ f ∉ left, copied.get f = base.stats.get f

namespace State

/-- What a call knows where it stands. -/
def CallOk (cfg : Config ν) (s : State ν) (c : Call ν) : Prop :=
  match c.state with
  | .loadedStripe _ stripe =>
    stripe ≤ s.store.relTypeEpochs (cfg.token c.name % relTypeEpochStripes)
  | .loadedEpoch _ before => before ≤ s.store.relMutationEpochForType (cfg.token c.name)
  | .counting _ before ids out in_ rels => CountOk s.store (cfg.token c.name) before ids out in_ rels
  | .copying b copied left => b < s.nextBase ∧
    CopyOk (s.bases b) (s.todo b) (s.trace.drop c.since) (cfg.token c.name) copied left
  | .answered st till => till ≤ s.trace.length ∧ ∃ m ∈ s.moments c.since till,
      st = { m.degreeStats (cfg.token c.name) with exact := true }
  | _ => True

end State

open State

variable {since b before tok : ℕ} {st : CallState} {x store : RelStore} {created rels : List Rel}
  {name : ν} {s' : State ν} {tr : DegreeTrack} {types : ν → Option DegreeTrack} {f : StatField}
  {r : Refresh} {todo : List (StatField × ℕ)} {in_ out : Map ℕ}

theorem todo_of_none (h : s.refresh = none) (b : ℕ) : s.todo b = [] := by
  rw [todo, h]

theorem setCall_mem {d : Call ν} (hd : d ∈ (s.setCall i c st).calls) :
    d = { c with state := st } ∨ d ∈ s.calls :=
  (mem_or_eq_of_mem_set hd).symm

theorem moments_append {till : ℕ} (h : till ≤ s.trace.length) :
    (s.setStore x).moments since till = s.moments since till := by
  simp only [moments, setStore, take_append_of_le_length h]

theorem mem_trace_append {m : RelStore} (hm : m ∈ s.trace.drop since) :
    m ∈ (s.setStore x).trace.drop since := by
  have hle : since ≤ s.trace.length := by
    by_contra hlt
    rw [drop_of_length_le (by omega)] at hm
    cases hm
  rw [show (s.setStore x).trace = s.trace ++ [x] from rfl, drop_append_of_le_length hle]
  exact mem_append_left _ hm

/-- The stamp of a type does not fall, and when it stays the relationships of the type do. -/
theorem RelStore.Accounted.of_eq {s s' : RelStore} (h : s.Accounted s' created) (tok : ℕ) :
    s.relMutationEpochForType tok ≤ s'.relMutationEpochForType tok ∧
      (s'.relMutationEpochForType tok = s.relMutationEpochForType tok →
        (s'.ofType tok).Perm (s.ofType tok)) := by
  rcases h.moved tok with ⟨hle, hperm⟩ | hlt
  · refine ⟨by omega, fun heq => ?_⟩
    have hnone : (created.filter fun r => r.typeToken == tok) = [] :=
      length_eq_zero_iff.mp (by omega)
    rwa [hnone] at hperm
  · exact ⟨by omega, fun heq => by omega⟩

/-- A store step keeps what the calls know. -/
theorem callOk_setStore (hx : s.store.Accounted x created) (hok : s.CallOk cfg c) :
    (s.setStore x).CallOk cfg c := by
  obtain ⟨name, since, state⟩ := c
  obtain ⟨hle, heq⟩ := hx.of_eq (cfg.token name)
  cases state with
  | loadedStripe n stripe => exact le_trans (α := ℕ) hok (hx.epochs_le _)
  | loadedEpoch n before => exact le_trans (α := ℕ) hok hle
  | counting n before ids out in_ rels =>
    obtain ⟨hbefore, hcount⟩ : CountOk s.store (cfg.token name) before ids out in_ rels := hok
    refine ⟨hbefore.trans hle, fun hsame => ?_⟩
    have hstay := le_antisymm (hle.trans hsame.le) hbefore
    obtain ⟨seen, rest, hids, hperm, hrest⟩ := hcount hstay
    exact ⟨seen, rest, hids, hperm.trans (heq (hsame.trans hstay.symm)).symm, hrest⟩
  | copying b copied left =>
    obtain ⟨hlt, htok, hleft, ⟨m, hm, hstats⟩, hstill, hsame⟩ := hok
    exact ⟨hlt, htok, hleft, ⟨m, mem_trace_append hm, hstats⟩, hstill, hsame⟩
  | answered st till =>
    obtain ⟨htill, hm⟩ := (hok : _ ∧ _)
    refine ⟨htill.trans (by simp [setStore]), ?_⟩
    rw [moments_append htill]
    exact hm
  | _ => trivial

/-- What a call knows is about the bases only when it copies one. -/
theorem callOk_of_bases (hok : s.CallOk cfg c) (hstore : s'.store = s.store)
    (htrace : s'.trace = s.trace) (hnext : s.nextBase ≤ s'.nextBase)
    (hcopy : ∀ b copied left, c.state = .copying b copied left → b < s.nextBase → CopyOk (s.bases
      b) (s.todo b) (s.trace.drop c.since) (cfg.token c.name) copied left → CopyOk (s'.bases b)
      (s'.todo b) (s.trace.drop c.since) (cfg.token c.name) copied left) : s'.CallOk cfg c := by
  obtain ⟨name, since, state⟩ := c
  cases state with
  | copying b copied left =>
    obtain ⟨hlt, hcopied⟩ := hok
    exact ⟨hlt.trans_le hnext, htrace ▸ hcopy b copied left rfl hlt hcopied⟩
  | loadedStripe _ _ | loadedEpoch _ _ | counting _ _ _ _ _ _ =>
    unfold CallOk at hok ⊢
    rwa [hstore]
  | answered st till =>
    unfold CallOk moments at hok ⊢
    rwa [htrace]
  | _ => trivial

/-- The base is the same in both states, once the refresh at work on it is done. -/
structure State.SameBase (s s' : State ν) (b : ℕ) : Prop where
  tok : (s'.bases b).tok = (s.bases b).tok
  epoch : (s'.bases b).epoch = (s.bases b).epoch
  out : (s'.bases b).out = (s.bases b).out
  in_ : (s'.bases b).in_ = (s.bases b).in_
  stats : (s'.bases b).stats.assign (s'.todo b) = (s.bases b).stats.assign (s.todo b)

theorem State.SameBase.of_eq (hbase : s'.bases b = s.bases b) (htodo : s'.todo b = s.todo b) :
    s.SameBase s' b := by
  constructor <;> simp only [hbase, htodo]

theorem canLock_iff : s.canLock = true ↔ s.inflight = [] ∧ s.refresh = none := by
  simp [canLock]

variable [DecidableEq ν]

namespace State

/-- The creates of a type between their store step and their record step. -/
def unrecorded (s : State ν) (name : ν) : List DegreeEdge :=
  (s.inflight.filter fun p => p.1 == name).flatMap fun p => p.2.map Rel.edge

theorem unrecorded_of_nil (h : s.inflight = []) (name : ν) : s.unrecorded name = [] := by
  rw [unrecorded, h]
  rfl

/-- The stamp has moved at least as far as the records since the base, and if no further then the
relationships of the type are those of the base and of the records. -/
def TrackOk (cfg : Config ν) (s : State ν) (name : ν) (tr : DegreeTrack) : Prop :=
  ∀ b, tr.base = some b → b < s.nextBase ∧ (tr.overflow = false →
    ∃ es, Holds (s.bases b) (s.todo b) es ∧
      (s.bases b).epoch + (tr.pending.length + (s.unrecorded name).length) ≤
        s.store.relMutationEpochForType (cfg.token name) ∧
      ((s.bases b).epoch + (tr.pending.length + (s.unrecorded name).length) =
          s.store.relMutationEpochForType (cfg.token name) →
        ((s.store.ofType (cfg.token name)).map Rel.edge).Perm
          (tr.pending ++ s.unrecorded name ++ es)))

/-- The invariant of every interleaving. -/
structure Inv (cfg : Config ν) (s : State ν) : Prop where
  trace : ∃ t, s.trace = t ++ [s.store]
  tracks : ∀ name tr, s.types name = some tr → s.TrackOk cfg name tr
  own : ∀ name name' tr tr' b, s.types name = some tr → s.types name' = some tr' →
    tr.base = some b → tr'.base = some b → name = name'
  locked : ∀ r, s.refresh = some r → s.inflight = [] ∧ r.base < s.nextBase ∧
    ∃ c, s.calls[r.call]? = some c ∧ c.state = .applying ∧
      (s.bases r.base).stats.assign r.todo = s.store.degreeStats (cfg.token c.name)
  calls : ∀ c ∈ s.calls, c.since < s.trace.length ∧ s.CallOk cfg c

end State

/-- The store now is a moment of every call. -/
theorem State.Inv.store_mem (h : s.Inv cfg) (hsince : since < s.trace.length) :
    s.store ∈ s.trace.drop since := by
  obtain ⟨t, ht⟩ := h.trace
  rw [ht, length_append, length_singleton] at hsince
  rw [ht, drop_append_of_le_length (by omega)]
  exact mem_append_right _ mem_cons_self

/-! ### Steps of a call -/

/-- A call that holds no lock goes on to a state it knows enough for. -/
theorem State.Inv.setCall (h : s.Inv cfg) (hc : s.calls[i]? = some c) {at_ : CallState}
    (hstate : c.state = at_) (hne : at_ ≠ .applying) (hok : s.CallOk cfg { c with state := st }) :
    (s.setCall i c st).Inv cfg := by
  refine ⟨h.trace, h.tracks, h.own, fun r hr => ?_, fun d hd => ?_⟩
  · obtain ⟨hfree, hlt, d, hd, happlying, hstats⟩ := h.locked r hr
    refine ⟨hfree, hlt, d, ?_, happlying, hstats⟩
    have hne : i ≠ r.call := by
      rintro rfl
      rw [Option.some.inj (hc.symm.trans hd)] at hstate
      exact hne (hstate.symm.trans happlying)
    exact (getElem?_set_ne hne).trans hd
  · rcases setCall_mem hd with rfl | hd
    · exact ⟨(h.calls c (mem_of_getElem? hc)).1, hok⟩
    · exact h.calls d hd

/-! ### Store steps -/

/-- A store step after which `new` are the creates of the type that wait for their record. -/
theorem trackOk_setStore (hx : s.store.Accounted x created) (h : s.TrackOk cfg name tr)
    (new : List Rel) (hnew : new = [] ∨ new = created.filter fun r => r.typeToken == cfg.token name)
    (hstore : s'.store = x) (hbases : s'.bases = s.bases) (hnext : s'.nextBase = s.nextBase)
    (htodo : s'.todo = s.todo)
    (hwaits : s'.unrecorded name = new.map Rel.edge ++ s.unrecorded name) :
    s'.TrackOk cfg name tr := by
  intro b hb
  obtain ⟨hlt, hes⟩ := h b hb
  refine ⟨hnext ▸ hlt, fun hover => ?_⟩
  obtain ⟨es, hholds, hle, heq⟩ := hes hover
  rw [hbases, hstore, hwaits, htodo, length_append, length_map]
  refine ⟨es, hholds, ?_⟩
  -- the stamp moves by one for each create of the type, and by more when anything else happens
  have hcount : new.length ≤ (created.filter fun r => r.typeToken == cfg.token name).length := by
    rcases hnew with rfl | rfl
    · exact Nat.zero_le _
    · exact le_rfl
  rcases hx.moved (cfg.token name) with ⟨hmoved, hperm⟩ | hmoved
  · refine ⟨by omega, fun hsame => ?_⟩
    have hall : new = created.filter fun r => r.typeToken == cfg.token name := by
      rcases hnew with rfl | hnew
      · rw [length_nil] at hsame
        exact (length_eq_zero_iff.mp (by omega)).symm
      · exact hnew
    rw [← hall] at hperm
    refine (hperm.map Rel.edge).trans ?_
    rw [map_append]
    refine ((heq (by rw [← hall] at hmoved; omega)).append_left _).trans ?_
    rw [append_assoc, append_assoc, append_assoc]
    exact perm_append_comm_assoc _ _ _
  · exact ⟨by omega, fun hsame => by omega⟩

/-- A store step of a write. -/
theorem State.Inv.write (h : s.Inv cfg) (hx : s.store.Accounted x []) (hfree : s.refresh = none) :
    (s.setStore x).Inv cfg := by
  refine ⟨⟨s.trace, rfl⟩, fun name tr htr => ?_, h.own, fun r hr => ?_, fun d hd => ?_⟩
  · exact trackOk_setStore hx (h.tracks name tr htr) [] (.inl rfl) rfl rfl rfl rfl rfl
  · exact nomatch hfree.symm.trans hr
  · obtain ⟨hlt, hok⟩ := h.calls d hd
    exact ⟨hlt.trans (by simp [setStore]), callOk_setStore hx hok⟩

/-- The store step of a create through a recording door. -/
theorem State.Inv.create (h : s.Inv cfg) (hx : s.store.Accounted x rels)
    (htok : ∀ r ∈ rels, r.typeToken = cfg.token name) (hfree : s.refresh = none) :
    Inv cfg { s.setStore x with inflight := (name, rels) :: s.inflight } := by
  refine ⟨⟨s.trace, rfl⟩, fun name' tr htr => ?_, h.own, fun r hr => ?_, fun d hd => ?_⟩
  · have hok := h.tracks name' tr htr
    by_cases hname : name = name'
    · subst hname
      refine trackOk_setStore hx hok rels (.inr ?_) rfl rfl rfl rfl ?_
      · exact (filter_eq_self.mpr fun r hr => by simpa using htok r hr).symm
      · rw [unrecorded, filter_cons_of_pos (by simp), flatMap_cons]
        rfl
    · refine trackOk_setStore hx hok [] (.inl rfl) rfl rfl rfl rfl ?_
      rw [unrecorded, filter_cons_of_neg (by simpa using hname)]
      rfl
  · exact nomatch hfree.symm.trans hr
  · obtain ⟨hlt, hok⟩ := h.calls d hd
    exact ⟨hlt.trans (by simp [setStore]), callOk_setStore hx hok⟩

/-! ### The tracker -/

/-- A change of the tracker that gives no entry another base. -/
theorem State.Inv.own_of_base (h : s.Inv cfg)
    (hsub : ∀ name tr b, types name = some tr → tr.base = some b → ∃ tr₀, s.types name = some tr₀ ∧
      tr₀.base = some b) (name name' : ν) (tr tr' : DegreeTrack) (b : ℕ)
    (htr : types name = some tr) (htr' : types name' = some tr') (hb : tr.base = some b)
    (hb' : tr'.base = some b) : name = name' := by
  obtain ⟨tr₀, htr₀, hb₀⟩ := hsub name tr b htr hb
  obtain ⟨tr₁, htr₁, hb₁⟩ := hsub name' tr' b htr' hb'
  exact h.own name name' tr₀ tr₁ b htr₀ htr₁ hb₀ hb₁

/-- An entry after one entry changed. -/
theorem update_eq_some {name' : ν} {x : Option DegreeTrack}
    (h : Function.update types name x name' = some tr) :
    (name' = name ∧ x = some tr) ∨ (name' ≠ name ∧ types name' = some tr) := by
  by_cases hname : name' = name
  · subst hname
    rw [update_self] at h
    exact .inl ⟨rfl, h⟩
  · rw [update_of_ne hname] at h
    exact .inr ⟨hname, h⟩

theorem base_note (tr : DegreeTrack) (es : List DegreeEdge) : (tr.note es).base = tr.base := by
  unfold DegreeTrack.note
  split_ifs <;> rfl

/-- An entry that has room takes the records. -/
theorem note_of_overflow {es : List DegreeEdge} (h : (tr.note es).overflow = false) :
    tr.overflow = false ∧ (tr.note es).pending = tr.pending ++ es := by
  unfold DegreeTrack.note at h ⊢
  split_ifs at h ⊢ with hover hroom
  · cases hover.symm.trans h
  · exact ⟨by simpa using hover, rfl⟩

/-- A record step. -/
theorem State.Inv.record (h : s.Inv cfg) (hi : s.inflight[i]? = some (name, rels))
    (hfree : s.refresh = none) :
    Inv cfg { s with
      types := Function.update s.types name ((s.types name).map (·.note (rels.map Rel.edge)))
      inflight := s.inflight.eraseIdx i } := by
  have hperm : s.inflight.Perm ((name, rels) :: s.inflight.eraseIdx i) := by
    obtain ⟨hlt, hget⟩ := List.getElem?_eq_some_iff.mp hi
    rw [← hget]
    exact (getElem_cons_eraseIdx_perm hlt).symm
  have hwaits : ∀ name', (s.unrecorded name').Perm
      ((((name, rels) :: s.inflight.eraseIdx i).filter fun p => p.1 == name').flatMap
        fun p => p.2.map Rel.edge) := fun name' => (hperm.filter _).flatMap_right _
  refine ⟨h.trace, fun name' tr htr => ?_, h.own_of_base fun name' tr b htr hb => ?_,
    fun r hr => absurd (hfree.symm.trans hr) nofun, h.calls⟩
  · obtain ⟨rfl, hnote⟩ | ⟨hname, hold⟩ := update_eq_some htr
    · obtain ⟨tr₀, htr₀, rfl⟩ := Option.map_eq_some_iff.mp hnote
      intro b hb
      rw [base_note] at hb
      obtain ⟨hlt, hes⟩ := h.tracks name' tr₀ htr₀ b hb
      refine ⟨hlt, fun hover => ?_⟩
      obtain ⟨hover₀, hpending⟩ := note_of_overflow hover
      obtain ⟨es, hholds, hle, heq⟩ := hes hover₀
      -- the records pass from the creates in flight to the entry
      have hmove := hwaits name'
      rw [filter_cons_of_pos (by simp), flatMap_cons] at hmove
      have hlen := hmove.length_eq
      rw [length_append] at hlen
      rw [hpending, length_append]
      refine ⟨es, hholds, ?_, fun hsame => ?_⟩
      · refine le_of_eq_of_le ?_ hle
        rw [hlen]
        simp only [unrecorded]
        omega
      · refine (heq (Eq.trans ?_ hsame)).trans ?_
        · rw [hlen]
          simp only [unrecorded]
          omega
        · rw [append_assoc tr₀.pending (rels.map Rel.edge)]
          exact (hmove.append_left _).append_right _
    · have hmove := hwaits name'
      rw [filter_cons_of_neg (by simpa using Ne.symm hname)] at hmove
      intro b hb
      obtain ⟨hlt, hes⟩ := h.tracks name' tr hold b hb
      refine ⟨hlt, fun hover => ?_⟩
      obtain ⟨es, hholds, hle, heq⟩ := hes hover
      rw [hmove.length_eq] at hle heq
      exact ⟨es, hholds, hle, fun hsame =>
        (heq hsame).trans ((hmove.append_left _).append_right _)⟩
  · obtain ⟨rfl, hnote⟩ | ⟨-, hold⟩ := update_eq_some htr
    · obtain ⟨tr₀, htr₀, rfl⟩ := Option.map_eq_some_iff.mp hnote
      exact ⟨tr₀, htr₀, (base_note tr₀ _).symm.trans hb⟩
    · exact ⟨tr, hold, hb⟩

/-- `TrackRelTypeDegrees`: a new entry has no base. -/
theorem State.Inv.track (h : s.Inv cfg) (name : ν) (hfree : s.refresh = none) :
    Inv cfg { s with types := Function.update s.types name (some ((s.types name).getD {})) } := by
  have hof : ∀ name' tr b, update s.types name (some ((s.types name).getD {})) name' =
      some tr → tr.base = some b → s.types name' = some tr := by
    intro name' tr b htr hb
    obtain ⟨rfl, hnew⟩ | ⟨-, hold⟩ := update_eq_some htr
    · cases hold : s.types name' with
      | none =>
        rw [hold, Option.getD_none] at hnew
        rw [← Option.some.inj hnew] at hb
        cases hb
      | some tr₀ =>
        rw [hold] at hnew
        exact hnew
    · exact hold
  refine ⟨h.trace, fun name' tr htr b hb => ?_, h.own_of_base fun name' tr b htr hb => ?_,
    fun r hr => absurd (hfree.symm.trans hr) nofun, h.calls⟩
  · exact h.tracks name' tr (hof name' tr b htr hb) b hb
  · exact ⟨tr, hof name' tr b htr hb, hb⟩

/-- `UntrackRelTypeDegrees`. -/
theorem State.Inv.untrack (h : s.Inv cfg) (name : ν) (hfree : s.refresh = none) :
    Inv cfg { s with types := Function.update s.types name none } := by
  have hof : ∀ name' tr, update s.types name none name' = some tr →
      s.types name' = some tr := by
    intro name' tr htr
    obtain ⟨-, hnone⟩ | ⟨-, hold⟩ := update_eq_some htr
    · cases hnone
    · exact hold
  exact ⟨h.trace, fun name' tr htr => h.tracks name' tr (hof name' tr htr),
    h.own_of_base fun name' tr b htr hb => ⟨tr, hof name' tr htr, hb⟩,
    fun r hr => absurd (hfree.symm.trans hr) nofun, h.calls⟩

/-- A new call. -/
theorem State.Inv.call (h : s.Inv cfg) (name : ν) :
    Inv cfg { s with calls := s.calls ++ [⟨name, s.trace.length - 1, .started⟩] } := by
  obtain ⟨t, ht⟩ := h.trace
  refine ⟨⟨t, ht⟩, h.tracks, h.own, fun r hr => ?_, fun d hd => ?_⟩
  · obtain ⟨hfree, hlt, c, hc, hrest⟩ := h.locked r hr
    refine ⟨hfree, hlt, c, ?_, hrest⟩
    exact (List.getElem?_append_left (List.getElem?_eq_some_iff.mp hc).1).trans hc
  · rcases mem_append.mp hd with hd | hd
    · exact h.calls d hd
    · rw [mem_singleton.mp hd]
      refine ⟨?_, trivial⟩
      simp [ht]

/-! ### The refresh -/

/-- An entry is about its own base only. -/
theorem trackOk_of_bases (hok : s.TrackOk cfg name tr) (hstore : s'.store = s.store)
    (hinflight : s'.inflight = s.inflight) (hnext : s.nextBase ≤ s'.nextBase)
    (hbases : ∀ b, tr.base = some b → b < s.nextBase → s.SameBase s' b) :
    s'.TrackOk cfg name tr := by
  intro b hb
  obtain ⟨hlt, hes⟩ := hok b hb
  have hsame := hbases b hb hlt
  refine ⟨hlt.trans_le hnext, fun hover => ?_⟩
  obtain ⟨es, hholds, hrest⟩ := hes hover
  rw [hsame.epoch, hstore, unrecorded, hinflight]
  exact ⟨es, ⟨hsame.out ▸ hholds.out, hsame.in_ ▸ hholds.in_, hsame.stats.trans hholds.stats⟩, hrest⟩

/-- What a refresh that can start finds: the creates in flight are none, and the relationships of the
type are those of the base and the recorded ones. -/
theorem State.Inv.applicable (h : s.Inv cfg) (hlock : s.canLock = true)
    (happ : s.applicable cfg name = some (tr, b)) :
    s.types name = some tr ∧ tr.base = some b ∧ (s.bases b).tok = cfg.token name ∧
      b < s.nextBase ∧ ∃ es, Tallied (s.bases b) es ∧
        ((s.store.ofType (cfg.token name)).map Rel.edge).Perm (tr.pending ++ es) := by
  simp only [canLock, Bool.and_eq_true, List.isEmpty_iff, Option.isNone_iff_eq_none] at hlock
  have hnone := unrecorded_of_nil hlock.1 name
  unfold State.applicable at happ
  cases htr : s.types name with
  | none => simp [htr] at happ
  | some tr₀ =>
    cases hbase : tr₀.base with
    | none => simp [htr, hbase] at happ
    | some b₀ =>
      simp only [htr, hbase] at happ
      split at happ
      · rename_i hcond
        obtain ⟨rfl, rfl⟩ := Prod.mk.inj (Option.some.inj happ)
        obtain ⟨htok, hover, hepoch⟩ := hcond
        obtain ⟨hlt, hes⟩ := h.tracks name tr₀ htr b₀ hbase
        obtain ⟨es, hholds, -, heq⟩ := hes hover
        rw [hnone, length_nil, Nat.add_zero, append_nil] at heq
        have hstats := hholds.stats
        rw [todo_of_none hlock.2] at hstats
        exact ⟨rfl, hbase, htok, hlt, es, ⟨hholds.out, hholds.in_, hstats⟩, heq hepoch⟩
      · cases happ

/-- A base that is not refreshed stays. -/
theorem refreshing_else (cfg : Config ν) (i : ℕ) (c : Call ν) (tr : DegreeTrack) {b' : ℕ}
    (hfree : s.refresh = none) (hne : b' ≠ b) :
    (s.refreshing cfg i c tr b).bases b' = s.bases b' ∧
      (s.refreshing cfg i c tr b).todo b' = s.todo b' := by
  refine ⟨update_of_ne hne .., ?_⟩
  rw [todo_of_none hfree]
  exact if_neg hne.symm

/-- The base that is refreshed. -/
theorem refreshing_self (cfg : Config ν) (s : State ν) (i : ℕ) (c : Call ν) (tr : DegreeTrack) (b : ℕ) :
    (s.refreshing cfg i c tr b).bases b = { (s.bases b).addAll tr.pending with
        epoch := s.store.relMutationEpochForType (cfg.token c.name)
        stats := (s.bases b).stats } ∧
      (s.refreshing cfg i c tr b).todo b = (s.bases b).allWrites tr.pending :=
  ⟨update_self .., if_pos rfl⟩

/-- A refresh starts. -/
theorem State.Inv.refreshing (h : s.Inv cfg) (hc : s.calls[i]? = some c) (hlock : s.canLock = true)
    (happ : s.applicable cfg c.name = some (tr, b))
    (hrace : tr.pending = [] ∨ ∀ d ∈ s.calls, d.copiesPart b = false) :
    (s.refreshing cfg i c tr b).Inv cfg := by
  obtain ⟨htr, hbase, htok, hlt, es, htallied, hperm⟩ := h.applicable hlock happ
  obtain ⟨hwaits, hfree⟩ := canLock_iff.mp hlock
  obtain ⟨hnewBase, htodo⟩ := refreshing_self cfg s i c tr b
  have hadded := htallied.addAll tr.pending
  -- what the stats will be
  have hstats : (s.bases b).stats.assign ((s.bases b).allWrites tr.pending) =
      s.store.degreeStats (cfg.token c.name) := by
    rw [← stats_addAll, hadded.stats]
    exact (degreeStats_perm hperm).symm
  refine ⟨h.trace, fun name tr' htr' => ?_, h.own_of_base fun name tr' b' htr' hb' => ?_,
    fun r hr => ?_, fun d hd => ?_⟩
  · obtain ⟨rfl, hnew⟩ | ⟨hne, hold⟩ := update_eq_some htr'
    · cases hnew
      intro b' hb'
      cases hbase.symm.trans hb'
      have hnone := @unrecorded_of_nil _ (s.refreshing cfg i c tr b) _ hwaits c.name
      refine ⟨hlt, fun _ => ⟨tr.pending ++ es, ?_, ?_⟩⟩
      · rw [hnewBase, htodo]
        exact ⟨hadded.out, hadded.in_, hstats.trans (degreeStats_perm hperm)⟩
      · rw [hnewBase, hnone]
        exact ⟨le_rfl, fun _ => hperm⟩
    · refine trackOk_of_bases (h.tracks name tr' hold) rfl rfl le_rfl fun b' hb' _ => ?_
      have hother : b' ≠ b := by
        rintro rfl
        exact hne (h.own name c.name tr' tr b' hold htr hb' hbase)
      obtain ⟨hsame, htodo'⟩ := refreshing_else cfg i c tr hfree hother
      exact .of_eq hsame htodo'
  · obtain ⟨rfl, hnew⟩ | ⟨-, hold⟩ := update_eq_some htr'
    · cases hnew
      exact ⟨tr, htr, hb'⟩
    · exact ⟨tr', hold, hb'⟩
  · cases hr
    refine ⟨hwaits, hlt, { c with state := .applying }, ?_, rfl, ?_⟩
    · exact List.getElem?_set_self (List.getElem?_eq_some_iff.mp hc).1
    · rw [hnewBase]
      exact hstats
  · rcases setCall_mem hd with rfl | hmem
    · exact ⟨(h.calls c (mem_of_getElem? hc)).1, trivial⟩
    · obtain ⟨hsince, hok⟩ := h.calls d hmem
      refine ⟨hsince, callOk_of_bases hok rfl rfl le_rfl fun b' copied left hcopying _ hcopy => ?_⟩
      by_cases hb' : b' = b
      · subst hb'
        rw [hnewBase, htodo]
        rcases hrace with hnone | hwhole
        · -- nothing to add
          rw [hnone]
          rw [todo_of_none hfree] at hcopy
          exact ⟨hcopy.tok_eq, hcopy.left_ne, hcopy.moment, fun _ => rfl, hcopy.same⟩
        · -- the copy has not begun
          have hall : left = StatField.all := by
            simpa [Call.copiesPart, hcopying] using hwhole d hmem
          have htoken : cfg.token d.name = cfg.token c.name := hcopy.tok_eq.symm.trans htok
          refine ⟨(tok_addAll ..).trans hcopy.tok_eq, hcopy.left_ne,
            ⟨s.store, h.store_mem hsince, ?_⟩, fun hne => absurd hall hne, hcopy.same⟩
          rw [htoken]
          exact hstats
      · obtain ⟨hsame, htodo'⟩ := refreshing_else cfg i c tr hfree hb'
        rw [hsame, htodo']
        exact hcopy

/-- A refresh starts, or the call goes on to count. -/
theorem State.Inv.startRefresh (h : s.Inv cfg) (hc : s.calls[i]? = some c)
    (hstate : c.state = .tracked) (hlock : s.canLock = true)
    (hrace : raceFree cfg s (.advance i) = true) : (s.startRefresh cfg i c).Inv cfg := by
  unfold State.startRefresh
  cases happ : s.applicable cfg c.name with
  | none => exact h.setCall hc hstate nofun trivial
  | some p =>
    refine h.refreshing hc hlock happ ?_
    simpa [raceFree, hc, hstate, happ] using hrace

/-- A refresh makes its next assignment. -/
theorem State.Inv.assigned (h : s.Inv cfg) (hr : s.refresh = some r) {v : ℕ}
    (htodo : r.todo = (f, v) :: todo) : (s.assigned r f v todo).Inv cfg := by
  obtain ⟨hwaits, hlt, d, hd, happlying, hstats⟩ := h.locked r hr
  have hself : s.todo r.base = (f, v) :: todo := by
    rw [State.todo, hr]
    exact (if_pos rfl).trans htodo
  have helse : ∀ b, b ≠ r.base → (s.assigned r f v todo).bases b = s.bases b ∧
      (s.assigned r f v todo).todo b = s.todo b := fun b hb => by
    refine ⟨update_of_ne hb .., ?_⟩
    rw [State.todo, State.todo, hr]
    exact (if_neg hb.symm).trans (if_neg hb.symm).symm
  have hbase : (s.assigned r f v todo).bases r.base =
      { s.bases r.base with stats := (s.bases r.base).stats.set f v } := update_self ..
  have hsame : ∀ b, s.SameBase (s.assigned r f v todo) b := fun b => by
    by_cases hb : b = r.base
    · subst hb
      refine ⟨by rw [hbase], by rw [hbase], by rw [hbase], by rw [hbase], ?_⟩
      rw [hbase, hself]
      exact congrArg _ (if_pos rfl)
    · exact .of_eq (helse b hb).1 (helse b hb).2
  refine ⟨h.trace, fun name tr htr => ?_, h.own, fun r' hr' => ?_, fun d hd => ?_⟩
  · exact trackOk_of_bases (h.tracks name tr htr) rfl rfl le_rfl fun b _ _ => hsame b
  · cases hr'
    refine ⟨hwaits, hlt, d, hd, happlying, Eq.trans ?_ hstats⟩
    change ((s.assigned r f v todo).bases r.base).stats.assign todo = _
    rw [htodo, hbase]
    rfl
  · obtain ⟨hsince, hok⟩ := h.calls d hd
    refine ⟨hsince, callOk_of_bases hok rfl rfl le_rfl fun b copied left _ _ hcopy => ?_⟩
    -- a copy that has begun is of another base
    have hpart : left ≠ StatField.all → b ≠ r.base := by
      rintro hne rfl
      rw [hcopy.still hne] at hself
      cases hself
    refine ⟨(hsame b).tok.trans hcopy.tok_eq, hcopy.left_ne, ?_, fun hne => ?_, fun f' hf' => ?_⟩
    · obtain ⟨m, hm, hmoment⟩ := hcopy.moment
      exact ⟨m, hm, (hsame b).stats.trans hmoment⟩
    · exact (helse b (hpart hne)).2.trans (hcopy.still hne)
    · have hne : left ≠ StatField.all := fun hall => hf' (hall ▸ StatField.mem_all f')
      rw [(helse b (hpart hne)).1]
      exact hcopy.same f' hf'

/-- A refresh returns its answer. -/
theorem State.Inv.finish (h : s.Inv cfg) (hc : s.calls[i]? = some c) (hr : s.refresh = some r)
    (hcall : r.call = i) (htodo : r.todo = []) :
    Inv cfg { s.setCall i c (.answered { (s.bases r.base).stats with exact := true }
      s.trace.length) with refresh := none } := by
  obtain ⟨-, -, d, hd, -, hstats⟩ := h.locked r hr
  obtain rfl : d = c := Option.some.inj (hd.symm.trans (hcall ▸ hc))
  rw [htodo] at hstats
  have hnone : ∀ b, s.todo b = [] := fun b => by
    rw [todo, hr]
    simp only [htodo, ite_self]
  have hsince := (h.calls d (mem_of_getElem? hc)).1
  refine ⟨h.trace, fun name tr htr => ?_, h.own, nofun, fun e he => ?_⟩
  · exact trackOk_of_bases (h.tracks name tr htr) rfl rfl le_rfl fun b _ _ =>
      .of_eq rfl (hnone b).symm
  · rcases setCall_mem he with rfl | hmem
    · refine ⟨hsince, le_rfl, s.store, ?_, ?_⟩
      · change s.store ∈ (s.trace.take s.trace.length).drop d.since
        rw [take_length]
        exact h.store_mem hsince
      · exact congrArg (fun st : RelTypeDegreeStats => { st with exact := true }) hstats
    · obtain ⟨hlt, hok⟩ := h.calls e hmem
      refine ⟨hlt, callOk_of_bases hok rfl rfl le_rfl fun b copied left _ _ hcopy => ?_⟩
      rw [hnone b] at hcopy
      exact hcopy

/-! ### Counting and copying -/

/-- The members of the type are taken. -/
theorem countOk_snapshot (h : before ≤ store.relMutationEpochForType tok) :
    CountOk store tok before ((store.ofType tok).map Rel.id) ∅ ∅ 0 :=
  ⟨h, fun _ => ⟨[], store.ofType tok, rfl, .refl _, counts_empty, counts_empty, rfl⟩⟩

/-- The store counts the type itself. -/
theorem countOk_native (h : before ≤ store.relMutationEpochForType tok) :
    CountOk store tok before [] (tally ((store.ofType tok).map Rel.start))
      (tally ((store.ofType tok).map Rel.end_)) (store.ofType tok).length :=
  ⟨h, fun _ => ⟨store.ofType tok, [], rfl, by rw [append_nil], counts_tally _, counts_tally _,
    rfl⟩⟩

/-- One row is read: it is there if the stamp has not moved. -/
theorem CountOk.row {id : ℕ} {ids : List ℕ} {rels : ℕ}
    (h : CountOk store tok before (id :: ids) out in_ rels) :
    (store.read tok id = none → CountOk store tok before ids out in_ rels) ∧
      ∀ r, store.read tok id = some r →
        CountOk store tok before ids (bump out r.start) (bump in_ r.end_) (rels + 1) := by
  obtain ⟨hle, hcount⟩ := h
  -- the row is the first of those left
  have hrow : store.relMutationEpochForType tok = before → ∃ (seen rest : List Rel) (r : Rel),
      store.read tok id = some r ∧ rest.map Rel.id = ids ∧
      (seen ++ r :: rest).Perm (store.ofType tok) ∧ Counts out (seen.map Rel.start) ∧
      Counts in_ (seen.map Rel.end_) ∧ rels = seen.length := by
    intro hsame
    obtain ⟨seen, rest, hids, hperm, hrest⟩ := hcount hsame
    obtain ⟨r, rest, rfl, rfl, rfl⟩ := map_eq_cons_iff.mp hids
    have hmem : r ∈ store.ofType tok :=
      hperm.mem_iff.mp (mem_append_right _ mem_cons_self)
    exact ⟨seen, rest, r, RelStore.read_eq hmem, rfl, hperm, hrest⟩
  refine ⟨fun hnone => ⟨hle, fun hsame => ?_⟩, fun r hr => ⟨hle, fun hsame => ?_⟩⟩
  · obtain ⟨_, _, r, hr, -⟩ := hrow hsame
    cases hnone.symm.trans hr
  · obtain ⟨seen, rest, r', hr', hids, hperm, hout, hin, hlen⟩ := hrow hsame
    cases hr.symm.trans hr'
    refine ⟨r :: seen, rest, hids, perm_middle.symm.trans hperm, hout.bump _, hin.bump _, ?_⟩
    rw [hlen, length_cons]

/-- A count that ends with the stamp it began with has tallied the relationships of the type. -/
theorem CountOk.tallied {rels : ℕ} (h : CountOk store tok before [] out in_ rels)
    (hbefore : store.relMutationEpochForType tok = before) :
    Tallied ⟨tok, before, out, in_, degreeStatsFromCounts rels out in_⟩
      ((store.ofType tok).map Rel.edge) := by
  obtain ⟨seen, rest, hids, hperm, hout, hin, rfl⟩ := h.2 hbefore
  obtain rfl := map_eq_nil_iff.mp hids
  rw [append_nil] at hperm
  have hstart : seen.map Rel.start = (seen.map Rel.edge).map DegreeEdge.start := by
    rw [map_map]
    rfl
  have hend : seen.map Rel.end_ = (seen.map Rel.edge).map DegreeEdge.end_ := by
    rw [map_map]
    rfl
  rw [hstart] at hout
  rw [hend] at hin
  refine Tallied.perm ⟨hout, hin, ?_⟩ (hperm.map Rel.edge)
  rw [← length_map Rel.edge]
  exact degreeStatsFromCounts_eq hout hin

/-- The counts of an attempt are installed. -/
theorem State.Inv.installed (h : s.Inv cfg) (hc : s.calls[i]? = some c) (hlock : s.canLock = true)
    {base : DegreeBase} (htok : base.tok = cfg.token c.name)
    (hepoch : base.epoch = s.store.relMutationEpochForType (cfg.token c.name))
    (hbase : Tallied base ((s.store.ofType (cfg.token c.name)).map Rel.edge)) :
    (s.installed i c base).Inv cfg := by
  obtain ⟨hwaits, hfree⟩ := canLock_iff.mp hlock
  have hnew : (s.installed i c base).bases s.nextBase = base := update_self ..
  have htodo : ∀ b, (s.installed i c base).todo b = [] := todo_of_none hfree
  have hold : ∀ b < s.nextBase, (s.installed i c base).bases b = s.bases b :=
    fun b hb => update_of_ne hb.ne ..
  have htypes : ∀ name tr, (s.installed i c base).types name = some tr →
      (name = c.name ∧ tr = ⟨[], false, some s.nextBase⟩) ∨ s.types name = some tr := by
    intro name tr htr
    cases hentry : s.types c.name with
    | none =>
      simp only [State.installed, hentry] at htr
      exact .inr htr
    | some tr₀ =>
      simp only [State.installed, hentry] at htr
      obtain ⟨hname, heq⟩ | ⟨-, heq⟩ := update_eq_some htr
      · exact .inl ⟨hname, (Option.some.inj heq).symm⟩
      · exact .inr heq
  refine ⟨h.trace, fun name tr htr => ?_, fun name name' tr tr' b htr htr' hb hb' => ?_,
    fun r hr => absurd (hfree.symm.trans hr) nofun, fun d hd => ?_⟩
  · obtain ⟨rfl, rfl⟩ | htr := htypes name tr htr
    · intro b hb
      cases hb
      have hholds : Holds base [] _ := ⟨hbase.out, hbase.in_, hbase.stats⟩
      have hnone := @unrecorded_of_nil _ (s.installed i c base) _ hwaits c.name
      rw [← hnew, ← htodo s.nextBase] at hholds
      refine ⟨Nat.lt_succ_self _, fun _ => ⟨_, hholds, ?_⟩⟩
      rw [hnew, hnone]
      exact ⟨hepoch.le, fun _ => .refl _⟩
    · exact trackOk_of_bases (h.tracks name tr htr) rfl rfl (Nat.le_succ _) fun b _ hb =>
        .of_eq (hold b hb) ((htodo b).trans (todo_of_none hfree b).symm)
  · -- the new base is of the one entry
    have hne : ∀ {name tr}, s.types name = some tr → tr.base ≠ some s.nextBase :=
      fun htr hb => lt_irrefl _ (h.tracks _ _ htr _ hb).1
    obtain ⟨rfl, rfl⟩ | htr := htypes name tr htr
    · obtain ⟨rfl, -⟩ | htr' := htypes name' tr' htr'
      · rfl
      · exact absurd (hb'.trans hb.symm) (hne htr')
    · obtain ⟨rfl, rfl⟩ | htr' := htypes name' tr' htr'
      · exact absurd (hb.trans hb'.symm) (hne htr)
      · exact h.own name name' tr tr' b htr htr' hb hb'
  · rcases setCall_mem hd with rfl | hmem
    · have hsince := (h.calls c (mem_of_getElem? hc)).1
      refine ⟨hsince, Nat.lt_succ_self _, ?_⟩
      rw [hnew, htodo]
      exact ⟨htok, by decide, ⟨s.store, h.store_mem hsince, hbase.stats⟩, fun _ => rfl,
        fun f hf => absurd (StatField.mem_all f) hf⟩
    · obtain ⟨hsince, hok⟩ := h.calls d hmem
      refine ⟨hsince, callOk_of_bases hok rfl rfl (Nat.le_succ _) fun b copied left _ hlt hcopy => ?_⟩
      rw [hold b hlt, htodo]
      rwa [todo_of_none hfree] at hcopy

/-- A field is copied, outside of a refresh of the base. -/
theorem CopyOk.field {base : DegreeBase} {moments : List RelStore} {copied : RelTypeDegreeStats}
    {left : List StatField} (h : CopyOk base todo moments tok copied (f :: left))
    (htodo : todo = []) :
    (left ≠ [] → CopyOk base todo moments tok (copied.set f (base.stats.get f)) left) ∧
      (left = [] → ∃ m ∈ moments, { copied.set f (base.stats.get f) with exact := true } =
        { m.degreeStats tok with exact := true }) := by
  have hsame : ∀ f' ∉ left, (copied.set f (base.stats.get f)).get f' = base.stats.get f' := by
    intro f' hf'
    rw [RelTypeDegreeStats.get_set]
    split
    · rename_i heq
      rw [heq]
    · rename_i hne
      exact h.same f' (not_mem_cons_of_ne_of_not_mem hne hf')
  refine ⟨fun hleft => ⟨h.tok_eq, hleft, h.moment, fun _ => htodo, hsame⟩, ?_⟩
  rintro rfl
  obtain ⟨m, hm, hstats⟩ := h.moment
  refine ⟨m, hm, ?_⟩
  rw [htodo] at hstats
  rw [← hstats]
  exact RelTypeDegreeStats.eq_of_get fun f' => hsame f' not_mem_nil

/-! ### All steps -/

/-- The next step of a call. -/
theorem State.Inv.advance (h : s.Inv cfg) (hc : s.calls[i]? = some c)
    (hrace : raceFree cfg s (.advance i) = true) : (s.advance cfg i c).Inv cfg := by
  obtain ⟨hsince, hok⟩ := h.calls c (mem_of_getElem? hc)
  unfold State.advance CallOk at *
  cases hstate : c.state with
  | started =>
    simp only
    split
    · refine h.setCall hc hstate nofun ?_
      split <;> exact trivial
    · exact h
  | tracked =>
    simp only
    split
    · rename_i hlock
      exact h.startRefresh hc hstate hlock hrace
    · exact h
  | applying =>
    simp only [State.goOnRefresh]
    split
    · exact h
    · rename_i r hr
      split
      · rename_i hcall
        split
        · rename_i htodo
          exact h.assigned hr htodo
        · rename_i htodo
          exact h.finish hc hr hcall htodo
      · exact h
  | attempt n =>
    simp only
    split
    · exact h.setCall hc hstate nofun le_rfl
    · exact h.setCall hc hstate nofun trivial
  | loadedStripe n stripe =>
    rw [hstate] at hok
    refine h.setCall hc hstate nofun ?_
    exact Nat.add_le_add_right hok _
  | loadedEpoch n before =>
    rw [hstate] at hok
    simp only
    split
    · split
      · exact h.setCall hc hstate nofun (countOk_native hok)
      · exact h
    · exact h.setCall hc hstate nofun (countOk_snapshot hok)
  | counting n before ids out in_ rels =>
    rw [hstate] at hok
    cases ids with
    | nil =>
      simp only
      split
      · rename_i hlock
        unfold State.install
        split
        · rename_i hbefore
          exact h.installed hc hlock rfl hbefore.symm (CountOk.tallied hok hbefore)
        · exact h.setCall hc hstate nofun trivial
      · exact h
    | cons id ids =>
      refine h.setCall hc hstate nofun ?_
      cases hread : s.store.read (cfg.token c.name) id with
      | none => exact (CountOk.row hok).1 hread
      | some r => exact (CountOk.row hok).2 r hread
  | copying b copied left =>
    rw [hstate] at hok
    obtain ⟨hlt, hcopy⟩ := hok
    cases left with
    | nil => exact absurd rfl hcopy.left_ne
    | cons f left =>
      have htodo : s.todo b = [] := by
        simp only [raceFree, hc, hstate] at hrace
        unfold todo
        cases hr : s.refresh with
        | none => rfl
        | some r =>
          simp only [hr, Option.all_some, Bool.or_eq_true, bne_iff_ne, List.isEmpty_iff] at hrace
          by_cases hb : r.base = b
          · exact (if_pos hb).trans (hrace.resolve_left fun hne => hne hb)
          · exact if_neg hb
      obtain ⟨hmore, hlast⟩ := hcopy.field htodo
      refine h.setCall hc hstate nofun ?_
      cases left with
      | cons f' left => exact ⟨hlt, hmore (cons_ne_nil _ _)⟩
      | nil =>
        refine ⟨le_rfl, ?_⟩
        obtain ⟨m, hm, heq⟩ := hlast rfl
        refine ⟨m, ?_, heq⟩
        change m ∈ (s.trace.take s.trace.length).drop c.since
        rwa [take_length]
  | answered | unhandled => exact h

/-- A step that waits for the lock. -/
theorem State.Inv.unlocked (h : s.Inv cfg) (hs' : s.refresh = none → s'.Inv cfg) :
    (if s.refresh.isNone then s' else s).Inv cfg := by
  split
  · rename_i hfree
    exact hs' (Option.isNone_iff_eq_none.mp hfree)
  · exact h

/-- **Every step keeps the invariant.** -/
theorem State.Inv.step (h : s.Inv cfg) {ev : Event ν} (hlaw : Lawful cfg s ev)
    (hrace : raceFree cfg s ev = true) : (s.step cfg ev).Inv cfg := by
  cases ev with
  | write store => exact h.unlocked (h.write hlaw)
  | create name rels store => exact h.unlocked (h.create hlaw.1 hlaw.2)
  | record i =>
    simp only [State.step]
    split
    · exact h
    · rename_i hi
      exact h.unlocked (h.record hi)
  | track name => exact h.unlocked (h.track name)
  | untrack name => exact h.unlocked (h.untrack name)
  | call name => exact h.call name
  | advance i =>
    simp only [State.step]
    split
    · exact h
    · rename_i hc
      exact h.advance hc hrace

theorem State.inv_initial (store : RelStore) : (State.initial store : State ν).Inv cfg :=
  ⟨⟨[], rfl⟩, nofun, nofun, nofun, nofun⟩

end Invariant

/-! ## Runs -/

section Runs

variable {ν : Type} [DecidableEq ν]

/-- The start: a graph on any store, with nothing tracked. -/
def Started (s : State ν) : Prop := ∃ store, s = .initial store

/-- Every answer is the fresh count of the type at some moment during its call, in every interleaving
in which no call copies the stats of a base while a refresh assigns to them. -/
theorem tracked_answers_exact (cfg : Config ν) {s : State ν}
    (h : Runs.Reachable Started (Runs.Guarded (State.step cfg) fun s ev =>
      Lawful cfg s ev ∧ raceFree cfg s ev = true) s)
    {c : Call ν} (hc : c ∈ s.calls) {st : RelTypeDegreeStats} {till : ℕ}
    (hanswer : c.state = .answered st till) :
    ∃ m ∈ s.moments c.since till, st = { m.degreeStats (cfg.token c.name) with exact := true } := by
  have hinv : s.Inv cfg := by
    refine h.invariant (fun s hs => ?_) fun s ev s' _ hs hnext => ?_
    · obtain ⟨store, rfl⟩ := hs
      exact State.inv_initial store
    · obtain ⟨⟨hlaw, hrace⟩, rfl⟩ := hnext
      exact hs.step hlaw hrace
  have hok := (hinv.calls c hc).2
  unfold State.CallOk at hok
  rw [hanswer] at hok
  exact hok.2

/-- An event that is no store step. -/
def Event.plain : Event ν → Bool
  | .write _ => false
  | .create .. => false
  | _ => true

variable {s : State ν}

omit [DecidableEq ν] in
theorem lawful_of_plain {cfg : Config ν} {ev : Event ν} (h : ev.plain = true) :
    Lawful cfg s ev := by
  cases ev with
  | write | create => cases h
  | _ => trivial

/-- A run goes on by events that are no store steps. -/
theorem reachable_plain (cfg : Config ν) (ok : State ν → Event ν → Prop) (evs : List (Event ν))
    (h : Runs.Reachable Started (Runs.Guarded (State.step cfg) fun s ev => Lawful cfg s ev ∧ ok s
      ev) s) (hplain : evs.all Event.plain = true) (hok : Runs.Along (State.step cfg) ok s evs) :
    Runs.Reachable Started (Runs.Guarded (State.step cfg) fun s ev => Lawful cfg s ev ∧ ok s ev)
      (evs.foldl (State.step cfg) s) := by
  induction evs generalizing s with
  | nil => exact h
  | cons ev evs ih =>
    rw [all_cons, Bool.and_eq_true] at hplain
    exact ih (h.step ⟨⟨lawful_of_plain hplain.1, hok.1⟩, rfl⟩) hplain.2 hok.2

end Runs

/-! ## Two runs -/

section Examples

/-- One type, of token 1, on a store that streams. -/
def oneType : Config Unit := ⟨fun _ => 1, false⟩

/-- A relationship from node 7 to node 9. -/
def newRel : Rel := ⟨5, 1, 7, 9⟩

/-- The store with the relationship. -/
def newStore : RelStore := RelStore.empty.put [newRel] (by decide)

/-- The type is tracked, and a call counts it and installs the counts. -/
def countEvents : List (Event Unit) := [.track (), .call ()] ++ List.replicate 6 (.advance 0)

/-- The call has still to copy the stats. -/
def countedState : State Unit := countEvents.foldl (State.step oneType) (.initial .empty)

/-- The relationship is created and recorded, and a second call refreshes the counts up to its `n`-th
assignment. -/
def refreshEvents (n : ℕ) : List (Event Unit) :=
  [.record 0, .call ()] ++ List.replicate (n + 2) (.advance 1)

/-- The store step of the create. -/
def createEvent : Event Unit := .create () [newRel] newStore

/-- The first call copies the stats, the relationship is created, and the second call returns its
answer. -/
def refreshedState : State Unit :=
  (refreshEvents 8).foldl (State.step oneType) (State.step oneType
    ((List.replicate 7 (.advance 0)).foldl (State.step oneType) countedState) createEvent)

/-- The relationship is created, the second call makes its first assignment, and the first call copies
the stats. -/
def tornState : State Unit :=
  (List.replicate 7 (.advance 0)).foldl (State.step oneType)
    ((refreshEvents 1).foldl (State.step oneType) (State.step oneType countedState createEvent))

/-- The answer of the second call. -/
def refreshedStats : RelTypeDegreeStats :=
  ⟨1, 1, 1, 1, 1, 7, 9, true⟩

/-- The second call counts the new relationship. -/
theorem tracked_answers_exact_refreshed : ∃ m ∈ refreshedState.moments 1 2,
    refreshedStats = { m.degreeStats 1 with exact := true } := by
  have hcounted := reachable_plain oneType (fun s ev => raceFree oneType s ev = true) countEvents
    (.start ⟨.empty, rfl⟩) rfl (by decide +kernel)
  have hcopied := reachable_plain _ _ (replicate 7 (.advance 0)) hcounted rfl
    (by decide +kernel)
  have hcreated := hcopied.step (e := createEvent)
    ⟨⟨⟨RelStore.accounted_put _ (by decide), by decide⟩, rfl⟩, rfl⟩
  have hrefreshed := reachable_plain _ _ (refreshEvents 8) hcreated rfl (by decide +kernel)
  have hcall : refreshedState.calls[1]? = some ⟨(), 1, .answered refreshedStats 2⟩ := rfl
  exact tracked_answers_exact oneType hrefreshed (mem_of_getElem? hcall) rfl

/-- A call copies the stats of its base while another refreshes them: it answers with one
relationship that starts nowhere. -/
theorem copy_torn_by_refresh :
    ∃ s : State Unit, Runs.Reachable Started (Runs.Guarded (State.step oneType) (Lawful oneType)) s ∧
      ∃ c ∈ s.calls, ∃ st till, c.state = .answered st till ∧ st.exact = true ∧
        ∀ m ∈ s.moments c.since till,
          st ≠ { m.degreeStats (oneType.token c.name) with exact := true } := by
  have hcounted := reachable_plain oneType (fun _ _ => True) countEvents (.start ⟨.empty, rfl⟩) rfl
    (by decide +kernel)
  have hcreated := hcounted.step (e := createEvent)
    ⟨⟨⟨RelStore.accounted_put _ (by decide), by decide⟩, trivial⟩, rfl⟩
  have hassigned := reachable_plain _ _ (refreshEvents 1) hcreated rfl (by decide +kernel)
  have htorn := reachable_plain _ _ (replicate 7 (.advance 0)) hassigned rfl
    (by decide +kernel)
  have hcall : tornState.calls[0]? = some ⟨(), 0, .answered { rels := 1, exact := true } 2⟩ := rfl
  refine ⟨tornState, htorn.mono fun s e s' hnext => ⟨hnext.1.1, hnext.2⟩, _,
    mem_of_getElem? hcall, _, _, rfl, rfl, ?_⟩
  decide +kernel

end Examples

end RelDegrees
end RhoTkg
