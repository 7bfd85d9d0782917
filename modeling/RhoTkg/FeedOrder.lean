import RhoTkg.Library.Runs
import RhoTkg.Primary

/-!
# The order of the change feed

A tailing replica applies the feed in LSN order, so the LSN order has to be the order of the
mutations wherever that order matters: between the changes of one entity, and between the create of a
relationship and the creates and deletes of its endpoints.  `Footprint` collects what decides this, of
a logged change and of a store call about to be made, and `Linearized` is the property of the feed.

Records of an open transaction wait in its scope, so the feed to come is the log followed by the
waiting records.  A record logged at once goes *between* the two, and the order survives when its
footprint meets that of no waiting record (`Primary.EagerClear`): then the log stays linearized
(`Primary.feed_linearized`).  A standalone call on an entity the open transaction has changed breaks
it, and so do the two transaction doors whose record is not routed into the scope.
-/

namespace RhoTkg

open List

variable {V : Type}

/-! ## Footprints -/

/-- What decides the order of two changes: the entities they are about, the endpoints of a
relationship that is created, and the node whose life begins or ends. -/
structure Footprint where
  about : Finset EntityId
  endpoints : Finset Nat
  life : Option Nat

/-- The order of the two changes matters. -/
def Footprint.Meets (f g : Footprint) : Prop :=
  (∃ e ∈ f.about, e ∈ g.about) ∨ (∃ n ∈ f.endpoints, g.life = some n) ∨
    ∃ n ∈ g.endpoints, f.life = some n

instance (f g : Footprint) : Decidable (f.Meets g) :=
  inferInstanceAs (Decidable (_ ∨ _ ∨ _))

/-- The endpoints of a row, as a set. -/
def Stored.endpoints (x : Stored V) : Finset Nat :=
  match x.ends with
  | none => ∅
  | some ends => {ends.1, ends.2}

/-- The footprint of a put: `creates` tells a create from a replacement. -/
def putFootprint (e : EntityId) (x : Stored V) (creates : Bool) : Footprint where
  about := {e}
  endpoints := if creates then x.endpoints else ∅
  life := match e with
    | .node id => if creates then some id else none
    | .rel _ => none

/-- The footprint of a change that leaves the current row's life alone, or deletes relationships. -/
def plainFootprint (about : Finset EntityId) : Footprint := ⟨about, ∅, none⟩

/-- The footprint of a node delete that cascades to `rels`. -/
def nodeDeleteFootprint (id : Nat) (rels : Finset Nat) : Footprint :=
  ⟨insert (.node id) (rels.image .rel), ∅, some id⟩

/-- The footprint of a logged change. -/
def Logged.footprint (a : Logged V) : Footprint :=
  match a.change with
  | .put e x _ => putFootprint e x a.creates
  | .nodeDelete id _ rels cascaded => nodeDeleteFootprint id ((rels.map (·.1)).toFinset ∪ cascaded)
  | .relDelete id _ => plainFootprint {.rel id}
  | .historyVersion e _ _ => plainFootprint {e}
  | .historyTruncate e _ _ => plainFootprint {e}

/-- The footprint of a store call on the store `s`. -/
def StoreCall.footprint (s : Store V) : StoreCall V → Footprint
  | .put e x => putFootprint e x true
  | .replace e x => putFootprint e x false
  | .replaceWithHistory e x _ _ => putFootprint e x false
  | .changeNodeLabelToken id _ x => putFootprint (.node id) x false
  | .changeNodeLabelTokenWithHistory id _ x _ _ => putFootprint (.node id) x false
  | .putVersion e _ _ => plainFootprint {e}
  | .truncateHistory e _ => plainFootprint {e}
  | .trimHistoryFrom e _ => plainFootprint {e}
  | .deleteRelationship id => plainFootprint {.rel id}
  | .deleteRelWithHistory id _ _ => plainFootprint {.rel id}
  | .deleteNode id => nodeDeleteFootprint id ∅
  | .deleteNodeCascade id => nodeDeleteFootprint id (s.cascadedRelIDs id)
  | .deleteNodeWithHistory id _ _ rels => nodeDeleteFootprint id (rels.map (·.id)).toFinset

/-! ## The property -/

/-- The live nodes of a replica after one more record. -/
def Logged.nodesAfter (nodes : Finset Nat) (a : Logged V) : Finset Nat :=
  match a.footprint.life with
  | none => nodes
  | some n => if a.creates then insert n nodes else nodes.erase n

/-- Applied in order on a replica with the live nodes `nodes`, no create of a relationship meets a
missing endpoint. -/
def EndpointsMet : Finset Nat → List (Logged V) → Prop
  | _, [] => True
  | nodes, a :: l => (∀ n ∈ a.footprint.endpoints, n ∈ nodes) ∧ EndpointsMet (a.nodesAfter nodes) l

/-- Changes whose order matters are in the order of their mutations. -/
def InOrder (l : List (Logged V)) : Prop :=
  l.Pairwise fun a b => a.footprint.Meets b.footprint → a.effect < b.effect

/-- The feed is a linearization. -/
structure Linearized (log : List (ChangeRecord (Logged V))) : Prop where
  lsn : log.Pairwise fun a b => a.lsn < b.lsn
  order : InOrder (log.map (·.payload))
  endpoints : EndpointsMet ∅ (log.map (·.payload))

/-! ## The condition -/

namespace Primary

/-- Every store call of a door that logs at once finds no waiting record its footprint meets. -/
def EagerClear (token : Nat) : Primary V → List (RoutedCall V) → Prop
  | _, [] => True
  | p, c :: cs =>
    (c.waits token = false → ∀ w ∈ p.waiting, ¬ (c.call.footprint p.store).Meets w.footprint) ∧
      ∀ p' ∈ p.runCall token c, EagerClear token p' cs

instance decidableEagerClear (token : Nat) : (p : Primary V) → (cs : List (RoutedCall V)) →
    Decidable (p.EagerClear token cs)
  | _, [] => inferInstanceAs (Decidable True)
  | p, c :: cs =>
    have : Decidable (∀ p' ∈ p.runCall token c, EagerClear token p' cs) :=
      match p.runCall token c with
      | none => isTrue fun _ h => (Option.not_mem_none _ h).elim
      | some p' =>
        have := decidableEagerClear token p' cs
        decidable_of_iff (EagerClear token p' cs) (by simp)
    inferInstanceAs (Decidable (_ ∧ _))

/-- The calls of the graph that keep the feed in order. -/
def InOrderCall [DecidableEq V] (cfg : GraphConfig) (p : Primary V) : Event V → Prop
  | .call d =>
    { p with clock := (p.doorCalls cfg d).1 }.EagerClear 0 (p.doorCalls cfg d).2
  | .txCall d => ∀ token ∈ p.scopeToken,
    { p with clock := (p.doorCalls cfg d).1 }.EagerClear token (p.doorCalls cfg d).2
  | _ => True

instance [DecidableEq V] (cfg : GraphConfig) (p : Primary V) :
    (ev : Event V) → Decidable (p.InOrderCall cfg ev)
  | .call _ => inferInstanceAs (Decidable (EagerClear ..))
  | .txCall d =>
    inferInstanceAs (Decidable (∀ token ∈ p.scopeToken,
      { p with clock := (p.doorCalls cfg d).1 }.EagerClear token (p.doorCalls cfg d).2))
  | .beginTx _ => inferInstanceAs (Decidable True)
  | .commit => inferInstanceAs (Decidable True)

end Primary

/-! ## The footprint of a call is that of its record -/

section Footprint

variable {s s' : Store V}

variable {c : StoreCall V} {n : Nat} {r : Option (Change V)}

theorem Store.Effect.footprint_eq {change : Change V} (h : s.Effect c s' (some change))
    (effect : Nat) : (⟨change, c.creates, effect⟩ : Logged V).footprint = c.footprint s := by
  cases h <;> try rfl
  case nodeCascaded => simp [Logged.footprint, StoreCall.footprint]
  case nodeEnded rels _ _ =>
    simp [Logged.footprint, StoreCall.footprint, Function.comp_def]

/-- The node whose life begins or ends is one of the entities the change is about. -/
theorem Logged.mem_about_of_life {a : Logged V} (h : a.footprint.life = some n) :
    EntityId.node n ∈ a.footprint.about := by
  obtain ⟨change, creates, effect⟩ := a
  cases change with
  | put e x _ =>
    cases e with
    | rel id => cases h
    | node id =>
      cases creates with
      | false => cases h
      | true =>
        cases h
        exact Finset.mem_singleton_self _
  | nodeDelete id _ _ _ =>
    cases h
    exact Finset.mem_insert_self _ _
  | relDelete | historyVersion | historyTruncate => cases h

/-- The nodes live after a call were live before it, but for the one it creates. -/
theorem Store.Effect.live (h : s.Effect c s' r) (hn : (s'.current (.node n)).isSome = true) :
    (c.footprint s).life = some n ∧ c.creates = true ∨
      (c.footprint s).life ≠ some n ∧ (s.current (.node n)).isSome = true := by
  -- a node that is not the one the call writes keeps its row
  have hother : ∀ {e : EntityId} {x : Option (Stored V)},
      ((s.setCurrent e x).current (.node n)).isSome = true → e ≠ .node n →
      (s.current (.node n)).isSome = true := by
    intro e x hs hne
    rwa [Store.current_setCurrent, Function.update_of_ne hne.symm] at hs
  have hreplaced : ∀ {e : EntityId} {old x : Stored V}, s.current e = some old →
      (Function.update s.current e (some x) (.node n)).isSome = true →
      (s.current (.node n)).isSome = true := by
    intro e old x hcur hs
    by_cases he : e = .node n
    · rw [← he, hcur]
      rfl
    · rwa [Function.update_of_ne (Ne.symm he)] at hs
  have hdeleted : ∀ {id : Nat} {t : Store V},
      ((t.setCurrent (.node id) none).current (.node n)).isSome = true →
      t.current (.node n) = s.current (.node n) →
      (some id ≠ some n) ∧ (s.current (.node n)).isSome = true := by
    intro id t hs ht
    by_cases hid : id = n
    · subst hid
      simp at hs
    · rw [Store.current_setCurrent, Function.update_of_ne (by simpa using Ne.symm hid), ht] at hs
      exact ⟨by simpa using hid, hs⟩
  cases h with
  | @putNode id x _ _ =>
    by_cases hid : id = n
    · exact .inl ⟨congrArg some hid, rfl⟩
    · exact .inr ⟨by simpa [StoreCall.footprint, putFootprint] using hid,
        hother hn (by simpa using hid)⟩
  | putRel =>
    rw [Store.current_addAdj] at hn
    exact .inr ⟨by simp [StoreCall.footprint, putFootprint], hother hn (by simp)⟩
  | @replaced e x old hcur _ =>
    exact .inr ⟨by cases e <;> simp [StoreCall.footprint, putFootprint], hreplaced hcur hn⟩
  | labelled hcur _ => exact .inr ⟨by simp [StoreCall.footprint, putFootprint], hreplaced hcur hn⟩
  | @superseded e x prev old hcur _ _ _ =>
    exact .inr ⟨by cases e <;> simp [StoreCall.footprint, putFootprint], hreplaced hcur hn⟩
  | labelSuperseded hcur _ _ _ =>
    exact .inr ⟨by simp [StoreCall.footprint, putFootprint], hreplaced hcur hn⟩
  | versionPut | truncated | notTruncated | trimmed | notTrimmed | relDeleted | relEnded =>
    exact .inr ⟨by simp [StoreCall.footprint, plainFootprint], hn⟩
  | nodeDeleted | nodeCascaded => exact .inr (hdeleted hn rfl)
  | nodeEnded => exact .inr (hdeleted hn (by simp [Store.current_removeRels_node]))

/-- A relationship is created between live nodes. -/
theorem Store.Effect.endpoints_live (h : s.Effect c s' r) (hn : n ∈ (c.footprint s).endpoints) :
    (s.current (.node n)).isSome = true := by
  cases h with
  | @putNode id x hvalid _ =>
    cases hends : x.ends with
    | none => simp [StoreCall.footprint, putFootprint, Stored.endpoints, hends] at hn
    | some ends => simp [validSnapshot, hends] at hvalid
  | putRel hvalid hends hstart hend _ =>
    simp only [StoreCall.footprint, putFootprint, if_true, Stored.endpoints, hends,
      Finset.mem_insert, Finset.mem_singleton] at hn
    rcases hn with rfl | rfl
    · exact hstart
    · exact hend
  | _ => simp [StoreCall.footprint, putFootprint, plainFootprint, nodeDeleteFootprint] at hn

end Footprint

/-! ## The nodes a feed leaves live -/

section Live

variable {l m : List (Logged V)} {nodes nodes' : Finset Nat} {n : Nat}

/-- The live nodes of a replica after a list of records. -/
def liveNodes (nodes : Finset Nat) (l : List (Logged V)) : Finset Nat :=
  l.foldl Logged.nodesAfter nodes

theorem Logged.mem_nodesAfter {a : Logged V} (h : a.footprint.life ≠ some n) :
    n ∈ a.nodesAfter nodes ↔ n ∈ nodes := by
  unfold Logged.nodesAfter
  split
  · rfl
  · rename_i k hk
    have hne : n ≠ k := fun hnk => h (by rw [hk, hnk])
    split <;> simp [hne]

theorem mem_liveNodes (h : ∀ a ∈ l, a.footprint.life ≠ some n) :
    n ∈ liveNodes nodes l ↔ n ∈ nodes := by
  induction l generalizing nodes with
  | nil => rfl
  | cons a l ih =>
    exact (ih fun b hb => h b (mem_cons_of_mem _ hb)).trans
      (Logged.mem_nodesAfter (h a mem_cons_self))

theorem Logged.mem_nodesAfter_congr (a : Logged V) (h : n ∈ nodes ↔ n ∈ nodes') :
    n ∈ a.nodesAfter nodes ↔ n ∈ a.nodesAfter nodes' := by
  unfold Logged.nodesAfter
  split
  · exact h
  · split <;> simp [h]

theorem mem_liveNodes_congr (h : n ∈ nodes ↔ n ∈ nodes') :
    n ∈ liveNodes nodes l ↔ n ∈ liveNodes nodes' l := by
  induction l generalizing nodes nodes' with
  | nil => exact h
  | cons a l ih => exact ih (a.mem_nodesAfter_congr h)

theorem endpointsMet_append : EndpointsMet nodes (l ++ m) ↔
    EndpointsMet nodes l ∧ EndpointsMet (liveNodes nodes l) m := by
  induction l generalizing nodes with
  | nil => exact ⟨fun h => ⟨trivial, h⟩, fun h => h.2⟩
  | cons a l ih => exact (and_congr_right fun _ => ih).trans and_assoc.symm

/-- Only the nodes a list has endpoints at matter for it. -/
theorem EndpointsMet.congr (h : EndpointsMet nodes l)
    (hsame : ∀ a ∈ l, ∀ n ∈ a.footprint.endpoints, (n ∈ nodes ↔ n ∈ nodes')) :
    EndpointsMet nodes' l := by
  induction l generalizing nodes nodes' with
  | nil => trivial
  | cons a l ih =>
    refine ⟨fun n hn => (hsame a mem_cons_self n hn).mp (h.1 n hn), ih h.2 ?_⟩
    intro b hb n hn
    exact a.mem_nodesAfter_congr (hsame b (mem_cons_of_mem _ hb) n hn)

end Live

/-! ## The invariant -/

/-- The list is a feed of the store: in order, complete about the live nodes, and its relationships
find their endpoints. -/
structure FeedOf (s : Store V) (effects : Nat) (l : List (Logged V)) : Prop where
  order : InOrder l
  effect_lt : ∀ a ∈ l, a.effect < effects
  live : ∀ n, (s.current (.node n)).isSome = true → n ∈ liveNodes ∅ l
  met : EndpointsMet ∅ l

variable {c : StoreCall V} {effects : Nat} {s s' : Store V}

/-- **The step of the feed.**  The record of a call goes in front of records it does not meet. -/
theorem FeedOf.insert {change : Change V} {l₁ l₂ : List (Logged V)}
    (h : FeedOf s effects (l₁ ++ l₂)) (heff : s.Effect c s' (some change))
    (hclear : ∀ w ∈ l₂, ¬ (c.footprint s).Meets w.footprint) :
    FeedOf s' (effects + 1) (l₁ ++ ⟨change, c.creates, effects⟩ :: l₂) := by
  have hfoot := heff.footprint_eq effects
  -- a record behind the new one starts or ends the life of no node the new one depends on
  have hlife : ∀ n, (n ∈ (c.footprint s).endpoints ∨ (c.footprint s).life = some n) →
      ∀ w ∈ l₂, w.footprint.life ≠ some n := by
    intro n hn w hw hwn
    rcases hn with hn | hn
    · exact hclear w hw (.inr (.inl ⟨n, hn, hwn⟩))
    · refine hclear w hw (.inl ⟨.node n, ?_, Logged.mem_about_of_life hwn⟩)
      rw [← hfoot] at hn ⊢
      exact Logged.mem_about_of_life hn
  have hlive : ∀ nodes, liveNodes nodes (l₁ ++ l₂) = liveNodes (liveNodes nodes l₁) l₂ := fun nodes =>
    foldl_append
  constructor
  · rw [InOrder, pairwise_append, pairwise_cons]
    have hord := pairwise_append.mp h.order
    refine ⟨hord.1, ⟨fun w hw hm => absurd (hfoot ▸ hm) (hclear w hw), hord.2.1⟩, ?_⟩
    intro a ha b hb
    rcases mem_cons.mp hb with rfl | hb
    · exact fun _ => h.effect_lt a (mem_append_left _ ha)
    · exact hord.2.2 a ha b hb
  · intro a ha
    simp only [mem_append, mem_cons] at ha
    rcases ha with ha | rfl | ha
    · exact (h.effect_lt a (mem_append_left _ ha)).trans (Nat.lt_succ_self _)
    · exact Nat.lt_succ_self _
    · exact (h.effect_lt a (mem_append_right _ ha)).trans (Nat.lt_succ_self _)
  · intro n hn
    show n ∈ liveNodes ∅ (l₁ ++ _ :: l₂)
    rw [liveNodes, foldl_append, foldl_cons]
    show n ∈ liveNodes (Logged.nodesAfter (liveNodes ∅ l₁) _) l₂
    rcases heff.live hn with ⟨hl, hcreates⟩ | ⟨hl, hs⟩
    · rw [mem_liveNodes (hlife n (.inr hl)), Logged.nodesAfter, hfoot, hl]
      simp [hcreates]
    · have hbefore := h.live n hs
      rw [hlive] at hbefore
      exact (mem_liveNodes_congr (Logged.mem_nodesAfter (by rwa [hfoot]))).mpr hbefore
  · rw [endpointsMet_append]
    obtain ⟨h₁, h₂⟩ := endpointsMet_append.mp h.met
    refine ⟨h₁, ?_, h₂.congr ?_⟩
    · intro n hn
      rw [hfoot] at hn
      have hbefore := h.live n (heff.endpoints_live hn)
      rw [hlive] at hbefore
      exact (mem_liveNodes (hlife n (.inl hn))).mp hbefore
    · intro w hw n hn
      refine (Logged.mem_nodesAfter fun hl => hclear w hw ?_).symm
      rw [hfoot] at hl
      exact .inr (.inr ⟨n, hn, hl⟩)

theorem FeedOf.unlogged {l : List (Logged V)} (h : FeedOf s effects l) (heff : s.Effect c s' none) :
    FeedOf s' effects l := by
  cases heff with
  | notTruncated | notTrimmed => exact h

/-! ## Runs -/

namespace Primary

/-- The log and the waiting records are a feed of the store. -/
structure FeedInv (p : Primary V) : Prop where
  scope : p.ScopeOk
  feed : FeedOf p.store p.effects (p.log.payloads ++ p.waiting)

variable {p p' : Primary V} {token : Nat} {c : RoutedCall V}

theorem FeedInv.runCall (hinv : p.FeedInv) (htoken : p.UnderToken token)
    (hclear : c.waits token = false →
      ∀ w ∈ p.waiting, ¬ (c.call.footprint p.store).Meets w.footprint)
    (h : p.runCall token c = some p') : p'.FeedInv := by
  refine ⟨hinv.scope.runCall htoken h, ?_⟩
  obtain ⟨s, hcall, rfl⟩ | ⟨s, change, hcall, rfl, hlog⟩ := hinv.scope.runCall_cases htoken h
  · exact hinv.feed.unlogged (Store.call_effect hcall)
  · have heff := Store.call_effect hcall
    obtain ⟨-, hpay, hwait⟩ | ⟨hwaits, hpay, hwait⟩ := hlog
    · rw [hpay, hwait, ← append_assoc]
      have hfeed := hinv.feed
      rw [← append_nil (p.log.payloads ++ p.waiting)] at hfeed
      exact hfeed.insert heff (by simp)
    · rw [hpay, hwait, append_assoc]
      exact hinv.feed.insert heff (hclear hwaits)

theorem FeedInv.runCalls {cs : List (RoutedCall V)} (hinv : p.FeedInv)
    (htoken : p.UnderToken token) (hclear : p.EagerClear token cs) :
    (p.runCalls token cs).FeedInv := by
  induction cs generalizing p with
  | nil => exact hinv
  | cons c cs ih =>
    rw [Primary.runCalls]
    split
    · exact hinv
    · rename_i p' hrun
      exact ih (hinv.runCall htoken hclear.1 hrun) (htoken.runCall hrun) (hclear.2 p' hrun)

/-- Every effect on the store has one record, in the log or waiting. -/
def LoggedOnce (p : Primary V) : Prop :=
  p.ScopeOk ∧ ((p.log.payloads ++ p.waiting).map (·.effect)).Perm (range p.effects)

theorem LoggedOnce.runCalls {cs : List (RoutedCall V)} (h : p.LoggedOnce)
    (htoken : p.UnderToken token) : (p.runCalls token cs).LoggedOnce := by
  induction cs generalizing p with
  | nil => exact h
  | cons c cs ih =>
    rw [Primary.runCalls]
    split
    · exact h
    rename_i p' hrun
    refine ih ⟨h.1.runCall htoken hrun, ?_⟩ (htoken.runCall hrun)
    have hnext := h.2.append_right [p.effects]
    rw [← range_succ, map_append, append_assoc] at hnext
    obtain ⟨s, -, rfl⟩ | ⟨s, change, -, rfl, ⟨-, hpay, hwait⟩ | ⟨-, hpay, hwait⟩⟩ :=
      h.1.runCall_cases htoken hrun
    · exact h.2
    · rw [hpay, hwait, map_append, map_append]
      exact hnext
    · rw [hpay, hwait, map_append, map_append, append_assoc]
      exact (perm_append_comm.append_left _).trans hnext

variable [DecidableEq V] {cfg : GraphConfig}

theorem LoggedOnce.step (h : p.LoggedOnce) (ev : Event V) : (p.step cfg ev).LoggedOnce := by
  refine ⟨h.1.step ev, ?_⟩
  have hrun : ∀ token d, p.UnderToken token → (p.runDoor cfg token d).LoggedOnce :=
    fun _ _ htoken => LoggedOnce.runCalls ⟨h.1.withClock _, h.2⟩ htoken
  have honce := h.2
  cases ev with
  | call d => exact (hrun 0 d (.inl rfl)).2
  | txCall d =>
    rw [Primary.step]
    split
    · exact honce
    · split
      · exact (hrun _ d (.inr ‹_›)).2
      · exact honce
  | beginTx wall =>
    rw [Primary.step]
    split
    · exact honce
    · rw [waiting_of_none ‹_›] at honce
      simpa [waiting, ScopedLog.waiting, ScopedLog.beginScopedLog, ScopedLog.payloads] using honce
  | commit =>
    rw [Primary.step]
    split
    · exact honce
    · rw [waiting_of_some ‹_›, ← ScopedLog.payloads_commitScopedLog] at honce
      simpa [waiting] using honce

/-- **No record is lost or logged twice**, whatever calls and transactions interleave, and the LSNs
have no gap. -/
theorem effects_logged_once (clock : Clock) (evs : List (Event V)) :
    let p := evs.foldl (step cfg) (.new clock)
    ((p.log.payloads ++ p.waiting).map (·.effect)).Perm (range p.effects) ∧
      p.log.changeLog.map (·.lsn) = range' 1 p.log.logSeq := by
  have h : LoggedOnce (evs.foldl (step cfg) (.new clock : Primary V)) :=
    foldlRecOn evs _ ⟨scopeOk_new clock, .refl _⟩ fun _ h ev _ => h.step ev
  exact ⟨h.2, h.1.numbered⟩

theorem FeedInv.step (hinv : p.FeedInv) {ev : Event V} (hclear : p.InOrderCall cfg ev) :
    (p.step cfg ev).FeedInv := by
  cases ev with
  | call d => exact FeedInv.runCalls ⟨hinv.scope.withClock _, hinv.feed⟩ (.inl rfl) hclear
  | beginTx wall =>
    refine ⟨hinv.scope.step _, ?_⟩
    rw [Primary.step]
    split
    · exact hinv.feed
    · rename_i hnone
      have hfeed := hinv.feed
      rw [waiting_of_none hnone] at hfeed
      simpa [Primary.waiting, ScopedLog.waiting, ScopedLog.beginScopedLog, ScopedLog.payloads]
        using hfeed
  | txCall d =>
    rw [Primary.step]
    split
    · exact hinv
    · rename_i token htoken
      split
      · exact FeedInv.runCalls ⟨hinv.scope.withClock _, hinv.feed⟩ (.inr htoken)
          (hclear token htoken)
      · exact hinv
  | commit =>
    refine ⟨hinv.scope.step _, ?_⟩
    rw [Primary.step]
    split
    · exact hinv.feed
    · rename_i token htoken
      have hfeed := hinv.feed
      rw [waiting_of_some htoken] at hfeed
      simpa [Primary.waiting, ScopedLog.payloads_commitScopedLog] using hfeed

omit [DecidableEq V] in
theorem feedInv_new (clock : Clock) : (Primary.new clock : Primary V).FeedInv :=
  ⟨scopeOk_new clock, Pairwise.nil, by simp [new, ScopedLog.empty, ScopedLog.payloads, waiting],
    by simp [new, Store.empty], trivial⟩

/-- The graph was opened on an empty store. -/
def IsNew (p : Primary V) : Prop := ∃ clock, p = .new clock

/-- **The feed is a linearization** in every run in which no record logged at once meets a record
that waits in the open transaction. -/
theorem feed_linearized (h : Runs.Reachable IsNew (Runs.Guarded (step cfg) (InOrderCall cfg)) p) :
    Linearized p.log.changeLog := by
  have hinv : p.FeedInv := by
    refine h.invariant ?_ ?_
    · rintro _ ⟨clock, rfl⟩
      exact feedInv_new clock
    · rintro q ev _ - hq ⟨hclear, rfl⟩
      exact hq.step hclear
  have hord := pairwise_append.mp hinv.feed.order
  exact ⟨hinv.scope.numbered.ascending, hord.1, (endpointsMet_append.mp hinv.feed.met).1⟩

/-! ## Runs in order and out of order -/

/-- While a transaction creates a node and a relationship to it, a standalone call updates another
node. -/
def besideTx : List (Event Nat) :=
  [.call (addNode 1 1), .beginTx 2, .txCall (addNode 3 3), .call (updateNode 1 2 4),
    .txCall (.chain (.rel 4) (some (1, 3)) (.add [2] [] none none 5)), .commit,
    .call (updateNode 3 2 6)]

theorem feed_linearized_besideTx : Linearized (runOf besideTx).log.changeLog ∧
    (runOf besideTx).log.payloads.map (·.effect) = [0, 2, 1, 3, 4] :=
  ⟨feed_linearized (.foldl (.start ⟨.fresh, rfl⟩) (by decide +kernel)), by decide +kernel⟩

/-- A standalone call updates the node an open transaction has created. -/
def updateInsideTx : List (Event Nat) :=
  [.beginTx 1, .txCall (addNode 1 2), .call (updateNode 1 2 3), .commit]

theorem not_linearized_createdInTx : ¬ Linearized (runOf updateInsideTx).log.changeLog ∧
    ¬ Linearized (runOf replaceInTx).log.changeLog := by
  refine ⟨fun h => absurd h.order ?_, fun h => absurd h.order ?_⟩
  · unfold InOrder
    decide +kernel
  · unfold InOrder
    decide +kernel

end Primary
end RhoTkg
