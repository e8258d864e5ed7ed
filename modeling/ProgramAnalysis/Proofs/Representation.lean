import ProgramAnalysis.Proofs.Frontiers
/-!
The representation of the reached set.

A reached set keeps what it holds several times over: the numbered entries, how many of them there
are, an index by handle, an index by place, and the frontier. `ReachedSet.Intact` says that all of
these tell the same story. A `Call` is one use of an operation, with its answer in a `Reply`. Every
call keeps the set intact (`Intact.perform`), so it stays intact through every sequence of calls,
whatever they are given: numbers that were never given out, entries removed twice, states that are
there already, and numbers that are given out again after everything was cleared.
-/

namespace ProgramAnalysis

/-! ## Keys of an index -/

namespace Index

variable {κ β : Type} [DecidableEq κ]

theorem mem_replace {k a : κ} {b c : β} {l : List (κ × β)} (h : (a, c) ∈ replace k b l) :
    a = k ∧ c = b ∨ (a, c) ∈ l := by
  induction l with
  | nil =>
    have hpair := List.mem_singleton.1 h
    exact .inl ⟨congrArg Prod.fst hpair, congrArg Prod.snd hpair⟩
  | cons q l ih =>
    obtain ⟨k', b'⟩ := q
    unfold replace at h
    split at h
    · rcases List.mem_cons.1 h with hpair | hl
      · exact .inl ⟨congrArg Prod.fst hpair, congrArg Prod.snd hpair⟩
      · exact .inr (List.mem_cons_of_mem _ hl)
    · rcases List.mem_cons.1 h with hpair | hl
      · exact .inr (hpair ▸ List.mem_cons_self)
      · exact (ih hl).imp_right (List.mem_cons_of_mem _)

theorem nodup_insert {m : Index κ β} (h : m.keys.Nodup) (k : κ) (b : β) :
    (m.insert k b).keys.Nodup := by
  have hreplace : ∀ l : List (κ × β), (l.map Prod.fst).Nodup →
      ((replace k b l).map Prod.fst).Nodup := by
    intro l
    induction l with
    | nil => intro _; simp [replace]
    | cons q l ih =>
      obtain ⟨k', b'⟩ := q
      intro hl
      obtain ⟨hnew, hrest⟩ := List.nodup_cons.1 hl
      unfold replace
      split
      · next hk =>
        subst hk
        exact hl
      · next hk =>
        refine List.nodup_cons.2 ⟨fun hmem => ?_, ih hrest⟩
        obtain ⟨⟨a, c⟩, hac, ha⟩ := List.mem_map.1 hmem
        have ha : a = k' := ha
        subst ha
        rcases mem_replace hac with ⟨hak, -⟩ | hold
        · exact hk hak
        · exact hnew (List.mem_map.2 ⟨(a, c), hold, rfl⟩)
  exact hreplace m.pairs h

theorem nodup_erase {m : Index κ β} (h : m.keys.Nodup) (k : κ) : (m.erase k).keys.Nodup :=
  List.Nodup.sublist (List.filter_sublist.map Prod.fst) h

end Index

/-! ## The store -/

namespace Store

variable {ν ρ : Type} {s : Store ν ρ} {id : EntryId} {e : Entry ν ρ}

theorem lt_nextId (h : s.get? id = some e) : id.index < s.nextId.index := by
  have hslot : s.slots[id.index]? = some (some e) := Option.join_eq_some_iff.1 h
  exact (Array.getElem?_eq_some_iff.1 hslot).1

/-- Beyond the soundness of the indices: the entries are counted, the entries of a place are listed
in ascending order and no empty list is kept, no key occurs twice, and the entry added last is
there. -/
structure IndexWf (s : Store ν ρ) : Prop where
  counted : s.Counted
  ascending : ∀ p, (s.candidates p).Pairwise fun i j => i.index < j.index
  occupied : ∀ q ∈ s.byPlace.pairs, q.2 ≠ []
  handles_once : s.byHandle.keys.Nodup
  places_once : s.byPlace.keys.Nodup
  last_held : ∀ id, s.last = some id → ∃ e, s.get? id = some e

theorem indexWf_empty : (empty : Store ν ρ).IndexWf where
  counted := counted_empty
  ascending _ := .nil
  occupied q hq := by cases hq
  handles_once := .nil
  places_once := .nil
  last_held id hid := by cases hid

theorem IndexWf.insert (h : s.IndexWf) (hs : s.Sound) (e : Entry ν ρ) : (s.insert e).IndexWf where
  counted := h.counted.insert e
  ascending p := by
    rw [candidates_insert]
    split
    · refine List.pairwise_append.2 ⟨h.ascending p, List.pairwise_singleton _ _, ?_⟩
      intro i hi j hj
      obtain ⟨f, hf, -⟩ := (hs.places p i).1 hi
      rw [List.mem_singleton.1 hj]
      exact lt_nextId hf
    · exact h.ascending p
  occupied q hq := by
    obtain ⟨p, ids⟩ := q
    rcases Index.mem_replace hq with ⟨-, rfl⟩ | hold
    · simp
    · exact h.occupied (p, ids) hold
  handles_once := Index.nodup_insert h.handles_once _ _
  places_once := Index.nodup_insert h.places_once _ _
  last_held id hid := by
    have hid : id = s.nextId := (Option.some.inj hid).symm
    exact ⟨e, by rw [get?_insert, if_pos hid]⟩

theorem IndexWf.unplace {m : Index Place (List EntryId)} (hkeys : m.keys.Nodup)
    (hm : ∀ q ∈ m.pairs, q.2 ≠ []) (p : Place) (id : EntryId) :
    (unplace m p id).keys.Nodup ∧ ∀ q ∈ (unplace m p id).pairs, q.2 ≠ [] := by
  unfold Store.unplace
  split
  · exact ⟨hkeys, hm⟩
  · next ids _ =>
    dsimp only
    split
    · exact ⟨Index.nodup_erase hkeys p, fun q hq => hm q (List.mem_filter.1 hq).1⟩
    · next hrest =>
      refine ⟨Index.nodup_insert hkeys p _, fun q hq => ?_⟩
      obtain ⟨p', ids'⟩ := q
      rcases Index.mem_replace hq with ⟨-, rfl⟩ | hold
      · exact fun hnil => hrest (List.isEmpty_iff.2 hnil)
      · exact hm (p', ids') hold

theorem IndexWf.erase (h : s.IndexWf) (id : EntryId) : (s.erase id).IndexWf := by
  cases he : s.get? id with
  | none =>
    have hself : s.erase id = s := by simp [Store.erase, he]
    rwa [hself]
  | some e =>
    have hplaces := IndexWf.unplace h.places_once h.occupied e.place id
    have heq : (s.erase id).byPlace = Store.unplace s.byPlace e.place id := by
      simp [Store.erase, he]
    refine ⟨h.counted.erase id, fun p => ?_, heq ▸ hplaces.2, ?_, heq ▸ hplaces.1, ?_⟩
    · rw [candidates_erase he]
      split
      · exact (h.ascending p).filter _
      · exact h.ascending p
    · have hhandles : (s.erase id).byHandle = s.byHandle.erase e.state.handle := by
        simp [Store.erase, he]
      rw [hhandles]
      exact Index.nodup_erase h.handles_once _
    · intro j hj
      have hlast : (if s.last = some id then none else s.last) = some j := by
        simpa [Store.erase, he] using hj
      split at hlast
      · cases hlast
      · next hne =>
        obtain ⟨f, hf⟩ := h.last_held j hlast
        have hji : j ≠ id := by
          rintro rfl
          exact hne hlast
        exact ⟨f, by rw [get?_erase, if_neg hji]; exact hf⟩

theorem IndexWf.setPrecision (h : s.IndexWf) (id : EntryId) (p : Precision ρ) :
    (s.setPrecision id p).IndexWf where
  counted := h.counted.setPrecision id p
  ascending := h.ascending
  occupied := h.occupied
  handles_once := h.handles_once
  places_once := h.places_once
  last_held j hj := by
    obtain ⟨e, he⟩ := h.last_held j hj
    rw [get?_setPrecision, he]
    split
    · exact ⟨_, rfl⟩
    · exact ⟨e, rfl⟩

end Store

/-! ## The frontier -/

/-- Nothing waits on a frontier that has been cleared, nor on one that has nothing to pop. -/
class Waitlist.Drains (θ ν : Type) [Waitlist θ ν] [Waitlist.Listed θ ν] : Prop where
  waiting_clear : ∀ w : θ, Waitlist.Listed.waiting ν (Frontier.clear w) = []
  waiting_pop : ∀ w : θ, (Frontier.pop w).1 = none →
    Waitlist.Listed.waiting ν (Frontier.pop w).2 = []

instance {ν : Type} : Waitlist.Drains SimpleWaitlist ν where
  waiting_clear _ := rfl
  waiting_pop w h := by
    have hqueue : w.queue = [] := @Waitlist.Listed.pop_none SimpleWaitlist ν _ _ w h
    show w.pop.2.queue = []
    unfold SimpleWaitlist.pop
    cases w.order with
    | depthFirst => simp [hqueue]
    | breadthFirst => simp [hqueue]

instance {ν : Type} : Waitlist.Drains (KeyedWaitlist ν) ν where
  waiting_clear _ := rfl
  waiting_pop w h := by
    have htickets : w.tickets.map Ticket.id = [] := Waitlist.Listed.pop_none w h
    show w.tickets.tail.map Ticket.id = []
    rw [List.map_eq_nil_iff.1 htickets]
    rfl

namespace Waitlist.Listed

variable {θ ν : Type} [Waitlist θ ν] [Waitlist.Listed θ ν]

theorem nodup_push {w : θ} (h : (waiting ν w).Nodup) (id : EntryId) (n : NodeId) (s : State ν) :
    (waiting ν (Waitlist.push w id n s)).Nodup := by
  by_cases hmem : id ∈ waiting ν w
  · rw [push_known w id n s hmem]
    exact h
  · exact (push_new w id n s hmem).nodup_iff.2 (List.nodup_cons.2 ⟨hmem, h⟩)

end Waitlist.Listed

/-! ## Calls -/

namespace ReachedSet

/-- One use of an operation of the reached set. -/
inductive Call (ν ρ : Type) where
  | add (entry : Entry ν ρ)
  | pop
  | reschedule (id : EntryId)
  | remove (id : EntryId)
  | removeAll (ids : List EntryId)
  | updatePrecision (id : EntryId) (precision : Precision ρ)
  | clear

/-- What a call answers. -/
inductive Reply (ν ρ : Type) where
  | done
  | added (id : EntryId)
  | popped (id : Option EntryId)
  | removed (entry : Option (Entry ν ρ))
  | refused (error : Error)

variable {ν ρ θ : Type} [Waitlist θ ν]

/-- The answer of a call, and the set that it leaves. -/
def perform [LeafValue ν] (r : ReachedSet ν ρ θ) : Call ν ρ → Reply ν ρ × ReachedSet ν ρ θ
  | .add e =>
    match r.offer e with
    | (.ok id, r') => (.added id, r')
    | (.error err, r') => (.refused err, r')
  | .pop => (.popped r.pop.1, r.pop.2)
  | .reschedule id => (.done, r.reschedule id)
  | .remove id => (.removed (r.remove id).1, (r.remove id).2)
  | .removeAll ids => (.done, r.removeAll ids)
  | .updatePrecision id p =>
    match r.setPrecision id p with
    | (.ok _, r') => (.done, r')
    | (.error err, r') => (.refused err, r')
  | .clear => (.done, r.clear)

/-- The set after several calls. -/
def performAll [LeafValue ν] (r : ReachedSet ν ρ θ) (calls : List (Call ν ρ)) : ReachedSet ν ρ θ :=
  calls.foldl (fun r c => (r.perform c).2) r

/-! ## What every call keeps -/

variable [Waitlist.Listed θ ν]

/-- Entries, count, indices and frontier agree. The indices are sound and well-formed, every entry
is at a location of the program, and the frontier has entries of the set only, each of them once. -/
structure Intact (r : ReachedSet ν ρ θ) : Prop extends r.Sound where
  indexWf : r.store.IndexWf
  scheduled : r.Scheduled
  waits_once : r.queue.Nodup

theorem intact_ofFrontier (program : Program) {frontier : θ}
    (h : Waitlist.Listed.waiting ν frontier = []) :
    (ofFrontier program frontier : ReachedSet ν ρ θ).Intact where
  toSound := sound_ofFrontier program frontier
  indexWf := Store.indexWf_empty
  scheduled k hk := by
    have hmem : k ∈ Waitlist.Listed.waiting ν frontier := isWaiting_iff_mem.1 hk
    rw [h] at hmem
    cases hmem
  waits_once := by
    show (Waitlist.Listed.waiting ν frontier).Nodup
    rw [h]
    exact .nil

namespace Intact

variable {r r' : ReachedSet ν ρ θ} {id : EntryId}

theorem add [LeafValue ν] {e : Entry ν ρ} (h : r.Intact) (ha : r.add e = .ok (id, r')) : r'.Intact := by
  have hsound := h.toSound.add ha
  have hget := get?_add ha
  obtain ⟨-, -, rfl, rfl⟩ := add_eq_ok ha
  refine ⟨hsound, h.indexWf.insert h.store e, fun k hk => ?_,
    Waitlist.Listed.nodup_push h.waits_once _ _ _⟩
  rw [hget]
  rcases Waitlist.Listed.mem_push.1 (isWaiting_iff_mem.1 hk) with rfl | hold
  · exact ⟨e, if_pos rfl⟩
  · obtain ⟨f, hf⟩ := h.scheduled k (isWaiting_iff_mem.2 hold)
    have hne : k ≠ r.store.nextId := by
      rintro rfl
      rw [get?, Store.get?_nextId] at hf
      cases hf
    exact ⟨f, by rw [if_neg hne]; exact hf⟩

theorem pop [Waitlist.Drains θ ν] (h : r.Intact) : r.pop.2.Intact := by
  have hperm : r.pop.1 = none ∧ r.pop.2.queue = [] ∨
      ∃ id, r.queue.Perm (id :: r.pop.2.queue) := by
    cases hpop : r.pop.1 with
    | none => exact .inl ⟨rfl, Waitlist.Drains.waiting_pop r.frontier hpop⟩
    | some id => exact .inr ⟨id, Waitlist.Listed.pop_some r.frontier id hpop⟩
  refine ⟨h.toSound.of_store rfl rfl, h.indexWf, fun k hk => ?_, ?_⟩
  · have hk := isWaiting_iff_mem.1 hk
    rcases hperm with ⟨-, hempty⟩ | ⟨id, hperm⟩
    · rw [hempty] at hk
      cases hk
    · exact h.scheduled k (isWaiting_iff_mem.2 (hperm.mem_iff.2 (List.mem_cons_of_mem id hk)))
  · rcases hperm with ⟨-, hempty⟩ | ⟨id, hperm⟩
    · rw [hempty]
      exact .nil
    · exact (List.nodup_cons.1 (hperm.nodup_iff.1 h.waits_once)).2

theorem reschedule (h : r.Intact) (id : EntryId) : (r.reschedule id).Intact := by
  have hsound := h.toSound.of_store (reschedule_store r id) (reschedule_program r id)
  cases he : r.get? id with
  | none =>
    have hself : r.reschedule id = r := by simp [ReachedSet.reschedule, he]
    rwa [hself]
  | some e =>
    have hfrontier : (r.reschedule id).queue =
        Waitlist.Listed.waiting ν (Waitlist.push r.frontier id e.location e.state) := by
      simp [ReachedSet.reschedule, he, queue]
    refine ⟨hsound, by rw [reschedule_store]; exact h.indexWf, fun k hk => ?_, ?_⟩
    · rw [get?_reschedule]
      have hk := isWaiting_iff_mem.1 hk
      rw [hfrontier, Waitlist.Listed.mem_push] at hk
      rcases hk with rfl | hold
      · exact ⟨e, he⟩
      · exact h.scheduled k (isWaiting_iff_mem.2 hold)
    · rw [hfrontier]
      exact Waitlist.Listed.nodup_push h.waits_once _ _ _

theorem remove (h : r.Intact) (id : EntryId) : (r.remove id).2.Intact := by
  cases he : r.get? id with
  | none => rwa [remove_eq_self he]
  | some e =>
    have hfrontier : (r.remove id).2.queue = r.queue.filter fun x => x ≠ id := by
      have hqueue : (r.remove id).2.frontier = (Frontier.remove r.frontier id).2 := by
        simp [ReachedSet.remove, he]
      rw [queue, hqueue]
      exact Waitlist.Listed.remove_eq r.frontier id
    refine ⟨h.toSound.remove id, by rw [remove_store]; exact h.indexWf.erase id, fun k hk => ?_, ?_⟩
    · have hk := isWaiting_iff_mem.1 hk
      rw [hfrontier, List.mem_filter, decide_eq_true_eq] at hk
      rw [get?_remove, if_neg hk.2]
      exact h.scheduled k (isWaiting_iff_mem.2 hk.1)
    · rw [hfrontier]
      exact h.waits_once.filter _

theorem removeAll (h : r.Intact) (ids : List EntryId) : (r.removeAll ids).Intact := by
  induction ids generalizing r with
  | nil => exact h
  | cons id ids ih => exact ih (h.remove id)

theorem updatePrecision {p : Precision ρ} (h : r.Intact) (hu : r.updatePrecision id p = .ok r') :
    r'.Intact := by
  have hsound := h.toSound.updatePrecision hu
  obtain ⟨-, rfl⟩ := updatePrecision_eq_ok hu
  refine ⟨hsound, h.indexWf.setPrecision id p, fun k hk => ?_, h.waits_once⟩
  obtain ⟨f, hf⟩ := h.scheduled k hk
  have hf : r.store.get? k = some f := hf
  show ∃ e, (r.store.setPrecision id p).get? k = some e
  rw [Store.get?_setPrecision, hf]
  split
  · exact ⟨_, rfl⟩
  · exact ⟨f, rfl⟩

theorem clear [Waitlist.Drains θ ν] (r : ReachedSet ν ρ θ) : r.clear.Intact :=
  intact_ofFrontier r.program (Waitlist.Drains.waiting_clear r.frontier)

/-- One call keeps the set intact. -/
theorem perform [LeafValue ν] [Waitlist.Drains θ ν] (h : r.Intact) (c : Call ν ρ) :
    (r.perform c).2.Intact := by
  cases c with
  | add e =>
    rcases r.offer_cases e with ⟨-, err, hoffer⟩ | ⟨-, hoffer⟩
    · simpa only [ReachedSet.perform, hoffer] using h
    · have hadd : r.add e = .ok (r.store.nextId, r.grown e) := by
        simp [ReachedSet.add, hoffer, Except.map]
      simpa only [ReachedSet.perform, hoffer] using h.add hadd
  | pop => exact h.pop
  | reschedule id => exact h.reschedule id
  | remove id => exact h.remove id
  | removeAll ids => exact h.removeAll ids
  | updatePrecision id p =>
    rcases r.setPrecision_cases id p with ⟨-, err, hset⟩ | ⟨-, hset⟩
    · simpa only [ReachedSet.perform, hset] using h
    · have hu : r.updatePrecision id p = .ok (r.setPrecision id p).2 := by
        simp [ReachedSet.updatePrecision, hset, Except.map]
      simpa only [ReachedSet.perform, hset] using h.updatePrecision hu
  | clear => exact clear r

theorem performAll [LeafValue ν] [Waitlist.Drains θ ν] (h : r.Intact) (calls : List (Call ν ρ)) :
    (r.performAll calls).Intact := by
  induction calls generalizing r with
  | nil => exact h
  | cons c calls ih => exact ih (h.perform c)

end Intact

/-- What a caller relies on between two calls. -/
structure Dependable [LeafValue ν] (r : ReachedSet ν ρ θ) : Prop extends r.Intact where
  /-- No two handles lead to the same entry. -/
  handle_unique : ∀ x y id, r.store.byHandle.get? x = some id →
    r.store.byHandle.get? y = some id → x = y
  /-- An addition is refused for a location outside the program and for a state that an entry holds
  already, and for nothing else. -/
  refused_iff : ∀ e, (∃ err, (r.perform (.add e)).1 = .refused err) ↔
    r.program.contains e.location = false ∨
      ∃ id f, r.get? id = some f ∧ f.state.handle = e.state.handle
  refused_unchanged : ∀ e err, (r.perform (.add e)).1 = .refused err →
    (r.perform (.add e)).2 = r

theorem Intact.dependable [LeafValue ν] {r : ReachedSet ν ρ θ} (h : r.Intact) : r.Dependable where
  toIntact := h
  handle_unique x y id hx hy := by
    obtain ⟨e, he, rfl⟩ := (h.store.handles x id).1 hx
    obtain ⟨f, hf, rfl⟩ := (h.store.handles y id).1 hy
    cases he.symm.trans hf
    rfl
  refused_iff e := by
    have hheld : (∃ id f, r.get? id = some f ∧ f.state.handle = e.state.handle) ↔
        r.store.contains e.state = true := h.store.contains_iff.symm
    rw [hheld]
    rcases r.offer_cases e with ⟨htest, err, hoffer⟩ | ⟨⟨hl, hc⟩, hoffer⟩
    · simp [ReachedSet.perform, hoffer, htest]
    · simp [ReachedSet.perform, hoffer, hl, hc]
  refused_unchanged e err herr := by
    rcases r.offer_cases e with ⟨-, err', hoffer⟩ | ⟨-, hoffer⟩
    · simp only [ReachedSet.perform, hoffer]
    · simp [ReachedSet.perform, hoffer] at herr

/-- Whatever a reached set is asked to do, its parts agree afterwards, and an addition that it then
refuses leaves all of them as they are. -/
theorem dependable_after_calls [LeafValue ν] (program : Program) (calls : List (Call ν ρ)) :
    (∀ order, (performAll (ofFrontier program (SimpleWaitlist.ofOrder order)) calls).Dependable) ∧
    ∀ (key : NodeId → State ν → Int) (order : Order),
      (performAll (ofFrontier program (KeyedWaitlist.ofKey key order)) calls).Dependable := by
  constructor
  · intro order
    have hstart : (ofFrontier program (SimpleWaitlist.ofOrder order) :
        ReachedSet ν ρ SimpleWaitlist).Intact := intact_ofFrontier program rfl
    exact (hstart.performAll calls).dependable
  · intro key order
    have hstart : (ofFrontier program (KeyedWaitlist.ofKey key order) :
        ReachedSet ν ρ (KeyedWaitlist ν)).Intact := intact_ofFrontier program rfl
    exact (hstart.performAll calls).dependable

end ReachedSet

end ProgramAnalysis
