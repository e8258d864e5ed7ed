import Mathlib.Data.Finset.Card
import ProgramAnalysis.Proofs.Frontiers
import ProgramAnalysis.Proofs.Moments
import ProgramAnalysis.Proofs.Programs
/-!
What the location analysis computes.

Its operators answer without any effect, and never fail on the states of a program. So an expansion
goes through to its end, and it adds those targets of the leaving edges that have no entry yet. The
invariant `ClosedUpTo` says that all entries are reachable, that an entry which does not wait has an
entry for each of its edges, and that the iterations so far and the entries that wait add up to the
entries. When nothing waits any more, the entries are the reachable locations, each of them once,
and there were as many iterations (`location_run_reaches`).
-/

namespace ProgramAnalysis

/-- The locations that can be reached from a location. -/
inductive Program.Reaches (p : Program) (n : NodeId) : NodeId → Prop where
  | refl : Reaches p n n
  | step {l e} : Reaches p n l → e ∈ p.leaving l → Reaches p n e.target

variable {l n : NodeId}

theorem Program.Reaches.contains {p : Program} (hclosed : p.Closed) (hn : p.contains n = true)
    (h : p.Reaches n l) : p.contains l = true := by
  cases h with
  | refl => exact hn
  | step _ he => exact hclosed _ _ he

theorem Program.source_of_mem_leaving {p : Program} {e : ProgramEdge} (h : e ∈ p.leaving l) :
    e.source = l :=
  of_decide_eq_true (List.mem_filter.1 h).2

variable {ν ρ ω θ α : Type} {e : Entry ν ρ}

/-! ## Operators without effect -/

/-- The action gives the answer and does nothing else. -/
def Action.Plain (x : Action ω α) (a : α) : Prop := ∀ w, x.run.run w = (.ok a, w)

namespace Location

open ReachedSet

/-! ## The invariant -/

/-- The state of a location of the program. -/
def spot (first : Handle) (l : NodeId) : State ν := .location ⟨first.serial + l.index⟩ l

/-- The location has an entry. -/
def Held (r : ReachedSet ν ρ θ) (l : NodeId) : Prop := ∃ id e, r.get? id = some e ∧ e.location = l

section

variable {p : Program} {first : Handle} [Waitlist θ ν] [Waitlist.Listed θ ν]

theorem stateOf_eq (h : p.contains l = true) :
    (stateOf p first l : Except Error (State ν)) = .ok (spot first l) := by
  simp [stateOf, h, spot]

/-- What holds of the reached set after some iterations, while the locations `todo` are to be
admitted yet. -/
structure ClosedUpTo (p : Program) (first : Handle) (n : NodeId) (part : Partition)
    (todo : List NodeId) (r : ReachedSet ν ρ θ) (iterations : Nat) : Prop where
  sound : r.Sound
  program : r.program = p
  entry : ∀ id e, r.get? id = some e →
    e.state = spot first e.location ∧ e.partition = part ∧ p.Reaches n e.location
  start : Held r n ∨ n ∈ todo
  pending : ∀ l ∈ todo, p.Reaches n l
  closed : ∀ id e, r.get? id = some e → id ∉ r.queue → ∀ g ∈ p.leaving e.location,
    Held r g.target ∨ g.target ∈ todo
  live : ∀ id ∈ r.queue, ∃ e, r.get? id = some e
  nodup : r.queue.Nodup
  count : iterations + r.queue.length = r.store.entries.length

namespace ClosedUpTo

variable {n : NodeId} {part : Partition} {todo : List NodeId} {r r' : ReachedSet ν ρ θ}
  {iterations : Nat}

theorem pop (h : ClosedUpTo p first n part [] r iterations) {id : EntryId}
    (hpop : r.pop = (some id, r')) (he : r'.get? id = some e) :
    ClosedUpTo p first n part ((p.leaving e.location).map ProgramEdge.target) r'
      (iterations + 1) := by
  have hqueue := queue_pop hpop
  obtain rfl : r' = r.pop.2 := by rw [hpop]
  refine
    { sound := h.sound.of_store rfl rfl
      program := h.program
      entry := h.entry
      start := .inl (h.start.resolve_right List.not_mem_nil)
      pending := ?_
      closed := ?_
      live := fun j hj => h.live j (hqueue.mem_iff.2 (List.mem_cons_of_mem id hj))
      nodup := (List.nodup_cons.1 (hqueue.nodup_iff.1 h.nodup)).2
      count := ?_ }
  · intro l hl
    obtain ⟨g, hg, rfl⟩ := List.mem_map.1 hl
    exact (h.entry id e he).2.2.step hg
  · -- The popped entry is the only one that has lost its place on the frontier.
    intro j f hj hwait g hg
    by_cases hjid : j = id
    · subst hjid
      cases he.symm.trans hj
      exact .inr (List.mem_map.2 ⟨g, hg, rfl⟩)
    · have hout : j ∉ r.queue := by
        rw [hqueue.mem_iff, List.mem_cons]
        rintro (hj' | hj')
        · exact hjid hj'
        · exact hwait hj'
      rcases h.closed j f hj hout g hg with hheld | hnil
      · exact .inl hheld
      · cases hnil
  · have hcount := h.count
    rw [hqueue.length_eq, List.length_cons] at hcount
    rw [Nat.add_right_comm]
    exact hcount

theorem skip (h : ClosedUpTo p first n part (l :: todo) r iterations) (hl : Held r l) :
    ClosedUpTo p first n part todo r iterations := by
  have hrest : ∀ k, Held r k ∨ k ∈ l :: todo → Held r k ∨ k ∈ todo := by
    rintro k (hk | hk)
    · exact .inl hk
    · rcases List.mem_cons.1 hk with rfl | hk
      · exact .inl hl
      · exact .inr hk
  exact { h with
    start := hrest n h.start
    pending := fun k hk => h.pending k (List.mem_cons_of_mem l hk)
    closed := fun id e he hwait g hg => hrest g.target (h.closed id e he hwait g hg) }

/-- When nothing waits, the reachable locations have entries. -/
theorem held_of_reaches (h : ClosedUpTo p first n part [] r iterations) (hempty : r.queue = [])
    (hl : p.Reaches n l) : Held r l := by
  induction hl with
  | refl => exact h.start.resolve_right List.not_mem_nil
  | step _ hg ih =>
    obtain ⟨id, e, he, rfl⟩ := ih
    have hout : id ∉ r.queue := by
      rw [hempty]
      exact List.not_mem_nil
    rcases h.closed id e he hout _ hg with hheld | hnil
    · exact hheld
    · cases hnil

theorem mem_locations_iff (h : ClosedUpTo p first n part [] r iterations)
    (hempty : r.queue = []) (l : NodeId) :
    l ∈ (r.store.entries.map fun q => q.2.location) ↔ p.Reaches n l := by
  rw [List.mem_map]
  constructor
  · rintro ⟨⟨id, e⟩, he, rfl⟩
    exact (h.entry id e (Store.mem_entries.1 he)).2.2
  · intro hl
    obtain ⟨id, e, he, rfl⟩ := h.held_of_reaches hempty hl
    exact ⟨(id, e), Store.mem_entries.2 he, rfl⟩

variable (h : ClosedUpTo p first n part todo r iterations)

include h

/-- No location has two entries. -/
theorem eq_of_location {i j : EntryId} {f : Entry ν ρ} (hi : r.get? i = some e)
    (hj : r.get? j = some f) (hl : e.location = f.location) : i = j := by
  refine h.sound.store.eq_of_handle hi hj ?_
  rw [(h.entry i e hi).1, (h.entry j f hj).1, hl]

/-- The states at the place of a location are the one state of that location. -/
theorem statesAt (l : NodeId) :
    (∀ s ∈ r.store.statesAt ⟨l, part⟩, s = spot first l) ∧
      ((r.store.statesAt ⟨l, part⟩).isEmpty = false ↔ Held r l) := by
  refine ⟨fun s hs => ?_, ?_⟩
  · obtain ⟨id, e, he, hplace, rfl⟩ := h.sound.store.mem_statesAt.1 hs
    obtain rfl : e.location = l := congrArg Place.location hplace
    exact (h.entry id e he).1
  · rw [List.isEmpty_eq_false_iff_exists_mem]
    constructor
    · rintro ⟨s, hs⟩
      obtain ⟨id, e, he, hplace, -⟩ := h.sound.store.mem_statesAt.1 hs
      exact ⟨id, e, he, congrArg Place.location hplace⟩
    · rintro ⟨id, e, he, rfl⟩
      refine ⟨e.state, h.sound.store.mem_statesAt.2 ⟨id, e, he, ?_, rfl⟩⟩
      rw [Entry.place, (h.entry id e he).2.1]

/-- A location without an entry has a state that is not in the set. -/
theorem contains_spot (hl : ¬Held r l) : r.store.contains (spot first l) = false := by
  refine Bool.eq_false_iff.2 fun hc => ?_
  obtain ⟨id, e, he, hhandle⟩ := h.sound.store.contains_iff.1 hc
  rw [(h.entry id e he).1] at hhandle
  have hindex : e.location.index = l.index := Nat.add_left_cancel (congrArg Handle.serial hhandle)
  refine hl ⟨id, e, he, ?_⟩
  obtain ⟨k⟩ := l
  exact congrArg NodeId.mk hindex

theorem nodup_locations : (r.store.entries.map fun q => q.2.location).Nodup := by
  refine List.Nodup.map_on ?_ r.store.entries_nodup
  rintro ⟨i, e⟩ hi ⟨j, f⟩ hj hl
  have hi : r.get? i = some e := Store.mem_entries.1 hi
  have hj : r.get? j = some f := Store.mem_entries.1 hj
  obtain rfl := h.eq_of_location hi hj hl
  rw [Option.some.inj (hi.symm.trans hj)]

/-- There are no more entries than locations. -/
theorem length_entries_le : r.store.entries.length ≤ p.nodeCount := by
  have hnodup : (r.store.entries.map fun q => q.2.location.index).Nodup := by
    have hindex : Function.Injective NodeId.index := by
      rintro ⟨i⟩ ⟨j⟩ rfl
      rfl
    have hmap := h.nodup_locations.map hindex
    rwa [List.map_map] at hmap
  have hsub : (r.store.entries.map fun q => q.2.location.index).toFinset ⊆
      Finset.range p.nodeCount := by
    intro i hi
    obtain ⟨⟨id, e⟩, hmem, rfl⟩ := List.mem_map.1 (List.mem_toFinset.1 hi)
    have hl := h.sound.located id e (Store.mem_entries.1 hmem)
    rw [h.program] at hl
    exact Finset.mem_range.2 (of_decide_eq_true hl)
  have hcard := Finset.card_le_card hsub
  rwa [Finset.card_range, List.toFinset_card_of_nodup hnodup, List.length_map] at hcard

end ClosedUpTo

theorem closedUpTo_empty {part : Partition} {frontier : θ} (hempty : Frontier.size frontier = 0) :
    ClosedUpTo p first n part [n] (.ofFrontier p frontier : ReachedSet ν ρ θ) 0 := by
  have hqueue : (.ofFrontier p frontier : ReachedSet ν ρ θ).queue = [] := queue_ofFrontier hempty p
  have hnone : ∀ id, (.ofFrontier p frontier : ReachedSet ν ρ θ).get? id = none := Store.get?_empty
  refine
    { sound := sound_ofFrontier p frontier
      program := rfl
      entry := fun id e he => ?_
      start := .inr (by simp)
      pending := fun l hl => ?_
      closed := fun id e he => ?_
      live := fun id hid => ?_
      nodup := ?_
      count := ?_ }
  · rw [hnone] at he
    cases he
  · rw [List.mem_singleton.1 hl]
    exact .refl
  · rw [hnone] at he
    cases he
  · rw [hqueue] at hid
    cases hid
  · rw [hqueue]
    exact List.nodup_nil
  · rw [hqueue]
    rfl

end

/-! ## The operators of the location analysis -/

variable [LeafValue ν] {p : Program} {first : Handle} {rs : List (State ν)}

theorem transfer_plain {e : ProgramEdge} (q : Precision ρ) (he : e ∈ p.leaving l)
    (ht : p.contains e.target = true) :
    ((analysis p first).transfer.successors (spot first l : State ν) [] q e).Plain
      [spot first e.target] := by
  intro w
  have hl : l = e.source := (Program.source_of_mem_leaving he).symm
  simp only [analysis, spot, State.asLocation, stateOf_eq ht, Action.ofExcept, hl, pure_bind,
    if_true]
  rfl

theorem adjust_plain (s : State ν) (q : Precision ρ) (around : Surroundings ν ρ) :
    ((analysis p first).adjuster.adjust s q around).Plain (some (.unchanged s q)) :=
  fun _ => rfl

theorem coveredBySome_spot (h : ∀ r ∈ rs, r = spot first l) :
    domain.coveredBySome (spot first l) rs = .ok !rs.isEmpty := by
  cases rs with
  | nil => rfl
  | cons r rest =>
    obtain rfl : r = spot first l := h r (by simp)
    have hle : domain.leq (spot first l : State ν) (spot first l) = .ok true := by
      simp [domain, spot, State.asLocation, bind, Except.bind, pure, Except.pure]
    unfold Domain.coveredBySome
    rw [hle]
    rfl

theorem stop_plain (q : Precision ρ) (h : ∀ r ∈ rs, r = spot first l) :
    ((analysis p first).stopper.stop (spot first l) rs q).Plain !rs.isEmpty := by
  intro w
  show (Action.ofExcept (domain.coveredBySome (spot first l) rs) : Action Unit Bool).run.run w = _
  rw [coveredBySome_spot h]
  rfl

/-- The exploration by the location analysis, with the default options. -/
def exploration (p : Program) (first : Handle) (token : TokenId) : Exploration ν ρ Unit where
  program := p
  analysis := analysis p first
  isTarget := State.isTarget
  options := {}
  token := token

variable {token : TokenId}

/-- No operator has an effect. -/
theorem sustains (p : Program) (first : Handle) (I : World Unit → Prop) :
    (analysis p first : Analysis ν ρ Unit).Sustains I := by
  have hpure : ∀ {α : Type} (r : Except Error α), Steady I (Action.ofExcept r : Action Unit α) := by
    intro α r w hw
    cases r <;> exact hw
  refine ⟨fun s q g => ?_, fun _ _ _ => .pure fun _ hw => hw, fun _ _ _ => .pure fun _ hw => hw,
    fun _ _ _ => .pure fun _ hw => hw, fun _ _ _ => hpure _⟩
  refine .bind (hpure _) fun l => ?_
  split
  · exact .bind (hpure _) fun _ => .pure fun _ hw => hw
  · exact .pure fun _ hw => hw

/-! ## Successors -/

/-- The successors along the edges `done`, while the run is not cancelled. -/
def Spotted (first : Handle) (token : TokenId) (done : List ProgramEdge)
    (raw : Batch ν) (w : World Unit) : Prop :=
  w.tokens.isCancelled token = false ∧ raw.map Prod.snd = done.map ProgramEdge.target ∧
    ∀ q ∈ raw, q.1 = spot first q.2

theorem gathering_spotted (hclosed : p.Closed) (he : e.state = spot first e.location) :
    Exploration.Gathering (exploration p first token) e (p.leaving e.location)
      (Spotted first token) (fun _ _ => False) := by
  have hplain : ∀ {done g rest}, p.leaving e.location = done ++ g :: rest →
      ((analysis p first).transfer.successors e.state [] e.precision g).Plain
        [spot first g.target] := by
    intro done g rest hall
    have hg : g ∈ p.leaving e.location := by
      rw [hall]
      simp
    rw [he]
    exact transfer_plain e.precision hg (hclosed e.location g hg)
  constructor
  · rintro done g rest raw w next w' hall ⟨hfree, htargets, hspots⟩ hx
    cases (hplain hall w).symm.trans hx
    refine ⟨hfree, by simp [htargets, spot, State.location?], fun q hq => ?_⟩
    rcases List.mem_append.1 hq with hq | hq
    · exact hspots q hq
    · rw [List.mem_singleton.1 hq]
      rfl
  · intro done g rest raw w err w' hall _ hx _
    cases (hplain hall w).symm.trans hx
  · intro done g rest raw w err w' hall _ hx _
    cases (hplain hall w).symm.trans hx
  · rintro done raw w ⟨hfree, -⟩ hcancel
    cases hfree.symm.trans hcancel
  · intro done g rest raw w c w' hall _ hx
    cases (hplain hall w).symm.trans hx

variable [Waitlist θ ν] [Waitlist.Listed θ ν]

theorem ClosedUpTo.add {n : NodeId} {part : Partition} {todo : List NodeId}
    {r r' : ReachedSet ν ρ θ} {iterations : Nat} {q : Precision ρ} {id : EntryId}
    (h : ClosedUpTo p first n part (l :: todo) r iterations)
    (ha : r.add ⟨spot first l, q, l, part⟩ = .ok (id, r')) :
    ClosedUpTo p first n part todo r' iterations := by
  have hnew : id ∉ r.queue := by
    intro hid
    obtain ⟨e, he⟩ := h.live id hid
    rw [get?_of_add ha] at he
    cases he
  have hqueue : r'.queue.Perm (id :: r.queue) := by
    obtain ⟨-, -, rfl, rfl⟩ := add_eq_ok ha
    exact Waitlist.Listed.push_new r.frontier _ _ _ hnew
  have hself : r'.get? id = some ⟨spot first l, q, l, part⟩ := by
    rw [get?_add ha, if_pos rfl]
  have hrest : ∀ k, Held r k ∨ k ∈ l :: todo → Held r' k ∨ k ∈ todo := by
    rintro k (⟨j, f, hj, hf⟩ | hk)
    · exact .inl ⟨j, f, get?_add_of_some ha j f hj, hf⟩
    · rcases List.mem_cons.1 hk with rfl | hk
      · exact .inl ⟨id, _, hself, rfl⟩
      · exact .inr hk
  refine
    { sound := h.sound.add ha
      program := ?_
      entry := ?_
      start := hrest n h.start
      pending := fun k hk => h.pending k (List.mem_cons_of_mem l hk)
      closed := ?_
      live := ?_
      nodup := hqueue.nodup_iff.2 (List.nodup_cons.2 ⟨hnew, h.nodup⟩)
      count := ?_ }
  · obtain ⟨-, -, -, rfl⟩ := add_eq_ok ha
    exact h.program
  · intro j f hf
    rcases new_or_old_of_add ha hf with ⟨rfl, rfl⟩ | hf
    · exact ⟨rfl, rfl, h.pending l (by simp)⟩
    · exact h.entry j f hf
  · intro j f hf hwait g hg
    rcases new_or_old_of_add ha hf with ⟨rfl, rfl⟩ | hf
    · exact absurd (hqueue.mem_iff.2 (by simp)) hwait
    · have hout : j ∉ r.queue := fun hj => hwait (hqueue.mem_iff.2 (List.mem_cons_of_mem id hj))
      exact hrest g.target (h.closed j f hf hout g hg)
  · intro j hj
    rcases List.mem_cons.1 (hqueue.mem_iff.1 hj) with rfl | hj
    · exact ⟨_, hself⟩
    · obtain ⟨f, hf⟩ := h.live j hj
      exact ⟨f, get?_add_of_some ha j f hf⟩
  · obtain ⟨-, -, rfl, rfl⟩ := add_eq_ok ha
    rw [hqueue.length_eq, List.length_cons, grown, Store.entries_insert, List.length_append,
      List.length_singleton, ← h.count, Nat.add_assoc]

/-! ## Expansion -/

/-- The locations of `todo` are to be admitted, and there is no target. -/
def ToAdmit (p : Program) (first : Handle) (n : NodeId) (part : Partition) (iterations : Nat)
    (todo : Successors ν ρ) : View ν ρ Unit θ := fun _ r t =>
  ClosedUpTo p first n part (todo.map Prod.snd) r iterations ∧ t = [] ∧
    ∀ q ∈ todo, q.1.state = spot first q.2

section

variable {n : NodeId} {part : Partition} {iterations : Nat} {a : Adjustment ν ρ}
  {todo : Successors ν ρ} {w w' : World Unit} {r : ReachedSet ν ρ θ}
  {t : List (State ν)}

namespace ToAdmit

variable (h : ToAdmit p first n part iterations ((a, l) :: todo) w r t)

include h

/-- A successor is covered exactly if its location has an entry. -/
theorem stopped {answer : Except Failure Bool}
    (hx : ((analysis p first).stopper.stop a.state (r.store.statesAt ⟨l, part⟩)
      a.precision).run.run w = (answer, w')) : ∃ b, answer = .ok b ∧ (b = true ↔ Held r l) := by
  obtain ⟨hstates, hheld⟩ := h.1.statesAt l
  rw [h.2.2 (a, l) (by simp)] at hx
  cases (stop_plain a.precision hstates w).symm.trans hx
  exact ⟨_, rfl, by rw [← hheld, Bool.not_eq_true']⟩

/-- A successor that is not covered can be added. -/
theorem exists_add (hclosed : p.Closed) (hn : p.contains n = true)
    (hx : ((analysis p first).stopper.stop a.state (r.store.statesAt ⟨l, part⟩)
      a.precision).run.run w = (.ok false, w')) :
    r.store.contains a.state = false ∧
      ∃ r', r.add ⟨a.state, a.precision, l, part⟩ = .ok (r.store.nextId, r') := by
  obtain ⟨b, hb, hiff⟩ := h.stopped hx
  cases hb
  have hl : r.program.contains l = true := by
    rw [h.1.program]
    exact (h.1.pending l (by simp)).contains hclosed hn
  have hc : r.store.contains a.state = false := by
    rw [h.2.2 (a, l) (by simp)]
    exact h.1.contains_spot fun hheld => by cases hiff.2 hheld
  exact ⟨hc, ReachedSet.exists_add hl hc⟩

theorem add {id : EntryId} {r' : ReachedSet ν ρ θ}
    (ha : r.add ⟨a.state, a.precision, l, part⟩ = .ok (id, r')) :
    ToAdmit p first n part iterations todo w' r' t := by
  have hstate : a.state = spot first l := h.2.2 (a, l) (by simp)
  rw [hstate] at ha
  exact ⟨h.1.add ha, h.2.1, fun q hq => h.2.2 q (List.mem_cons_of_mem _ hq)⟩

end ToAdmit

theorem admission_toAdmit (hclosed : p.Closed) (hn : p.contains n = true) :
    Exploration.Admission (exploration p first token) part
      (ToAdmit (θ := θ) (ν := ν) (ρ := ρ) p first n part iterations) (fun _ _ _ _ => False) where
  merging _ _ _ hsep := by cases (show true = false from hsep)
  covered a l todo w r t w' h hx := by
    obtain ⟨b, hb, hiff⟩ := h.stopped hx
    cases hb
    exact ⟨h.1.skip (hiff.1 rfl), h.2.1, fun q hq => h.2.2 q (List.mem_cons_of_mem _ hq)⟩
  known a l todo w r t w' h hx hc := by cases (h.exists_add hclosed hn hx).1.symm.trans hc
  added a l todo w r t w' id r' h _ ha _ := h.add ha
  found a l todo w r t w' id r' h _ _ ht := by
    rw [h.2.2 (a, l) (by simp)] at ht
    cases ht
  refused a l todo w r t w' err h hx ha := by
    obtain ⟨-, r', hr'⟩ := h.exists_add hclosed hn hx
    cases hr'.symm.trans ha
  failed a l todo w r t err w' h hx := by
    obtain ⟨b, hb, -⟩ := h.stopped hx
    cases hb
  crashed a l todo w r t c w' h hx := by
    obtain ⟨b, hb, -⟩ := h.stopped hx
    cases hb

/-- An expansion goes through to its end. -/
theorem expand_toAdmit (hclosed : p.Closed) (hn : p.contains n = true) {m : Machine ν ρ Unit θ}
    {id : EntryId} (hcancel : m.meter.world.tokens.isCancelled token = false)
    (he : m.reached.get? id = some e) (ht : m.targets = [])
    (hm : ClosedUpTo p first n part ((p.leaving e.location).map ProgramEdge.target) m.reached
      iterations) :
    Triple (fun m' => m' = m) ((exploration p first token).expand id)
      (fun _ => Machine.Meets (ToAdmit p first n part iterations [])) (fun _ _ => False) := by
  obtain ⟨hstate, rfl, -⟩ := hm.entry id e he
  refine Exploration.expand_triple he ?_ (admission_toAdmit hclosed hn)
  refine .weaken (Exploration.successors_unchanged (gathering_spotted hclosed hstate)
    fun raw w hraw q hq => ?_) ?_ ?_ fun _ _ hm => hm
  · rw [hraw.2.2 q hq]
    exact ⟨rfl, adjust_plain _ _ _ w⟩
  · rintro _ rfl
    exact ⟨hcancel, rfl, by simp⟩
  · rintro out m' ⟨⟨-, hlocations, hspots⟩, -⟩
    rw [List.map_map] at hlocations
    have hlocations : out.map Prod.snd = (p.leaving e.location).map ProgramEdge.target := hlocations
    refine ⟨?_, ht, fun q hq => hspots _ (List.mem_map_of_mem hq)⟩
    rw [hlocations]
    exact hm

end

/-! ## Whole runs -/

/-- What holds at each visit of the loop head. -/
structure Sweeping (p : Program) (first : Handle) (token : TokenId) (n : NodeId) (part : Partition)
    (m : Machine ν ρ Unit θ) : Prop where
  free : m.meter.world.tokens.isCancelled token = false
  targets : m.targets = []
  closedUpTo : ClosedUpTo p first n part [] m.reached m.meter.counters.iterations

section

variable {n : NodeId} {part : Partition} {m : Machine ν ρ Unit θ}

/-- An iteration expands one more location, unless nothing waits; then the run is exhausted. -/
theorem Sweeping.step (h : Sweeping p first token n part m) (hclosed : p.Closed)
    (hn : p.contains n = true) :
    ((exploration p first token).step m).Meets
      (fun m' => Sweeping p first token n part m' ∧
        p.nodeCount - m'.meter.counters.iterations < p.nodeCount - m.meter.counters.iterations)
      (fun result m' => result = .ok .exhausted ∧ m' = m ∧ m.reached.queue = []) := by
  cases hw : m.reached.hasWaiting with
  | false =>
    rw [Exploration.step_of_finished h.free hw, h.targets]
    exact ⟨rfl, rfl, hasWaiting_eq_false.1 hw⟩
  | true =>
    rcases hpop : m.reached.pop with ⟨_ | id, r⟩
    · exact absurd hpop (pop_ne_none hw)
    obtain ⟨e, he⟩ : ∃ e, r.get? id = some e := by
      obtain rfl : r = m.reached.pop.2 := by rw [hpop]
      exact h.closedUpTo.live id ((queue_pop hpop).mem_iff.2 (by simp))
    have hexpand : Triple (fun m' => m' = Exploration.popped m r)
        ((exploration p first token).expand id) _ _ :=
      expand_toAdmit hclosed hn h.free he h.targets (h.closedUpTo.pop hpop he)
    have hexpand := hexpand _ rfl
    have hsteady := (Exploration.expand_steady (x := exploration p first token)
      (sustains p first (· = m.meter.world)) id) (Exploration.popped m r) ⟨rfl, rfl⟩
    rw [Exploration.step_of_pop h.free hw rfl hpop]
    revert hexpand hsteady
    rcases ((exploration p first token).expand id).run.run (Exploration.popped m r) with
      ⟨ending | ⟨⟩, m'⟩
    · exact False.elim
    rintro ⟨hm', htargets, -⟩ ⟨hworld, hcount⟩
    have hcount : m'.meter.counters.iterations = m.meter.counters.iterations + 1 := hcount
    have hm' : ClosedUpTo p first n part [] m'.reached m'.meter.counters.iterations := by
      rw [hcount]
      exact hm'
    refine ⟨⟨?_, htargets, hm'⟩, ?_⟩
    · rw [hworld]
      exact h.free
    · show p.nodeCount - m'.meter.counters.iterations < p.nodeCount - m.meter.counters.iterations
      have hbound := hm'.length_entries_le
      have hsum := hm'.count
      omega

end

/-- The state of the start is added to an empty set. -/
theorem seed_closedUpTo (hn : p.contains n = true) (part : Partition) {frontier : θ}
    (hempty : Frontier.size frontier = 0) (w : World Unit) :
    ∃ id w' r, (exploration p first token : Exploration ν ρ Unit).seed n part w
      (.ofFrontier p frontier) = (.ok id, w', r) ∧ w'.tokens = w.tokens ∧
      ClosedUpTo p first n part [] r 0 := by
  have hinitial : (exploration p first token : Exploration ν ρ Unit).analysis.initialState n part =
      pure (spot first n) := by
    show Action.ofExcept (stateOf p first n) = _
    rw [stateOf_eq hn]
    rfl
  obtain ⟨r, ha⟩ := exists_add (r := (.ofFrontier p frontier : ReachedSet ν ρ θ))
    (e := ⟨spot first n, .plain w.next, n, part⟩) hn rfl
  refine ⟨_, { w with next := w.next.next }, r, Exploration.seed_eq_ok.2
    ⟨spot first n, .plain w.next, w, ?_, rfl, ha⟩, rfl, (closedUpTo_empty hempty).add ha⟩
  rw [hinitial]
  rfl

/-- The location analysis computes what can be reached: the run from any location ends as exhausted,
each reachable location has exactly one entry then and no other location has one, and there were as
many iterations as reachable locations. -/
theorem location_run_reaches (hp : p.Built) (first : Handle) (token : TokenId) (n : NodeId)
    (part : Partition) (frontier : θ) (w : World Unit) (hn : p.contains n = true)
    (hempty : Frontier.size frontier = 0) (hw : w.tokens.isCancelled token = false) :
    ∃ id w' r fuel m, (exploration p first token : Exploration ν ρ Unit).seed n part w
        (.ofFrontier p frontier) = (.ok id, w', r) ∧
      (exploration p first token).run fuel ⟨⟨w', {}⟩, r, []⟩ = some (.ok .exhausted, m) ∧
      (m.reached.store.entries.map fun q => q.2.location).Nodup ∧
      (∀ l, l ∈ (m.reached.store.entries.map fun q => q.2.location) ↔ p.Reaches n l) ∧
      (∀ q ∈ m.reached.store.entries, q.2.state = spot first q.2.location ∧
        q.2.partition = part) ∧
      m.meter.counters.iterations = m.reached.store.entries.length := by
  obtain ⟨id, w', r, hseed, htokens, hr⟩ : ∃ id w' r,
      (exploration p first token : Exploration ν ρ Unit).seed n part w (.ofFrontier p frontier) =
        (.ok id, w', r) ∧ w'.tokens = w.tokens ∧ ClosedUpTo p first n part [] r 0 :=
    seed_closedUpTo hn part hempty w
  have start : Sweeping p first token n part ⟨⟨w', {}⟩, r, []⟩ := ⟨htokens ▸ hw, rfl, hr⟩
  obtain ⟨fuel, result, m, hrun⟩ := Exploration.run_ends (I := Sweeping p first token n part)
    Nat.lt_wfRel.wf (fun m => p.nodeCount - m.meter.counters.iterations)
    (fun m hm => (hm.step hp.closed hn).mono (fun _ h => h) fun _ _ _ => trivial) _ start
  obtain ⟨rfl, hm, hqueue⟩ := Exploration.run_rule (I := Sweeping p first token n part)
    (J := fun result m => result = .ok .exhausted ∧ Sweeping p first token n part m ∧
      m.reached.queue = [])
    (fun m _ hm => (hm.step hp.closed hn).mono (fun _ h => h.1)
      fun _ _ h => ⟨h.1, h.2.1 ▸ hm, h.2.1 ▸ h.2.2⟩) start hrun
  refine ⟨id, w', r, fuel, m, hseed, hrun, hm.closedUpTo.nodup_locations,
    hm.closedUpTo.mem_locations_iff hqueue, ?_, ?_⟩
  · rintro ⟨j, e⟩ hq
    obtain ⟨hstate, hpart, -⟩ := hm.closedUpTo.entry j e (Store.mem_entries.1 hq)
    exact ⟨hstate, hpart⟩
  · have hcount := hm.closedUpTo.count
    rwa [hqueue] at hcount

/-- A program with a cycle, a loop and two edges between the same locations. Its last location is
not reachable from its entry. -/
def maze : Program := .ofPairs 2 [(0, 2), (0, 2), (2, 2), (2, 0), (2, 1), (3, 1)]

theorem maze_built : maze.Built := .of_redraft rfl rfl rfl rfl

/-- The maze is explored in reverse postorder, from the location inside its cycle. -/
theorem maze_run_reaches : maze.Built ∧ ∃ id w' r fuel m,
    (exploration maze ⟨0⟩ ⟨0⟩ : Exploration FactValue Level Unit).seed ⟨2⟩ .whole
        ⟨⟨4⟩, .empty, ⟨0⟩, ⟨0⟩, ()⟩
        (.ofFrontier maze (.reversePostorder maze .depthFirst : KeyedWaitlist FactValue)) =
          (.ok id, w', r) ∧
      (exploration maze ⟨0⟩ ⟨0⟩).run fuel ⟨⟨w', {}⟩, r, []⟩ = some (.ok .exhausted, m) ∧
      (m.reached.store.entries.map fun q => q.2.location).Nodup ∧
      (∀ l, l ∈ (m.reached.store.entries.map fun q => q.2.location) ↔ maze.Reaches ⟨2⟩ l) ∧
      (∀ q ∈ m.reached.store.entries, q.2.state = spot ⟨0⟩ q.2.location ∧
        q.2.partition = .whole) ∧
      m.meter.counters.iterations = m.reached.store.entries.length :=
  ⟨maze_built, location_run_reaches maze_built ⟨0⟩ ⟨0⟩ ⟨2⟩ .whole _ _ (by decide) rfl rfl⟩

end Location

end ProgramAnalysis
