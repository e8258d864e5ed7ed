import Mathlib.Data.Finset.Prod
import Mathlib.Logic.Hydra
import Mathlib.Order.WellFounded
import ProgramAnalysis.Proofs.FactsOrder
/-!
An analysis that joins over an order without infinite chains makes every run end.

A successor is only added at a place that was empty, and an entry is only replaced by one that lies
strictly above it. So an iteration that changes the entries fills an empty place or lets states
grow, and each of the two can happen only finitely often; an iteration that changes none takes one
entry off the frontier. Nothing is asked of the transfer and of the adjustment, except that the
states that they make have new handles.
-/

namespace ProgramAnalysis

variable {ν ρ ω θ : Type}

/-- The places of a program in the given partitions. -/
def Program.places (p : Program) (parts : Finset Partition) : Finset Place :=
  (Finset.range p.nodes.size ×ˢ parts).image fun q => ⟨⟨q.1⟩, q.2⟩

theorem Program.mem_places {p : Program} {parts : Finset Partition} {place : Place} :
    place ∈ p.places parts ↔ p.contains place.location = true ∧ place.partition ∈ parts := by
  obtain ⟨⟨n⟩, part⟩ := place
  simp [places, contains]

/-- The order has no infinite chain of states that lie strictly above each other. -/
structure Domain.FiniteHeight (d : Domain ν) : Prop extends d.Bounding where
  chains : ∀ f : Nat → State ν, ¬ ∀ n, d.Above (f (n + 1)) (f n)

theorem Domain.FiniteHeight.above_wf {d : Domain ν} (h : d.FiniteHeight) : WellFounded d.Above :=
  wellFounded_iff_isEmpty_descending_chain.2 ⟨fun f => h.chains f.1 f.2⟩

theorem Facts.finiteHeight {spec : Facts.Spec} (horder : spec.order = .subset)
    (hjoin : spec.join = .union) : (Facts.domain spec).FiniteHeight :=
  { Facts.bounding horder hjoin with chains := Facts.no_chain horder }

namespace Exploration

/-! ## What is left to fill -/

/-- The places without an entry. -/
def vacant (sites : Finset Place) (r : ReachedSet ν ρ θ) : Finset Place :=
  sites.filter fun place => r.store.candidates place = []

theorem mem_vacant {sites : Finset Place} {r : ReachedSet ν ρ θ} (hs : r.Sound) {place : Place} :
    place ∈ vacant sites r ↔
      place ∈ sites ∧ ∀ id e, r.get? id = some e → e.place ≠ place := by
  have hempty : r.store.candidates place = [] ↔
      ∀ id e, r.get? id = some e → e.place ≠ place := by
    rw [List.eq_nil_iff_forall_not_mem]
    refine forall_congr' fun id => ?_
    rw [hs.store.places place id]
    simp [ReachedSet.get?]
  unfold vacant
  rw [Finset.mem_filter, hempty]

/-- The empty places and the states of the entries. -/
def stock (sites : Finset Place) (r : ReachedSet ν ρ θ) : Finset Place × Multiset (State ν) :=
  (vacant sites r, r.store.states)

/-- Empty places were filled, or as many are left and states have grown. -/
def Fuller (d : Domain ν) : (_ _ : Finset Place × Multiset (State ν)) → Prop :=
  Relation.TransGen (Prod.Lex (· < ·) (Relation.CutExpand d.Above))

theorem Fuller.wf {d : Domain ν} (h : d.FiniteHeight) : WellFounded (Fuller d) :=
  (Finset.lt_wf.prod_lex h.above_wf.cutExpand).transGen

section

variable [LeafValue ν] [Waitlist θ ν] {d : Domain ν} {sites : Finset Place}
  {r r' : ReachedSet ν ρ θ} {id i : EntryId} {e f : Entry ν ρ}

theorem fuller_add (hs : r.Sound) (hsite : e.place ∈ sites)
    (hvacant : ∀ j g, r.get? j = some g → g.place ≠ e.place) (ha : r.add e = .ok (id, r')) :
    Fuller d (stock sites r') (stock sites r) := by
  refine .single (.left _ _ ?_)
  have hadded : r'.get? id = some e := by rw [ReachedSet.get?_add ha, if_pos rfl]
  refine Finset.ssubset_iff_of_subset (fun place hplace => ?_) |>.2 ⟨e.place, ?_, ?_⟩
  · obtain ⟨hmem, hnone⟩ := (mem_vacant (hs.add ha)).1 hplace
    exact (mem_vacant hs).2 ⟨hmem, fun j g hg =>
      hnone j g (ReachedSet.get?_add_of_some ha j g hg)⟩
  · exact (mem_vacant hs).2 ⟨hsite, hvacant⟩
  · intro hmem
    exact ((mem_vacant (hs.add ha)).1 hmem).2 id e hadded rfl

theorem fuller_replace (hs : r.Sound) (he : r.get? id = some e) (hplace : f.place = e.place)
    (habove : d.Above f.state e.state) (ha : (r.remove id).2.add f = .ok (i, r')) :
    Fuller d (stock sites r') (stock sites r) := by
  have hget : ∀ j, r'.get? j = if j = i then some f else if j = id then none else r.get? j := by
    intro j
    rw [ReachedSet.get?_add ha, ReachedSet.get?_remove]
  -- The new entry stands for the old one at its place.
  have hvacant : vacant sites r' = vacant sites r := by
    ext place
    rw [mem_vacant ((hs.remove id).add ha), mem_vacant hs]
    refine and_congr_right fun _ => ⟨fun h j g hg hgp => ?_, fun h j g hg hgp => ?_⟩
    · by_cases hj : j = id
      · subst hj
        cases he.symm.trans hg
        exact h i f (by rw [hget, if_pos rfl]) (hplace.trans hgp)
      · have hold := ReachedSet.get?_remove_eq_some.2 ⟨hj, hg⟩
        exact h j g (ReachedSet.get?_add_of_some ha j g hold) hgp
    · rw [hget] at hg
      split at hg
      · cases hg
        exact h id e he (hplace.symm.trans hgp)
      · split at hg
        · cases hg
        · exact h j g hg hgp
  have hstates : (r'.store.states : Multiset (State ν)) + {e.state} =
      r.store.states + {f.state} := by
    obtain ⟨-, -, -, rfl⟩ := ReachedSet.add_eq_ok ha
    show (((r.remove id).2.store.insert f).states : Multiset (State ν)) + {e.state} = _
    rw [ReachedSet.remove_store, Store.states_insert, ← Multiset.coe_add, Multiset.coe_singleton,
      Multiset.coe_eq_coe.2 (Store.states_erase he), ← Multiset.cons_coe, ← Multiset.singleton_add]
    exact (add_comm _ _).trans (add_assoc _ _ _).symm
  unfold stock
  rw [hvacant]
  refine .single (.right _ ⟨{f.state}, e.state, fun g hg => ?_, hstates⟩)
  rw [Multiset.mem_singleton.1 hg]
  exact habove

/-! ## One expansion -/

variable {x : Exploration ν ρ ω} {program : Program} {parts : Finset Partition} {part : Partition}
  {w : World ω}

/-- What holds at each visit of the loop head: all entries are in the given partitions. -/
structure PartsIn (program : Program) (parts : Finset Partition) (w : World ω)
    (r : ReachedSet ν ρ θ) : Prop where
  sound : r.Sound
  program : r.program = program
  below : Below r w
  parts : ∀ id e, r.get? id = some e → e.partition ∈ parts

theorem PartsIn.add (h : PartsIn program parts w r) (ha : r.add e = .ok (id, r'))
    (hpart : e.partition ∈ parts) (hbelow : e.state.handle.serial < w.next.serial) :
    PartsIn program parts w r' := by
  refine ⟨h.sound.add ha, ?_, h.below.add ha hbelow, fun j g hg => ?_⟩
  · obtain ⟨-, -, -, rfl⟩ := ReachedSet.add_eq_ok ha
    exact h.program
  · rcases ReachedSet.new_or_old_of_add ha hg with ⟨-, rfl⟩ | hg
    · exact hpart
    · exact h.parts j g hg

omit [LeafValue ν] in
theorem PartsIn.remove (h : PartsIn program parts w r) (id : EntryId) :
    PartsIn program parts w (r.remove id).2 := by
  refine ⟨h.sound.remove id, ?_, h.below.remove id,
    fun j g hg => h.parts j g (ReachedSet.get?_remove_eq_some.1 hg).2⟩
  rw [ReachedSet.remove_program]
  exact h.program

omit [LeafValue ν] [Waitlist θ ν] in
theorem PartsIn.later {w' : World ω} (h : PartsIn program parts w r)
    (hle : w.next.serial ≤ w'.next.serial) : PartsIn program parts w' r :=
  { h with below := h.below.later hle }

/-- The state of an expansion that started from `r₀`, when `todo` is still to be admitted: nothing
has changed, or there is more in the set. -/
structure Filling (d : Domain ν) (program : Program) (parts : Finset Partition)
    (r₀ : ReachedSet ν ρ θ) (todo : Successors ν ρ) (w : World ω)
    (r : ReachedSet ν ρ θ) : Prop where
  partsIn : PartsIn program parts w r
  fuller : r = r₀ ∨ Fuller d (stock (program.places parts) r) (stock (program.places parts) r₀)
  drawn : ∀ q ∈ todo, q.1.state.handle.serial < w.next.serial

theorem filling_joins (hd : x.analysis.domain.Bounding) (hpart : part ∈ parts)
    (r₀ : ReachedSet ν ρ θ) : Joins x part (Filling x.analysis.domain program parts r₀) where
  sound _ _ _ h := h.partsIn.sound
  below _ _ _ h := h.partsIn.below
  later _ _ _ _ h hle :=
    ⟨h.partsIn.later hle, h.fuller, fun q hq => Nat.lt_of_lt_of_le (h.drawn q hq) hle⟩
  grown a l todo w r id e merged w' i r' h he hplace hnot hle hupper hdrew _ ha := by
    have hsupply : w.next.serial ≤ w'.next.serial := by
      obtain ⟨h1, h2⟩ := hdrew
      omega
    have habove : x.analysis.domain.Above merged e.state := by
      refine ⟨hle, fun hback => hnot ?_⟩
      exact hd.trans _ _ _ hupper hback
    refine ⟨((h.partsIn.later hsupply).remove id).add ha hpart hdrew.2, .inr ?_,
      fun q hq => Nat.lt_of_lt_of_le (h.drawn q hq) hsupply⟩
    have hnew : Fuller x.analysis.domain (stock (program.places parts) r')
        (stock (program.places parts) r) :=
      fuller_replace (f := ⟨merged, a.precision, l, part⟩) h.partsIn.sound he hplace.symm habove ha
    rcases h.fuller with heq | hold
    · rw [← heq]
      exact hnew
    · exact hnew.trans hold
  covered a l todo w r id e h _ _ _ :=
    ⟨h.partsIn, h.fuller, fun q hq => h.drawn q (List.mem_cons_of_mem _ hq)⟩
  known a l todo w r h _ :=
    ⟨h.partsIn, h.fuller, fun q hq => h.drawn q (List.mem_cons_of_mem _ hq)⟩
  added a l todo w r id r' h hvacant ha := by
    have hsite : (⟨l, part⟩ : Place) ∈ program.places parts := by
      refine Program.mem_places.2 ⟨?_, hpart⟩
      rw [← h.partsIn.program]
      exact (ReachedSet.add_eq_ok ha).1
    refine ⟨h.partsIn.add ha hpart (h.drawn (a, l) (by simp)), .inr ?_,
      fun q hq => h.drawn q (List.mem_cons_of_mem _ hq)⟩
    have hnew : Fuller x.analysis.domain (stock (program.places parts) r')
        (stock (program.places parts) r) :=
      fuller_add (e := ⟨a.state, a.precision, l, part⟩) h.partsIn.sound hsite hvacant ha
    rcases h.fuller with heq | hold
    · rw [← heq]
      exact hnew
    · exact hnew.trans hold

/-! ## Whole runs -/

variable [Waitlist.Listed θ ν]

/-- What every step that goes on makes smaller. -/
def load (program : Program) (parts : Finset Partition) (m : Machine ν ρ ω θ) :
    (Finset Place × Multiset (State ν)) × Nat :=
  (stock (program.places parts) m.reached, m.reached.waiting)

theorem step_loads (joining : x.analysis.Joining) (hd : x.analysis.domain.Bounding)
    (forward : x.analysis.Forward) (fresh : x.analysis.Fresh) {m : Machine ν ρ ω θ}
    (h : PartsIn program parts m.meter.world m.reached) :
    (x.step m).Meets
      (fun m' => PartsIn program parts m'.meter.world m'.reached ∧
        Prod.Lex (Fuller x.analysis.domain) (· < ·) (load program parts m') (load program parts m))
      fun _ _ => True := by
  refine step_rule trivial (fun _ => trivial) trivial
    (fun hw r hpop => absurd hpop (ReachedSet.pop_ne_none hw)) fun id r hpop => ?_
  have hr : r = m.reached.pop.2 := by rw [hpop]
  refine expand_rule (fun _ _ => trivial) fun e he => ?_
  have hparts : PartsIn program parts m.meter.world r := by
    rw [hr]
    exact ⟨h.sound.of_store rfl rfl, h.program, h.below, h.parts⟩
  have hpart : e.partition ∈ parts := hparts.parts id e he
  have hjoins : Joins x e.partition (Filling x.analysis.domain program parts r) :=
    filling_joins hd hpart r
  refine .weaken (expand_intake he ?_ (hjoins.intake joining hd)) (fun _ hm => hm) ?_
    fun ending m' _ => cut_of_true id ending m'
  · refine .of_run (fun n out n' hn hrun => ?_) fun n ending n' _ hrun => ?_
    · obtain ⟨hle, hdrawn⟩ :=
        (passes_drawn forward fresh r.store e n.world).triple.ok rfl hrun
      rw [hn] at hle
      exact ⟨hparts.later hle, .inl rfl, fun q hq => (hdrawn q hq).2⟩
    · exact inexhausted_of_early ((successors_early r.store e).error trivial hrun)
  · intro _ m' hm
    refine ⟨hm.partsIn, ?_⟩
    have hstore : stock (program.places parts) m.reached = stock (program.places parts) r := by
      rw [hr]
      rfl
    unfold load
    rw [hstore]
    rcases hm.fuller with heq | hfuller
    · rw [heq, ReachedSet.waiting_pop hpop]
      exact .right _ (Nat.lt_succ_self _)
    · exact .left _ _ hfuller

/-- An analysis that joins over an order of finite height makes every run end, whatever its transfer
and its adjustment compute. -/
theorem join_run_ends (joining : x.analysis.Joining) (height : x.analysis.domain.FiniteHeight)
    (forward : x.analysis.Forward) (fresh : x.analysis.Fresh) (m₀ : Machine ν ρ ω θ)
    (made : m₀.reached.Made) (below : Below m₀.reached m₀.meter.world) :
    ∃ fuel result m, x.run fuel m₀ = some (result, m) := by
  -- The partitions of the entries at the start are the only ones that ever have entries.
  let parts := (m₀.reached.store.entries.map fun p => p.2.partition).toFinset
  have start : PartsIn m₀.reached.program parts m₀.meter.world m₀.reached := by
    refine ⟨made.sound, rfl, below, fun id e he => ?_⟩
    exact List.mem_toFinset.2 (List.mem_map.2 ⟨(id, e), Store.mem_entries.2 he, rfl⟩)
  exact run_ends ((Fuller.wf height).prod_lex Nat.lt_wfRel.wf) (load m₀.reached.program parts)
    (fun _ h => step_loads joining height.toBounding forward fresh h) m₀ start

end

/-- The entry of the loop is merged with its own successor, and the run ends all the same. -/
theorem loop_join_run_ends :
    Below loopStart.reached loopStart.meter.world ∧
    ∃ fuel result m, loopFacts.run fuel loopStart = some (result, m) := by
  have below : Below loopStart.reached loopStart.meter.world := by
    intro id e he
    obtain ⟨-, rfl⟩ := eq_of_loopStart he
    decide
  have hadd : (ReachedSet.ofFrontier loop (SimpleWaitlist.ofOrder .breadthFirst)).add loopEntry =
      .ok (⟨0⟩, loopStart.reached) := rfl
  have lawful : loopFacts.analysis.Lawful Facts.inclusion fun _ => True :=
    Facts.lawful rfl rfl rfl rfl rfl
  exact ⟨below, join_run_ends (Facts.joining rfl rfl) (Facts.finiteHeight rfl rfl)
    (Facts.forward rfl rfl rfl rfl rfl) lawful.fresh loopStart (.add (.ofFrontier _ _) hadd) below⟩

end Exploration

end ProgramAnalysis
