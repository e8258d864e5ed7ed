import ProgramAnalysis.Facts.Basic
import ProgramAnalysis.Location
import ProgramAnalysis.Proofs.Programs
import ProgramAnalysis.Proofs.Run
/-!
Successors that have to be added.

Whether a successor has to be added is decided among the states at its place, but whether it is
there already is decided by its handle, over the whole reached set. So a successor that no state at
its place covers is dropped when an entry at another place holds its handle, and only then
(`held_after_admission_iff`). Location states have one handle for each location, whatever the
partition, so the partitions of a location analysis get in each other's way.
-/

namespace ProgramAnalysis.Exploration

variable {ν ρ ω θ : Type} [LeafValue ν] [Waitlist θ ν]
variable {x : Exploration ν ρ ω} {m₀ m : Machine ν ρ ω θ} {part : Partition}

/-- An entry at the place holds the state. -/
def HeldAt (r : ReachedSet ν ρ θ) (place : Place) (s : State ν) : Prop :=
  ∃ id e, r.get? id = some e ∧ e.place = place ∧ e.state.handle = s.handle

/-- An entry at another place holds the state. -/
def HeldElsewhere (r : ReachedSet ν ρ θ) (place : Place) (s : State ν) : Prop :=
  ∃ id e, r.get? id = some e ∧ e.place ≠ place ∧ e.state.handle = s.handle

/-- A run from `m₀` comes to the machine, and there it goes on with the successor `a` at `l`. -/
inductive Admits (x : Exploration ν ρ ω) (m₀ : Machine ν ρ ω θ) (part : Partition)
    (a : Adjustment ν ρ) (l : NodeId) (more : Bool) : Machine ν ρ ω θ → Prop where
  | intro {m m' id r e done rest meter} :
      Visits x m₀ m → m.reached.pop = (some id, r) → r.get? id = some e → e.partition = part →
      (x.successors r.store e).run.run (popped m r).meter =
        (.ok (done ++ (a, l) :: rest), meter) →
      (x.admitAll part done).run.run { popped m r with meter := meter } = (.ok (), m') →
      more = !rest.isEmpty → Admits x m₀ part a l more m'

/-! ## Sound reached sets along a run -/

theorem sound_admission :
    Admission x part (fun _ _ (r : ReachedSet ν ρ θ) _ => r.Sound) (fun _ _ _ _ => True) :=
  admission_of_invariant (fun _ _ h => h) (fun _ _ id h => h.remove id)
    (fun _ _ _ _ _ h ha => h.add ha) (fun _ _ _ _ h _ => ⟨h, trivial⟩) (fun _ => trivial)
    fun _ => trivial

theorem Visits.sound (h : Visits x m₀ m) (h₀ : m₀.reached.Sound) : m.reached.Sound := by
  refine h.invariant (I := fun m => m.reached.Sound) (J := fun _ _ => True) ?_ h₀
  intro m _ hm
  refine step_rule trivial (fun _ => trivial) trivial (fun _ r hr => hm.pop hr) ?_
  intro id r hr
  refine expand_rule (fun _ _ => trivial) fun e he => ?_
  refine .fail (expand_triple he (.of_run ?_ ?_) sound_admission)
    fun ending m' _ => cut_of_true id ending m'
  · intro _ _ _ _ _
    exact hm.pop hr
  · intro _ _ _ _ _
    trivial

theorem Admits.sound {a : Adjustment ν ρ} {l : NodeId} {more : Bool}
    (h : Admits x m₀ part a l more m) (h₀ : m₀.reached.Sound) : m.reached.Sound := by
  cases h with
  | @intro m _ id r e done rest meter hvisit hpop _ _ _ hadmit _ =>
    obtain rfl : r = m.reached.pop.2 := by rw [hpop]
    have hr : m.reached.pop.2.Sound := (hvisit.sound h₀).of_store rfl rfl
    exact (sound_admission.triple done).ok (s := { popped m m.reached.pop.2 with meter := meter })
      hr hadmit

/-! ## One successor -/

/-- What is done with a successor that has to be added. -/
theorem run_admitOne {a : Adjustment ν ρ} {l : NodeId} {more : Bool} {m₁ : Machine ν ρ ω θ}
    (h : (x.mergeInto a.state a.precision ⟨l, part⟩).run.run m = (.ok true, m₁)) :
    (x.admitOne part a l more).run.run m =
      if m₁.reached.store.contains a.state then (.ok (), m₁)
      else match m₁.reached.add ⟨a.state, a.precision, l, part⟩ with
        | .error err => (.error (.failed err), m₁)
        | .ok (_, r) =>
          if x.isTarget a.state then
            (if x.options.stopAtTarget then .error (.done .targetFound more) else .ok (),
              { m₁ with reached := r, targets := m₁.targets ++ [a.state] })
          else (.ok (), { m₁ with reached := r }) := by
  have hreached : ∀ m : Machine ν ρ ω θ,
      (Stage.reached : Stage ν ρ ω θ (ReachedSet ν ρ θ)).run.run m = (.ok m.reached, m) :=
    fun _ => rfl
  unfold admitOne
  rw [run_bind, h]
  dsimp only
  rw [if_pos rfl, run_bind, hreached]
  dsimp only
  split
  · rfl
  · rw [run_bind, Stage.add, run_bind, hreached]
    dsimp only
    cases m₁.reached.add ⟨a.state, a.precision, l, part⟩ with
    | error err => rfl
    | ok p =>
      by_cases ht : x.isTarget a.state = true
      · by_cases hs : x.options.stopAtTarget = true
        · simp only [ht, hs]
          rfl
        · simp only [ht, hs]
          rfl
      · simp only [ht]
        rfl

theorem sound_mergeInto {s : State ν} {p : Precision ρ} {place : Place} {b : Bool}
    {m' : Machine ν ρ ω θ} (hm : m.reached.Sound)
    (h : (x.mergeInto s p place).run.run m = (.ok b, m')) : m'.reached.Sound := by
  have hx : Triple (Machine.Meets fun _ r _ => r.Sound) (x.mergeInto (θ := θ) s p place)
      (fun _ => Machine.Meets fun _ r _ => r.Sound) (fun _ => Machine.Meets fun _ _ _ => True) := by
    refine mergeInto_pass (M := fun _ _ r _ => r.Sound) (Q := fun _ _ r _ => r.Sound)
      (fun _ _ _ _ hr => hr) (fun _ _ _ _ hr => hr) (fun hsep => ?_) ?_ ?_ ?_
    · exact sound_admission.merging ⟨s, p, .proceed⟩ place.location [] hsep
    · intro _ _ _ _ _ hr _
      exact hr
    · intros
      trivial
    · intros
      trivial
  exact hx.ok hm h

/-- A successor that has to be added is held at its place afterwards exactly when no entry at
another place holds it. -/
theorem held_after_admission_iff {part : Partition} {a : Adjustment ν ρ} {l : NodeId} {more : Bool}
    {m m₁ m₂ : Machine ν ρ ω θ} {ending : Except Ending Unit} (made : m₀.reached.Made)
    (admits : Admits x m₀ part a l more m)
    (merged : (x.mergeInto a.state a.precision ⟨l, part⟩).run.run m = (.ok true, m₁))
    (admitted : (x.admitOne part a l more).run.run m = (ending, m₂))
    (unfailed : ∀ err, ending ≠ .error (.failed err)) :
    HeldAt m₂.reached ⟨l, part⟩ a.state ↔ ¬ HeldElsewhere m₁.reached ⟨l, part⟩ a.state := by
  have hsound : m₁.reached.Sound := sound_mergeInto (admits.sound made.sound) merged
  rw [run_admitOne merged] at admitted
  split at admitted
  · next hc =>
    -- The state is in the set, at one place only.
    cases admitted
    obtain ⟨id, e, he, heh⟩ := hsound.store.contains_iff.1 hc
    have huniq : ∀ j f, m₁.reached.get? j = some f → f.state.handle = a.state.handle → f = e := by
      intro j f hf hfh
      obtain rfl := hsound.store.eq_of_handle hf he (hfh.trans heh.symm)
      exact Option.some.inj (hf.symm.trans he)
    constructor
    · rintro ⟨i, f, hf, hplace, hfh⟩ ⟨j, g, hg, hne, hgh⟩
      rw [huniq i f hf hfh] at hplace
      rw [huniq j g hg hgh] at hne
      exact hne hplace
    · intro hnot
      refine ⟨id, e, he, ?_, heh⟩
      exact Classical.byContradiction fun hne => hnot ⟨id, e, he, hne, heh⟩
  · next hc =>
    have hnot : ¬ HeldElsewhere m₁.reached ⟨l, part⟩ a.state := by
      rintro ⟨id, e, he, -, heh⟩
      exact hc (hsound.store.contains_iff.2 ⟨id, e, he, heh⟩)
    refine ⟨fun _ => hnot, fun _ => ?_⟩
    cases hadd : m₁.reached.add ⟨a.state, a.precision, l, part⟩ with
    | error err =>
      rw [hadd] at admitted
      cases admitted
      exact absurd rfl (unfailed err)
    | ok p =>
      obtain ⟨id, r⟩ := p
      have hheld : HeldAt r ⟨l, part⟩ a.state :=
        ⟨id, _, by rw [ReachedSet.get?_add hadd, if_pos rfl], rfl, rfl⟩
      rw [hadd] at admitted
      dsimp only at admitted
      split at admitted
      · cases admitted
        exact hheld
      · cases admitted
        exact hheld

/-! ## Two partitions -/

/-- A program with one edge. -/
def hop : Program := .ofPairs 0 [(0, 1)]

def hopLocations : Exploration FactValue Level Unit where
  program := hop
  analysis := Location.analysis hop ⟨0⟩
  isTarget _ := false
  options := {}
  token := ⟨0⟩

def hopEntry : Entry FactValue Level := ⟨.location ⟨0⟩ ⟨0⟩, .plain ⟨2⟩, ⟨0⟩, .keyed "a"⟩

def hopExit : Entry FactValue Level := ⟨.location ⟨1⟩ ⟨1⟩, .plain ⟨3⟩, ⟨1⟩, .keyed "b"⟩

/-- The entry of the program is reached in one partition, and its exit in the other. -/
def hopStart : Machine FactValue Level Unit SimpleWaitlist where
  meter := ⟨⟨⟨4⟩, .empty, ⟨0⟩, ⟨0⟩, ()⟩, {}⟩
  reached := ⟨hop, (Store.empty.insert hopEntry).insert hopExit, ⟨.breadthFirst, [⟨0⟩, ⟨1⟩]⟩⟩
  targets := []

theorem made_hopStart : hopStart.reached.Made :=
  have hfirst : (ReachedSet.ofFrontier hop (SimpleWaitlist.ofOrder .breadthFirst)).add hopEntry =
      .ok (⟨0⟩, ⟨hop, Store.empty.insert hopEntry, ⟨.breadthFirst, [⟨0⟩]⟩⟩) := rfl
  have hsecond : (⟨hop, Store.empty.insert hopEntry, ⟨.breadthFirst, [⟨0⟩]⟩⟩ :
      ReachedSet FactValue Level SimpleWaitlist).add hopExit = .ok (⟨1⟩, hopStart.reached) := rfl
  .add (.add (.ofFrontier _ _) hfirst) hsecond

/-- The only successor of the entry, in its partition. -/
def hopSuccessor : Adjustment FactValue Level := ⟨.location ⟨1⟩ ⟨1⟩, .plain ⟨2⟩, .proceed⟩

/-- The machine that goes on with the successor. -/
def hopMachine : Machine FactValue Level Unit SimpleWaitlist :=
  let m := popped hopStart hopStart.reached.pop.2
  { m with meter := ((hopLocations.successors m.reached.store hopEntry).run.run m.meter).2 }

theorem admits_hopMachine :
    Admits hopLocations hopStart (.keyed "a") hopSuccessor ⟨1⟩ false hopMachine :=
  have hsucc : (hopLocations.successors hopStart.reached.pop.2.store hopEntry).run.run
      (popped hopStart hopStart.reached.pop.2).meter =
        (.ok ([] ++ (hopSuccessor, ⟨1⟩) :: []), hopMachine.meter) := rfl
  .intro .start rfl rfl rfl hsucc rfl rfl

theorem hop_held_iff : ∃ m₁ m₂,
    (hopLocations.mergeInto hopSuccessor.state hopSuccessor.precision
      ⟨⟨1⟩, .keyed "a"⟩).run.run hopMachine = (.ok true, m₁) ∧
    (hopLocations.admitOne (.keyed "a") hopSuccessor ⟨1⟩ false).run.run hopMachine = (.ok (), m₂) ∧
    (HeldAt m₂.reached ⟨⟨1⟩, .keyed "a"⟩ hopSuccessor.state ↔
      ¬ HeldElsewhere m₁.reached ⟨⟨1⟩, .keyed "a"⟩ hopSuccessor.state) :=
  ⟨_, _, rfl, rfl,
    held_after_admission_iff made_hopStart admits_hopMachine rfl rfl fun _ h => by cases h⟩

/-- The location state of the exit is held in the other partition, so it is not added to this one,
although nothing covers it there. -/
theorem hop_successor_dropped : ∃ m₁ m₂,
    Admits hopLocations hopStart (.keyed "a") hopSuccessor ⟨1⟩ false hopMachine ∧
    (hopLocations.mergeInto hopSuccessor.state hopSuccessor.precision
      ⟨⟨1⟩, .keyed "a"⟩).run.run hopMachine = (.ok true, m₁) ∧
    (hopLocations.admitOne (.keyed "a") hopSuccessor ⟨1⟩ false).run.run hopMachine = (.ok (), m₂) ∧
    ¬ HeldAt m₂.reached ⟨⟨1⟩, .keyed "a"⟩ hopSuccessor.state := by
  refine ⟨_, _, admits_hopMachine, rfl, rfl, ?_⟩
  rintro ⟨id, e, he, hplace, -⟩
  have he : ((Store.empty.insert hopEntry).insert hopExit).get? id = some e := he
  rw [Store.get?_insert, Store.get?_insert, Store.get?_empty] at he
  split at he
  · cases he
    exact absurd hplace (by decide)
  · split at he
    · cases he
      exact absurd hplace (by decide)
    · cases he

end ProgramAnalysis.Exploration
