import ProgramAnalysis.Proofs.Twins
/-!
Two explorations that do the same.

The explorations may run different analyses, each in its own world. A `Simulation` says which
worlds, states, precisions and handles of the two sides correspond.

If the operators of the two sides do the same up to this correspondence (`Simulation.Relates`), the
simulation is a coupling in which nothing is stopped on one side alone. So steps and runs do the
same too: they end alike, after equally many iterations, with reached sets that correspond entry by
entry.
-/

namespace ProgramAnalysis

/-! ## Correspondences -/

/-- Which worlds, states and precisions of two explorations correspond, and which handles of states
stand for each other. -/
structure Simulation (ι ν ρ ω ω' : Type) extends Likeness ι ν ρ where
  worlds : ι → World ω → World ω' → Prop
  handles : ι → Naming

namespace Simulation

variable {ι ν ρ ω ω' θ α β ε : Type} {S : Simulation ι ν ρ ω ω'} {c d : ι}

/-- What corresponds, keeps to correspond, has one partner only, and looks alike to an
exploration. -/
structure Lawful [Preorder ι] [LeafValue ν] (S : Simulation ι ν ρ ω ω') : Prop extends
    S.Lasts where
  handles_mono : ∀ {c d h k}, c ≤ d → S.handles c h k → S.handles d h k
  oneToOne : ∀ {c w w'}, S.worlds c w w' → (S.handles c).OneToOne
  tokens : ∀ {c w w'}, S.worlds c w w' → w.tokens = w'.tokens
  handle : ∀ {c s t}, S.states c s t → S.handles c s.handle t.handle

/-- Frontiers that `R` relates take corresponding states alike. -/
structure Schedules [Waitlist θ ν] (S : Simulation ι ν ρ ω ω') (R : θ → θ → Prop) : Prop where
  push : ∀ {c f f' s t} (id : EntryId) (n : NodeId), R f f' → S.states c s t →
    R (Waitlist.push f id n s) (Waitlist.push f' id n t)
  pop : ∀ {f f'}, R f f' → (Frontier.pop f).1 = (Frontier.pop f').1 ∧
    R (Frontier.pop f).2 (Frontier.pop f').2
  remove : ∀ {f f'} (id : EntryId), R f f' → R (Frontier.remove f id).2 (Frontier.remove f' id).2
  size : ∀ {f f'}, R f f' → Frontier.size f = Frontier.size f'

/-- The explorations have the same program and the same options, and their operators do the same,
whatever stores they are shown. -/
structure Relates [Preorder ι] (S : Simulation ι ν ρ ω ω') (x : Exploration ν ρ ω)
    (y : Exploration ν ρ ω') : Prop extends
    S.Operators (fun _ _ _ => True) (Bisimilar S.worlds) x y where
  options : x.options = y.options
  token : x.token = y.token
  isTarget : ∀ {c s t}, S.states c s t → x.isTarget s = y.isTarget t
  initialState : ∀ (c : ι) (n : NodeId) (part : Partition),
    Bisimilar S.worlds c (x.analysis.initialState n part) (y.analysis.initialState n part) S.states
  initialPrecision : ∀ (c : ι) (n : NodeId) (part : Partition),
    Bisimilar S.worlds c (x.analysis.initialPrecision n part)
      (y.analysis.initialPrecision n part) S.precisions

/-! ## Reached sets that correspond -/

/-- Frontiers and stores of the reached sets correspond. -/
structure Reached (S : Simulation ι ν ρ ω ω') (R : θ → θ → Prop) (c : ι)
    (r r' : ReachedSet ν ρ θ) : Prop where
  program : r.program = r'.program
  frontier : R r.frontier r'.frontier
  oneToOne : (S.handles c).OneToOne
  store : r.store.Corresponds (S.Entries c) (S.handles c) r'.store

namespace Reached

variable {R : θ → θ → Prop} {r r' : ReachedSet ν ρ θ} {e f : Entry ν ρ} {s t : State ν}
  (h : S.Reached R c r r')

include h

theorem get? (id : EntryId) :
    Option.Rel (S.Entries c) (r.get? id) (r'.get? id) :=
  h.store.get? id

section

variable [Waitlist θ ν] (hR : S.Schedules R)

include hR

theorem hasWaiting : r.hasWaiting = r'.hasWaiting := by
  unfold ReachedSet.hasWaiting ReachedSet.waiting
  rw [hR.size h.frontier]

theorem pop : r.pop.1 = r'.pop.1 ∧ S.Reached R c r.pop.2 r'.pop.2 := by
  obtain ⟨hid, hrest⟩ := hR.pop h.frontier
  exact ⟨hid, h.program, hrest, h.oneToOne, h.store⟩

theorem reschedule (id : EntryId) :
    S.Reached R c (r.reschedule id) (r'.reschedule id) := by
  have hentry := h.get? id
  unfold ReachedSet.reschedule
  revert hentry
  rcases r.get? id with _ | e <;> rcases r'.get? id with _ | f <;> intro hentry <;> cases hentry
  · exact h
  · next he =>
    refine ⟨h.program, ?_, h.oneToOne, h.store⟩
    show R (Waitlist.push r.frontier id e.location e.state)
      (Waitlist.push r'.frontier id f.location f.state)
    rw [he.location]
    exact hR.push id f.location h.frontier he.state

end

variable [Preorder ι] [LeafValue ν] (hS : S.Lawful)

include hS

theorem mono (hcd : c ≤ d) (hd : (S.handles d).OneToOne) : S.Reached R d r r' :=
  { h with
    oneToOne := hd
    store := h.store.mono (fun _ _ he => he.mono hS.toLasts hcd) fun _ _ => hS.handles_mono hcd }

theorem contains (hst : S.states c s t) :
    r.store.contains s = r'.store.contains t :=
  h.store.contains h.oneToOne (hS.handle hst)

variable [Waitlist θ ν] (hR : S.Schedules R)

include hR

theorem remove (id : EntryId) :
    S.Reached R c (r.remove id).2 (r'.remove id).2 := by
  have hentry := h.get? id
  have hstore := h.store.erase h.oneToOne (fun _ _ he => he.place)
    (fun _ _ he => hS.handle he.state) id
  unfold ReachedSet.remove
  revert hentry
  rcases r.get? id with _ | e <;> rcases r'.get? id with _ | f <;> intro hentry <;> cases hentry
  · exact h
  · exact ⟨h.program, hR.remove id h.frontier, h.oneToOne, hstore⟩

/-- An entry whose state is not in the set is added on both sides, or refused alike. -/
theorem add (he : S.Entries c e f) (hnew : r.store.contains e.state = false) :
    Outcomes (fun p q => p.1 = q.1 ∧ S.Reached R c p.2 q.2) (r.add e) (r'.add f) := by
  have hnew' : r'.store.contains f.state = false := by rw [← h.contains hS he.state, hnew]
  unfold ReachedSet.add ReachedSet.offer
  rw [hnew, hnew', h.program, he.location]
  cases r'.program.contains f.location
  · exact rfl
  refine ⟨h.store.nextId, rfl, ?_, h.oneToOne,
    h.store.insert h.oneToOne he he.place (hS.handle he.state)⟩
  show R (Waitlist.push r.frontier r.store.nextId f.location e.state)
    (Waitlist.push r'.frontier r'.store.nextId f.location f.state)
  rw [h.store.nextId]
  exact hR.push _ _ h.frontier he.state

end Reached

/-! ## The coupling -/

/-- The machines correspond in all that a run depends on. -/
structure Machines (S : Simulation ι ν ρ ω ω') (R : θ → θ → Prop) (c : ι) (m : Machine ν ρ ω θ)
    (m' : Machine ν ρ ω' θ) : Prop where
  world : S.worlds c m.meter.world m'.meter.world
  iterations : m.meter.counters.iterations = m'.meter.counters.iterations
  reached : S.Reached R c m.reached m'.reached
  targets : List.Forall₂ (S.states c) m.targets m'.targets

/-- The coupling of a simulation: entries have the same numbers on both sides. -/
def coupling (S : Simulation ι ν ρ ω ω') (R : θ → θ → Prop) : Coupling ι ν ρ ω ω' θ where
  toLikeness := S.toLikeness
  machines := S.Machines R
  entries _ := Eq
  stores _ _ _ := True
  own _ := True

section

variable [Preorder ι] [LeafValue ν] [Waitlist θ ν] {R : θ → θ → Prop} {Q : ι → α → β → Prop}
  {x : Exploration ν ρ ω} {y : Exploration ν ρ ω'} (hS : S.Lawful) (hR : S.Schedules R)

include hS in
omit [Waitlist θ ν] in
theorem calls_of_bisimilar {a : ExceptT ε (Effect ω) α} {b : ExceptT ε (Effect ω') β}
    (h : Bisimilar S.worlds c a b Q) : (S.coupling R).Calls c a b Q := by
  intro m m' hm
  obtain ⟨d, hcd, hd, ho⟩ := h _ _ hm.world
  refine ⟨d, hcd, ⟨hd, hm.iterations, hm.reached.mono hS hcd (hS.oneToOne hd), ?_⟩, ho⟩
  exact hm.targets.imp fun _ _ => hS.states_mono hcd

include hS hR in
/-- Explorations that do the same are coupled, and none of them is stopped alone. -/
theorem Relates.coupled (hxy : S.Relates x y) : (S.coupling R).Relates (fun _ => False) x y where
  toLasts := hS.toLasts
  entries_mono _ hij := hij
  stores_mono _ _ := trivial
  program := hxy.program
  isSep := hxy.isSep
  counted hm hn hn' := { hm with iterations := hn.trans (hm.iterations.trans hn'.symm) }
  cancelled hm := by
    rw [hS.tokens hm.world, hxy.token]
    exact .inr rfl
  seen _ := trivial
  candidates hm _ := by
    rw [hm.reached.store.candidates]
    exact List.forall₂_same.2 fun _ _ => rfl
  entry hm hij := by
    cases hij
    exact hm.reached.get? _
  partition _ _ _ := trivial
  contains hm hst := hm.reached.contains hS hst
  remove hm hij := by
    cases hij
    exact { hm with reached := hm.reached.remove hS hR _ }
  add {c m m' e f} hm he _ hnew := by
    have hadd := hm.reached.add hS hR he hnew
    revert hadd
    rcases m.reached.add e with err | ⟨i, r⟩ <;> rcases m'.reached.add f with err' | ⟨j, r'⟩
    · exact id
    · exact id
    · exact id
    · exact fun hadd => ⟨c, le_rfl, { hm with reached := hadd.2 }⟩
  noted {c s t} more hst := by
    unfold Exploration.note
    rw [hxy.isTarget hst, hxy.options]
    split
    · refine .bind (Q := fun _ _ _ => True) ?_ fun d _ _ _ _ => ?_
      · exact .modify fun m m' hm =>
          { hm with targets := List.rel_append hm.targets (.cons hst .nil) }
      split
      · exact .throw _
      · exact .pure trivial
    · exact .pure trivial
  transfer e hst hpq := calls_of_bisimilar hS (hxy.transfer e hst hpq)
  adjust hst hpq hstore := calls_of_bisimilar hS (hxy.adjust hst hpq hstore)
  fallback err hst hpq := calls_of_bisimilar hS (hxy.fallback err hst hpq)
  merge hst hrs hpq := calls_of_bisimilar hS (hxy.merge hst hrs hpq)
  stop hst hrs hpq := calls_of_bisimilar hS (hxy.stop hst hrs hpq)

end

/-! ## Steps and runs -/

/-- Both steps go on, or both end with the same result; the machines correspond. -/
def Steps (S : Simulation ι ν ρ ω ω') (R : θ → θ → Prop) :
    Exploration.Next ν ρ ω θ → Exploration.Next ν ρ ω' θ → Prop
  | .again m, .again m' => ∃ c, S.Machines R c m m'
  | .ended result m, .ended result' m' => result = result' ∧ ∃ c, S.Machines R c m m'
  | _, _ => False

/-- Both runs have ended with the same result; the machines correspond. -/
def Ends (S : Simulation ι ν ρ ω ω') (R : θ → θ → Prop)
    (a : Except Failure Status × Machine ν ρ ω θ) (b : Except Failure Status × Machine ν ρ ω' θ) :
    Prop :=
  a.1 = b.1 ∧ ∃ c, S.Machines R c a.2 b.2

section Runs

variable [Preorder ι] [LeafValue ν] [Waitlist θ ν] {R : θ → θ → Prop} {x : Exploration ν ρ ω}
  {y : Exploration ν ρ ω'} {m : Machine ν ρ ω θ} {m' : Machine ν ρ ω' θ}
  (hS : S.Lawful) (hR : S.Schedules R) (hxy : S.Relates x y)

include hR

omit [Preorder ι] [LeafValue ν] in
theorem conclude_steps (h : S.Machines R c m m') {o o' : Except Ending Unit}
    (ho : Outcomes (fun _ _ => True) o o') (id : EntryId) :
    S.Steps R (Exploration.conclude id o m) (Exploration.conclude id o' m') := by
  have hback : S.Machines R c (Exploration.putBack id m) (Exploration.putBack id m') :=
    { h with reached := h.reached.reschedule hR id }
  rcases o with e | _ <;> rcases o' with e' | _
  · obtain rfl : e = e' := ho
    rcases e with ⟨status, again⟩ | err | crash
    · cases again with
      | true => exact ⟨rfl, c, hback⟩
      | false => exact ⟨rfl, c, h⟩
    · exact ⟨rfl, c, hback⟩
    · exact ⟨rfl, c, h⟩
  · exact ho.elim
  · exact ho.elim
  · exact ⟨c, h⟩

include hS hxy

theorem step_steps (h : S.Machines R c m m') : S.Steps R (x.step m) (y.step m') := by
  have hcancelled : m.meter.world.tokens.isCancelled x.token =
      m'.meter.world.tokens.isCancelled y.token := by
    rw [hS.tokens h.world, hxy.token]
  have hlimit : x.atLimit m = y.atLimit m' := by
    unfold Exploration.atLimit
    rw [hxy.options, h.iterations]
  have hfound : m.targets.isEmpty = m'.targets.isEmpty := by
    have htargets := h.targets
    revert htargets
    rcases m.targets with _ | ⟨s, l⟩ <;> rcases m'.targets with _ | ⟨t, l'⟩ <;> intro htargets <;>
      cases htargets <;> rfl
  obtain ⟨hid, hpop⟩ := h.reached.pop hR
  unfold Exploration.step
  rw [hcancelled, h.reached.hasWaiting hR, hlimit, hfound]
  split
  · exact ⟨rfl, c, h⟩
  split
  · exact ⟨rfl, c, h⟩
  split
  · exact ⟨rfl, c, h⟩
  revert hid hpop
  rcases m.reached.pop with ⟨i, r⟩
  rcases m'.reached.pop with ⟨j, r'⟩
  intro hid hpop
  obtain rfl : i = j := hid
  cases i with
  | none => exact ⟨c, { h with reached := hpop }⟩
  | some id =>
    have hstart : S.Machines R c (Exploration.popped m r) (Exploration.popped m' r') :=
      ⟨h.world, congrArg (· + 1) h.iterations, hpop, h.targets⟩
    have hexpand := ((hxy.coupled hS hR).expand (c := c) (i := id) rfl (.inl rfl)).bisimilar
    obtain ⟨d, -, hd, ho⟩ := hexpand _ _ hstart
    exact conclude_steps hR hd ho id

/-- Runs of the two explorations end alike, or both go on. -/
theorem run_ends (h : S.Machines R c m m') (fuel : Nat) :
    Option.Rel (S.Ends R) (x.run fuel m) (y.run fuel m') := by
  induction fuel generalizing c m m' with
  | zero => exact .none
  | succ fuel ih =>
    have hstep := step_steps hS hR hxy h
    unfold Exploration.run
    revert hstep
    rcases x.step m with n | ⟨result, n⟩ <;> rcases y.step m' with n' | ⟨result', n'⟩
    · intro hn
      obtain ⟨d, hd⟩ := hn
      exact ih hd
    · exact fun hn => hn.elim
    · exact fun hn => hn.elim
    · exact fun hn => .some hn

end Runs

end Simulation

/-! ## Explorations from the start -/

namespace Exploration

variable {ν ρ ω θ : Type}

/-- The initial state and precision of a location. -/
def initial (x : Exploration ν ρ ω) (n : NodeId) (part : Partition) :
    Action ω (State ν × Precision ρ) := do
  let s ← x.analysis.initialState n part
  let p ← x.analysis.initialPrecision n part
  return (s, p)

variable [LeafValue ν] [Waitlist θ ν]

theorem seed_eq (x : Exploration ν ρ ω) (n : NodeId) (part : Partition) (w : World ω)
    (r : ReachedSet ν ρ θ) : x.seed n part w r = match (x.initial n part).run.run w with
      | (.error e, w) => (.error e, w, r)
      | (.ok (s, p), w) =>
        match r.add ⟨s, p, s.location?.getD n, part⟩ with
        | .error e => (.error (.error e), w, r)
        | .ok (id, r) => (.ok id, w, r) :=
  rfl

/-- The run, of at most `fuel` steps, from the initial state of a location alone. If there is none,
the run has ended with that failure. -/
def explore (x : Exploration ν ρ ω) (n : NodeId) (part : Partition) (frontier : θ) (fuel : Nat)
    (w : World ω) : Option (Except Failure Status × Machine ν ρ ω θ) :=
  match x.seed n part w (.ofFrontier x.program frontier) with
  | (.error e, w, r) => some (.error e, ⟨⟨w, {}⟩, r, []⟩)
  | (.ok _, w, r) => x.run fuel ⟨⟨w, {}⟩, r, []⟩

end Exploration

namespace Simulation

variable {ι ν ρ ω ω' θ : Type} [Preorder ι] [LeafValue ν] [Waitlist θ ν] {S : Simulation ι ν ρ ω ω'}
  {c : ι} {R : θ → θ → Prop} {x : Exploration ν ρ ω} {y : Exploration ν ρ ω'}

omit [Waitlist θ ν] in
theorem initial_bisimilar (hS : S.Lawful) (hxy : S.Relates x y) (n : NodeId) (part : Partition) :
    Bisimilar S.worlds c (x.initial n part) (y.initial n part)
      fun d p q => S.states d p.1 q.1 ∧ S.precisions d p.2 q.2 := by
  unfold Exploration.initial
  refine Paired.bisimilar (.bind (hxy.initialState c n part).paired fun d s t _ hst => ?_)
  refine .bind (hxy.initialPrecision d n part).paired fun d₁ p q hd₁ hpq => .pure ?_
  exact ⟨hS.states_mono hd₁ hst, hpq⟩

/-- Explorations of corresponding analyses end alike, or both go on. -/
theorem explore_ends (hS : S.Lawful) (hR : S.Schedules R) (hxy : S.Relates x y) {w : World ω}
    {w' : World ω'} (hw : S.worlds c w w') {f f' : θ} (hf : R f f') (n : NodeId) (part : Partition)
    (fuel : Nat) :
    Option.Rel (S.Ends R) (x.explore n part f fuel w) (y.explore n part f' fuel w') := by
  obtain ⟨d, -, hd, ho⟩ := initial_bisimilar hS hxy n part w w' hw
  have hstart : S.Reached R d (.ofFrontier x.program f) (.ofFrontier y.program f') :=
    ⟨hxy.program, hf, hS.oneToOne hd, Store.corresponds_empty _ _⟩
  unfold Exploration.explore
  rw [Exploration.seed_eq, Exploration.seed_eq]
  revert hd ho
  rcases (x.initial n part).run.run w with ⟨e | ⟨s, p⟩, w₁⟩ <;>
    rcases (y.initial n part).run.run w' with ⟨e' | ⟨t, q⟩, w₁'⟩
  · intro hd ho
    obtain rfl : e = e' := ho
    exact .some ⟨rfl, d, hd, rfl, hstart, .nil⟩
  · exact fun _ ho => ho.elim
  · exact fun _ ho => ho.elim
  intro hd ho
  have he : S.Entries d ⟨s, p, s.location?.getD n, part⟩ ⟨t, q, t.location?.getD n, part⟩ := by
    refine ⟨ho.1, ho.2, ?_, rfl⟩
    show s.location?.getD n = t.location?.getD n
    rw [hS.location? ho.1]
  have hadd := hstart.add hS hR he rfl
  dsimp only
  revert hadd
  rcases ReachedSet.add (.ofFrontier x.program f) _ with err | ⟨i, r⟩ <;>
    rcases ReachedSet.add (.ofFrontier y.program f') _ with err' | ⟨j, r'⟩
  · intro hadd
    obtain rfl : err = err' := hadd
    exact .some ⟨rfl, d, hd, rfl, hstart, .nil⟩
  · exact fun hadd => hadd.elim
  · exact fun hadd => hadd.elim
  · intro hadd
    exact run_ends hS hR hxy ⟨hd, rfl, hadd.2, .nil⟩ fuel

end Simulation

end ProgramAnalysis
