import ProgramAnalysis.Exploration.Expand
/-!
Runs: entries are expanded until nothing waits, a target is found, or the run is broken off.

`step` is what happens between two visits of the loop head. A run need not end, so `run` takes a
bound on the number of steps and answers nothing when that is used up. Whenever an expansion is cut
short, its entry goes back on the frontier, so that a later run can go on from there. Only a crash
leaves everything as it is.
-/

namespace ProgramAnalysis.Exploration

variable {ν ρ ω θ : Type} [LeafValue ν] [Waitlist θ ν]

/-- What one step leads to. -/
inductive Next (ν ρ ω θ : Type) where
  | again (machine : Machine ν ρ ω θ)
  | ended (result : Except Failure Status) (machine : Machine ν ρ ω θ)

/-- Adds the initial state and precision of a location to a reached set. -/
def seed (x : Exploration ν ρ ω) (n : NodeId) (part : Partition) (w : World ω)
    (r : ReachedSet ν ρ θ) : Except Failure EntryId × World ω × ReachedSet ν ρ θ :=
  let start : Action ω (State ν × Precision ρ) := do
    let s ← x.analysis.initialState n part
    let p ← x.analysis.initialPrecision n part
    return (s, p)
  match start.run.run w with
  | (.error e, w) => (.error e, w, r)
  | (.ok (s, p), w) =>
    match r.add ⟨s, p, s.location?.getD n, part⟩ with
    | .error e => (.error (.error e), w, r)
    | .ok (id, r) => (.ok id, w, r)

/-- Puts an entry back on the frontier. -/
def putBack (id : EntryId) (m : Machine ν ρ ω θ) : Machine ν ρ ω θ :=
  { m with reached := m.reached.reschedule id }

/-- The machine after an entry was taken off the frontier. -/
def popped (m : Machine ν ρ ω θ) (r : ReachedSet ν ρ θ) : Machine ν ρ ω θ :=
  { m with
    reached := r
    meter := { m.meter with counters := m.meter.counters.iteration r.waiting } }

/-- The end of an iteration. -/
def conclude (id : EntryId) : Except Ending Unit → Machine ν ρ ω θ → Next ν ρ ω θ
  | .ok (), m => .again m
  | .error (.done status true), m => .ended (.ok status) (putBack id m)
  | .error (.done status false), m => .ended (.ok status) m
  | .error (.failed e), m => .ended (.error (.error e)) (putBack id m)
  | .error (.crashed c), m => .ended (.error (.crash c)) m

/-- Whether the limit on iterations is reached. -/
def atLimit (x : Exploration ν ρ ω) (m : Machine ν ρ ω θ) : Bool :=
  x.options.maxIterations.any (· ≤ m.meter.counters.iterations)

/-- From one visit of the loop head to the next. -/
def step (x : Exploration ν ρ ω) (m : Machine ν ρ ω θ) : Next ν ρ ω θ :=
  if m.meter.world.tokens.isCancelled x.token then .ended (.ok .interrupted) m
  else if !m.reached.hasWaiting then
    .ended (.ok (if m.targets.isEmpty then .exhausted else .targetFound)) m
  else if x.atLimit m then .ended (.ok (.broken .iterationLimit)) m
  else
    match m.reached.pop with
    | (none, r) => .again { m with reached := r }
    | (some id, r) =>
      let (ending, m) := (x.expand id).run.run (popped m r)
      conclude id ending m

/-- A run of at most `fuel` steps. -/
def run (x : Exploration ν ρ ω) : Nat → Machine ν ρ ω θ →
    Option (Except Failure Status × Machine ν ρ ω θ)
  | 0, _ => none
  | fuel + 1, m =>
    match x.step m with
    | .ended result m => some (result, m)
    | .again m => run x fuel m

end ProgramAnalysis.Exploration
