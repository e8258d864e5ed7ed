import ProgramAnalysis.Session.Basic
/-!
Session steps that explore: seeding the reached set, running, and cancelling.
-/

namespace ProgramAnalysis.Session

variable {ω : Type}

/-- The exploration of a runner. -/
def exploration (s : Session ω) (r : Runner) : Exploration FactValue Level ω :=
  ⟨s.reached.program, s.tree.value.analysis, r.target.test, r.options, r.token⟩

/-- How a run ended, with the reached set as the run left it. -/
structure RunReport where
  result : Except Error Status
  counters : Counters
  reached : FactReached
  targets : List FactState

/-- The report on a run; a run that crashed has none. -/
def reportOn (m : Machine FactValue Level ω (AnyFrontier FactValue)) :
    Except Failure Status → Step ω RunReport
  | .ok status => return ⟨.ok status, m.meter.counters, m.reached, m.targets⟩
  | .error (.error e) => return ⟨.error e, m.meter.counters, m.reached, m.targets⟩
  | .error (.crash c) => throw (.crashed c)

/-- Runs for at most `fuel` steps; `keep` says what becomes of the runner. -/
def runWith (fuel : Nat) (r : Runner) (keep : Runner → Session ω → Session ω) :
    Step ω RunReport := do
  let s ← Step.view id
  match (s.exploration r).run fuel ⟨⟨s.world, r.counters⟩, s.reached, r.targets⟩ with
  | none => throw .unfinished
  | some (result, m) =>
    modify fun s => keep { r with counters := m.meter.counters, targets := m.targets }
      { s with world := m.meter.world, reached := m.reached }
    reportOn m result

/-- Runs the exploration of the session. -/
def run (fuel : Nat) : Step ω RunReport := do
  runWith fuel (← Step.view Session.runner) fun r s => { s with runner := r }

/-- A token below the token of the session. -/
def newToken : Step ω TokenId :=
  modifyGet fun s =>
    let (t, tokens) := s.world.tokens.child s.world.session
    (t, { s with world := { s.world with tokens := tokens } })

/-- Runs an exploration of its own for one iteration. -/
def single (fuel : Nat) : Step ω RunReport := do
  let s ← Step.view id
  let token ← newToken
  runWith fuel
    { options := { s.options with maxIterations := some 1 }, target := s.target, token := token }
    fun _ s => s

/-- Runs several single iterations. -/
def singles (fuel : Nat) : Nat → Step ω (List RunReport)
  | 0 => pure []
  | n + 1 => do
    let report ← single fuel
    return report :: (← singles fuel n)

/-- Starts a new exploration under a new token; what is given replaces the settings of the session.
-/
def restart (target : Option TargetChoice) (options : Option RunOptions) : Step ω RunOptions := do
  modify fun s =>
    let (t, tokens) := s.world.tokens.create
    { s with
      world := { s.world with tokens := tokens, session := t }
      target := target.getD s.target
      options := options.getD s.options }
  let token ← newToken
  modify fun s => { s with runner := { options := s.options, target := s.target, token := token } }
  Step.view Session.options

/-- Cancels the session, or only its exploration, and says whether the exploration is cancelled. -/
def cancel (explorationOnly : Bool) : Step ω Bool := do
  modify fun s =>
    let t := if explorationOnly then s.runner.token else s.world.session
    { s with world := { s.world with tokens := s.world.tokens.cancel t } }
  Step.view fun s => s.world.tokens.isCancelled s.runner.token

/-- Adds the initial state of a location to the reached set. -/
def seed (n : NodeId) (part : Partition) : Step ω EntryId := do
  let s ← Step.view id
  let (result, w, r) := (s.exploration s.runner).seed n part s.world s.reached
  modify fun s => { s with world := w, reached := r }
  ofExcept (result.mapError Fault.ofFailure)

end ProgramAnalysis.Session
