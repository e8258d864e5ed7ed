import ProgramAnalysis.Analysis.Basic
import ProgramAnalysis.Exploration.Status
import ProgramAnalysis.Reached.Basic
/-!
The expansion of one entry of the reached set.

All successors along all leaving edges are computed first, then all of them are adjusted, and only
then is the reached set changed: each adjusted successor is merged into the states at its place, is
checked for coverage, and is added when it is not covered. The first two stages do not have the
reached set in their state, so an expansion that ends in one of them leaves it alone.
-/

namespace ProgramAnalysis

/-- What an exploration is made of. -/
structure Exploration (ν ρ ω : Type) where
  program : Program
  analysis : Analysis ν ρ ω
  isTarget : State ν → Bool
  options : RunOptions
  /-- The token that cancels the exploration. -/
  token : TokenId

/-- How an expansion ends before its time. -/
inductive Ending where
  /-- The run ends; `again` says whether the entry has to be expanded once more. -/
  | done (status : Status) (again : Bool)
  | failed (error : Error)
  | crashed (crash : Crash)
deriving DecidableEq, Inhabited

/-- The effects of operators together with the counters. -/
structure Meter (ω : Type) where
  world : World ω
  counters : Counters

/-- A stage that does not touch the reached set. -/
abbrev Phase (ω : Type) := ExceptT Ending (StateM (Meter ω))

namespace Phase

variable {ω α : Type}

/-- Changes the counters. -/
def count (f : Counters → Counters) : Phase ω Unit :=
  modify fun m => { m with counters := f m.counters }

/-- The outcome of an attempt; a crash ends the expansion. -/
def perform (x : Attempt ω α) : Phase ω α := ExceptT.mk fun m =>
  let (r, w) := x.run.run m.world
  (r.mapError .crashed, { m with world := w })

/-- The outcome of an operator, whose time is recorded unless it crashes. -/
def timed (watch : Watch) (x : Action ω α) : Phase ω (Except Error α) := do
  let start := (← get).world.clock
  let r ← perform x.attempt
  let stop := (← get).world.clock
  count fun c => c.record ⟨stop.nanos - start.nanos⟩ watch
  return r

/-- Whether a token is cancelled. -/
def isCancelled (token : TokenId) : Phase ω Bool :=
  modifyGet fun m => (m.world.tokens.isCancelled token, m)

end Phase

/-- What a run works on: effects and counters, the reached set, and the targets in the order in
which they were found. -/
structure Machine (ν ρ ω θ : Type) where
  meter : Meter ω
  reached : ReachedSet ν ρ θ
  targets : List (State ν)

/-- A stage that changes the reached set. -/
abbrev Stage (ν ρ ω θ : Type) := ExceptT Ending (StateM (Machine ν ρ ω θ))

namespace Stage

variable {ν ρ ω θ α : Type}

/-- A stage that leaves the reached set alone. -/
def ofPhase (x : Phase ω α) : Stage ν ρ ω θ α := ExceptT.mk fun m =>
  let (r, meter) := x.run.run m.meter
  (r, { m with meter := meter })

/-- The outcome of an operator, whose time is recorded; a failure ends the expansion. -/
def timed (watch : Watch) (x : Action ω α) : Stage ν ρ ω θ α := do
  match ← ofPhase (Phase.timed watch x) with
  | .ok a => return a
  | .error e => throw (.failed e)

def count (f : Counters → Counters) : Stage ν ρ ω θ Unit := ofPhase (Phase.count f)

/-- The reached set as it is now. -/
def reached : Stage ν ρ ω θ (ReachedSet ν ρ θ) := modifyGet fun m => (m.reached, m)

/-- Adds an entry to the reached set; a failure ends the expansion. -/
def add [LeafValue ν] [Waitlist θ ν] (e : Entry ν ρ) : Stage ν ρ ω θ Unit := do
  match (← reached).add e with
  | .ok (_, r) => modify fun m => { m with reached := r }
  | .error e => throw (.failed e)

/-- Removes an entry from the reached set. -/
def remove [Frontier θ] (id : EntryId) : Stage ν ρ ω θ Unit :=
  modify fun m => { m with reached := (m.reached.remove id).2 }

end Stage

namespace Exploration

variable {ν ρ ω θ : Type} [LeafValue ν]

/-- The successors along the given edges with their locations. -/
def gather (x : Exploration ν ρ ω) (entry : Entry ν ρ) :
    List ProgramEdge → Phase ω (Batch ν)
  | [] => pure []
  | e :: rest => do
    if ← Phase.isCancelled x.token then
      throw (.done .interrupted true)
    match ← Phase.timed .transfer (x.analysis.transfer.successors entry.state [] entry.precision e)
    with
    | .ok next =>
      return next.map (fun s => (s, s.location?.getD e.target)) ++ (← gather x entry rest)
    | .error err =>
      if err.isRecoverable then
        Phase.count fun c => { c with droppedEdges := c.droppedEdges + 1 }
        gather x entry rest
      else if err.isInterrupted then
        throw (.done .interrupted true)
      else
        throw (.failed err)

/-- The adjustment of a successor, after the fallback if a backend failed. -/
def adjust (x : Exploration ν ρ ω) (store : Store ν ρ) (p : Precision ρ) (s : State ν) :
    Phase ω (Option (Adjustment ν ρ)) := do
  match ← Phase.timed .adjustment (x.analysis.adjuster.adjust s p ⟨store, id, s⟩) with
  | .ok outcome => return outcome
  | .error (.backend component reason) =>
    match ← Phase.perform (x.analysis.adjuster.fallback s p (.backend component reason)) with
    | some a => return some a
    | none =>
      throw (.done (.broken (.backendFailure (Error.backendMessage component reason))) true)
  | .error .interrupted => throw (.done .interrupted true)
  | .error e => throw (.failed e)

/-- The adjusted successors with their locations. -/
def adjustAll (x : Exploration ν ρ ω) (store : Store ν ρ) (p : Precision ρ) :
    Batch ν → Phase ω (Successors ν ρ)
  | [] => pure []
  | (s, location) :: rest => do
    match ← x.adjust store p s with
    | none => adjustAll x store p rest
    | some a =>
      if a.signal = .halt then
        Phase.count fun c => { c with breaks := c.breaks + 1 }
        throw (.done (.broken .adjustment) true)
      return (a, a.state.location?.getD location) :: (← adjustAll x store p rest)

/-- The adjusted successors of an entry. -/
def successors (x : Exploration ν ρ ω) (store : Store ν ρ) (entry : Entry ν ρ) :
    Phase ω (Successors ν ρ) := do
  let raw ← x.gather entry (x.program.leaving entry.location)
  Phase.count fun c => { c with successors := c.successors + raw.length }
  x.adjustAll store entry.precision raw

variable [Waitlist θ ν]

/-- Merges a state into the given entries, as far as they still exist. An entry is replaced by the
result unless that is the state of the entry itself. -/
def mergeEach (x : Exploration ν ρ ω) (s : State ν) (p : Precision ρ) (place : Place) :
    List EntryId → Stage ν ρ ω θ Unit
  | [] => pure ()
  | id :: rest => do
    match (← Stage.reached).get? id with
    | none => mergeEach x s p place rest
    | some r =>
      let merged ← Stage.timed .merge (x.analysis.merger.merge s r.state p)
      if merged.handle = r.state.handle then
        mergeEach x s p place rest
      else
        Stage.count fun c => { c with merges := c.merges + 1 }
        Stage.remove id
        unless (← Stage.reached).store.contains merged do
          Stage.add ⟨merged, p, place.location, place.partition⟩
        mergeEach x s p place rest

/-- Merges a state into the states at its place and says whether it has to be added. -/
def mergeInto (x : Exploration ν ρ ω) (s : State ν) (p : Precision ρ) (place : Place) :
    Stage ν ρ ω θ Bool := do
  unless x.analysis.merger.isSep do
    mergeEach x s p place ((← Stage.reached).store.candidates place)
  let covered ← Stage.timed .stop
    (x.analysis.stopper.stop s ((← Stage.reached).store.statesAt place) p)
  return !covered

/-- Merges, checks and adds one adjusted successor; `more` says whether others are to follow. -/
def admitOne (x : Exploration ν ρ ω) (partition : Partition) (a : Adjustment ν ρ)
    (location : NodeId) (more : Bool) : Stage ν ρ ω θ Unit := do
  if ← x.mergeInto a.state a.precision ⟨location, partition⟩ then
    unless (← Stage.reached).store.contains a.state do
      Stage.add ⟨a.state, a.precision, location, partition⟩
      if x.isTarget a.state then
        modify fun m => { m with targets := m.targets ++ [a.state] }
        if x.options.stopAtTarget then
          throw (.done .targetFound more)
  else
    Stage.count fun c => { c with stops := c.stops + 1 }

/-- Merges, checks and adds the adjusted successors one after the other. -/
def admitAll (x : Exploration ν ρ ω) (partition : Partition) :
    Successors ν ρ → Stage ν ρ ω θ Unit
  | [] => pure ()
  | (a, location) :: rest => do
    x.admitOne partition a location (!rest.isEmpty)
    admitAll x partition rest

/-- Expands an entry. -/
def expand (x : Exploration ν ρ ω) (id : EntryId) : Stage ν ρ ω θ Unit := do
  let reached ← Stage.reached
  match reached.get? id with
  | none => throw (.failed (.contractViolation
      ("popped " ++ id.text ++ " is not in the reached set")))
  | some entry =>
    let adjusted ← Stage.ofPhase (x.successors reached.store entry)
    x.admitAll entry.partition adjusted

end Exploration

end ProgramAnalysis
