import ProgramAnalysis.Exploration.Run
import ProgramAnalysis.Facts.Property
import ProgramAnalysis.Session.Frontier
/-!
Sessions: an assembled analysis, a reached set and an exploration of it, to be driven step by step.

States and precisions that a step shows are numbered, and later steps name them by number. A session
step is a computation that can fail; what it did before the failure stays done.
-/

namespace ProgramAnalysis

/-- The states of fact analyses. -/
abbrev FactState := State FactValue

/-- The precisions of fact analyses. -/
abbrev FactPrecision := Precision Level

/-- The reached sets of sessions. -/
abbrev FactReached := ReachedSet FactValue Level (AnyFrontier FactValue)

/-- Which states count as targets. -/
inductive TargetChoice where
  /-- Those that say so themselves. -/
  | own
  | atLocation (node : NodeId)
  | holding (fact : Nat)
  | constant (answer : Bool)
deriving DecidableEq, Inhabited

def TargetChoice.test : TargetChoice → FactState → Bool
  | own, s => s.isTarget
  | atLocation n, s => s.location? = some n
  | holding fact, s => s.holdsFact fact
  | constant answer, _ => answer

/-- An exploration that is under way: its settings, and what it has counted and found so far. -/
structure Runner where
  options : RunOptions
  target : TargetChoice
  token : TokenId
  counters : Counters := {}
  targets : List FactState := []

/-- A session with an analysis on the memory `ω`. -/
structure Session (ω : Type) where
  tree : ComponentTree FactValue Level ω
  world : World ω
  reached : FactReached
  options : RunOptions
  target : TargetChoice
  runner : Runner
  /-- The numbered states. -/
  states : List FactState
  /-- The numbered precisions. -/
  precisions : List FactPrecision
  /-- Whether the root was put together by hand, so that more can be asked of it. -/
  handmade : Bool

/-- Why a session step has no answer. -/
inductive Fault where
  | failed (error : Error)
  | crashed (crash : Crash)
  /-- A number that was not given to any state, precision, edge or component. -/
  | noSuchHandle
  /-- A run took more steps than it was given. -/
  | unfinished
deriving DecidableEq, Inhabited

def Fault.ofFailure : Failure → Fault
  | .error e => failed e
  | .crash c => crashed c

/-- A step of a session. -/
abbrev Step (ω : Type) := ExceptT Fault (StateM (Session ω))

/-- A value with the number it has in the session. -/
structure Numbered (α : Type) where
  number : Nat
  value : α

namespace Step

variable {ω α : Type}

/-- What `f` sees in the session. -/
def view (f : Session ω → α) : Step ω α := modifyGet fun s => (f s, s)

/-- Something that must exist. -/
def existing : Option α → Step ω α
  | some a => pure a
  | none => throw .noSuchHandle

def ofExcept : Except Error α → Step ω α
  | .ok a => pure a
  | .error e => throw (.failed e)

/-- The outcome of a look-up. -/
def ofLookup : Except Crash α → Step ω α
  | .ok a => pure a
  | .error c => throw (.crashed c)

/-- An operator of the analysis. -/
def act (x : Action ω α) : Step ω α := ExceptT.mk fun s =>
  let (r, w) := x.run.run s.world
  (r.mapError Fault.ofFailure, { s with world := w })

/-- An effect of the analysis. -/
def perform (e : Effect ω α) : Step ω α := act (Action.ofEffect e)

def alloc (x : Alloc α) : Step ω α := act (Action.ofAlloc x)

/-- The state with a number. -/
def state (i : Nat) : Step ω FactState := do existing (← view fun s => s.states[i]?)

/-- The states with the given numbers. -/
def statesOf (is : List Nat) : Step ω (List FactState) := is.mapM state

/-- The precision with a number. -/
def precision (i : Nat) : Step ω FactPrecision := do existing (← view fun s => s.precisions[i]?)

/-- The precisions with the given numbers. -/
def precisionsOf (is : List Nat) : Step ω (List FactPrecision) := is.mapM precision

/-- The edge with a number. -/
def edge (e : EdgeId) : Step ω ProgramEdge := do
  existing (← view fun s => s.reached.program.edge? e)

/-- Numbers a state. A state that has a number keeps it. -/
def number (x : FactState) : Step ω (Numbered FactState) :=
  modifyGet fun s =>
    match s.states.findIdx? fun y => y.handle = x.handle with
    | some i => (⟨i, x⟩, s)
    | none => (⟨s.states.length, x⟩, { s with states := s.states ++ [x] })

/-- Numbers states one after the other. -/
def numberAll (xs : List FactState) : Step ω (List (Numbered FactState)) := xs.mapM number

/-- Numbers a precision. A precision that has a number keeps it. -/
def numberPrecision (p : FactPrecision) : Step ω (Numbered FactPrecision) :=
  modifyGet fun s =>
    match s.precisions.findIdx? fun q => q.handle = p.handle with
    | some i => (⟨i, p⟩, s)
    | none => (⟨s.precisions.length, p⟩, { s with precisions := s.precisions ++ [p] })

/-- The component at the end of a path of child positions. -/
def component (path : List Nat) : Step ω (ComponentTree FactValue Level ω) := do
  existing (← view fun s => s.tree.at? path)

/-- The analysis at the end of a path. -/
def analysis (path : List Nat) : Step ω (Analysis FactValue Level ω) := do
  return (← component path).value.analysis

/-- Changes the reached set. -/
def updateReached (f : FactReached → α × FactReached) : Step ω α :=
  modifyGet fun s => ((f s.reached).1, { s with reached := (f s.reached).2 })

end Step

end ProgramAnalysis
