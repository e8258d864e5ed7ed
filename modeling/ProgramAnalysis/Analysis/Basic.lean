import ProgramAnalysis.Program.Basic
import ProgramAnalysis.Reached.Store
import ProgramAnalysis.World
/-!
Analyses.

An analysis consists of an abstract domain and four operators on it. The transfer relation gives the
states that follow a state along an edge. The merge operator folds a new state into a reached one.
The stop operator decides whether a new state is covered by reached ones. The adjustment operator
may abstract a new state, change its precision, drop it, or halt the exploration.

Leaf values `ν`, leaf precisions `ρ` and the memory `ω` of the operators are parameters.
-/

namespace ProgramAnalysis

/-- The order of the states and their upper bounds. It has no effect but to draw handles. -/
structure Domain (ν : Type) where
  join : State ν → State ν → Alloc (State ν)
  leq : State ν → State ν → Except Error Bool

/-- The states that follow a state. Both functions are given the tuple that the state is a component
of, which is empty outside a product. -/
structure Transfer (ν ρ ω : Type) where
  successors : State ν → List (State ν) → Precision ρ → ProgramEdge → Action ω (List (State ν))
  /-- Takes in what the other components have computed. No answer means no change, and an empty one
  that the tuple is contradictory. -/
  strengthen : State ν → List (State ν) → ProgramEdge → Precision ρ →
    Action ω (Option (List (State ν))) := fun _ _ _ _ => pure none

/-- How a new state is folded into a reached one, in this order. To return the reached state itself
means that there is nothing new. -/
structure Merge (ν ρ ω : Type) where
  merge : State ν → State ν → Precision ρ → Action ω (State ν)
  /-- Whether the operator never merges, so that it need not be called. -/
  isSep : Bool := false

/-- Whether a state is covered by the reached states at its place. -/
structure Stop (ν ρ ω : Type) where
  stop : State ν → List (State ν) → Precision ρ → Action ω Bool

/-- Whether the exploration may go on after an adjustment. -/
inductive Signal where
  | proceed
  | halt
deriving DecidableEq, Inhabited

/-- An adjusted state. -/
structure Adjustment (ν ρ : Type) where
  state : State ν
  precision : Precision ρ
  signal : Signal

/-- The adjustment that changes nothing. -/
def Adjustment.unchanged {ν ρ : Type} (s : State ν) (p : Precision ρ) : Adjustment ν ρ :=
  ⟨s, p, .proceed⟩

/-- New states, each with its location. -/
abbrev Batch (ν : Type) := List (State ν × NodeId)

/-- Adjusted states, each with its location. -/
abbrev Successors (ν ρ : Type) := List (Adjustment ν ρ × NodeId)

/-- What an adjustment can look at: the reached states, the view that the analysis has of a reached
state, and the whole new state. -/
structure Surroundings (ν ρ : Type) where
  reached : Store ν ρ
  view : State ν → State ν
  whole : State ν

/-- How a new state is adjusted. -/
structure Adjuster (ν ρ ω : Type) where
  /-- No answer drops the state. -/
  adjust : State ν → Precision ρ → Surroundings ν ρ → Action ω (Option (Adjustment ν ρ))
  /-- The adjustment to use after a backend failure; no answer ends the exploration. -/
  fallback : State ν → Precision ρ → Error → Attempt ω (Option (Adjustment ν ρ)) :=
    fun _ _ _ => pure none
  /-- Whether `adjust` ignores the reached states. -/
  independent : Bool := false

/-- A configurable analysis. -/
structure Analysis (ν ρ ω : Type) where
  domain : Domain ν
  transfer : Transfer ν ρ ω
  merger : Merge ν ρ ω
  stopper : Stop ν ρ ω
  adjuster : Adjuster ν ρ ω
  initialState : NodeId → Partition → Action ω (State ν)
  initialPrecision : NodeId → Partition → Action ω (Precision ρ) := fun _ _ =>
    Precision.plain <$> Action.fresh

namespace Analysis

variable {ν ρ ω κ : Type}

/-- The analysis on a larger memory, of which it uses one part. -/
def focus (slot : Slot ω κ) (a : Analysis ν ρ κ) : Analysis ν ρ ω where
  domain := a.domain
  transfer :=
    { successors := fun s ss p e => (a.transfer.successors s ss p e).focus slot
      strengthen := fun s ss e p => (a.transfer.strengthen s ss e p).focus slot }
  merger :=
    { merge := fun s r p => (a.merger.merge s r p).focus slot
      isSep := a.merger.isSep }
  stopper := { stop := fun s rs p => (a.stopper.stop s rs p).focus slot }
  adjuster :=
    { adjust := fun s p around => (a.adjuster.adjust s p around).focus slot
      fallback := fun s p e => (a.adjuster.fallback s p e).focus slot
      independent := a.adjuster.independent }
  initialState := fun n part => (a.initialState n part).focus slot
  initialPrecision := fun n part => (a.initialPrecision n part).focus slot

end Analysis

end ProgramAnalysis
