import ProgramAnalysis.Analysis.Policy
import ProgramAnalysis.Config.Basic
import ProgramAnalysis.Facts.Rule
/-!
Specifications of fact analyses: which domain and which operators they use, and by which rules.
-/

namespace ProgramAnalysis.Facts

/-- How two sets of facts are joined. -/
inductive JoinMode where
  /-- The union; the second state itself when it covers the first. -/
  | union
  /-- Always a new state. -/
  | copy
  /-- The first set only, which is no upper bound. -/
  | lossy
  | undefined
deriving DecidableEq, Inhabited

/-- How sets of facts are ordered. -/
inductive OrderMode where
  | subset
  /-- Only equal sets are related. -/
  | flat
  /-- Nothing is related, not even a state to itself. -/
  | never
  | undefined
deriving DecidableEq, Inhabited

/-- How states are merged. -/
inductive MergeChoice where
  | sep
  | join
  | hybrid
  /-- The new state replaces the reached one. -/
  | take
  /-- A copy of the reached state replaces it. -/
  | fresh
deriving DecidableEq, Inhabited

/-- When a state counts as covered. -/
inductive StopChoice where
  | sep
  | join
  | always
  | never
deriving DecidableEq, Inhabited

/-- A vote of a hybrid merge. -/
inductive TacticChoice where
  | successorHas (fact : Nat)
  | reachedHas (fact : Nat)
  | fails (kind : FailureKind)
deriving DecidableEq, Inhabited

/-- Which location the states of an analysis are bound to. -/
inductive Tracking where
  | source
  | target
  | fixed (node : NodeId)
deriving DecidableEq, Inhabited

namespace Tracking

/-- The location of an initial state. -/
def initial (node : NodeId) : Tracking → NodeId
  | fixed n => n
  | _ => node

/-- The location of a successor. -/
def successor (edge : ProgramEdge) : Tracking → NodeId
  | source => edge.source
  | target => edge.target
  | fixed n => n

end Tracking

/-- A fact analysis. -/
structure Spec where
  /-- The name of the analysis, if it is not the one it is registered under. -/
  name : Option String := none
  join : JoinMode := .union
  order : OrderMode := .subset
  merge : MergeChoice := .sep
  stop : StopChoice := .sep
  tactics : List TacticChoice := []
  initialFacts : FactSet := .empty
  initialFailure : Option FailureKind := none
  precisionFailure : Option FailureKind := none
  /-- The initial level; without one the precision is plain. -/
  level : Option Level := none
  /-- The facts that count as violations. -/
  targets : FactSet := .empty
  tracking : Option Tracking := none
  transfer : List Rule := []
  strengthen : Option (List Rule) := none
  adjust : Option (List Rule) := none
  fallback : Option Response := none
  /-- Whether the rules for adjustment are promised to ignore the reached states. -/
  independent : Bool := false
deriving DecidableEq, Inhabited

namespace Spec

/-- Whether the adjustment ignores the reached states. Without rules it does nothing at all. -/
def isIndependent (spec : Spec) : Bool := spec.adjust.isNone || spec.independent

end Spec

/-- A fact analysis with its name and the label it has in the configuration. -/
structure Leaf where
  label : String
  name : String
  spec : Spec
deriving DecidableEq, Inhabited

/-- A leaf as the configuration asks for it: `<label>.join` makes it join, and `<label>.level` sets
the initial level. -/
def Leaf.ofOptions (registered : String) (spec : Spec) (label : String) : Setup Leaf := do
  let joins ← Setup.getBool (label ++ ".join") false
  let level ← Setup.getNat (label ++ ".level")
  return { label := label
           name := spec.name.getD registered
           spec := { spec with
             merge := if joins then .join else spec.merge
             level := (level.map Level.mk).or spec.level } }

end ProgramAnalysis.Facts
