import ProgramAnalysis.Analysis.Basic
import ProgramAnalysis.Facts.Basic
/-!
Rules that say what the operators of a fact analysis do.

A rule has conditions on the situation in which an operator is called, and a response. The first
rule whose conditions all hold decides. A condition on something that the situation does not have,
such as the edge during an adjustment, never holds.
-/

namespace ProgramAnalysis.Facts

/-- The kinds of failure that a rule can raise. -/
inductive FailureKind where
  /-- The construct on the edge is not supported. -/
  | soft
  /-- The same, and the exploration cannot go on. -/
  | fatal
  | backend
  | interrupted
  | undefined
  | location
  | config
  | violation
deriving DecidableEq, Inhabited

namespace FailureKind

/-- Reads the name of a kind; an unknown name stands for a violation. -/
def ofText (s : String) : FailureKind :=
  if s = "soft" then soft
  else if s = "fatal" then fatal
  else if s = "backend" then backend
  else if s = "interrupted" then interrupted
  else if s = "undefined" then undefined
  else if s = "location" then location
  else if s = "config" then config
  else violation

/-- The failure with a message. -/
def error (edge : EdgeId) (message : String) : FailureKind → Error
  | soft => .transferFailure edge message false
  | fatal => .transferFailure edge message true
  | backend => .backend "script" message
  | interrupted => .interrupted
  | undefined => .undefined "script" message
  | location => .unknownLocation ⟨77⟩
  | config => .config (.missingOption message)
  | violation => .contractViolation message

end FailureKind

/-- The edge that failures outside a transfer are reported on. -/
def noEdge : EdgeId := ⟨0⟩

/-- What a condition can look at. -/
structure Situation where
  facts : FactSet
  /-- The tuple around the state, if it is in one. -/
  siblings : List (State FactValue)
  level : Nat
  /-- The number of the call, from one on. -/
  call : Nat
  edge : Option ProgramEdge
  surroundings : Option (Surroundings FactValue Level)

/-- A condition of a rule. -/
inductive Condition where
  | edgeIn (edges : List EdgeId)
  | edgeKind (text : String)
  | payload (text : String)
  | hasAll (facts : List Nat)
  | hasNone (facts : List Nat)
  | countAtLeast (n : Nat)
  | siblingHas (fact : Nat)
  | siblingLacks (fact : Nat)
  | siblingTarget (expected : Bool)
  | siblingCount (n : Nat)
  | levelAtLeast (n : Nat)
  | levelBelow (n : Nat)
  | callIn (numbers : List Nat)
  | wholeAt (location : NodeId)
  | reachedAtLeast (n : Nat)
  | reachedHas (fact : Nat)
deriving DecidableEq, Inhabited

/-- Whether a condition holds. -/
def Condition.holds (x : Situation) : Condition → Bool
  | edgeIn edges => x.edge.any fun e => edges.contains e.id
  | edgeKind text => x.edge.any fun e => e.kind.text = text
  | payload text => x.edge.any fun e => e.payload = some text
  | hasAll facts => facts.all x.facts.contains
  | hasNone facts => !facts.any x.facts.contains
  | countAtLeast n => n ≤ x.facts.size
  | siblingHas fact => x.siblings.any fun s => s.holdsFact fact
  | siblingLacks fact => !x.siblings.any fun s => s.holdsFact fact
  | siblingTarget expected => expected = x.siblings.any State.isTarget
  | siblingCount n => n = x.siblings.length
  | levelAtLeast n => n ≤ x.level
  | levelBelow n => x.level < n
  | callIn numbers => numbers.contains x.call
  | wholeAt location => x.surroundings.any fun a => a.whole.location? = some location
  | reachedAtLeast n => x.surroundings.any fun a => n ≤ a.reached.size
  | reachedHas fact => x.surroundings.any fun a =>
      a.reached.states.any fun s => (a.view s).leaf?.any fun v => v.facts.contains fact

/-- A state that an operator gives back: the one it was given, or a changed one. -/
inductive Variant where
  | same
  | changed (remove add : List Nat) (anchor : Option NodeId)
deriving DecidableEq, Inhabited

/-- A failure to raise. -/
structure Failure where
  kind : FailureKind
  message : String
deriving DecidableEq, Inhabited

/-- What an operator does. -/
structure Response where
  /-- Whether the session is cancelled. -/
  cancels : Bool := false
  pause : Option Duration := none
  failure : Option Failure := none
  /-- The states to give back; what happens without them depends on the operator. -/
  results : Option (List Variant) := none
  level : Option Level := none
  halts : Bool := false
deriving DecidableEq, Inhabited

/-- A rule. -/
structure Rule where
  conditions : List Condition
  response : Response
deriving DecidableEq, Inhabited

def Rule.applies (x : Situation) (r : Rule) : Bool := r.conditions.all (Condition.holds x)

/-- The response of the first rule that applies. Without one, nothing special is done. -/
def respond (rules : List Rule) (x : Situation) : Response :=
  ((rules.find? (Rule.applies x)).map Rule.response).getD {}

end ProgramAnalysis.Facts
