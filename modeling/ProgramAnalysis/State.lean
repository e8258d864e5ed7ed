import ProgramAnalysis.Duration
import ProgramAnalysis.Error
/-!
Abstract states.

A state is a value of a leaf analysis, a program location, a tuple of component states, or a state
that a wrapper has decorated: with the resources used on its path, or with its node in the
reachability graph. Every state carries a handle; `sameHandle` compares handles, `equals` compares
contents. The values of leaf analyses are a parameter `ν`.
-/

namespace ProgramAnalysis

/-- What the engine asks of the values of leaf analyses. -/
class LeafValue (ν : Type) where
  /-- Equality of the domain. -/
  equals : ν → ν → Bool
  /-- The program location that the value is bound to, if it is bound to one. -/
  location : ν → Option NodeId
  /-- Whether the value violates the property under analysis. -/
  isTarget : ν → Bool
  describe : ν → String

/-- Which budget a path ran out of. -/
inductive Exhaustion where
  | pathLength (limit : Nat)
  | transferTime (limit : Duration)
deriving DecidableEq, Inhabited

namespace Exhaustion

def text : Exhaustion → String
  | pathLength limit => "path length limit " ++ Nat.repr limit ++ " reached"
  | transferTime limit => "transfer time limit " ++ Nat.repr limit.millis ++ "ms exceeded"

def describe : Exhaustion → String
  | pathLength limit => "PathLength \x7b limit: " ++ Nat.repr limit ++ " \x7d"
  | transferTime limit => "TransferTime \x7b limit: " ++ limit.text ++ " \x7d"

end Exhaustion

/-- An abstract state. -/
inductive State (ν : Type) where
  | location (handle : Handle) (node : NodeId)
  | leaf (handle : Handle) (value : ν)
  /-- A tuple of component states; `anchor` is the location it is bound to. -/
  | tuple (handle : Handle) (components : List (State ν)) (anchor : Option NodeId)
  /-- A state with the length of its path and the budget that ran out on it. -/
  | monitored (handle : Handle) (wrapped : State ν) (pathLength : Nat)
      (exhaustion : Option Exhaustion)
  /-- A state with its node in the reachability graph. -/
  | graphed (handle : Handle) (node : GraphNodeId) (wrapped : State ν)

namespace State

variable {ν : Type}

instance [Inhabited ν] : Inhabited (State ν) := ⟨.leaf default default⟩

def handle : State ν → Handle
  | location h _ => h
  | leaf h _ => h
  | tuple h _ _ => h
  | monitored h _ _ _ => h
  | graphed h _ _ => h

/-- Whether two states are one and the same. -/
def sameHandle (a b : State ν) : Bool := a.handle = b.handle

/-- The state that a wrapper has decorated. -/
def wrapped? : State ν → Option (State ν)
  | monitored _ w _ _ => some w
  | graphed _ _ w => some w
  | _ => none

/-- The components of a tuple; none for any other state. -/
def components : State ν → List (State ν)
  | tuple _ cs _ => cs
  | _ => []

/-- The node of a decorated state in the reachability graph. -/
def graphNode? : State ν → Option GraphNodeId
  | graphed _ n _ => some n
  | _ => none

/-- The value of a leaf state. -/
def leaf? : State ν → Option ν
  | leaf _ v => some v
  | _ => none

mutual

/-- The first answer of `probe` on the state itself, on what it decorates, and on its components,
depth first. -/
def search {β : Type} (probe : State ν → Option β) : State ν → Option β
  | s@(.tuple _ cs _) => (probe s).or (searchAll probe cs)
  | s@(.monitored _ w _ _) => (probe s).or (search probe w)
  | s@(.graphed _ _ w) => (probe s).or (search probe w)
  | s => probe s

/-- The first answer of `search` on a list of states. -/
def searchAll {β : Type} (probe : State ν → Option β) : List (State ν) → Option β
  | [] => none
  | s :: rest => (search probe s).or (searchAll probe rest)

end

section Leaf

variable [LeafValue ν]

/-- The program location that the state is bound to. -/
def location? : State ν → Option NodeId
  | location _ n => some n
  | leaf _ v => LeafValue.location v
  | tuple _ _ anchor => anchor
  | monitored _ w _ _ => location? w
  | graphed _ _ w => location? w

mutual

/-- Whether the state violates the property under analysis: a tuple or decorated state does when a
state inside it does. -/
def isTarget : State ν → Bool
  | .location _ _ => false
  | .leaf _ v => LeafValue.isTarget v
  | .tuple _ cs _ => anyTarget cs
  | .monitored _ w _ _ => isTarget w
  | .graphed _ _ w => isTarget w

/-- Whether one of the states is a target. -/
def anyTarget : List (State ν) → Bool
  | [] => false
  | s :: rest => isTarget s || anyTarget rest

end

mutual

/-- Equality of contents. The length of the path of a monitored state does not count, and inside a
state equal handles are enough. -/
def equals : State ν → State ν → Bool
  | .location _ m, .location _ n => m = n
  | .leaf _ v, .leaf _ w => LeafValue.equals v w
  | .tuple _ cs _, .tuple _ ds _ => equalsAll cs ds
  | .monitored _ v _ x, .monitored _ w _ y => x = y && (v.handle = w.handle || equals v w)
  | .graphed _ m v, .graphed _ n w => m = n && (v.handle = w.handle || equals v w)
  | _, _ => false

/-- Componentwise equality of lists of the same length. -/
def equalsAll : List (State ν) → List (State ν) → Bool
  | [], [] => true
  | a :: as, b :: bs => (a.handle = b.handle || equals a b) && equalsAll as bs
  | _, _ => false

end

/-- Whether two states are the same or have equal contents. -/
def agrees (a b : State ν) : Bool := a.handle = b.handle || equals a b

/-- The text of an optional location. -/
def anchorText : Option NodeId → String
  | some n => "Some(NodeId(" ++ Nat.repr n.index ++ "))"
  | none => "None"

/-- The text of an optional exhaustion. -/
def exhaustionText : Option Exhaustion → String
  | some x => "Some(" ++ x.describe ++ ")"
  | none => "None"

mutual

/-- The full text of a state, as it stands in error messages. -/
def describe : State ν → String
  | .location _ n => "LocationState \x7b node: NodeId(" ++ Nat.repr n.index ++ ") \x7d"
  | .leaf _ v => LeafValue.describe v
  | .tuple _ cs anchor =>
    "CompositeState \x7b components: [" ++ describeAll cs ++ "], location: " ++ anchorText anchor ++
      " \x7d"
  | .monitored _ w len x =>
    "MonitorState \x7b wrapped: " ++ describe w ++ ", path_length: " ++ Nat.repr len ++
      ", exhausted: " ++ exhaustionText x ++ " \x7d"
  | .graphed _ n w =>
    "ArgState \x7b node: ArgNodeId(" ++ Nat.repr n.index ++ "), wrapped: " ++ describe w ++ " \x7d"

/-- The texts of a list of states with commas between them. -/
def describeAll : List (State ν) → String
  | [] => ""
  | [s] => describe s
  | s :: rest => describe s ++ ", " ++ describeAll rest

end

/-- The number of the location of a location state. -/
def asLocation : State ν → Except Error NodeId
  | .location _ n => .ok n
  | s => .error (.mismatch .location s.describe)

/-- The value of a leaf state. -/
def asLeaf : State ν → Except Error ν
  | .leaf _ v => .ok v
  | s => .error (.mismatch .leaf s.describe)

/-- The components of a tuple. -/
def asTuple : State ν → Except Error (List (State ν))
  | .tuple _ cs _ => .ok cs
  | s => .error (.mismatch .tuple s.describe)

end Leaf

end State

/-- The content of a monitored state. -/
structure Monitored (ν : Type) where
  wrapped : State ν
  pathLength : Nat
  exhaustion : Option Exhaustion

/-- The content of a state with a node in the reachability graph. -/
structure Graphed (ν : Type) where
  node : GraphNodeId
  wrapped : State ν

namespace State

variable {ν : Type} [LeafValue ν]

/-- The content of a monitored state. -/
def asMonitored : State ν → Except Error (Monitored ν)
  | .monitored _ w len x => .ok ⟨w, len, x⟩
  | s => .error (.mismatch .monitored s.describe)

/-- The content of a state with a node in the reachability graph. -/
def asGraphed : State ν → Except Error (Graphed ν)
  | .graphed _ n w => .ok ⟨n, w⟩
  | s => .error (.mismatch .graphed s.describe)

end State

end ProgramAnalysis
