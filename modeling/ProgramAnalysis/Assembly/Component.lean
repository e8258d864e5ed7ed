import ProgramAnalysis.Product.Analysis
import ProgramAnalysis.ReachGraph.Recorder
import ProgramAnalysis.Statistics
import ProgramAnalysis.Wrapper.Memo
import ProgramAnalysis.Wrapper.Monitor
/-!
Nested analyses as trees of components.

A component is an analysis with a name, its part in the nesting and what can be asked of it besides:
its report, the graph it records, the property it checks.
-/

namespace ProgramAnalysis

/-- A value with subtrees. -/
inductive Tree (α : Type) where
  | node (value : α) (children : List (Tree α))

namespace Tree

variable {α β : Type}

def value : Tree α → α
  | node a _ => a

def children : Tree α → List (Tree α)
  | node _ ts => ts

mutual

/-- Changes every value. -/
def map (f : α → β) : Tree α → Tree β
  | .node a ts => .node (f a) (mapAll f ts)

/-- Changes every value of the trees. -/
def mapAll (f : α → β) : List (Tree α) → List (Tree β)
  | [] => []
  | t :: ts => map f t :: mapAll f ts

end

mutual

/-- The values with their depth, depth first, a value before the values below it. -/
def levels (depth : Nat) : Tree α → List (Nat × α)
  | .node a ts => (depth, a) :: levelsAll (depth + 1) ts

/-- The values of the trees with their depth. -/
def levelsAll (depth : Nat) : List (Tree α) → List (Nat × α)
  | [] => []
  | t :: ts => levels depth t ++ levelsAll depth ts

end

/-- The values, depth first, a value before the values below it. -/
def values (t : Tree α) : List α := (t.levels 0).map Prod.snd

/-- The subtree at the end of a path of child positions. -/
def at? (t : Tree α) : List Nat → Option (Tree α)
  | [] => some t
  | i :: path => t.children[i]?.bind fun c => c.at? path

end Tree

/-- The part of a component in the nesting. -/
inductive ComponentKind where
  | leaf
  | composite
  | wrapper
deriving DecidableEq, Inhabited

def ComponentKind.text : ComponentKind → String
  | leaf => "leaf"
  | composite => "composite"
  | wrapper => "wrapper"

/-- A property of the reached states. -/
abbrev Checker (ν ρ : Type) := Store ν ρ → Except Error Bool

/-- The number of calls of each operator of a leaf analysis. -/
structure CallCounts where
  transfer : Nat := 0
  strengthen : Nat := 0
  merge : Nat := 0
  stop : Nat := 0
  adjust : Nat := 0
  fallback : Nat := 0
deriving DecidableEq, Inhabited

def CallCounts.toList (c : CallCounts) : List Nat :=
  [c.transfer, c.strengthen, c.merge, c.stop, c.adjust, c.fallback]

/-- What can be asked of a component besides its operators. -/
inductive Role (ν ρ ω : Type) where
  | plain
  /-- A leaf that counts calls, under the name it has in its configuration. A hybrid leaf also has a
  merge mode. -/
  | counted (label : String) (calls : Slot ω CallCounts) (mode : Option (Slot ω MergeMode))
  | product (arity : Nat) (merge : MergeKind) (mode : Slot ω MergeMode)
  | memo (tables : Slot ω (Memo.Tables ν ρ))
  | monitor (limits : Monitor.Limits) (counts : Slot ω Monitor.Counts)
  | recorder (recording : Slot ω (Recorder.Recording ν))
  | property (checker : Checker ν ρ)

/-- A component of a nested analysis. -/
structure Component (ν ρ ω : Type) where
  name : String
  kind : ComponentKind
  analysis : Analysis ν ρ ω
  role : Role ν ρ ω

namespace Role

variable {ν ρ ω κ : Type}

/-- The role on a larger memory. -/
def focus (slot : Slot ω κ) : Role ν ρ κ → Role ν ρ ω
  | plain => plain
  | counted label calls mode => counted label (slot.comp calls) (mode.map slot.comp)
  | product arity merge mode => product arity merge (slot.comp mode)
  | memo tables => memo (slot.comp tables)
  | monitor limits counts => monitor limits (slot.comp counts)
  | recorder recording => recorder (slot.comp recording)
  | property checker => property checker

/-- The report of a component, if it has one. -/
def report (memory : ω) : Role ν ρ ω → Option Section
  | memo tables =>
    let t := tables.get memory
    some ⟨"Caching",
      [("merge cache hits", Nat.repr t.merges.hits),
       ("merge cache misses", Nat.repr t.merges.misses),
       ("adjustment cache hits", Nat.repr t.adjustments.hits),
       ("adjustment cache misses", Nat.repr t.adjustments.misses)]⟩
  | monitor _ counts =>
    let c := counts.get memory
    some ⟨"Monitor",
      [("max path length", Nat.repr c.maxPathLength),
       ("exhausted states", Nat.repr c.exhaustedStates)]⟩
  | recorder recording =>
    let g := (recording.get memory).graph
    some ⟨"ARG",
      [("nodes", Nat.repr g.liveCount),
       ("covered nodes", Nat.repr g.coveredCount),
       ("merged nodes", Nat.repr g.merged),
       ("pruned nodes", Nat.repr g.pruned)]⟩
  | _ => none

def recorder? : Role ν ρ ω → Option (Slot ω (Recorder.Recording ν))
  | recorder recording => some recording
  | _ => none

def checker? : Role ν ρ ω → Option (Checker ν ρ)
  | property checker => some checker
  | _ => none

end Role

namespace Component

variable {ν ρ ω κ : Type}

/-- The component on a larger memory. -/
def focus (slot : Slot ω κ) (c : Component ν ρ κ) : Component ν ρ ω :=
  ⟨c.name, c.kind, c.analysis.focus slot, c.role.focus slot⟩

end Component

/-- A nested analysis on the memory `ω`. -/
abbrev ComponentTree (ν ρ ω : Type) := Tree (Component ν ρ ω)

namespace ComponentTree

variable {ν ρ ω : Type}

/-- The nesting, one component per line, indented by depth. -/
def describe (t : ComponentTree ν ρ ω) : String :=
  String.join ((t.levels 0).map fun (depth, c) =>
    String.join (List.replicate depth "  ") ++ c.name ++ " (" ++ c.kind.text ++ ")\n")

/-- The first component that has what `probe` asks for, depth first. -/
def find? {β : Type} (t : ComponentTree ν ρ ω) (probe : Role ν ρ ω → Option β) : Option β :=
  t.values.findSome? fun c => probe c.role

/-- The reports of all components that have one, depth first. -/
def reports (t : ComponentTree ν ρ ω) (memory : ω) : List Section :=
  t.values.filterMap fun c => c.role.report memory

end ComponentTree

end ProgramAnalysis
