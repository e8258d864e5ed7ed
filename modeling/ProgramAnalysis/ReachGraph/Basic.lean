import ProgramAnalysis.State
/-!
The reachability graph: how each reached state came about.

A node has the nodes that it was reached from, the nodes reached from it and, when another node
covers it, that node. A node is pending from its creation until the exploration accepts it, covers
it or drops it. Links are kept between live nodes only: a pending node knows its parents, but they
do not list it yet, and a destroyed node is unlinked everywhere.

A parent is a number that came with a state. If the state belongs to another graph, no node with
that number need exist, and a change that looks for it crashes.
-/

namespace ProgramAnalysis

/-- The life of a node. -/
inductive NodeStatus where
  | pending
  | live
  /-- Merged away, dropped or pruned. -/
  | destroyed
deriving DecidableEq, Inhabited

def NodeStatus.text : NodeStatus → String
  | pending => "pending"
  | live => "live"
  | destroyed => "destroyed"

/-- A parent with the program edge that leads on from it. -/
abbrev ParentLink := GraphNodeId × Option EdgeId

/-- A node of the reachability graph. -/
structure GraphNode (ν : Type) where
  status : NodeStatus
  /-- The state that stands for the node in the reached set, once it is accepted. -/
  state : Option (State ν)
  location : Option NodeId
  parents : List ParentLink
  children : List GraphNodeId
  coveredBy : Option GraphNodeId
  /-- The nodes that this one covers. -/
  covering : List GraphNodeId
  /-- The node that this one was merged into. -/
  mergedWith : Option GraphNodeId

namespace GraphNode

variable {ν : Type}

instance : Inhabited (GraphNode ν) := ⟨⟨.destroyed, none, none, [], [], none, [], none⟩⟩

def isLive (n : GraphNode ν) : Bool := n.status = .live

def isCovered (n : GraphNode ν) : Bool := n.coveredBy.isSome

def parentIds (n : GraphNode ν) : List GraphNodeId := n.parents.map Prod.fst

end GraphNode

/-- The nodes by number, the roots, and how many nodes were merged and pruned. -/
structure ReachGraph (ν : Type) where
  nodes : Array (GraphNode ν)
  roots : List GraphNodeId
  merged : Nat
  pruned : Nat

namespace ReachGraph

variable {ν : Type}

def empty : ReachGraph ν := ⟨#[], [], 0, 0⟩

instance : Inhabited (ReachGraph ν) := ⟨empty⟩

def node? (g : ReachGraph ν) (id : GraphNodeId) : Option (GraphNode ν) := g.nodes[id.index]?

def isLive (g : ReachGraph ν) (id : GraphNodeId) : Bool := (g.node? id).any GraphNode.isLive

/-- The nodes with their numbers. -/
def numbered (g : ReachGraph ν) : List (GraphNodeId × GraphNode ν) :=
  g.nodes.toList.zipIdx.map fun (n, i) => (⟨i⟩, n)

/-- The live nodes with their numbers. -/
def liveNodes (g : ReachGraph ν) : List (GraphNodeId × GraphNode ν) :=
  g.numbered.filter fun p => p.2.isLive

def liveCount (g : ReachGraph ν) : Nat := g.liveNodes.length

def coveredCount (g : ReachGraph ν) : Nat := (g.liveNodes.filter fun p => p.2.isCovered).length

/-- The pending nodes. -/
def pendingIds (g : ReachGraph ν) : List GraphNodeId :=
  (g.numbered.filter fun p => p.2.status = .pending).map Prod.fst

def pendingCount (g : ReachGraph ν) : Nat := g.pendingIds.length

end ReachGraph

end ProgramAnalysis
