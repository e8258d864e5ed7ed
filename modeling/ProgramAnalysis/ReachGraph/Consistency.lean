import ProgramAnalysis.ReachGraph.Basic
/-!
A check that the links of the reachability graph agree with one another: each link between live
nodes is noted at both ends, and no live node refers to a destroyed one.
-/

namespace ProgramAnalysis.ReachGraph

variable {ν : Type}

/-- What is wrong with a link to a parent. -/
def parentFault? (g : ReachGraph ν) (id p : GraphNodeId) : Option String :=
  if !g.isLive p then some (id.text ++ " has destroyed parent " ++ p.text)
  else if !(g.node? p).any fun n => n.children.contains id then
    some (id.text ++ " is not a child of its parent " ++ p.text)
  else none

/-- What is wrong with a link to a child. -/
def childFault? (g : ReachGraph ν) (id c : GraphNodeId) : Option String :=
  if !g.isLive c then some (id.text ++ " has destroyed child " ++ c.text)
  else if !(g.node? c).any fun n => n.parentIds.contains id then
    some (id.text ++ " is not a parent of its child " ++ c.text)
  else none

/-- What is wrong with a link to the covering node. -/
def covererFault? (g : ReachGraph ν) (id coverer : GraphNodeId) : Option String :=
  if !g.isLive coverer then some (id.text ++ " is covered by destroyed " ++ coverer.text)
  else if !(g.node? coverer).any fun n => n.covering.contains id then
    some (coverer.text ++ " does not list " ++ id.text ++ " as covered")
  else none

/-- What is wrong with a link to a covered node. -/
def coveredFault? (g : ReachGraph ν) (id x : GraphNodeId) : Option String :=
  if (g.node? x).any fun n => n.coveredBy = some id then none
  else some (id.text ++ " lists " ++ x.text ++ " as covered, but it is not")

/-- The first thing that is wrong with the links of a node. -/
def nodeFault? (g : ReachGraph ν) (id : GraphNodeId) (n : GraphNode ν) : Option String :=
  (n.parentIds.findSome? (g.parentFault? id)).or <|
  (n.children.findSome? (g.childFault? id)).or <|
  (n.coveredBy.bind (g.covererFault? id)).or <|
  n.covering.findSome? (g.coveredFault? id)

/-- The first thing that is wrong with the links of a live node. -/
def fault? (g : ReachGraph ν) : Option String :=
  g.liveNodes.findSome? fun (id, n) => g.nodeFault? id n

end ProgramAnalysis.ReachGraph
