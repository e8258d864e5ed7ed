import ProgramAnalysis.Index
import ProgramAnalysis.ReachGraph.Basic
/-!
Searches in the reachability graph: what lies below and above a node, and shortest paths from a
root. All of them go breadth first.
-/

namespace ProgramAnalysis.ReachGraph

variable {ν : Type}

/-- The members of a list that are not in `seen`, each once. -/
def newcomers (seen : List GraphNodeId) : List GraphNodeId → List GraphNodeId
  | [] => []
  | n :: rest => if seen.contains n then newcomers seen rest else n :: newcomers (n :: seen) rest

/-- Visits the queue; `order` lists the nodes found so far. Each step takes one node off the queue.
-/
def walkFrom (next : GraphNodeId → List GraphNodeId) :
    Nat → List GraphNodeId → List GraphNodeId → List GraphNodeId
  | 0, order, _ => order
  | _ + 1, order, [] => order
  | steps + 1, order, id :: queue =>
    let new := newcomers order (next id)
    walkFrom next steps (order ++ new) (queue ++ new)

/-- The nodes that `links` leads to, directly or not, the start first. Every link puts at most one
node on the queue, so one step for each of them and one for the start are enough. -/
def walk (g : ReachGraph ν) (links : GraphNode ν → List GraphNodeId) (start : GraphNodeId) :
    List GraphNodeId :=
  let next := fun id => ((g.node? id).map links).getD []
  let steps := g.nodes.foldl (fun n node => n + (links node).length) 1
  walkFrom next steps [start] [start]

/-- A node and everything that was reached from it. -/
def subtree (g : ReachGraph ν) (id : GraphNodeId) : List GraphNodeId :=
  g.walk GraphNode.children id

/-- Everything that a node was reached from. -/
def ancestors (g : ReachGraph ν) (id : GraphNodeId) : List GraphNodeId :=
  (g.walk GraphNode.parentIds id).tail

/-- A path from a root; the edge at a position leads to the node after it. -/
structure GraphPath where
  nodes : List GraphNodeId
  edges : List (Option EdgeId)
deriving DecidableEq, Inhabited

/-- For each node found, the node it leads to and the edge between them. -/
abbrev Trail := Index GraphNodeId (GraphNodeId × Option EdgeId)

/-- Notes the live parents of `id` that are new, and puts them on the queue. -/
def noteParents (g : ReachGraph ν) (target id : GraphNodeId) :
    List ParentLink → Trail → List GraphNodeId → Trail × List GraphNodeId
  | [], trail, queue => (trail, queue)
  | (p, edge) :: rest, trail, queue =>
    if p ≠ target && !trail.contains p && g.isLive p then
      noteParents g target id rest (trail.insert p (id, edge)) (queue ++ [p])
    else noteParents g target id rest trail queue

/-- Goes back from the queue until a root comes up. -/
def searchRoot (g : ReachGraph ν) (target : GraphNodeId) :
    Nat → Trail → List GraphNodeId → Option (GraphNodeId × Trail)
  | 0, _, _ => none
  | _ + 1, _, [] => none
  | steps + 1, trail, id :: queue =>
    if g.roots.contains id then some (id, trail)
    else
      let parents := ((g.node? id).map GraphNode.parents).getD []
      let (trail, queue) := noteParents g target id parents trail queue
      searchRoot g target steps trail queue

/-- The path from a node along the trail to the target. -/
def follow (trail : Trail) (target : GraphNodeId) : Nat → GraphNodeId → GraphPath
  | 0, id => ⟨[id], []⟩
  | steps + 1, id =>
    if id = target then ⟨[id], []⟩
    else
      match trail.get? id with
      | none => ⟨[id], []⟩
      | some (next, edge) =>
        let rest := follow trail target steps next
        ⟨id :: rest.nodes, edge :: rest.edges⟩

/-- A shortest path from a root to a live node. -/
def pathTo (g : ReachGraph ν) (target : GraphNodeId) : Option GraphPath :=
  if g.isLive target then
    let steps := g.nodes.foldl (fun n node => n + node.parents.length) 1
    (searchRoot g target steps .empty [target]).map fun (root, trail) =>
      follow trail target trail.size root
  else none

end ProgramAnalysis.ReachGraph
