import ProgramAnalysis.ReachGraph.Basic
/-!
Changes of the reachability graph: nodes are created, accepted, covered, merged and removed.

`Edit` is a change that crashes when it looks for a node that does not exist; what it did before
stays done.
-/

namespace ProgramAnalysis

namespace ReachGraph

variable {ν : Type}

/-- Changes one node. -/
def update (g : ReachGraph ν) (id : GraphNodeId) (f : GraphNode ν → GraphNode ν) : ReachGraph ν :=
  { g with nodes := g.nodes.modify id.index f }

/-- Changes several nodes in the same way, one after the other. -/
def updateAll (g : ReachGraph ν) (ids : List GraphNodeId) (f : GraphNode ν → GraphNode ν) :
    ReachGraph ν :=
  ids.foldl (fun g id => g.update id f) g

/-- Adds a pending node. -/
def create (g : ReachGraph ν) (location : Option NodeId) (parents : List ParentLink) :
    GraphNodeId × ReachGraph ν :=
  (⟨g.nodes.size⟩,
    { g with nodes := g.nodes.push ⟨.pending, none, location, parents, [], none, [], none⟩ })

/-- Adds a live root. -/
def addRoot (g : ReachGraph ν) (location : Option NodeId) : GraphNodeId × ReachGraph ν :=
  let (id, g) := g.create location []
  let g := g.update id fun n => { n with status := .live }
  (id, { g with roots := g.roots ++ [id] })

/-- Records the state that stands for a node in the reached set. -/
def setState (g : ReachGraph ν) (id : GraphNodeId) (s : State ν) : ReachGraph ν :=
  g.update id fun n => { n with state := some s }

/-- A list with one more member, unless it is in the list already. -/
def withMember (ids : List GraphNodeId) (id : GraphNodeId) : List GraphNodeId :=
  if ids.contains id then ids else ids ++ [id]

/-- Makes a node a child of a parent, if the parent is live. -/
def linkTo (g : ReachGraph ν) (id parent : GraphNodeId) : ReachGraph ν :=
  if g.isLive parent then g.update parent fun n => { n with children := withMember n.children id }
  else g

/-- Makes a node a child of its live parents. -/
def linkToParents (g : ReachGraph ν) (id : GraphNodeId) : ReachGraph ν :=
  match g.node? id with
  | some n => n.parentIds.foldl (fun g p => g.linkTo id p) g
  | none => g

/-- Makes a pending node live. -/
def accept (g : ReachGraph ν) (id : GraphNodeId) (s : State ν) : ReachGraph ν :=
  (g.update id fun n => { n with status := .live, state := some s }).linkToParents id

/-- Makes a pending node live as covered by another one. -/
def cover (g : ReachGraph ν) (id coverer : GraphNodeId) (s : State ν) : ReachGraph ν :=
  ((g.accept id s).update id fun n => { n with coveredBy := some coverer }).update coverer fun n =>
    { n with covering := n.covering ++ [id] }

/-- Marks a node as destroyed and clears its links. -/
def destroy (g : ReachGraph ν) (id : GraphNodeId) : ReachGraph ν :=
  g.update id fun n =>
    { n with
      status := .destroyed, state := none, parents := [], children := [], coveredBy := none,
      covering := [] }

/-- Takes a node out of the children of a parent. -/
def disown (g : ReachGraph ν) (id parent : GraphNodeId) : ReachGraph ν :=
  g.update parent fun n => { n with children := n.children.filter (· ≠ id) }

/-- Takes a node, whose links were those of `old`, out of the links of its children, of the node
that covers it, and of those that it covers. -/
def release (g : ReachGraph ν) (id : GraphNodeId) (old : GraphNode ν) : ReachGraph ν :=
  let g := g.updateAll (old.children.filter (· ≠ id)) fun n =>
    { n with parents := n.parents.filter fun l => l.1 ≠ id }
  let g := g.updateAll old.coveredBy.toList fun n =>
    { n with covering := n.covering.filter (· ≠ id) }
  g.updateAll old.covering fun n => { n with coveredBy := none }

/-- Links with one parent replaced by another. -/
def redirect (old new : GraphNodeId) (links : List ParentLink) : List ParentLink :=
  links.map fun l => if l.1 = old then (new, l.2) else l

/-- The links of the first list, then those of the second that are not in it. -/
def unite (links more : List ParentLink) : List ParentLink :=
  more.foldl (fun acc l => if acc.contains l then acc else acc ++ [l]) links

/-- Hands a child of `reached` over to `merged`. -/
def adopt (g : ReachGraph ν) (reached merged child : GraphNodeId) : ReachGraph ν :=
  let child := if child = reached then merged else child
  let g := g.update child fun n => { n with parents := redirect reached merged n.parents }
  g.update merged fun n => { n with children := withMember n.children child }

/-- Hands a node that `merged` now covers over to it. -/
def takeCover (g : ReachGraph ν) (merged covered : GraphNodeId) : ReachGraph ν :=
  (g.update covered fun n => { n with coveredBy := some merged }).update merged fun n =>
    { n with covering := n.covering ++ [covered] }

/-- Makes `merged` live with the given parents, and hands the children and the covered nodes of
`reached`, which were those of `old`, over to it. -/
def succeed (g : ReachGraph ν) (reached merged : GraphNodeId) (parents : List ParentLink)
    (old : GraphNode ν) : ReachGraph ν :=
  let g := g.update merged fun n => { n with parents := parents, status := .live }
  let g := g.update reached fun n => { n with children := [] }
  let g := old.children.foldl (fun g c => g.adopt reached merged c) g
  let g := g.update reached fun n => { n with covering := [] }
  old.covering.foldl (fun g x => g.takeCover merged x) g

/-- Notes what two nodes were merged into, and makes the new node a child of its parents. -/
def noteMerge (g : ReachGraph ν) (successor reached merged : GraphNodeId) : ReachGraph ν :=
  let g := g.update reached fun n => { n with mergedWith := some merged }
  let g := g.update successor fun n => { n with mergedWith := some merged }
  let g := g.linkToParents merged
  { g with merged := g.merged + 1 }

end ReachGraph

/-- A change of a graph that can crash. -/
abbrev Edit (ν : Type) := ExceptT Crash (StateM (ReachGraph ν))

namespace Edit

variable {ν : Type}

/-- The node with a number, which must exist. -/
def fetch (id : GraphNodeId) : Edit ν (GraphNode ν) := do
  let g ← get
  match g.node? id with
  | some n => return n
  | none => throw ⟨g.nodes.size, id.index⟩

/-- Makes a pending node live. -/
def accept (id : GraphNodeId) (s : State ν) : Edit ν Unit := do
  let _ ← fetch id
  modify fun g => g.accept id s

/-- Makes a pending node live as covered by an existing one. -/
def cover (id coverer : GraphNodeId) (s : State ν) : Edit ν Unit := do
  let _ ← fetch id
  modify fun g => g.cover id coverer s

/-- Destroys a node and takes it out of the links of all other nodes, the parents first. -/
def unlink (id : GraphNodeId) : Edit ν Unit := do
  let old ← fetch id
  modify fun g => g.destroy id
  (old.parentIds.filter (· ≠ id)).forM fun p => do
    let _ ← fetch p
    modify fun g => g.disown id p
  modify fun g => g.release id old

/-- Drops a node that never came into the reached set. -/
def discard (id : GraphNodeId) : Edit ν Unit := unlink id

/-- Drops every pending node. -/
def discardPending : Edit ν Unit := do
  (← get).pendingIds.forM unlink

/-- Removes a node during refinement. -/
def prune (id : GraphNodeId) : Edit ν Unit := do
  unlink id
  modify fun g => { g with pruned := g.pruned + 1 }

/-- Records that `successor` was merged into `reached` and has given the new node `merged`. The new
node is live, has the parents of both, takes over the children and the covered nodes of `reached`,
and `reached` is destroyed. -/
def merge (successor reached merged : GraphNodeId) : Edit ν Unit := do
  let r ← fetch reached
  let s ← fetch successor
  let parents := ReachGraph.redirect reached merged (ReachGraph.unite r.parents s.parents)
  modify fun g => g.succeed reached merged parents r
  unlink reached
  modify fun g => g.noteMerge successor reached merged

end Edit

end ProgramAnalysis
