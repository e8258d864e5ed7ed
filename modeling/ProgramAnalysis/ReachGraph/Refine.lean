import ProgramAnalysis.Reached.Basic
import ProgramAnalysis.ReachGraph.Change
import ProgramAnalysis.ReachGraph.Search
/-!
Refinement: cutting a subtree of the reachability graph whose precision was too coarse.

The ancestors of the cut that are not themselves below it get a new precision. The nodes below the
cut, and the nodes elsewhere that one of them covers, leave the graph; those below also leave the
reached set. Every node that remains and leads to a removed one is scheduled again.
-/

namespace ProgramAnalysis.ReachGraph

variable {ν ρ θ σ : Type}

/-- The entry of the reached set that a node stands for. -/
def entryOf (g : ReachGraph ν) (r : ReachedSet ν ρ θ) (id : GraphNodeId) : Option EntryId :=
  ((g.node? id).bind GraphNode.state).bind r.store.find?

/-- What a refinement has changed. -/
structure Refinement where
  pruned : List GraphNodeId
  /-- The entries that got a new precision. -/
  strengthened : List EntryId
  /-- The entries that were scheduled again. -/
  readded : List EntryId
deriving DecidableEq, Inhabited

/-- A graph together with the reached set that it records. -/
structure Recorded (ν ρ θ : Type) where
  graph : ReachGraph ν
  reached : ReachedSet ν ρ θ

/-- A new precision for a node with the given old one; it may have effects on `σ` and may fail. -/
abbrev Strengthening (ρ σ : Type) :=
  GraphNodeId → Precision ρ → ExceptT Failure (StateM σ) (Precision ρ)

/-- Gives new precisions to the entries, one after the other. After a failure the precisions given
so far stay. -/
def strengthenEntries (f : Strengthening ρ σ) :
    List (GraphNodeId × EntryId) → ReachedSet ν ρ θ → List EntryId → σ →
    Except Failure (List EntryId) × ReachedSet ν ρ θ × σ
  | [], r, done, st => (.ok done, r, st)
  | (a, entry) :: rest, r, done, st =>
    match r.get? entry with
    | none => strengthenEntries f rest r done st
    | some e =>
      match (f a e.precision).run.run st with
      | (.error err, st) => (.error err, r, st)
      | (.ok p, st) =>
        match r.updatePrecision entry p with
        | .error err => (.error (.error err), r, st)
        | .ok r => strengthenEntries f rest r (done ++ [entry]) st

/-- What pruning works on: the graph with its reached set, the pruned nodes and the nodes to
schedule again. -/
structure Cut (ν ρ θ : Type) extends Recorded ν ρ θ where
  pruned : List GraphNodeId
  again : List GraphNodeId

/-- A part of pruning. A crash leaves what was pruned before. -/
abbrev Pruning (ν ρ θ : Type) := ExceptT Crash (StateM (Cut ν ρ θ))

/-- The parents of a node that are not below the cut. -/
def outsideParents (g : ReachGraph ν) (below : List GraphNodeId) (id : GraphNodeId) :
    List GraphNodeId :=
  ((g.node? id).map fun n => n.parentIds.filter fun p => !below.contains p).getD []

namespace Pruning

/-- Changes the graph. -/
def edit (x : Edit ν Unit) : Pruning ν ρ θ Unit := ExceptT.mk fun c =>
  let (r, g) := x.run.run c.graph
  (r, { c with graph := g })

/-- Removes one node from the graph and notes its parents outside the cut. -/
def remove (below : List GraphNodeId) (id : GraphNodeId) : Pruning ν ρ θ Unit := do
  modify fun c => { c with again := c.again ++ c.graph.outsideParents below id }
  edit (Edit.prune id)
  modify fun c => { c with pruned := c.pruned ++ [id] }

/-- Removes the nodes outside the cut that a node below it covers. -/
def uncover (below : List GraphNodeId) (id : GraphNodeId) : Pruning ν ρ θ Unit := do
  let covered := (((← get).graph.node? id).map GraphNode.covering).getD []
  (covered.filter fun x => !below.contains x).forM (remove below)

/-- Removes the entry of a node from the reached set. -/
def removeEntry [Frontier θ] (id : GraphNodeId) : Pruning ν ρ θ Unit :=
  modify fun c =>
    match c.graph.entryOf c.reached id with
    | some entry => { c with reached := (c.reached.remove entry).2 }
    | none => c

/-- Removes the nodes below the cut, with their entries, and those that they cover. -/
def removeAll [Frontier θ] (below : List GraphNodeId) : Pruning ν ρ θ Unit := do
  below.forM (uncover below)
  below.forM fun id => do
    removeEntry id
    remove below id

end Pruning

/-- Schedules the entries of nodes again, each once. -/
def reschedule [Waitlist θ ν] (g : ReachGraph ν) :
    List GraphNodeId → ReachedSet ν ρ θ → List EntryId → ReachedSet ν ρ θ × List EntryId
  | [], r, done => (r, done)
  | a :: rest, r, done =>
    match g.entryOf r a with
    | none => reschedule g rest r done
    | some entry =>
      if done.contains entry then reschedule g rest r done
      else reschedule g rest (r.reschedule entry) (done ++ [entry])

/-- Refines at `point`, which must be live. -/
def refine [Waitlist θ ν] (f : Strengthening ρ σ) (point : GraphNodeId)
    (s : Recorded ν ρ θ) (st : σ) : Except Failure Refinement × Recorded ν ρ θ × σ :=
  if !s.graph.isLive point then
    (.error (.error (.contractViolation
      ("refinement point " ++ point.text ++ " is not in the ARG"))), s, st)
  else
    let below := s.graph.subtree point
    let above := (s.graph.ancestors point).filter fun a => !below.contains a
    let entries := above.filterMap fun a => (s.graph.entryOf s.reached a).map fun e => (a, e)
    match strengthenEntries f entries s.reached [] st with
    | (.error e, reached, st) => (.error e, { s with reached := reached }, st)
    | (.ok strengthened, reached, st) =>
      match (Pruning.removeAll below).run.run ⟨⟨s.graph, reached⟩, [], above⟩ with
      | (.error c, cut) => (.error (.crash c), cut.toRecorded, st)
      | (.ok (), cut) =>
        let (reached, readded) := reschedule cut.graph cut.again cut.reached []
        (.ok ⟨cut.pruned, strengthened, readded⟩, ⟨cut.graph, reached⟩, st)

end ProgramAnalysis.ReachGraph
