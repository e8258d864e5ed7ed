import ProgramAnalysis.ReachGraph.Consistency
import ProgramAnalysis.ReachGraph.Dot
import ProgramAnalysis.ReachGraph.Refine
import ProgramAnalysis.Session.Basic
/-!
Session steps on the reached set, on the reachability graph, and on what components report.
-/

namespace ProgramAnalysis.Session

variable {ω : Type}

/-! ## The reached set -/

def reachedSet : Step ω FactReached := Step.view Session.reached

def add (state precision : Nat) (location : NodeId) (part : Partition) : Step ω EntryId := do
  let s ← Step.state state
  let p ← Step.precision precision
  Step.ofExcept (← Step.updateReached fun r => r.offer ⟨s, p, location, part⟩)

def updatePrecision (id : EntryId) (precision : Nat) : Step ω Unit := do
  let p ← Step.precision precision
  Step.ofExcept (← Step.updateReached fun r => r.setPrecision id p)

/-! ## Components -/

/-- The reports of the components. -/
def reports : Step ω (List Section) := Step.view fun s => s.tree.reports s.world.memory

/-- Whether the reached states conform to the first property that is checked, if there is one. -/
def conforms : Step ω (Option Bool) := do
  let s ← Step.view id
  match s.tree.find? Role.checker? with
  | none => return none
  | some check => return some (← Step.ofExcept (check s.reached.store))

/-! ## The reachability graph -/

/-- What the first recorder has recorded, if there is one. -/
def recording : Step ω (Option (Recorder.Recording FactValue)) :=
  Step.view fun s => (s.tree.find? Role.recorder?).map fun slot => slot.get s.world.memory

/-- The node of an entry, if its state has one. -/
def entryNode (id : EntryId) : Step ω (Option GraphNodeId) :=
  Step.view fun s => (s.reached.get? id).bind fun e => e.state.search State.graphNode?

/-- The nodes of the targets that the exploration has found. -/
def targetNodes : Step ω (List GraphNodeId) :=
  Step.view fun s => s.runner.targets.filterMap fun t => t.search State.graphNode?

mutual

/-- The precision with every level raised. Only levels and tuples are made anew. -/
def raise (amount : Nat) : FactPrecision → StateM Handle FactPrecision
  | .leaf _ l => do return .leaf (← Handle.draw) ⟨l.value + amount⟩
  | .tuple _ ps => do
    let qs ← raiseAll amount ps
    return .tuple (← Handle.draw) qs
  | p => pure p

/-- The precisions with every level raised. -/
def raiseAll (amount : Nat) : List FactPrecision → StateM Handle (List FactPrecision)
  | [] => pure []
  | p :: ps => do
    let q ← raise amount p
    return q :: (← raiseAll amount ps)

end

/-- The precision with the levels of one component raised. -/
def raiseAt (amount position : Nat) :
    FactPrecision → ExceptT Crash (StateM Handle) FactPrecision
  | .tuple _ ps => do
    match ps[position]?.or ps.head? with
    | none => throw ⟨0, 0⟩
    | some p =>
      let q ← raise amount p
      let qs ← ExceptT.mk (pure (Precision.replaceAt ps position q))
      return .tuple (← Handle.draw) qs
  | p => raise amount p

/-- How a refinement changes precisions. -/
structure RefineChoice where
  /-- By how much levels are raised. -/
  amount : Nat
  /-- The component to raise, if not all. -/
  position : Option Nat
  failure : Option Facts.FailureKind
deriving DecidableEq, Inhabited

/-- A node that was given a new precision, and the length of the path to it. -/
abbrev Sighting := GraphNodeId × Option Nat

/-- The new precision of a node. The node is noted before anything else. -/
def strengthening (g : ReachGraph FactValue) (c : RefineChoice) :
    ReachGraph.Strengthening Level (Handle × List Sighting) := fun node p => do
  modify fun (h, seen) => (h, seen ++ [(node, (g.pathTo node).map fun path => path.nodes.length)])
  if let some kind := c.failure then
    throw (.error (kind.error Facts.noEdge "strengthen"))
  let raised := match c.position with
    | some i => raiseAt c.amount i p
    | none => ExceptT.lift (raise c.amount p)
  match ← modifyGet fun (h, seen) => let (r, h) := raised.run.run h; (r, h, seen) with
  | .ok q => return q
  | .error c => throw (.crash c)

/-- The outcome of a refinement and the nodes that were given new precisions. -/
structure RefineReport where
  result : Except Error ReachGraph.Refinement
  seen : List Sighting

/-- Refines the first graph that is recorded, at a node that is chosen in it. -/
def refine (point : ReachGraph FactValue → GraphNodeId) (c : RefineChoice) :
    Step ω (Option RefineReport) := do
  let s ← Step.view id
  match s.tree.find? Role.recorder? with
  | none => return none
  | some slot =>
    let r := slot.get s.world.memory
    let (result, ⟨graph, reached⟩, next, seen) :=
      ReachGraph.refine (strengthening r.graph c) (point r.graph) ⟨r.graph, s.reached⟩
        (s.world.next, [])
    modify fun s => { s with
      reached := reached
      world := { s.world with
        next := next
        memory := slot.set { r with graph := graph } s.world.memory } }
    match result with
    | .ok done => return some ⟨.ok done, seen⟩
    | .error (.error e) => return some ⟨.error e, seen⟩
    | .error (.crash c) => throw (.crashed c)

end ProgramAnalysis.Session
