import ProgramAnalysis.Analysis.Basic
import ProgramAnalysis.ReachGraph.Change
/-!
The analysis that records its exploration in a reachability graph.

Each successor gets a pending node. A merge creates the merged node. The stop operator covers a
node, drops it when it was merged and is covered by the result, or makes it live. Only an older,
uncovered, live node may cover another one. An adjustment that drops a state drops its node, and one
that ends the expansion drops every pending node.
-/

namespace ProgramAnalysis

variable {ν ρ ω : Type}

namespace Recorder

/-- The graph, the node and edge of the last transfer, and how many nodes were covered so far. -/
structure Recording (ν : Type) where
  graph : ReachGraph ν
  last : Option (GraphNodeId × EdgeId)
  covers : Nat

namespace Recording

def empty : Recording ν := ⟨.empty, none, 0⟩

instance : Inhabited (Recording ν) := ⟨empty⟩

/-- Whether a transfer goes on with the expansion of the last one: the edges of one expansion come
in ascending order. -/
def continues (r : Recording ν) (node : GraphNodeId) (edge : EdgeId) : Bool :=
  r.last.any fun (n, e) => n = node && e.index < edge.index

end Recording

/-- What a recorded analysis remembers, and the recording. -/
abbrev Memory (ω ν : Type) := ω × Recording ν

end Recorder

/-- The graph of the recording. -/
abbrev World.graph (w : World (Recorder.Memory ω ν)) : ReachGraph ν := w.memory.2.graph

namespace Recorder

/-- Where the recording is. -/
def record : Slot (Memory ω ν) (Recording ν) := .snd

/-- Changes the graph where only a crash can be passed on. -/
def edit {α : Type} (x : Edit ν α) : Attempt (Memory ω ν) α := ExceptT.mk fun w =>
  let (a, g) := x.run.run w.graph
  (a, { w with memory := (w.memory.1, { w.memory.2 with graph := g }) })

/-- Changes the graph. -/
def change {α : Type} (x : Edit ν α) : Action (Memory ω ν) α := Action.ofAttempt (edit x)

/-- Adds a pending node. -/
def create (location : Option NodeId) (parents : List ParentLink) :
    Effect (Memory ω ν) GraphNodeId := do
  let r ← Effect.peek record
  let (id, g) := r.graph.create location parents
  Effect.remember record fun r => { r with graph := g }
  return id

/-- The recorded state whose wrapped state is as adjusted; the very state if that is unchanged. -/
def rewrap (s : State ν) (current : Graphed ν) (a : Adjustment ν ρ) :
    Effect ω (Adjustment ν ρ) := do
  if a.state.handle = current.wrapped.handle then
    return { a with state := s }
  let h ← Effect.fresh
  return { a with state := .graphed h current.node a.state }

/-- The view of the analysis inside on a reached state. -/
def unwrapped : State ν → State ν
  | .graphed _ _ w => w
  | s => s

variable [LeafValue ν]

/-- Recorded states are ordered like the states inside, and never joined. -/
def domain (d : Domain ν) : Domain ν where
  join _ _ := throw (.undefined "join" "ARG states are merged, never joined")
  leq a b := do
    let x ← a.asGraphed
    let y ← b.asGraphed
    d.leq x.wrapped y.wrapped

/-- New recorded states with pending nodes below `node`. -/
def sprout (node : GraphNodeId) (edge : EdgeId) :
    List (State ν) → Effect (Memory ω ν) (List (State ν))
  | [] => pure []
  | w :: rest => do
    let id ← create w.location? [(node, some edge)]
    let h ← Effect.fresh
    return .graphed h id w :: (← sprout node edge rest)

/-- Notes a transfer. A new expansion drops what the previous one left pending. -/
def startTransfer (node : GraphNodeId) (edge : EdgeId) : Action (Memory ω ν) Unit := do
  let r ← Action.peek record
  Action.remember record fun r => { r with last := some (node, edge) }
  unless r.continues node edge do
    change Edit.discardPending

def transfer (t : Transfer ν ρ ω) : Transfer ν ρ (Memory ω ν) where
  successors s siblings p e := do
    let current ← Action.ofExcept s.asGraphed
    let next ← (t.successors current.wrapped siblings p e).focus .fst
    startTransfer current.node e.id
    Action.ofEffect (sprout current.node e.id next)

def merger (m : Merge ν ρ ω) : Merge ν ρ (Memory ω ν) where
  merge s r p := do
    let x ← Action.ofExcept s.asGraphed
    let y ← Action.ofExcept r.asGraphed
    let merged ← (m.merge x.wrapped y.wrapped p).focus .fst
    if merged.handle = y.wrapped.handle then
      return r
    let id ← Action.ofEffect (create merged.location? [])
    change (Edit.merge x.node y.node id)
    let state := State.graphed (← Action.fresh) id merged
    change (modify fun g => g.setState id state)
    return state
  isSep := m.isSep

/-- Whether one of the reached states with the node `target` covers the wrapped state. -/
def coveredByMerged (st : Stop ν ρ ω) (w : State ν) (p : Precision ρ) (target : GraphNodeId) :
    List (State ν) → Action (Memory ω ν) Bool
  | [] => pure false
  | r :: rest => do
    let y ← Action.ofExcept r.asGraphed
    if y.node = target then
      if ← (st.stop w [y.wrapped] p).focus .fst then
        return true
    coveredByMerged st w p target rest

/-- Whether a node may cover a younger one. -/
def mayCover (g : ReachGraph ν) (coverer node : GraphNodeId) : Bool :=
  coverer.index < node.index && (g.node? coverer).any fun n => n.isLive && !n.isCovered

/-- The first reached node that may cover `node` and does. -/
def findCoverer (st : Stop ν ρ ω) (w : State ν) (p : Precision ρ) (node : GraphNodeId) :
    List (State ν) → Action (Memory ω ν) (Option GraphNodeId)
  | [] => pure none
  | r :: rest => do
    let y ← Action.ofExcept r.asGraphed
    let recording ← Action.peek record
    if mayCover recording.graph y.node node then
      if ← (st.stop w [y.wrapped] p).focus .fst then
        return some y.node
    findCoverer st w p node rest

/-- Has the node of `s` covered by one of the reached nodes if it can be, and accepts it if not. -/
def coverOrAccept (st : Stop ν ρ ω) (s : State ν) (x : Graphed ν) (rs : List (State ν))
    (p : Precision ρ) : Action (Memory ω ν) Bool := do
  match ← findCoverer st x.wrapped p x.node rs with
  | some coverer =>
    change (Edit.cover x.node coverer s)
    Action.remember record fun r => { r with covers := r.covers + 1 }
    return true
  | none =>
    change (Edit.accept x.node s)
    return false

def stopper (st : Stop ν ρ ω) : Stop ν ρ (Memory ω ν) where
  stop s rs p := do
    let x ← Action.ofExcept s.asGraphed
    let recording ← Action.peek record
    match (recording.graph.node? x.node).bind GraphNode.mergedWith with
    | some target =>
      if ← coveredByMerged st x.wrapped p target rs then
        change (Edit.discard x.node)
        return true
    | none => pure ()
    coverOrAccept st s x rs p

def adjuster (ad : Adjuster ν ρ ω) : Adjuster ν ρ (Memory ω ν) where
  adjust s p around := do
    let current ← Action.ofExcept s.asGraphed
    let inside := { around with view := fun r => unwrapped (around.view r) }
    match ← Action.ofAttempt ((ad.adjust current.wrapped p inside).focus .fst).attempt with
    | .ok (some a) =>
      if a.signal = .halt then
        change Edit.discardPending
      return some (← Action.ofEffect (rewrap s current a))
    | .ok none =>
      change (Edit.discard current.node)
      return none
    | .error e =>
      -- After a backend failure the fallback may still save the state.
      if !e.isBackend then
        change Edit.discardPending
      Action.fail e
  fallback s p e :=
    match s with
    | .graphed _ node w => do
      match ← (ad.fallback w p e).focus .fst with
      | none =>
        edit Edit.discardPending
        return none
      | some a => return some (← Attempt.ofEffect (rewrap s ⟨node, w⟩ a))
    | _ => pure none
  independent := ad.independent

/-- The analysis that records its exploration. -/
def analysis (a : Analysis ν ρ ω) : Analysis ν ρ (Memory ω ν) where
  domain := domain a.domain
  transfer := transfer a.transfer
  merger := merger a.merger
  stopper := stopper a.stopper
  adjuster := adjuster a.adjuster
  initialState := fun n part => do
    let w ← (a.initialState n part).focus .fst
    let r ← Action.peek record
    let (id, g) := r.graph.addRoot w.location?
    let state := State.graphed (← Action.fresh) id w
    Action.remember record fun r => { r with graph := g.setState id state }
    return state
  initialPrecision := fun n part => (a.initialPrecision n part).focus .fst

end Recorder

end ProgramAnalysis
