import ProgramAnalysis.Assembly.Plan
import ProgramAnalysis.Facts.Spec
/-!
The fact analysis that a specification describes.

Each operator counts its calls before it does anything else, and rules can depend on that count.
-/

namespace ProgramAnalysis.Facts

/-- What a fact analysis remembers: the calls of its operators, and the mode of the last hybrid
merge. -/
abbrev Notes := CallCounts × MergeMode

def calls : Slot Notes CallCounts := .fst

def mode : Slot Notes MergeMode := .snd

/-- A new state with the given facts. -/
def make (spec : Spec) (h : Handle) (facts : FactSet) (anchor : Option NodeId) : State FactValue :=
  .leaf h (.make spec.targets facts anchor)

/-- Two states as they are named in a refusal to relate them. -/
def pairText (a b : State FactValue) : String := a.describe ++ " and " ++ b.describe

/-- The join of two states. -/
def join (spec : Spec) (a b : State FactValue) : Alloc (State FactValue) := do
  let v ← Alloc.ofExcept a.asLeaf
  let w ← Alloc.ofExcept b.asLeaf
  if spec.join = .undefined || v.anchor ≠ w.anchor then
    throw (.undefined "join" (pairText a b))
  if spec.join = .lossy then
    return make spec (← Alloc.fresh) v.facts v.anchor
  if spec.join ≠ .copy && v.facts.visible.subset w.facts.visible then
    return b
  return make spec (← Alloc.fresh) (v.facts.union w.facts) v.anchor

/-- Whether the second state covers the first. -/
def leq (spec : Spec) (a b : State FactValue) : Except Error Bool := do
  let v ← a.asLeaf
  let w ← b.asLeaf
  match spec.order with
  | .undefined => throw (.undefined "order" (pairText a b))
  | .flat => return v.equals w
  | .never => return false
  | .subset => return v.anchor = w.anchor && v.facts.visible.subset w.facts.visible

def domain (spec : Spec) : Domain FactValue := ⟨join spec, leq spec⟩

/-- Counts a call and gives its number. -/
def tally (count : CallCounts → CallCounts) (number : CallCounts → Nat) : Effect Notes Nat := do
  Effect.remember calls count
  return number (← Effect.peek calls)

def tallyTransfer : Effect Notes Nat :=
  tally (fun c => { c with transfer := c.transfer + 1 }) CallCounts.transfer

def tallyStrengthen : Effect Notes Nat :=
  tally (fun c => { c with strengthen := c.strengthen + 1 }) CallCounts.strengthen

def tallyMerge : Effect Notes Nat :=
  tally (fun c => { c with merge := c.merge + 1 }) CallCounts.merge

def tallyStop : Effect Notes Nat :=
  tally (fun c => { c with stop := c.stop + 1 }) CallCounts.stop

def tallyAdjust : Effect Notes Nat :=
  tally (fun c => { c with adjust := c.adjust + 1 }) CallCounts.adjust

def tallyFallback : Effect Notes Nat :=
  tally (fun c => { c with fallback := c.fallback + 1 }) CallCounts.fallback

/-- The side effects of a response, and its failure. -/
def carryOut (edge : EdgeId) (r : Response) : Action Notes Unit := do
  if r.cancels then
    Action.ofEffect Effect.cancel
  if let some d := r.pause then
    Action.ofEffect (Effect.pause d)
  if let some f := r.failure then
    Action.fail (f.kind.error edge f.message)

/-- The state that a variant stands for; `anchor` is its location unless the variant has one. -/
def realise (spec : Spec) (s : State FactValue) (v : FactValue) (anchor : Option NodeId) :
    Variant → Effect Notes (State FactValue)
  | .same => pure s
  | .changed remove add location => do
    return make spec (← Effect.fresh) ((v.facts.eraseAll remove).insertAll add) (location.or anchor)

/-- The states that variants stand for. -/
def realiseAll (spec : Spec) (s : State FactValue) (v : FactValue) (anchor : Option NodeId) :
    List Variant → Effect Notes (List (State FactValue))
  | [] => pure []
  | x :: rest => do
    let t ← realise spec s v anchor x
    return t :: (← realiseAll spec s v anchor rest)

/-- The successors along an edge. Without a rule, the number of the edge becomes a fact. -/
def successors (spec : Spec) (s : State FactValue) (siblings : List (State FactValue))
    (p : Precision Level) (e : ProgramEdge) : Action Notes (List (State FactValue)) := do
  let call ← Action.ofEffect tallyTransfer
  let v ← Action.ofExcept s.asLeaf
  let level ← Action.ofExcept p.level
  let r := respond spec.transfer ⟨v.facts, siblings, level, call, some e, none⟩
  carryOut e.id r
  let anchor := spec.tracking.map (Tracking.successor e)
  Action.ofEffect (realiseAll spec s v anchor (r.results.getD [.changed [] [e.id.index] none]))

/-- Takes in what the rest of the tuple knows. -/
def strengthen (spec : Spec) (rules : List Rule) (s : State FactValue)
    (siblings : List (State FactValue)) (e : ProgramEdge) (p : Precision Level) :
    Action Notes (Option (List (State FactValue))) := do
  let call ← Action.ofEffect tallyStrengthen
  let v ← Action.ofExcept s.asLeaf
  let level ← Action.ofExcept p.level
  let r := respond rules ⟨v.facts, siblings, level, call, some e, none⟩
  carryOut e.id r
  match r.results with
  | none => return none
  | some variants => return some (← Action.ofEffect (realiseAll spec s v v.anchor variants))

def transfer (spec : Spec) : Transfer FactValue Level Notes where
  successors := successors spec
  strengthen s siblings e p :=
    match spec.strengthen with
    | none => pure none
    | some rules => strengthen spec rules s siblings e p

/-- The vote for a join when a state is a set of facts that holds the given one. -/
def voteOn (fact : Nat) (s : State FactValue) : MergeMode :=
  if s.leaf?.any fun v => v.facts.contains fact then .join else .sep

/-- The vote of a tactic. -/
def tactic : TacticChoice → Merge.Tactic FactValue
  | .successorHas fact, s, _ => .ok (voteOn fact s)
  | .reachedHas fact, _, r => .ok (voteOn fact r)
  | .fails kind, _, _ => .error (kind.error noEdge "tactic")

/-- Replaces the reached state by a copy. -/
def copyReached (spec : Spec) : Merge FactValue Level Notes where
  merge _ r _ := do
    let v ← Action.ofExcept r.asLeaf
    return make spec (← Action.fresh) v.facts v.anchor

/-- The merge operator of a specification, without the count of its calls. -/
def chosenMerge (spec : Spec) : Merge FactValue Level Notes :=
  match spec.merge with
  | .sep => .sep
  | .join => .join (domain spec)
  | .hybrid => .hybrid mode (domain spec) (spec.tactics.map tactic)
  | .take => { merge := fun s _ _ => pure s }
  | .fresh => copyReached spec

def merger (spec : Spec) : Merge FactValue Level Notes where
  merge s r p := do
    let _ ← Action.ofEffect tallyMerge
    (chosenMerge spec).merge s r p
  isSep := (chosenMerge spec).isSep

/-- The stop operator of a specification, without the count of its calls. -/
def chosenStop (spec : Spec) : Stop FactValue Level Notes :=
  match spec.stop with
  | .sep => .sep (domain spec)
  | .join => .join (domain spec)
  | .always => .always
  | .never => .never

def stopper (spec : Spec) : Stop FactValue Level Notes where
  stop s rs p := do
    let _ ← Action.ofEffect tallyStop
    (chosenStop spec).stop s rs p

/-- The precision of a new level, or the old precision. -/
def changeLevel (p : Precision Level) : Option Level → Effect Notes (Precision Level)
  | none => pure p
  | some level => do return .leaf (← Effect.fresh) level

/-- The state that a variant makes of a state. Only facts can be changed. -/
def revise (spec : Spec) (s : State FactValue) : Variant → Effect Notes (Option (State FactValue))
  | .same => pure (some s)
  | x =>
    match s.leaf? with
    | some v => some <$> realise spec s v v.anchor x
    | none => pure none

/-- The adjustment that a response describes: its first variant, if any, and its level. -/
def adjusted (spec : Spec) (s : State FactValue) (p : Precision Level) (r : Response) :
    Effect Notes (Option (Adjustment FactValue Level)) := do
  match r.results.getD [.same] with
  | [] => return none
  | x :: _ =>
    match ← revise spec s x with
    | none => return none
    | some state =>
      let precision ← changeLevel p r.level
      return some ⟨state, precision, if r.halts then .halt else .proceed⟩

def adjust (spec : Spec) (rules : List Rule) (s : State FactValue) (p : Precision Level)
    (around : Surroundings FactValue Level) :
    Action Notes (Option (Adjustment FactValue Level)) := do
  let call ← Action.ofEffect tallyAdjust
  let v ← Action.ofExcept s.asLeaf
  let level ← Action.ofExcept p.level
  let r := respond rules ⟨v.facts, [], level, call, none, some around⟩
  carryOut noEdge r
  Action.ofEffect (adjusted spec s p r)

def fallback (spec : Spec) (s : State FactValue) (p : Precision Level) :
    Effect Notes (Option (Adjustment FactValue Level)) := do
  let _ ← tallyFallback
  match spec.fallback with
  | some r => adjusted spec s p r
  | none => return none

def adjuster (spec : Spec) : Adjuster FactValue Level Notes :=
  match spec.adjust with
  | none => .static
  | some rules =>
    { adjust := adjust spec rules
      fallback := fun s p _ => Attempt.ofEffect (fallback spec s p)
      independent := spec.independent }

/-- Raises a failure that names the partition. -/
def refuse (part : Partition) : Option FailureKind → Action Notes Unit
  | none => pure ()
  | some kind => Action.fail (kind.error noEdge part.text)

def initialState (spec : Spec) (n : NodeId) (part : Partition) :
    Action Notes (State FactValue) := do
  refuse part spec.initialFailure
  return make spec (← Action.fresh) spec.initialFacts (spec.tracking.map (Tracking.initial n))

def initialPrecision (spec : Spec) (part : Partition) : Action Notes (Precision Level) := do
  refuse part spec.precisionFailure
  match spec.level with
  | some level => return .leaf (← Action.fresh) level
  | none => return .plain (← Action.fresh)

/-- The analysis of a specification. -/
def analysis (spec : Spec) : Analysis FactValue Level Notes where
  domain := domain spec
  transfer := transfer spec
  merger := merger spec
  stopper := stopper spec
  adjuster := adjuster spec
  initialState := initialState spec
  initialPrecision _ part := initialPrecision spec part

/-- A leaf as a component with a memory of its own. -/
def Leaf.assemble (leaf : Leaf) : Assembly FactValue Level where
  Memory := Notes
  initial := ({}, .sep)
  tree := .node
    ⟨leaf.name, .leaf, analysis leaf.spec,
      .counted leaf.label calls (if leaf.spec.merge = .hybrid then some mode else none)⟩ []

end ProgramAnalysis.Facts
