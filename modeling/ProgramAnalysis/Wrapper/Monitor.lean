import ProgramAnalysis.Analysis.Basic
/-!
Budgets along paths.

The monitor decorates each state with the length of its path. A path that is longer than its limit,
or whose last transfer took too long, ends in an exhausted state: such a state has no successors, is
never merged, and is compared only with states that ran out of the same budget.
-/

namespace ProgramAnalysis.Monitor

variable {ν ρ ω : Type}

/-- The budgets; a missing one is unlimited. -/
structure Limits where
  pathLength : Option Nat := none
  transferTime : Option Duration := none
deriving DecidableEq, Inhabited

/-- What the monitor counts. -/
structure Counts where
  maxPathLength : Nat
  exhaustedStates : Nat
deriving DecidableEq, Inhabited

def Counts.zero : Counts := ⟨0, 0⟩

/-- The path budget, if a path of the given length is over it. -/
def Limits.overlong (limits : Limits) (pathLength : Nat) : Option Exhaustion :=
  limits.pathLength.bind fun limit =>
    if limit < pathLength then some (.pathLength limit) else none

/-- The time budget, if a transfer with the given pauses is over it. A transfer always takes longer
than the pauses inside it, so a limit is exceeded as soon as the pauses reach it. -/
def Limits.overtime (limits : Limits) (pauses : Duration) : Option Exhaustion :=
  limits.transferTime.bind fun limit =>
    if limit.nanos ≤ pauses.nanos then some (.transferTime limit) else none

/-- The budget that a path has used up; the length of the path counts first. -/
def Limits.exhaustion (limits : Limits) (pathLength : Nat) (pauses : Duration) :
    Option Exhaustion :=
  (limits.overlong pathLength).or (limits.overtime pauses)

/-- A new monitored state. -/
def wrap (w : State ν) (pathLength : Nat) (x : Option Exhaustion) : Alloc (State ν) := do
  return .monitored (← Alloc.fresh) w pathLength x

/-- New monitored states for several wrapped ones. -/
def wrapAll (pathLength : Nat) (x : Option Exhaustion) : List (State ν) → Alloc (List (State ν))
  | [] => pure []
  | w :: rest => do
    let s ← wrap w pathLength x
    return s :: (← wrapAll pathLength x rest)

/-- The monitored state whose wrapped state is as adjusted; the very state if that is unchanged. -/
def rewrap (s : State ν) (current : Monitored ν) (a : Adjustment ν ρ) :
    Effect ω (Adjustment ν ρ) := do
  if a.state.handle = current.wrapped.handle then
    return { a with state := s }
  let h ← Effect.fresh
  return { a with state := .monitored h a.state current.pathLength current.exhaustion }

/-- The view of the analysis inside on a reached state. -/
def unwrapped : State ν → State ν
  | .monitored _ w _ _ => w
  | s => s

variable [LeafValue ν]

/-- States are ordered like the states inside, among those that ran out of the same budget. -/
def domain (d : Domain ν) : Domain ν where
  join a b := do
    let x ← Alloc.ofExcept a.asMonitored
    let y ← Alloc.ofExcept b.asMonitored
    if x.exhaustion ≠ y.exhaustion then
      throw (.undefined "join" "exhausted and live monitor states")
    let w ← d.join x.wrapped y.wrapped
    wrap w (max x.pathLength y.pathLength) y.exhaustion
  leq a b := do
    let x ← a.asMonitored
    let y ← b.asMonitored
    if x.exhaustion ≠ y.exhaustion then
      return false
    d.leq x.wrapped y.wrapped

def transfer (limits : Limits) (t : Transfer ν ρ ω) : Transfer ν ρ (ω × Counts) where
  successors s siblings p e := do
    let current ← Action.ofExcept s.asMonitored
    if current.exhaustion.isSome then
      return []
    let start ← Action.ofEffect Effect.now
    let next ← (t.successors current.wrapped siblings p e).focus .fst
    let stop ← Action.ofEffect Effect.now
    let pathLength := current.pathLength + 1
    let x := limits.exhaustion pathLength ⟨stop.nanos - start.nanos⟩
    Action.remember .snd fun (c : Counts) =>
      { maxPathLength := max c.maxPathLength pathLength
        exhaustedStates := c.exhaustedStates + if x.isSome then next.length else 0 }
    Action.ofAlloc (wrapAll pathLength x next)
  strengthen s siblings e p := do
    let current ← Action.ofExcept s.asMonitored
    match ← (t.strengthen current.wrapped siblings e p).focus .fst with
    | none => return none
    | some states =>
      return some (← Action.ofAlloc (wrapAll current.pathLength current.exhaustion states))

def merger (m : Merge ν ρ ω) : Merge ν ρ (ω × Counts) where
  merge s r p := do
    let x ← Action.ofExcept s.asMonitored
    let y ← Action.ofExcept r.asMonitored
    if x.exhaustion.isSome || y.exhaustion.isSome then
      return r
    let merged ← (m.merge x.wrapped y.wrapped p).focus .fst
    if merged.handle = y.wrapped.handle then
      return r
    Action.ofAlloc (wrap merged (max x.pathLength y.pathLength) none)
  isSep := m.isSep

/-- The wrapped states of those that ran out of the given budget. -/
def comparable (x : Option Exhaustion) : List (State ν) → Except Error (List (State ν))
  | [] => .ok []
  | r :: rest => do
    let y ← r.asMonitored
    let others ← comparable x rest
    return if y.exhaustion = x then y.wrapped :: others else others

def stopper (st : Stop ν ρ ω) : Stop ν ρ (ω × Counts) where
  stop s rs p := do
    let x ← Action.ofExcept s.asMonitored
    let inner ← Action.ofExcept (comparable x.exhaustion rs)
    (st.stop x.wrapped inner p).focus .fst

def adjuster (ad : Adjuster ν ρ ω) : Adjuster ν ρ (ω × Counts) where
  adjust s p around := do
    let current ← Action.ofExcept s.asMonitored
    let inside := { around with view := fun r => unwrapped (around.view r) }
    match ← (ad.adjust current.wrapped p inside).focus .fst with
    | none => return none
    | some a => return some (← Action.ofEffect (rewrap s current a))
  fallback s p e :=
    match s with
    | .monitored _ w len x => do
      match ← (ad.fallback w p e).focus .fst with
      | none => return none
      | some a => return some (← Attempt.ofEffect (rewrap s ⟨w, len, x⟩ a))
    | _ => pure none
  independent := ad.independent

/-- The monitored analysis. -/
def analysis (limits : Limits) (a : Analysis ν ρ ω) : Analysis ν ρ (ω × Counts) where
  domain := domain a.domain
  transfer := transfer limits a.transfer
  merger := merger a.merger
  stopper := stopper a.stopper
  adjuster := adjuster a.adjuster
  initialState := fun n part => do
    let w ← (a.initialState n part).focus .fst
    Action.ofAlloc (wrap w 0 none)
  initialPrecision := fun n part => (a.initialPrecision n part).focus .fst

end ProgramAnalysis.Monitor
