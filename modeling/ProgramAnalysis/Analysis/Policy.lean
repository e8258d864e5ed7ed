import ProgramAnalysis.Analysis.Basic
/-!
Merge, stop and adjustment operators that any domain can use.
-/

namespace ProgramAnalysis

variable {ν ρ ω : Type}

/-- Whether a merge keeps states apart or joins them. -/
inductive MergeMode where
  | sep
  | join
deriving DecidableEq, Inhabited

def MergeMode.text : MergeMode → String
  | sep => "Sep"
  | join => "Join"

namespace Domain

/-- The join of a new state and a reached one, or the reached state itself when it already covers
the new one. A join that does not cover the reached state is refused. This last check is made in
builds with debug assertions only, and those are described here. -/
def joinInto [LeafValue ν] (d : Domain ν) (s r : State ν) : Alloc (State ν) := do
  if ← Alloc.ofExcept (d.leq s r) then
    return r
  let joined ← d.join s r
  if ← Alloc.ofExcept (d.leq r joined) then
    return joined
  throw (.contractViolation
    ("join result " ++ joined.describe ++ " does not cover " ++ r.describe))

/-- Whether one of the reached states covers the new one. -/
def coveredBySome (d : Domain ν) (s : State ν) : List (State ν) → Except Error Bool
  | [] => .ok false
  | r :: rest => do
    if ← d.leq s r then
      return true
    coveredBySome d s rest

/-- The join of a state with the states of a list, from left to right. -/
def joinAll (d : Domain ν) (acc : State ν) : List (State ν) → Alloc (State ν)
  | [] => pure acc
  | r :: rest => do joinAll d (← d.join acc r) rest

end Domain

namespace Merge

/-- Keeps states apart. -/
def sep : Merge ν ρ ω where
  merge _ r _ := pure r
  isSep := true

/-- Joins the new state into the reached one. -/
def join [LeafValue ν] (d : Domain ν) : Merge ν ρ ω where
  merge s r _ := Action.ofAlloc (d.joinInto s r)

/-- A vote on whether two states are to be joined. -/
abbrev Tactic (ν : Type) := State ν → State ν → Except Error MergeMode

/-- Joins as soon as one tactic votes for it; the tactics that follow are not asked. -/
def vote (s r : State ν) : List (Tactic ν) → Except Error MergeMode
  | [] => .ok .sep
  | t :: rest => do
    match ← t s r with
    | .join => return .join
    | .sep => vote s r rest

/-- Keeps apart or joins, as the tactics vote. The mode of the last call is remembered; it is `sep`
while the tactics vote. -/
def hybrid [LeafValue ν] (mode : Slot ω MergeMode) (d : Domain ν) (tactics : List (Tactic ν)) :
    Merge ν ρ ω where
  merge s r _ := do
    Action.remember mode fun _ => .sep
    let chosen ← Action.ofExcept (vote s r tactics)
    Action.remember mode fun _ => chosen
    match chosen with
    | .sep => return r
    | .join => Action.ofAlloc (d.joinInto s r)

end Merge

namespace Stop

/-- Covered when a single reached state covers the new one. -/
def sep (d : Domain ν) : Stop ν ρ ω where
  stop s rs _ := Action.ofExcept (d.coveredBySome s rs)

/-- Covered when the join of all reached states covers the new one. -/
def join (d : Domain ν) : Stop ν ρ ω where
  stop s rs _ :=
    match rs with
    | [] => pure false
    | r :: rest => do
      let joined ← Action.ofAlloc (d.joinAll r rest)
      Action.ofExcept (d.leq s joined)

def always : Stop ν ρ ω where
  stop _ _ _ := pure true

def never : Stop ν ρ ω where
  stop _ _ _ := pure false

end Stop

namespace Adjuster

/-- Changes nothing. -/
def static : Adjuster ν ρ ω where
  adjust s p _ := pure (some (.unchanged s p))
  independent := true

end Adjuster

end ProgramAnalysis
