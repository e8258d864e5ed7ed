import ProgramAnalysis.Analysis.Policy
/-!
The location analysis: it follows the program counter.

Its domain is flat, since two states are comparable only when they are the same location. There is
one state per location, with a handle of its own, so equal locations are one and the same state.
-/

namespace ProgramAnalysis.Location

variable {ν ρ : Type} [LeafValue ν]

/-- Two locations have an upper bound only when they are equal. -/
def domain : Domain ν where
  join a b := do
    let x ← Alloc.ofExcept a.asLocation
    let y ← Alloc.ofExcept b.asLocation
    if x = y then
      return b
    throw (.undefined "join"
      ("locations " ++ x.text ++ " and " ++ y.text ++ " have no common upper bound"))
  leq a b := do
    let x ← a.asLocation
    let y ← b.asLocation
    return decide (x = y)

/-- The state of a location. The states of a program take consecutive handles from `first` on. -/
def stateOf (program : Program) (first : Handle) (n : NodeId) : Except Error (State ν) :=
  if program.contains n then .ok (.location ⟨first.serial + n.index⟩ n)
  else .error (.unknownLocation n)

/-- The location analysis of a program. -/
def analysis (program : Program) (first : Handle) : Analysis ν ρ Unit where
  domain := domain
  transfer :=
    { successors := fun s _ _ e => do
        let n ← Action.ofExcept s.asLocation
        if n = e.source then
          return [← Action.ofExcept (stateOf program first e.target)]
        return [] }
  merger := .sep
  stopper := .sep domain
  adjuster := .static
  initialState := fun n _ => Action.ofExcept (stateOf program first n)

end ProgramAnalysis.Location
