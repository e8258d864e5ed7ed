import ProgramAnalysis.Analysis.Policy
/-!
Products of analyses: tuples of states and precisions, and the domain on them.

The states of a product are tuples with one component per analysis. A tuple is bound to the location
of its designated component or, without one, of the first component that is bound to a location. The
order is componentwise.
-/

namespace ProgramAnalysis

/-- How tuples are merged. -/
inductive MergeKind where
  /-- Componentwise. -/
  | plain
  /-- Componentwise, if the components that are never merged agree. -/
  | agree
  /-- Componentwise, unless a merged component fails to cover the new one. -/
  | hybrid
deriving DecidableEq, Inhabited

namespace MergeKind

def text : MergeKind → String
  | plain => "plain"
  | agree => "agree"
  | hybrid => "hybrid"

/-- Reads the text of a merge kind; upper and lower case letters count the same. -/
def ofText? (s : String) : Option MergeKind :=
  let t := String.ofList (s.toList.map Char.toLower)
  if t = "plain" then some plain
  else if t = "agree" then some agree
  else if t = "hybrid" then some hybrid
  else none

end MergeKind

/-- The settings of a product. -/
structure ProductOptions where
  merge : MergeKind := .plain
  /-- The component that binds the tuple to a location. -/
  locationIndex : Option Nat := none
  /-- How often components may strengthen or adjust one another. -/
  maxRounds : Nat := 16
deriving DecidableEq, Inhabited

/-- Checks the settings of a product called `name` with the given number of components. -/
def ProductOptions.check (name : String) (o : ProductOptions) (arity : Nat) :
    Except ConfigError Unit :=
  if arity = 0 then .error (.invalidComposition name "at least one component is required")
  else if o.locationIndex.any (arity ≤ ·) then
    .error (.invalidComposition name
      ("location component " ++ Nat.repr (o.locationIndex.getD 0) ++ " out of range for " ++
        Nat.repr arity ++ " components"))
  else if o.maxRounds = 0 then
    .error (.invalidValue "composite.maxRounds" "0" "a positive number")
  else .ok ()

namespace Product

variable {ν ρ ω : Type}

/-- All ways to choose one state from each list; the choice in the last list varies fastest. -/
def choices : List (List (State ν)) → List (List (State ν))
  | [] => [[]]
  | options :: rest => options.flatMap fun s => (choices rest).map (s :: ·)

/-- Componentwise joins, and whether one of them is not the second argument itself. -/
def joinComponents : List (Domain ν) → List (State ν) → List (State ν) →
    Alloc (List (State ν) × Bool)
  | d :: ds, a :: as, b :: bs => do
    let j ← d.join a b
    let (js, changed) ← joinComponents ds as bs
    return (j :: js, j.handle ≠ b.handle || changed)
  | _, _, _ => pure ([], false)

/-- The componentwise order. -/
def leqComponents : List (Domain ν) → List (State ν) → List (State ν) → Except Error Bool
  | d :: ds, a :: as, b :: bs => do
    if ← d.leq a b then
      leqComponents ds as bs
    else
      return false
  | _, _, _ => .ok true

variable [LeafValue ν]

/-- The location that a tuple is bound to. -/
def anchor (index : Option Nat) (components : List (State ν)) : Option NodeId :=
  match index with
  | some i => components[i]?.bind State.location?
  | none => components.findSome? State.location?

/-- A new tuple. -/
def tuple (index : Option Nat) (components : List (State ν)) : Alloc (State ν) := do
  return .tuple (← Alloc.fresh) components (anchor index components)

/-- The components of a state that must be a tuple of the given arity. -/
def stateOf (arity : Nat) (s : State ν) : Except Error (List (State ν)) := do
  let cs ← s.asTuple
  if cs.length = arity then
    return cs
  throw (.mismatch .matchingTuple
    (Nat.repr cs.length ++ " states for " ++ Nat.repr arity ++ " components"))

/-- The components of a state and of a precision that must be tuples of the given arity. -/
def split [LeafPrecision ρ] (arity : Nat) (s : State ν) (p : Precision ρ) :
    Except Error (List (State ν) × List (Precision ρ)) := do
  let cs ← s.asTuple
  let ps ← p.asTuple
  if cs.length = arity ∧ ps.length = arity then
    return (cs, ps)
  throw (.mismatch .matchingTuple
    (Nat.repr cs.length ++ " states and " ++ Nat.repr ps.length ++ " precisions for " ++
      Nat.repr arity ++ " components"))

/-- Whether the designated components of two tuples are at different locations. -/
def anchorsDiffer (index : Option Nat) (a b : List (State ν)) : Bool :=
  match index with
  | some i => a[i]?.bind State.location? ≠ b[i]?.bind State.location?
  | none => false

/-- The domain of tuples. A join that changes no component is the second argument itself. -/
def domain (index : Option Nat) (ds : List (Domain ν)) : Domain ν where
  join a b := do
    let as ← Alloc.ofExcept (stateOf ds.length a)
    let bs ← Alloc.ofExcept (stateOf ds.length b)
    let (js, changed) ← joinComponents ds as bs
    if changed then
      tuple index js
    else
      return b
  leq a b := do
    let as ← stateOf ds.length a
    let bs ← stateOf ds.length b
    leqComponents ds as bs

end Product

end ProgramAnalysis
