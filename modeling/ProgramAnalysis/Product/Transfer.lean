import ProgramAnalysis.Product.Basic
/-!
The transfer relation of a product.

Each component computes its successors; every choice of one successor per component is a candidate
tuple. A candidate is then strengthened: the components look at it in turn, each may replace its own
state by others, and the pass is repeated as long as it changes something or has just made the tuple
a target. A component that answers with no state at all refutes the tuple.
-/

namespace ProgramAnalysis.Product

variable {ν ρ ω : Type}

/-- The successors of each component, or nothing when one of them has none. -/
def alternatives (e : ProgramEdge) (siblings : List (State ν)) :
    List (Transfer ν ρ ω) → List (State ν) → List (Precision ρ) →
    Action ω (Option (List (List (State ν))))
  | t :: ts, s :: ss, p :: ps => do
    let next ← t.successors s siblings p e
    if next.isEmpty then
      return none
    return (← alternatives e siblings ts ss ps).map (next :: ·)
  | _, _, _ => pure (some [])

/-- The tuples of a pass, and whether the pass has changed a component. -/
structure Pass (ν : Type) where
  tuples : List (List (State ν))
  changed : Bool

/-- The outcomes of `f` on the members of a list, one after the other. -/
def concatEach {α β : Type} (f : α → Action ω (List β)) : List α → Action ω (List β)
  | [] => pure []
  | a :: rest => do
    let here ← f a
    return here ++ (← concatEach f rest)

variable [LeafValue ν]

/-- What becomes of one tuple when component `i` looks at it. -/
def strengthenOne (e : ProgramEdge) (t : Transfer ν ρ ω) (p : Precision ρ) (i : Nat)
    (cs : List (State ν)) : Action ω (Pass ν) :=
  match cs[i]? with
  | none => pure ⟨[cs], false⟩
  | some old => do
    match ← t.strengthen old cs e p with
    | none => return ⟨[cs], false⟩
    | some states => return ⟨states.map (cs.set i ·), states.any fun s => !s.agrees old⟩

/-- What becomes of the tuples when component `i` looks at each of them. -/
def strengthenEach (e : ProgramEdge) (t : Transfer ν ρ ω) (p : Precision ρ) (i : Nat) :
    List (List (State ν)) → Action ω (Pass ν)
  | [] => pure ⟨[], false⟩
  | cs :: rest => do
    let first ← strengthenOne e t p i cs
    let others ← strengthenEach e t p i rest
    return ⟨first.tuples ++ others.tuples, first.changed || others.changed⟩

/-- One pass of the components, numbered from `i` on, over the tuples. -/
def strengthenPass (e : ProgramEdge) :
    List (Transfer ν ρ ω) → List (Precision ρ) → Nat → List (List (State ν)) → Action ω (Pass ν)
  | t :: ts, p :: ps, i, tuples => do
    let here ← strengthenEach e t p i tuples
    let later ← strengthenPass e ts ps (i + 1) here.tuples
    return ⟨later.tuples, here.changed || later.changed⟩
  | _, _, _, tuples => pure ⟨tuples, false⟩

/-- Repeats passes over a tuple until nothing is left to do, at most `rounds` times; `bound` is the
number of rounds that the message gives. -/
def settle (e : ProgramEdge) (ts : List (Transfer ν ρ ω)) (ps : List (Precision ρ)) (bound : Nat) :
    Nat → List (State ν) → Action ω (List (List (State ν)))
  | 0, _ => Action.fail (.contractViolation
      ("strengthening along " ++ e.id.text ++ " did not stabilise after " ++ Nat.repr bound ++
        " rounds"))
  | rounds + 1, cs => do
    let pass ← strengthenPass e ts ps 0 [cs]
    if pass.changed then
      concatEach (settle e ts ps bound rounds) pass.tuples.reverse
    else
      -- A component that has had its turn has not seen a target that came up later in the pass.
      let again (t : List (State ν)) : Bool := !State.anyTarget cs && State.anyTarget t
      let settled := pass.tuples.filter fun t => !again t
      let others ← concatEach (settle e ts ps bound rounds) (pass.tuples.filter again).reverse
      return settled ++ others

/-- New tuple states. -/
def tuples (index : Option Nat) : List (List (State ν)) → Action ω (List (State ν))
  | [] => pure []
  | cs :: rest => do
    let s ← Action.ofAlloc (tuple index cs)
    return s :: (← tuples index rest)

/-- The transfer relation of a product. -/
def transfer [LeafPrecision ρ] (o : ProductOptions) (ts : List (Transfer ν ρ ω)) :
    Transfer ν ρ ω where
  successors s _ p e := do
    let (cs, ps) ← Action.ofExcept (split ts.length s p)
    match ← alternatives e cs ts cs ps with
    | none => return []
    | some options =>
      concatEach (fun candidate => do
          tuples o.locationIndex (← settle e ts ps o.maxRounds o.maxRounds candidate))
        (choices options)

end ProgramAnalysis.Product
