import ProgramAnalysis.Product.Basic
/-!
Adjustment of tuples.

The components adjust their states in turn, and the round is repeated while one of them changes its
state or its precision. A component that drops its state drops the tuple, and one that halts halts
the exploration after the round. A backend failure of a component is first handed to the fallback of
that component.
-/

namespace ProgramAnalysis.Product

variable {ν ρ ω : Type}

/-- The components during adjustment. -/
structure Round (ν ρ : Type) where
  states : List (State ν)
  precisions : List (Precision ρ)
  signal : Signal
  changed : Bool

/-- Both signals together: one halt is enough. -/
def both : Signal → Signal → Signal
  | .proceed, .proceed => .proceed
  | _, _ => .halt

/-- The view of component `i` on a reached state. -/
def viewOf (i : Nat) (view : State ν → State ν) (s : State ν) : State ν :=
  let outer := view s
  match outer with
  | .tuple _ cs _ => cs[i]?.getD outer
  | _ => outer

/-- The adjustment of one component, after its fallback if a backend failed. -/
def adjustOne (a : Adjuster ν ρ ω) (s : State ν) (p : Precision ρ) (around : Surroundings ν ρ) :
    Action ω (Option (Adjustment ν ρ)) := do
  match ← Action.ofAttempt (a.adjust s p around).attempt with
  | .ok outcome => return outcome
  | .error e =>
    if e.isBackend then
      match ← Action.ofAttempt (a.fallback s p e) with
      | some adjustment => return some adjustment
      | none => Action.fail e
    else Action.fail e

variable [LeafValue ν] [LeafPrecision ρ]

/-- One round of the components, numbered from `i` on. Nothing is returned when the tuple is
dropped. -/
def adjustRound (around : Surroundings ν ρ) :
    List (Adjuster ν ρ ω) → Nat → List (State ν) → List (Precision ρ) →
    Action ω (Option (Round ν ρ))
  | a :: as, i, s :: ss, p :: ps => do
    match ← adjustOne a s p { around with view := viewOf i around.view } with
    | none => return none
    | some adj =>
      let same := s.agrees adj.state && p.agrees adj.precision
      return (← adjustRound around as (i + 1) ss ps).map fun rest =>
        { states := (if same then s else adj.state) :: rest.states
          precisions := (if same then p else adj.precision) :: rest.precisions
          signal := both adj.signal rest.signal
          changed := !same || rest.changed }
  | _, _, _, _ => pure (some ⟨[], [], .proceed, false⟩)

/-- At most `rounds` rounds; `modified` says whether an earlier one has changed something. -/
def adjustRounds (around : Surroundings ν ρ) (as : List (Adjuster ν ρ ω)) :
    Nat → List (State ν) → List (Precision ρ) → Bool → Action ω (Option (Round ν ρ))
  | 0, ss, ps, modified => pure (some ⟨ss, ps, .proceed, modified⟩)
  | rounds + 1, ss, ps, modified => do
    match ← adjustRound around as 0 ss ps with
    | none => return none
    | some r =>
      if r.changed && r.signal = .proceed then
        adjustRounds around as rounds r.states r.precisions true
      else
        return some { r with changed := modified || r.changed }

/-- The adjustment operator of a product. Without a change the very tuple and precision are
returned. -/
def adjuster (o : ProductOptions) (as : List (Adjuster ν ρ ω)) : Adjuster ν ρ ω where
  adjust s p around := do
    let (ss, ps) ← Action.ofExcept (split as.length s p)
    match ← adjustRounds around as o.maxRounds ss ps false with
    | none => return none
    | some r =>
      if r.changed then
        let state ← Action.ofAlloc (tuple o.locationIndex r.states)
        let precision := Precision.tuple (← Action.fresh) r.precisions
        return some ⟨state, precision, r.signal⟩
      else
        return some ⟨s, p, r.signal⟩
  independent := as.all Adjuster.independent

end ProgramAnalysis.Product
