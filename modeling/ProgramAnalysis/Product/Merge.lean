import ProgramAnalysis.Product.Basic
/-!
Merging and covering of tuples.

Tuples are merged component by component. The merge is refused, and the reached tuple returned, when
the designated components are at different locations, when under `agree` a component that is never
merged differs, or when under `hybrid` a merged component does not cover the new one. A tuple is
covered when a single reached tuple covers it in every component.
-/

namespace ProgramAnalysis.Product

variable {ν ρ ω : Type}

/-- Whether each component is covered by its counterpart. -/
def coveredComponents :
    List (Analysis ν ρ ω) → List (State ν) → List (State ν) → List (Precision ρ) → Action ω Bool
  | a :: as, s :: ss, r :: rs, p :: ps => do
    if ← a.stopper.stop s [r] p then
      coveredComponents as ss rs ps
    else
      return false
  | _, _, _, _ => pure true

/-- Whether a merged component may stand under the given kind of merge. -/
def acceptable (kind : MergeKind) (d : Domain ν) (s merged : State ν) : Except Error Bool :=
  match kind with
  | .hybrid => d.leq s merged
  | _ => .ok true

variable [LeafValue ν]

/-- Merged components, and whether one of them is not the reached component itself. Nothing is
returned when the merge is refused. -/
def mergeComponents (kind : MergeKind) :
    List (Analysis ν ρ ω) → List (State ν) → List (State ν) → List (Precision ρ) →
    Action ω (Option (List (State ν) × Bool))
  | a :: as, s :: ss, r :: rs, p :: ps =>
    if kind = .agree && a.merger.isSep then
      if s.agrees r then do
        return (← mergeComponents kind as ss rs ps).map fun (ms, changed) => (r :: ms, changed)
      else pure none
    else do
      let m ← a.merger.merge s r p
      if ← Action.ofExcept (acceptable kind a.domain s m) then
        return (← mergeComponents kind as ss rs ps).map fun (ms, changed) =>
          (m :: ms, m.handle ≠ r.handle || changed)
      else
        return none
  | _, _, _, _ => pure (some ([], false))

/-- The merge operator of a product. Its memory says whether the last call has made a new tuple. -/
def merger [LeafPrecision ρ] (o : ProductOptions) (as : List (Analysis ν ρ ω)) :
    Merge ν ρ (ω × MergeMode) where
  merge s r p := do
    Action.remember .snd fun _ => .sep
    let (ss, ps) ← Action.ofExcept (split as.length s p)
    let rs ← Action.ofExcept (stateOf as.length r)
    if anchorsDiffer o.locationIndex ss rs then
      return r
    match ← (mergeComponents o.merge as ss rs ps).focus .fst with
    | some (ms, true) =>
      Action.remember .snd fun _ => .join
      Action.ofAlloc (tuple o.locationIndex ms)
    | _ => return r
  isSep := as.all fun a => a.merger.isSep

/-- Whether a tuple is covered by another one. -/
def coveredBy [LeafPrecision ρ] (o : ProductOptions) (as : List (Analysis ν ρ ω)) (s : State ν)
    (p : Precision ρ) (r : State ν) : Action ω Bool := do
  let (ss, ps) ← Action.ofExcept (split as.length s p)
  let rs ← Action.ofExcept (stateOf as.length r)
  if anchorsDiffer o.locationIndex ss rs then
    return false
  coveredComponents as ss rs ps

/-- Whether one of the tuples covers the new one. -/
def coveredBySome [LeafPrecision ρ] (o : ProductOptions) (as : List (Analysis ν ρ ω))
    (s : State ν) (p : Precision ρ) : List (State ν) → Action ω Bool
  | [] => pure false
  | r :: rest => do
    if ← coveredBy o as s p r then
      return true
    coveredBySome o as s p rest

/-- The stop operator of a product. -/
def stopper [LeafPrecision ρ] (o : ProductOptions) (as : List (Analysis ν ρ ω)) :
    Stop ν ρ ω where
  stop s rs p := coveredBySome o as s p rs

end ProgramAnalysis.Product
