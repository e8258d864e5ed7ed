import ProgramAnalysis.Product.Adjust
import ProgramAnalysis.Product.Merge
import ProgramAnalysis.Product.Transfer
/-!
The product of a list of analyses.
-/

namespace ProgramAnalysis.Product

variable {ν ρ ω : Type}

/-- The outcomes of the actions of a list, one after the other. -/
def collect {α : Type} : List (Action ω α) → Action ω (List α)
  | [] => pure []
  | x :: rest => do
    let a ← x
    return a :: (← collect rest)

variable [LeafValue ν] [LeafPrecision ρ]

/-- The product of analyses that work on one memory. -/
def analysis (o : ProductOptions) (as : List (Analysis ν ρ ω)) : Analysis ν ρ (ω × MergeMode) :=
  let lifted := as.map (Analysis.focus .fst)
  { domain := domain o.locationIndex (as.map Analysis.domain)
    transfer := transfer o (lifted.map Analysis.transfer)
    merger := merger o as
    stopper := stopper o lifted
    adjuster := adjuster o (lifted.map Analysis.adjuster)
    initialState := fun n part => do
      let states ← collect (lifted.map fun a => a.initialState n part)
      Action.ofAlloc (tuple o.locationIndex states)
    initialPrecision := fun n part => do
      let precisions ← collect (lifted.map fun a => a.initialPrecision n part)
      return .tuple (← Action.fresh) precisions }

end ProgramAnalysis.Product
