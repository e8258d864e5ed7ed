import ProgramAnalysis.Config.Catalogue
import ProgramAnalysis.Facts.Analysis
/-!
Properties of the reached sets of facts, and the registry of fact analyses and such properties.
-/

namespace ProgramAnalysis.Facts

/-- A property of the reached states. -/
structure Property where
  /-- An option that has to be set. -/
  needs : Option String := none
  failure : Option FailureKind := none
  /-- The most facts that a reached state may have. -/
  atMost : Option Nat := none
  /-- A fact that no reached state may have. -/
  noFact : Option Nat := none
deriving DecidableEq, Inhabited

namespace Property

/-- Whether a set of facts conforms. -/
def allows (p : Property) (facts : FactSet) : Bool :=
  p.atMost.all (facts.size ≤ ·) && p.noFact.all fun n => !facts.contains n

/-- Whether all reached states conform. States without facts do. -/
def check (p : Property) : Checker FactValue Level := fun store =>
  match p.failure with
  | some kind => .error (kind.error noEdge "checker")
  | none => .ok (store.states.all fun s => s.facts?.all p.allows)

/-- The checker as the configuration asks for it. -/
def ofOptions (p : Property) : Setup (Checker FactValue Level) := do
  if let some key := p.needs then
    let _ ← Setup.require key
  return p.check

end Property

/-- The plan of a nested analysis whose leaves are fact analyses. -/
abbrev FactPlan := Plan FactValue Level Leaf

/-- What is known of fact analyses. -/
def leafInfo : LeafInfo Leaf := ⟨Leaf.name, fun leaf => leaf.spec.isIndependent⟩

/-- The registry of a workbench: the built-in analyses, unless they are left out, and the given fact
analyses and properties. -/
def registry (builtIn : Bool) (leaves : List (String × Spec))
    (properties : List (String × Property)) : Registry FactPlan :=
  let start : Registry FactPlan :=
    if builtIn then
      Catalogue.standard leafInfo (properties.map fun (name, p) => (name, p.ofOptions))
    else .empty
  leaves.foldl
    (fun r (name, spec) => r.register name (.leaf fun label => do
      return .leaf (← Leaf.ofOptions name spec label)))
    start

end ProgramAnalysis.Facts
