import ProgramAnalysis.Assembly.Plan
import ProgramAnalysis.Config.Registry
/-!
The analyses that a configuration can name without further registration, as factories of plans.
-/

namespace ProgramAnalysis

namespace MergeKind

/-- What the text of a merge kind may be. -/
def expected : String := "plain, agree or hybrid"

/-- The merge kind that an option names. -/
def ofOption (key : String) : Setup (Option MergeKind) := Setup.getAs key expected ofText?

/-- Reads a merge kind by itself. -/
def read (s : String) : Except ConfigError MergeKind :=
  match ofText? s with
  | some kind => .ok kind
  | none => .error (.invalidValue "composite.merge" s expected)

end MergeKind

/-- The settings of the product with the given label. -/
def ProductOptions.ofOptions (label : String) : Setup ProductOptions := do
  let merge := (← MergeKind.ofOption (label ++ ".merge")).getD .plain
  let locationIndex ← Setup.getNat (label ++ ".locationIndex")
  let maxRounds := (← Setup.getNat (label ++ ".maxRounds")).getD 16
  return ⟨merge, locationIndex, maxRounds⟩

/-- The budgets of the monitor with the given label. -/
def Monitor.Limits.ofOptions (label : String) : Setup Monitor.Limits := do
  let pathLength ← Setup.getNat (label ++ ".pathLength.limit")
  let transferTime ← Setup.getNat (label ++ ".transferTime.limitMillis")
  return ⟨pathLength, transferTime.map Duration.ofMillis⟩

/-- What is known of the leaf analyses of a plan. -/
structure LeafInfo (ℓ : Type) where
  name : ℓ → String
  /-- Whether the adjustment of the leaf ignores the reached states. -/
  independent : ℓ → Bool

/-- Property checkers by name. -/
abbrev CheckerTable (ν ρ : Type) := List (String × Setup (Checker ν ρ))

namespace Catalogue

variable {ν ρ ℓ : Type}

/-- The plan of a product; the label is used in messages. -/
def product (label : String) (options : ProductOptions) (parts : List (Plan ν ρ ℓ)) :
    Except ConfigError (Plan ν ρ ℓ) := do
  options.check label parts.length
  return .product options parts

/-- The plan of an analysis with remembered answers. -/
def memo (info : LeafInfo ℓ) (inner : Plan ν ρ ℓ) : Except ConfigError (Plan ν ρ ℓ) := do
  Memo.check (inner.name info.name) (inner.independent info.independent)
  return .memo inner

/-- The checker with a name. -/
def checker (table : CheckerTable ν ρ) (name : String) : Setup (Checker ν ρ) :=
  match table.find? fun p => p.1 = name with
  | some (_, create) => create
  | none => throw (.unknownAnalysis name)

/-- The built-in analyses. -/
def standard (info : LeafInfo ℓ) (checkers : CheckerTable ν ρ) : Registry (Plan ν ρ ℓ) :=
  ⟨[("location", .leaf fun _ => pure .location),
    ("composite", .composite fun label parts => do
      let options ← ProductOptions.ofOptions label
      Setup.ofExcept (product label options parts)),
    ("arg", .wrapper fun _ inner => pure (.recorded inner)),
    ("caching", .wrapper fun _ inner => Setup.ofExcept (memo info inner)),
    ("monitor", .wrapper fun label inner => do
      return .monitored (← Monitor.Limits.ofOptions label) inner),
    ("property", .wrapper fun label inner => do
      return .checked (← checker checkers (← Setup.require (label ++ ".checker"))) inner)]⟩

end Catalogue

end ProgramAnalysis
