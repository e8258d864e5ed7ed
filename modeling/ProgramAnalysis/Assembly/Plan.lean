import ProgramAnalysis.Assembly.Component
import ProgramAnalysis.Location
/-!
Plans of nested analyses, and the analyses that they describe.

A plan is plain data: leaves, products of plans, and plans inside a wrapper. The kind of leaf
analyses is a parameter `ℓ`. `Plan.assemble` turns a plan into an analysis. The memory of each
analysis is a part of the memory of the one around it, so that no analysis reaches the memory of
another.
-/

namespace ProgramAnalysis

/-- A nested analysis with the memory it starts from. -/
structure Assembly (ν ρ : Type) where
  Memory : Type
  initial : Memory
  tree : ComponentTree ν ρ Memory

/-- The plan of a nested analysis. -/
inductive Plan (ν ρ ℓ : Type) where
  | location
  | leaf (label : ℓ)
  | product (options : ProductOptions) (parts : List (Plan ν ρ ℓ))
  | recorded (inner : Plan ν ρ ℓ)
  | memo (inner : Plan ν ρ ℓ)
  | monitored (limits : Monitor.Limits) (inner : Plan ν ρ ℓ)
  | checked (checker : Checker ν ρ) (inner : Plan ν ρ ℓ)

/-- Several analyses on one memory. -/
structure Gathering (ν ρ : Type) where
  Memory : Type
  initial : Memory
  trees : List (ComponentTree ν ρ Memory)

namespace Assembly

variable {ν ρ : Type}

/-- The tree below a wrapper, on a memory that also holds what the wrapper remembers. -/
def below (κ : Type) (a : Assembly ν ρ) : ComponentTree ν ρ (a.Memory × κ) :=
  a.tree.map (Component.focus .fst)

/-- An analysis inside a wrapper with a memory of its own. -/
def wrap {κ : Type} (a : Assembly ν ρ) (name : String) (start : κ)
    (analysis : Analysis ν ρ (a.Memory × κ)) (role : Role ν ρ (a.Memory × κ)) : Assembly ν ρ where
  Memory := a.Memory × κ
  initial := (a.initial, start)
  tree := .node ⟨name, .wrapper, analysis, role⟩ [a.below κ]

/-- Several analyses side by side, each with its own part of the memory. -/
def gather : List (Assembly ν ρ) → Gathering ν ρ
  | [] => ⟨Unit, (), []⟩
  | a :: rest =>
    let others := gather rest
    { Memory := a.Memory × others.Memory
      initial := (a.initial, others.initial)
      trees := a.tree.map (Component.focus .fst) ::
        others.trees.map fun t => t.map (Component.focus .snd) }

variable [LeafValue ν] [LeafPrecision ρ]

/-- The analysis of the root. -/
def analysis (a : Assembly ν ρ) : Analysis ν ρ a.Memory := a.tree.value.analysis

def location (program : Program) (first : Handle) : Assembly ν ρ where
  Memory := Unit
  initial := ()
  tree := .node ⟨"location", .leaf, Location.analysis program first, .plain⟩ []

def product (options : ProductOptions) (parts : List (Assembly ν ρ)) : Assembly ν ρ :=
  let g := gather parts
  { Memory := g.Memory × MergeMode
    initial := (g.initial, .sep)
    tree := .node
      ⟨"composite", .composite,
        Product.analysis options (g.trees.map fun t => t.value.analysis),
        .product parts.length options.merge .snd⟩
      (g.trees.map fun t => t.map (Component.focus .fst)) }

def recorded (a : Assembly ν ρ) : Assembly ν ρ :=
  a.wrap "arg" .empty (Recorder.analysis a.analysis) (.recorder .snd)

def memo (a : Assembly ν ρ) : Assembly ν ρ :=
  a.wrap "caching" .empty (Memo.analysis a.analysis) (.memo .snd)

def monitored (limits : Monitor.Limits) (a : Assembly ν ρ) : Assembly ν ρ :=
  a.wrap "monitor" .zero (Monitor.analysis limits a.analysis) (.monitor limits .snd)

/-- A checked property changes no operator. -/
def checked (checker : Checker ν ρ) (a : Assembly ν ρ) : Assembly ν ρ :=
  { a with tree := .node ⟨"property", .wrapper, a.analysis, .property checker⟩ [a.tree] }

end Assembly

namespace Plan

variable {ν ρ ℓ : Type}

/-- The name of the analysis at the root, given the names of leaves. -/
def name (leafName : ℓ → String) : Plan ν ρ ℓ → String
  | location => "location"
  | leaf label => leafName label
  | product _ _ => "composite"
  | recorded _ => "arg"
  | memo _ => "caching"
  | monitored _ _ => "monitor"
  | checked _ _ => "property"

mutual

/-- Whether the adjustment of the planned analysis ignores the reached states. -/
def independent (leafIndependent : ℓ → Bool) : Plan ν ρ ℓ → Bool
  | .location => true
  | .leaf label => leafIndependent label
  | .product _ parts => allIndependent leafIndependent parts
  | .recorded inner => independent leafIndependent inner
  | .memo _ => true
  | .monitored _ inner => independent leafIndependent inner
  | .checked _ inner => independent leafIndependent inner

/-- Whether the adjustments of all planned analyses ignore the reached states. -/
def allIndependent (leafIndependent : ℓ → Bool) : List (Plan ν ρ ℓ) → Bool
  | [] => true
  | p :: ps => independent leafIndependent p && allIndependent leafIndependent ps

end

variable [LeafValue ν] [LeafPrecision ρ]

mutual

/-- The planned analysis of a program and the next handle. The states of location analyses take
handles from `next` on. -/
def assemble (program : Program) (leafAnalysis : ℓ → Assembly ν ρ) :
    Plan ν ρ ℓ → Handle → Assembly ν ρ × Handle
  | .location, next => (.location program next, ⟨next.serial + program.nodeCount⟩)
  | .leaf label, next => (leafAnalysis label, next)
  | .product options parts, next =>
    let (as, next) := assembleAll program leafAnalysis parts next
    (.product options as, next)
  | .recorded inner, next =>
    let (a, next) := assemble program leafAnalysis inner next
    (a.recorded, next)
  | .memo inner, next =>
    let (a, next) := assemble program leafAnalysis inner next
    (a.memo, next)
  | .monitored limits inner, next =>
    let (a, next) := assemble program leafAnalysis inner next
    (a.monitored limits, next)
  | .checked checker inner, next =>
    let (a, next) := assemble program leafAnalysis inner next
    (a.checked checker, next)

/-- The planned analyses, one after the other. -/
def assembleAll (program : Program) (leafAnalysis : ℓ → Assembly ν ρ) :
    List (Plan ν ρ ℓ) → Handle → List (Assembly ν ρ) × Handle
  | [], next => ([], next)
  | p :: ps, next =>
    let (a, next) := assemble program leafAnalysis p next
    let (as, next) := assembleAll program leafAnalysis ps next
    (a :: as, next)

end

end Plan

end ProgramAnalysis
