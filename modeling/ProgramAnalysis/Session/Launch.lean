import ProgramAnalysis.Session.Basic
/-!
The start of a session: reading the configuration, building the analysis, and setting up the reached
set and the exploration.
-/

namespace ProgramAnalysis.Session

/-- The analysis at the root, put together by hand from children that are built from the
configuration. -/
inductive Root where
  /-- A product. Its merge kind is checked also where the plain settings are used. -/
  | product (merge : Option String) (settings : Option ProductOptions)
  | memo
  | monitor (limits : Monitor.Limits)
  | property (property : Facts.Property)

/-- What a session starts from. -/
structure Blueprint where
  program : Program
  configuration : String
  registry : Registry Facts.FactPlan
  /-- The root and the specs of its children, if it is not configured. -/
  root : Option (Root × List String)
  frontier : Option FrontierChoice
  target : TargetChoice

/-- The stage of a start that can fail. -/
inductive LaunchStage where
  | parse
  | build
  | reached
  | options
deriving DecidableEq, Inhabited

def LaunchStage.text : LaunchStage → String
  | parse => "parse"
  | build => "build"
  | reached => "reached"
  | options => "options"

/-- A failed start. -/
structure LaunchError where
  stage : LaunchStage
  error : ConfigError
deriving DecidableEq, Inhabited

/-- A session that has started. -/
structure Launched where
  Memory : Type
  session : Session Memory
  /-- Whether all options were read. -/
  unused : Except ConfigError Unit

/-- The child with the given spec, built from the configuration by itself. -/
def child (b : Blueprint) (spec : String) : Except ConfigError Facts.FactPlan := do
  let c ← Configuration.parse b.configuration
  (b.registry.build.perform (c.set "cpa" spec)).1

/-- The plan of a root, given the plans of its children. -/
def rootPlan (children : List Facts.FactPlan) : Root → Except ConfigError Facts.FactPlan
  | .product merge settings => do
    let kind ← match merge with
      | some text => MergeKind.read text
      | none => pure .plain
    let options := match settings with
      | some o => { o with merge := kind }
      | none => {}
    Catalogue.product "composite" options children
  | .memo => Catalogue.memo Facts.leafInfo (children.headD .location)
  | .monitor limits => .ok (.monitored limits (children.headD .location))
  | .property p => .ok (.checked p.check (children.headD .location))

/-- The plan of the analysis of a session. -/
def plan (b : Blueprint) : Setup Facts.FactPlan :=
  match b.root with
  | none => b.registry.build
  | some (root, specs) => Setup.ofExcept do rootPlan (← specs.mapM (child b)) root

/-- The session with the given parts. Its first handle belongs to the plain precision that is
numbered zero. -/
def start (b : Blueprint) (a : Assembly FactValue Level) (next : Handle)
    (frontier : AnyFrontier FactValue) (options : RunOptions) : Session a.Memory :=
  let (session, tokens) := Tokens.empty.create
  let (token, tokens) := tokens.child session
  { tree := a.tree
    world := ⟨next, tokens, session, .zero, a.initial⟩
    reached := .ofFrontier b.program frontier
    options := options
    target := b.target
    runner := { options := options, target := b.target, token := token }
    states := []
    precisions := [.plain ⟨0⟩]
    handmade := b.root.isSome }

/-- Starts a session. -/
def launch (b : Blueprint) : Except LaunchError Launched :=
  match Configuration.parse b.configuration with
  | .error e => .error ⟨.parse, e⟩
  | .ok c =>
    match (plan b).perform c with
    | (.error e, _) => .error ⟨.build, e⟩
    | (.ok p, c) =>
      match OrderSettings.ofOptions.perform c with
      | (.error e, _) => .error ⟨.reached, e⟩
      | (.ok order, c) =>
        match RunOptions.ofOptions.perform c with
        | (.error e, _) => .error ⟨.options, e⟩
        | (.ok options, c) =>
          let (a, next) := p.assemble b.program Facts.Leaf.assemble ⟨1⟩
          let configured := AnyFrontier.ofSettings b.program order
          let frontier := (b.frontier.map FrontierChoice.frontier).getD configured
          .ok ⟨a.Memory, start b a next frontier options, c.checkUnused⟩

end ProgramAnalysis.Session
