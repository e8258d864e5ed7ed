import ProgramAnalysis.Program.Basic
/-!
Programs under construction. A step that would break the shape of the program (an edge to an unknown
location, a second definition of a function) is refused and leaves the draft as it was, so every
program that is built has its edges between its own locations and starts at one of them.
-/

namespace ProgramAnalysis

/-- Why a construction step is refused. -/
inductive DraftError where
  | functionDefined (name : String)
  | unknownSource (node : NodeId)
  | unknownTarget (node : NodeId)
  | unknownEntry (node : NodeId)
  | noNodes
deriving DecidableEq, Inhabited

def DraftError.message : DraftError → String
  | functionDefined name => "Function '" ++ name ++ "' is already defined"
  | unknownSource node => "Unknown source node " ++ node.text
  | unknownTarget node => "Unknown target node " ++ node.text
  | unknownEntry node => "Unknown entry node " ++ node.text
  | noNodes => "CFA must contain at least one node"

/-- A program under construction. -/
structure Draft where
  nodes : Array ProgramNode
  edges : Array ProgramEdge
  functions : List FunctionSpan
  entry : Option NodeId
deriving Inhabited

namespace Draft

def empty : Draft := ⟨#[], #[], [], none⟩

/-- Adds a location that plays the given part in a function. -/
def pushNode (d : Draft) (function : String) (kind : NodeKind) : NodeId × Draft :=
  let id : NodeId := ⟨d.nodes.size⟩
  (id, { d with nodes := d.nodes.push ⟨id, function, kind⟩ })

/-- Adds a plain location. -/
def addNode (d : Draft) (function : String) : NodeId × Draft := d.pushNode function .plain

/-- Adds a function with a new entry and a new exit. The program starts at the first function that
was added, unless another start is chosen. -/
def addFunction (d : Draft) (name : String) : Except DraftError (FunctionSpan × Draft) :=
  if d.functions.any fun f => f.name = name then .error (.functionDefined name)
  else
    let (entry, d₁) := d.pushNode name .entry
    let (exit, d₂) := d₁.pushNode name .exit
    let span : FunctionSpan := ⟨name, entry, exit⟩
    .ok (span, { d₂ with functions := d₂.functions ++ [span], entry := d₂.entry.or (some entry) })

/-- Adds an edge between two known locations. -/
def addEdge (d : Draft) (source target : NodeId) (kind : EdgeKind) (payload : Option String) :
    Except DraftError (EdgeId × Draft) :=
  if d.nodes.size ≤ source.index then .error (.unknownSource source)
  else if d.nodes.size ≤ target.index then .error (.unknownTarget target)
  else
    let id : EdgeId := ⟨d.edges.size⟩
    .ok (id, { d with edges := d.edges.push ⟨id, kind, source, target, payload⟩ })

/-- Chooses the location where the program starts. -/
def setEntry (d : Draft) (entry : NodeId) : Except DraftError Draft :=
  if d.nodes.size ≤ entry.index then .error (.unknownEntry entry)
  else .ok { d with entry := some entry }

/-- The finished program. Without a chosen start and without a function it starts at location 0. -/
def build (d : Draft) : Except DraftError Program :=
  if d.nodes.size = 0 then .error .noNodes
  else .ok ⟨d.nodes, d.edges, d.functions, d.entry.getD ⟨0⟩⟩

end Draft

end ProgramAnalysis
