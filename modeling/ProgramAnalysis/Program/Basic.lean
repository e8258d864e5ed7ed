import ProgramAnalysis.Id
/-!
The analysed program as a graph of locations and edges.

Locations and edges are numbered in the order in which they were created. The edges that leave or
enter a location are listed in that order, and of several edges between the same two locations the
newest one is found.
-/

namespace ProgramAnalysis

/-- What an edge does. -/
inductive EdgeKind where
  | blank
  /-- A branch that is taken when its condition has the value `truth`. -/
  | assume (truth : Bool)
  | statement
  | declaration
  | call
  /-- The way back from a called function. -/
  | returnFrom
  /-- A return statement. -/
  | leave
deriving DecidableEq, Inhabited

namespace EdgeKind

def text : EdgeKind → String
  | blank => "blank"
  | assume true => "assume"
  | assume false => "assume!"
  | statement => "statement"
  | declaration => "declaration"
  | call => "call"
  | returnFrom => "return-from"
  | leave => "return"

/-- The kinds in the order of their declaration. -/
def all : List EdgeKind :=
  [blank, assume true, assume false, statement, declaration, call, returnFrom, leave]

/-- The kind with the given text. -/
def ofText? (s : String) : Option EdgeKind := all.find? fun k => k.text == s

end EdgeKind

/-- The part a location plays in its function. -/
inductive NodeKind where
  | plain
  | entry
  | exit
deriving DecidableEq, Inhabited

/-- A location of the program. -/
structure ProgramNode where
  id : NodeId
  function : String
  kind : NodeKind
deriving DecidableEq, Inhabited

/-- An edge of the program, with the source text it stands for, if that is known. -/
structure ProgramEdge where
  id : EdgeId
  kind : EdgeKind
  source : NodeId
  target : NodeId
  payload : Option String
deriving DecidableEq, Inhabited

def ProgramEdge.text (e : ProgramEdge) : String :=
  e.source.text ++ " -" ++ e.kind.text ++ "-> " ++ e.target.text ++
    match e.payload with
    | some p => " [" ++ p ++ "]"
    | none => ""

/-- Entry and exit location of a function. -/
structure FunctionSpan where
  name : String
  entry : NodeId
  exit : NodeId
deriving DecidableEq, Inhabited

/-- A program: its locations and edges by number, its functions in the order of their definition,
and the location where it starts. -/
structure Program where
  nodes : Array ProgramNode
  edges : Array ProgramEdge
  functions : List FunctionSpan
  entry : NodeId
deriving Inhabited

namespace Program

def nodeCount (p : Program) : Nat := p.nodes.size

def edgeCount (p : Program) : Nat := p.edges.size

/-- Whether a location belongs to the program. -/
def contains (p : Program) (n : NodeId) : Bool := n.index < p.nodes.size

def node? (p : Program) (n : NodeId) : Option ProgramNode := p.nodes[n.index]?

def edge? (p : Program) (e : EdgeId) : Option ProgramEdge := p.edges[e.index]?

/-- The edges that start at a location, oldest first. -/
def leaving (p : Program) (n : NodeId) : List ProgramEdge :=
  p.edges.toList.filter fun e => e.source = n

/-- The edges that end at a location, oldest first. -/
def entering (p : Program) (n : NodeId) : List ProgramEdge :=
  p.edges.toList.filter fun e => e.target = n

/-- The newest edge from one location to another. -/
def edgeBetween? (p : Program) (source target : NodeId) : Option ProgramEdge :=
  p.edges.toList.reverse.find? fun e => e.source = source ∧ e.target = target

def function? (p : Program) (name : String) : Option FunctionSpan :=
  p.functions.find? fun f => f.name = name

def isFunctionEntry (p : Program) (n : NodeId) : Bool :=
  (p.node? n).any fun m => m.kind = .entry

def isFunctionExit (p : Program) (n : NodeId) : Bool :=
  (p.node? n).any fun m => m.kind = .exit

/-- The names of the functions in ascending order. -/
def functionNames (p : Program) : List String :=
  (p.functions.map FunctionSpan.name).mergeSort fun a b => decide (a ≤ b)

end Program

end ProgramAnalysis
