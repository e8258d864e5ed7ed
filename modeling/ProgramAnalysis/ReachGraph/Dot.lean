import ProgramAnalysis.ReachGraph.Basic
/-!
The live part of the reachability graph in the DOT language. Roots are on the first rank, covered
nodes have a style of their own, targets are filled, and a covered node points to the node that
covers it.
-/

namespace ProgramAnalysis

/-- How a graph is drawn. -/
structure DotStyle where
  nodeShape : String := "box"
  coveredStyle : String := "dashed"
  coveringEdgeStyle : String := "dashed"
  targetColor : String := "red"
  /-- Whether edges are labelled with the program edge that they stand for. -/
  edgeLabels : Bool := true
deriving DecidableEq, Inhabited

namespace ReachGraph

variable {ν : Type}

/-- The label of a node. -/
def dotLabel (id : GraphNodeId) (n : GraphNode ν) : String :=
  match n.location with
  | some location => id.text ++ " @ " ++ location.text
  | none => id.text

/-- The attribute that holds the label of a node. -/
def dotLabelAttribute (id : GraphNodeId) (n : GraphNode ν) : String :=
  "label=\"" ++ dotLabel id n ++ "\""

/-- The line of a root on the first rank. -/
def dotRoot (g : ReachGraph ν) (id : GraphNodeId) : String :=
  match (g.node? id).filter GraphNode.isLive with
  | some n => id.text ++ " [" ++ dotLabelAttribute id n ++ "];\n"
  | none => ""

/-- The line of a node. -/
def dotNode (style : DotStyle) (targets : List GraphNodeId) (id : GraphNodeId) (n : GraphNode ν) :
    String :=
  let covered := if n.isCovered then ["style=" ++ style.coveredStyle] else []
  let target :=
    if targets.contains id then ["style=filled, fillcolor=" ++ style.targetColor] else []
  id.text ++ " [" ++ Text.joinWith ", " (dotLabelAttribute id n :: covered ++ target) ++ "];\n"

/-- The line of a link from a parent. -/
def dotParent (style : DotStyle) (id : GraphNodeId) (link : ParentLink) : String :=
  match link.2 with
  | some edge =>
    if style.edgeLabels then
      link.1.text ++ " -> " ++ id.text ++ " [label=\"" ++ edge.text ++ "\"];\n"
    else link.1.text ++ " -> " ++ id.text ++ ";\n"
  | none => link.1.text ++ " -> " ++ id.text ++ ";\n"

/-- The lines of the links of a node. -/
def dotLinks (style : DotStyle) (id : GraphNodeId) (n : GraphNode ν) : String :=
  String.join (n.parents.map (dotParent style id)) ++
    match n.coveredBy with
    | some coverer =>
      id.text ++ " -> " ++ coverer.text ++ " [style=" ++ style.coveringEdgeStyle ++
        ", arrowhead=empty];\n"
    | none => ""

/-- The drawing of a graph with some of its nodes marked as targets. -/
def dot (g : ReachGraph ν) (style : DotStyle) (targets : List GraphNodeId) : String :=
  "digraph ARG \x7b\n" ++ "node [shape=" ++ style.nodeShape ++ "];\n" ++ "\x7b rank=source\n" ++
    String.join (g.roots.map g.dotRoot) ++ "\x7d\n" ++
    String.join (g.liveNodes.map fun (id, n) => dotNode style targets id n) ++
    String.join (g.liveNodes.map fun (id, n) => dotLinks style id n) ++ "\x7d\n"

end ReachGraph

end ProgramAnalysis
