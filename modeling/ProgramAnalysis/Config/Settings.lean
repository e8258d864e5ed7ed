import ProgramAnalysis.Config.Basic
import ProgramAnalysis.Exploration.Status
import ProgramAnalysis.Reached.Waitlist
/-!
The options that do not belong to one analysis: the order of the exploration, and when it stops.
-/

namespace ProgramAnalysis

/-- The configured order of the exploration. -/
structure OrderSettings where
  order : Order
  /-- Whether locations are taken in reverse postorder, and `order` decides only among entries of
  the same location. -/
  reversePostorder : Bool
deriving DecidableEq, Inhabited

namespace Order

/-- What the text of an order may be. -/
def expected : String := "DFS or BFS"

/-- The order that an option names. -/
def ofOption (key : String) : Setup (Option Order) := Setup.getAs key expected ofText?

/-- Reads an order by itself. -/
def read (s : String) : Except ConfigError Order :=
  match ofText? s with
  | some order => .ok order
  | none => .error (.invalidValue "analysis.traversal.order" s expected)

end Order

def OrderSettings.ofOptions : Setup OrderSettings := do
  let order := (← Order.ofOption "analysis.traversal.order").getD .depthFirst
  let reversePostorder ← Setup.getBool "analysis.traversal.useReversePostorder" false
  return ⟨order, reversePostorder⟩

def RunOptions.ofOptions : Setup RunOptions := do
  let stopAtTarget ← Setup.getBool "analysis.stopAfterError" true
  let maxIterations ← Setup.getNat "analysis.maxIterations"
  return ⟨stopAtTarget, maxIterations⟩

end ProgramAnalysis
