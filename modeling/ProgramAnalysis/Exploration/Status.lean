import ProgramAnalysis.Error
import ProgramAnalysis.Statistics
/-!
How a run ends, what it is asked to do, and what it counts on the way.
-/

namespace ProgramAnalysis

/-- Why a run stopped early. -/
inductive BreakReason where
  /-- An adjustment asked for it. -/
  | adjustment
  /-- A backend failed in an adjustment that had no fallback. -/
  | backendFailure (text : String)
  | iterationLimit
deriving DecidableEq, Inhabited

def BreakReason.text : BreakReason → String
  | adjustment => "precision adjustment requested a break"
  | backendFailure text => "backend failure: " ++ text
  | iterationLimit => "iteration limit reached"

/-- How a run ended. -/
inductive Status where
  /-- Nothing is left to expand and no target was found. -/
  | exhausted
  | targetFound
  | broken (reason : BreakReason)
  | interrupted
deriving DecidableEq, Inhabited

namespace Status

def text : Status → String
  | exhausted => "EXHAUSTED"
  | targetFound => "TARGET_FOUND"
  | broken reason => "BROKEN (" ++ reason.text ++ ")"
  | interrupted => "INTERRUPTED"

/-- Whether the reached set covers everything that can be reached. -/
def isComplete : Status → Bool
  | exhausted => true
  | _ => false

def isBroken : Status → Bool
  | broken _ => true
  | _ => false

end Status

/-- What a run is asked to do. -/
structure RunOptions where
  /-- Whether the first target ends the run. -/
  stopAtTarget : Bool := true
  maxIterations : Option Nat := none
deriving DecidableEq, Inhabited

/-- The operators whose calls are timed. -/
inductive Watch where
  | transfer
  | adjustment
  | merge
  | stop
deriving DecidableEq, Inhabited

/-- What a run counts. -/
structure Counters where
  iterations : Nat := 0
  maxWaiting : Nat := 0
  totalWaiting : Nat := 0
  successors : Nat := 0
  merges : Nat := 0
  stops : Nat := 0
  breaks : Nat := 0
  droppedEdges : Nat := 0
  transferTime : Timer := .zero
  adjustmentTime : Timer := .zero
  mergeTime : Timer := .zero
  stopTime : Timer := .zero
deriving DecidableEq, Inhabited

namespace Counters

/-- Counts an iteration that leaves the given number of entries waiting. -/
def iteration (c : Counters) (waiting : Nat) : Counters :=
  { c with
    iterations := c.iterations + 1
    maxWaiting := max c.maxWaiting waiting
    totalWaiting := c.totalWaiting + waiting }

/-- Records the time of one call. -/
def record (c : Counters) (elapsed : Duration) : Watch → Counters
  | .transfer => { c with transferTime := c.transferTime.record elapsed }
  | .adjustment => { c with adjustmentTime := c.adjustmentTime.record elapsed }
  | .merge => { c with mergeTime := c.mergeTime.record elapsed }
  | .stop => { c with stopTime := c.stopTime.record elapsed }

/-- The counts as named values. -/
def counts (c : Counters) : List (String × String) :=
  [("iterations", Nat.repr c.iterations),
   ("max waitlist size", Nat.repr c.maxWaiting),
   ("avg waitlist size", Text.average c.totalWaiting c.iterations),
   ("successors", Nat.repr c.successors),
   ("merges", Nat.repr c.merges),
   ("stops", Nat.repr c.stops),
   ("breaks", Nat.repr c.breaks),
   ("dropped edges", Nat.repr c.droppedEdges)]

/-- The stopwatches with the names under which they are reported. -/
def timers (c : Counters) : List (String × Timer) :=
  [("transfer time", c.transferTime),
   ("precision adjustment time", c.adjustmentTime),
   ("merge time", c.mergeTime),
   ("stop time", c.stopTime)]

/-- All rows of the report. -/
def report (c : Counters) : List (String × String) :=
  c.counts ++ c.timers.map fun (name, t) => (name, t.text)

end Counters

end ProgramAnalysis
