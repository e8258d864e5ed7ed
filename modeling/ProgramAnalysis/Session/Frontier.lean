import ProgramAnalysis.Config.Settings
import ProgramAnalysis.Facts.Basic
import ProgramAnalysis.Reached.Basic
/-!
The frontiers that a session can choose from.
-/

namespace ProgramAnalysis

/-- A frontier of one of several policies. -/
inductive AnyFrontier (ν : Type) where
  | simple (list : SimpleWaitlist)
  /-- A frontier from which nothing can be unscheduled. -/
  | sticky (list : SimpleWaitlist)
  | keyed (list : KeyedWaitlist ν)

namespace AnyFrontier

variable {ν : Type}

def pop : AnyFrontier ν → Option EntryId × AnyFrontier ν
  | simple l => (l.pop.1, simple l.pop.2)
  | sticky l => (l.pop.1, sticky l.pop.2)
  | keyed l => (l.pop.1, keyed l.pop.2)

def remove (f : AnyFrontier ν) (id : EntryId) : Bool × AnyFrontier ν :=
  match f with
  | simple l => ((l.remove id).1, simple (l.remove id).2)
  | sticky l => (false, sticky l)
  | keyed l => ((l.remove id).1, keyed (l.remove id).2)

def contains (f : AnyFrontier ν) (id : EntryId) : Bool :=
  match f with
  | simple l => l.contains id
  | sticky l => l.contains id
  | keyed l => l.contains id

def size : AnyFrontier ν → Nat
  | simple l => l.size
  | sticky l => l.size
  | keyed l => l.size

def clear : AnyFrontier ν → AnyFrontier ν
  | simple l => simple l.clear
  | sticky l => sticky l.clear
  | keyed l => keyed l.clear

def push (f : AnyFrontier ν) (id : EntryId) (n : NodeId) (s : State ν) : AnyFrontier ν :=
  match f with
  | simple l => simple (l.push id)
  | sticky l => sticky (l.push id)
  | keyed l => keyed (l.push id n s)

/-- The frontier with the configured order. -/
def ofSettings (program : Program) (o : OrderSettings) : AnyFrontier ν :=
  if o.reversePostorder then keyed (.reversePostorder program o.order)
  else simple (.ofOrder o.order)

end AnyFrontier

instance {ν : Type} : Frontier (AnyFrontier ν) where
  pop := AnyFrontier.pop
  remove := AnyFrontier.remove
  contains := AnyFrontier.contains
  size := AnyFrontier.size
  clear := AnyFrontier.clear

instance {ν : Type} : Waitlist (AnyFrontier ν) ν where
  push := AnyFrontier.push

/-- A choice of the frontier that does not come from the configuration. -/
inductive FrontierChoice where
  | ordered (order : Order)
  | sticky (order : Order)
  /-- The state with the most facts first. -/
  | mostFacts (order : Order)
deriving DecidableEq, Inhabited

def FrontierChoice.frontier : FrontierChoice → AnyFrontier FactValue
  | ordered o => .simple (.ofOrder o)
  | sticky o => .sticky (.ofOrder o)
  | mostFacts o =>
    .keyed (.ofKey (fun _ s => -((s.facts?.map FactSet.size).getD 0 : Int)) o)

end ProgramAnalysis
