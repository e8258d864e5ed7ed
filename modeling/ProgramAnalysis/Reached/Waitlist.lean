import ProgramAnalysis.Program.Postorder
import ProgramAnalysis.State
/-!
Waitlists: the entries of the reached set that are still to be expanded.

`Frontier` and `Waitlist` are what the exploration asks of a policy. `SimpleWaitlist` takes the
newest or the oldest entry, `KeyedWaitlist` takes an entry with the smallest key and falls back on
one of these orders among equal keys. Both keep an entry at most once.
-/

namespace ProgramAnalysis

/-- Entries that wait, with a policy that decides which one comes next. -/
class Frontier (θ : Type) where
  /-- Takes the next entry. -/
  pop : θ → Option EntryId × θ
  /-- Unschedules an entry, and says whether it was waiting. -/
  remove : θ → EntryId → Bool × θ
  contains : θ → EntryId → Bool
  size : θ → Nat
  clear : θ → θ

/-- A frontier that takes entries with states of leaf values `ν`. -/
class Waitlist (θ ν : Type) extends Frontier θ where
  /-- Schedules an entry, given its location and its state. -/
  push : θ → EntryId → NodeId → State ν → θ

/-- The basic orders. -/
inductive Order where
  /-- The newest first. -/
  | depthFirst
  /-- The oldest first. -/
  | breadthFirst
deriving DecidableEq, Inhabited

namespace Order

def text : Order → String
  | depthFirst => "DFS"
  | breadthFirst => "BFS"

/-- Reads the text of an order; upper and lower case letters count the same. -/
def ofText? (s : String) : Option Order :=
  let t := String.ofList (s.toList.map Char.toUpper)
  if t = "DFS" then some depthFirst
  else if t = "BFS" then some breadthFirst
  else none

end Order

/-- Newest or oldest first. The oldest entry is at the head of the queue. -/
structure SimpleWaitlist where
  order : Order
  queue : List EntryId
deriving DecidableEq, Inhabited

namespace SimpleWaitlist

def ofOrder (order : Order) : SimpleWaitlist := ⟨order, []⟩

def contains (w : SimpleWaitlist) (id : EntryId) : Bool := w.queue.contains id

def push (w : SimpleWaitlist) (id : EntryId) : SimpleWaitlist :=
  if w.contains id then w else { w with queue := w.queue ++ [id] }

/-- The entry that comes next. -/
def next? (w : SimpleWaitlist) : Option EntryId :=
  match w.order with
  | .depthFirst => w.queue.getLast?
  | .breadthFirst => w.queue.head?

def pop (w : SimpleWaitlist) : Option EntryId × SimpleWaitlist :=
  (w.next?, match w.order with
    | .depthFirst => { w with queue := w.queue.dropLast }
    | .breadthFirst => { w with queue := w.queue.tail })

def remove (w : SimpleWaitlist) (id : EntryId) : Bool × SimpleWaitlist :=
  (w.contains id, { w with queue := w.queue.filter fun x => x ≠ id })

def size (w : SimpleWaitlist) : Nat := w.queue.length

def clear (w : SimpleWaitlist) : SimpleWaitlist := { w with queue := [] }

end SimpleWaitlist

instance : Frontier SimpleWaitlist where
  pop := SimpleWaitlist.pop
  remove := SimpleWaitlist.remove
  contains := SimpleWaitlist.contains
  size := SimpleWaitlist.size
  clear := SimpleWaitlist.clear

instance {ν : Type} : Waitlist SimpleWaitlist ν where
  push w id _ _ := w.push id

/-- A waiting entry with the key it had when it was pushed and the number of the push. -/
structure Ticket where
  id : EntryId
  key : Int
  stamp : Nat
deriving DecidableEq, Inhabited

/-- Whether `a` comes before `b`: the smaller key does, and `order` decides among equal keys. -/
def Ticket.before (order : Order) (a b : Ticket) : Bool :=
  a.key < b.key || (a.key = b.key &&
    match order with
    | .depthFirst => decide (b.stamp < a.stamp)
    | .breadthFirst => decide (a.stamp < b.stamp))

/-- Smallest key first. The tickets are kept in the order in which they will be taken, and pushes
are counted from the start, also across `clear`. -/
structure KeyedWaitlist (ν : Type) where
  key : NodeId → State ν → Int
  order : Order
  tickets : List Ticket
  pushes : Nat

namespace KeyedWaitlist

variable {ν : Type}

def ofKey (key : NodeId → State ν → Int) (order : Order) : KeyedWaitlist ν := ⟨key, order, [], 0⟩

/-- Takes locations in reverse postorder of the program, so that what leads to a location is
expanded before the location itself. -/
def reversePostorder (p : Program) (order : Order) : KeyedWaitlist ν :=
  let ranks := p.reversePostorder
  ofKey (fun n _ => (Program.rankIn ranks n : Int)) order

def contains (w : KeyedWaitlist ν) (id : EntryId) : Bool := w.tickets.any fun t => t.id = id

/-- Puts a ticket before the first one that it comes before. -/
def place (order : Order) (t : Ticket) : List Ticket → List Ticket
  | [] => [t]
  | u :: rest => if t.before order u then t :: u :: rest else u :: place order t rest

def push (w : KeyedWaitlist ν) (id : EntryId) (n : NodeId) (s : State ν) : KeyedWaitlist ν :=
  if w.contains id then w
  else
    { w with
      tickets := place w.order ⟨id, w.key n s, w.pushes + 1⟩ w.tickets
      pushes := w.pushes + 1 }

def pop (w : KeyedWaitlist ν) : Option EntryId × KeyedWaitlist ν :=
  (w.tickets.head?.map Ticket.id, { w with tickets := w.tickets.tail })

def remove (w : KeyedWaitlist ν) (id : EntryId) : Bool × KeyedWaitlist ν :=
  (w.contains id, { w with tickets := w.tickets.filter fun t => t.id ≠ id })

def size (w : KeyedWaitlist ν) : Nat := w.tickets.length

def clear (w : KeyedWaitlist ν) : KeyedWaitlist ν := { w with tickets := [] }

end KeyedWaitlist

instance {ν : Type} : Frontier (KeyedWaitlist ν) where
  pop := KeyedWaitlist.pop
  remove := KeyedWaitlist.remove
  contains := KeyedWaitlist.contains
  size := KeyedWaitlist.size
  clear := KeyedWaitlist.clear

instance {ν : Type} : Waitlist (KeyedWaitlist ν) ν where
  push := KeyedWaitlist.push

end ProgramAnalysis
