import ProgramAnalysis.Index
import ProgramAnalysis.OrderedMap
import ProgramAnalysis.Reached.Waitlist
/-!
Waitlists that can tell without a search whether an entry waits.

`DequeWaitlist` has the policies of `SimpleWaitlist` and keeps the set of what is in its queue.
`SlotWaitlist` has those of `KeyedWaitlist`. Every push gets a slot: the key, and a number that is
made from a 64-bit counter so that among equal keys the slots come in the wanted order. An ordered
map leads from slots to entries, and an index back from entries to slots.
-/

namespace ProgramAnalysis

/-! ## Newest or oldest first -/

/-- A queue, the oldest entry first, with the set of its members. -/
structure DequeWaitlist where
  order : Order
  queue : List EntryId
  members : Index EntryId Unit
deriving DecidableEq, Inhabited

namespace DequeWaitlist

def ofOrder (order : Order) : DequeWaitlist := ⟨order, [], .empty⟩

def contains (w : DequeWaitlist) (id : EntryId) : Bool := w.members.contains id

def push (w : DequeWaitlist) (id : EntryId) : DequeWaitlist :=
  if w.members.contains id then w
  else { w with members := w.members.insert id (), queue := w.queue ++ [id] }

/-- Takes an entry off the end where the order takes. -/
def takeEnd (order : Order) (queue : List EntryId) : Option (EntryId × List EntryId) :=
  match order with
  | .depthFirst => queue.getLast?.map fun id => (id, queue.dropLast)
  | .breadthFirst => queue.head?.map fun id => (id, queue.tail)

def pop (w : DequeWaitlist) : Option EntryId × DequeWaitlist :=
  match takeEnd w.order w.queue with
  | none => (none, w)
  | some (id, rest) => (some id, { w with queue := rest, members := w.members.erase id })

def remove (w : DequeWaitlist) (id : EntryId) : Bool × DequeWaitlist :=
  if w.members.contains id then
    (true, { w with members := w.members.erase id, queue := w.queue.filter fun x => x ≠ id })
  else (false, w)

def size (w : DequeWaitlist) : Nat := w.queue.length

def clear (w : DequeWaitlist) : DequeWaitlist := { w with queue := [], members := .empty }

end DequeWaitlist

instance : Frontier DequeWaitlist where
  pop := DequeWaitlist.pop
  remove := DequeWaitlist.remove
  contains := DequeWaitlist.contains
  size := DequeWaitlist.size
  clear := DequeWaitlist.clear

instance {ν : Type} : Waitlist DequeWaitlist ν where
  push w id _ _ := w.push id

/-! ## Smallest key first -/

namespace SlotWaitlist

/-- Where an entry stands among those that wait. -/
structure Slot where
  key : Int
  tie : UInt64
deriving DecidableEq, Inhabited

namespace Slot

/-- The smaller key comes first, and among equal keys the larger tie. -/
instance : Ord Slot := ⟨compareLex (compareOn Slot.key) fun a b => compareOn Slot.tie b a⟩

instance : Std.TransOrd Slot :=
  inferInstanceAs (Std.TransCmp (compareLex (compareOn Slot.key) fun a b => compareOn Slot.tie b a))

/-- The largest 64-bit number. -/
def lastTie : UInt64 := 0xFFFFFFFFFFFFFFFF

/-- The tie of the push with a number. Later pushes have larger ties if the newest entry is to come
first, and smaller ones otherwise. -/
def tieOf : Order → UInt64 → UInt64
  | .depthFirst, counter => counter
  | .breadthFirst, counter => lastTie - counter

end Slot

end SlotWaitlist

/-- An ordered map from slots to entries and an index from entries to slots. Pushes are counted from
the start, also across `clear`. -/
structure SlotWaitlist (ν : Type) where
  key : NodeId → State ν → Int
  order : Order
  items : OrderedMap SlotWaitlist.Slot EntryId
  index : Index EntryId SlotWaitlist.Slot
  counter : UInt64

namespace SlotWaitlist

variable {ν : Type}

def ofKey (key : NodeId → State ν → Int) (order : Order) : SlotWaitlist ν :=
  ⟨key, order, .empty, .empty, 0⟩

/-- Takes locations in reverse postorder of the program. -/
def reversePostorder (p : Program) (order : Order) : SlotWaitlist ν :=
  let ranks := p.reversePostorder
  ofKey (fun n _ => (Program.rankIn ranks n : Int)) order

def contains (w : SlotWaitlist ν) (id : EntryId) : Bool := w.index.contains id

def push (w : SlotWaitlist ν) (id : EntryId) (n : NodeId) (s : State ν) : SlotWaitlist ν :=
  if w.index.contains id then w
  else
    let counter := w.counter + 1
    let slot : Slot := ⟨w.key n s, Slot.tieOf w.order counter⟩
    { w with
      items := w.items.insert slot id
      index := w.index.insert id slot
      counter := counter }

def pop (w : SlotWaitlist ν) : Option EntryId × SlotWaitlist ν :=
  match w.items.popFirst with
  | (none, _) => (none, w)
  | (some (_, id), items) => (some id, { w with items := items, index := w.index.erase id })

def remove (w : SlotWaitlist ν) (id : EntryId) : Bool × SlotWaitlist ν :=
  match w.index.get? id with
  | some slot => (true, { w with items := w.items.erase slot, index := w.index.erase id })
  | none => (false, w)

def size (w : SlotWaitlist ν) : Nat := w.items.size

def clear (w : SlotWaitlist ν) : SlotWaitlist ν := { w with items := .empty, index := .empty }

def describe (w : SlotWaitlist ν) : String :=
  let order := match w.order with
    | .depthFirst => "Dfs"
    | .breadthFirst => "Bfs"
  "KeyedWaitlist \x7b secondary: " ++ order ++ ", len: " ++ Nat.repr w.size ++ " \x7d"

end SlotWaitlist

instance {ν : Type} : Frontier (SlotWaitlist ν) where
  pop := SlotWaitlist.pop
  remove := SlotWaitlist.remove
  contains := SlotWaitlist.contains
  size := SlotWaitlist.size
  clear := SlotWaitlist.clear

instance {ν : Type} : Waitlist (SlotWaitlist ν) ν where
  push := SlotWaitlist.push

end ProgramAnalysis
