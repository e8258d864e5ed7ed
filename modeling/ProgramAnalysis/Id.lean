/-!
Names of the things that an exploration speaks of: program locations and edges, entries of the
reached set, nodes of the reachability graph, and the handles that tell two states apart even when
their contents agree.
-/

namespace ProgramAnalysis

/-- A location of the analysed program. -/
structure NodeId where
  index : Nat
deriving DecidableEq, Inhabited

def NodeId.text (n : NodeId) : String := "N" ++ Nat.repr n.index

/-- An edge of the analysed program. -/
structure EdgeId where
  index : Nat
deriving DecidableEq, Inhabited

def EdgeId.text (e : EdgeId) : String := "E" ++ Nat.repr e.index

/-- An entry of the reached set. -/
structure EntryId where
  index : Nat
deriving DecidableEq, Inhabited

def EntryId.text (e : EntryId) : String := "#" ++ Nat.repr e.index

/-- A node of the reachability graph. -/
structure GraphNodeId where
  index : Nat
deriving DecidableEq, Inhabited

def GraphNodeId.text (n : GraphNodeId) : String := "A" ++ Nat.repr n.index

/-- The identity of a state or of a precision. Operators report "nothing changed" by returning the
very handle that they were given, so two values of equal content may still differ. -/
structure Handle where
  serial : Nat
deriving DecidableEq, Inhabited

/-- The handle after this one. -/
def Handle.next (h : Handle) : Handle := ⟨h.serial + 1⟩

/-- A part of the state space that is explored by itself: states of different partitions are never
compared. -/
inductive Partition where
  | whole
  | keyed (key : String)
deriving DecidableEq, Inhabited

namespace Partition

def text : Partition → String
  | whole => "default"
  | keyed key => key

def key? : Partition → Option String
  | whole => none
  | keyed key => some key

def ofKey? : Option String → Partition
  | none => whole
  | some key => keyed key

/-- The whole space comes first, keys follow in their own order. -/
def order : Partition → Partition → Ordering
  | whole, whole => .eq
  | whole, keyed _ => .lt
  | keyed _, whole => .gt
  | keyed a, keyed b => compare a b

end Partition

end ProgramAnalysis
