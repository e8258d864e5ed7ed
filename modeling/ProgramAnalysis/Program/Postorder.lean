import ProgramAnalysis.Program.Basic
/-!
Reverse postorder numbers of the locations of a program.

A search from one location lists what it reaches, each location when all that follows it is done.
The numbering takes such a search as a parameter. It starts the search at the entry of the program
and then at the entries of its functions in ascending order, each time from scratch, and keeps those
locations that were not listed before. All that was kept is numbered backwards. A location that no
start reaches gets the number `unreached`.

`search` is a depth-first search that follows the edges of a location oldest first.
-/

namespace ProgramAnalysis.Program

/-! ## Numbering -/

/-- Where the searches start. -/
def starts (p : Program) : List NodeId :=
  p.entry :: (p.functions.map FunctionSpan.entry).mergeSort fun a b => decide (a.index ≤ b.index)

/-- The locations listed so far, with a mark for each of them. -/
structure Postorder where
  visited : Array Bool
  listed : Array NodeId
deriving Inhabited

namespace Postorder

def isVisited (s : Postorder) (n : NodeId) : Bool := s.visited.getD n.index false

/-- Lists a location, unless it was visited. -/
def list (s : Postorder) (n : NodeId) : Postorder :=
  if s.isVisited n then s
  else ⟨s.visited.setIfInBounds n.index true, s.listed.push n⟩

end Postorder

/-- Searches from one more start, unless it was visited. The search itself knows nothing of what was
listed before. -/
def listFrom (p : Program) (search : NodeId → List NodeId) (s : Postorder) (start : NodeId) :
    Postorder :=
  if !p.contains start || s.isVisited start then s else (search start).foldl .list s

/-- What the searches from all starts list. -/
def postorder (p : Program) (search : NodeId → List NodeId) : Postorder :=
  p.starts.foldl (p.listFrom search) ⟨.replicate p.nodeCount false, #[]⟩

/-- The number of a location that is not reached. -/
def unreached : Nat := Nat.pow 2 32 - 1

/-- The numbers of all locations: the one listed last gets the number zero. -/
def reversePostorderBy (p : Program) (search : NodeId → List NodeId) : Array Nat :=
  let listed := (p.postorder search).listed
  listed.toList.zipIdx.foldl (fun ranks (n, i) => ranks.setIfInBounds n.index (listed.size - 1 - i))
    (.replicate p.nodeCount unreached)

/-- The number of a location in a table of all numbers. -/
def rankIn (ranks : Array Nat) (n : NodeId) : Nat := ranks.getD n.index unreached

/-- The number of a location, given how one start is searched. -/
def rankBy (p : Program) (search : NodeId → List NodeId) (n : NodeId) : Nat :=
  rankIn (p.reversePostorderBy search) n

/-! ## Depth-first search -/

/-- The state of a search: the locations seen so far, and the finished ones, the last one first. -/
structure Search where
  seen : List NodeId
  finished : List NodeId
deriving Inhabited

/-- Searches from `n`, unless it was seen before; `fuel` bounds the depth. -/
def visit (p : Program) : Nat → NodeId → Search → Search
  | 0, _, s => s
  | fuel + 1, n, s =>
    if s.seen.contains n then s
    else
      let s' := (p.leaving n).foldl (fun acc e => visit p fuel e.target acc)
        { s with seen := n :: s.seen }
      { s' with finished := n :: s'.finished }

/-- The locations that a search from `n` finishes, the first one first. No path without repetition
is longer than the number of locations, so that depth is enough. -/
def search (p : Program) (n : NodeId) : List NodeId :=
  (visit p (p.nodeCount + 1) n ⟨[], []⟩).finished.reverse

/-- The reverse postorder numbers of all locations. -/
def reversePostorder (p : Program) : Array Nat := p.reversePostorderBy p.search

/-- The reverse postorder number of a location. -/
def rank (p : Program) (n : NodeId) : Nat := rankIn p.reversePostorder n

end ProgramAnalysis.Program
