import ProgramAnalysis.Index
import ProgramAnalysis.Precision
import ProgramAnalysis.State
/-!
The states found so far, with their precisions.

Entries are numbered in the order in which they were added; a removed entry leaves a gap. Two
indices sit on top: one by handle, which finds the entry that holds a given state, and one by
location and partition, which gives the entries that a new state is compared with.
-/

namespace ProgramAnalysis

/-- A reached state with its precision and its place. -/
structure Entry (ν ρ : Type) where
  state : State ν
  precision : Precision ρ
  location : NodeId
  partition : Partition

/-- Where an entry belongs: states are only compared within one place. -/
structure Place where
  location : NodeId
  partition : Partition
deriving DecidableEq, Inhabited

def Entry.place {ν ρ : Type} (e : Entry ν ρ) : Place := ⟨e.location, e.partition⟩

/-- The reached states by number, with their number and the two indices. -/
structure Store (ν ρ : Type) where
  slots : Array (Option (Entry ν ρ))
  size : Nat
  byPlace : Index Place (List EntryId)
  byHandle : Index Handle EntryId
  /-- The entry added last, unless it was removed. -/
  last : Option EntryId

namespace Store

variable {ν ρ : Type}

def empty : Store ν ρ := ⟨#[], 0, .empty, .empty, none⟩

instance : Inhabited (Store ν ρ) := ⟨empty⟩

/-- The entry with a number. -/
def get? (s : Store ν ρ) (id : EntryId) : Option (Entry ν ρ) := s.slots[id.index]?.join

/-- The entry that holds a state, found by its handle. -/
def find? (s : Store ν ρ) (x : State ν) : Option EntryId := s.byHandle.get? x.handle

def contains (s : Store ν ρ) (x : State ν) : Bool := (s.find? x).isSome

/-- The entries at a place, in the order in which they were added. -/
def candidates (s : Store ν ρ) (p : Place) : List EntryId := (s.byPlace.get? p).getD []

/-- The states at a place. -/
def statesAt (s : Store ν ρ) (p : Place) : List (State ν) :=
  (s.candidates p).filterMap fun id => (s.get? id).map Entry.state

/-- The entries with their numbers, in the order in which they were added. -/
def entries (s : Store ν ρ) : List (EntryId × Entry ν ρ) :=
  s.slots.toList.zipIdx.filterMap fun (slot, i) => slot.map fun e => (⟨i⟩, e)

/-- The states in the order in which they were added. -/
def states (s : Store ν ρ) : List (State ν) := s.entries.map fun p => p.2.state

/-- The number that the next entry gets. -/
def nextId (s : Store ν ρ) : EntryId := ⟨s.slots.size⟩

/-- Adds an entry. -/
def insert (s : Store ν ρ) (e : Entry ν ρ) : Store ν ρ where
  slots := s.slots.push (some e)
  size := s.size + 1
  byPlace := s.byPlace.insert e.place (s.candidates e.place ++ [s.nextId])
  byHandle := s.byHandle.insert e.state.handle s.nextId
  last := some s.nextId

/-- Takes a number out of the list of its place; an empty list is not kept. -/
def unplace (m : Index Place (List EntryId)) (p : Place) (id : EntryId) :
    Index Place (List EntryId) :=
  match m.get? p with
  | none => m
  | some ids =>
    let rest := ids.filter fun x => x ≠ id
    if rest.isEmpty then m.erase p else m.insert p rest

/-- Removes an entry. -/
def erase (s : Store ν ρ) (id : EntryId) : Store ν ρ :=
  match s.get? id with
  | none => s
  | some e =>
    { slots := s.slots.setIfInBounds id.index none
      size := s.size - 1
      byPlace := unplace s.byPlace e.place id
      byHandle := s.byHandle.erase e.state.handle
      last := if s.last = some id then none else s.last }

/-- Replaces the precision of an entry. -/
def setPrecision (s : Store ν ρ) (id : EntryId) (p : Precision ρ) : Store ν ρ :=
  let change (e : Entry ν ρ) : Entry ν ρ := { e with precision := p }
  { s with slots := s.slots.modify id.index (Option.map change) }

/-- The locations that have an entry, in ascending order. -/
def locations (s : Store ν ρ) : List NodeId :=
  let sorted := (s.byPlace.keys.map Place.location).mergeSort fun a b => decide (a.index ≤ b.index)
  sorted.eraseDups

end Store

end ProgramAnalysis
