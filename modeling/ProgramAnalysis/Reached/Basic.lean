import ProgramAnalysis.Reached.Store
import ProgramAnalysis.Reached.Waitlist
/-!
The reached set: the states found so far, and those of them that are still to be expanded.
-/

namespace ProgramAnalysis

/-- The reached states of a program and the frontier `θ`. -/
structure ReachedSet (ν ρ θ : Type) where
  program : Program
  store : Store ν ρ
  frontier : θ

namespace ReachedSet

variable {ν ρ θ : Type}

def ofFrontier (program : Program) (frontier : θ) : ReachedSet ν ρ θ := ⟨program, .empty, frontier⟩

def get? (r : ReachedSet ν ρ θ) (id : EntryId) : Option (Entry ν ρ) := r.store.get? id

/-- Replaces the precision of an entry. The answer comes with the set that the call leaves. -/
def setPrecision (r : ReachedSet ν ρ θ) (id : EntryId) (p : Precision ρ) :
    Except Error Unit × ReachedSet ν ρ θ :=
  match r.get? id with
  | some _ => (.ok (), { r with store := r.store.setPrecision id p })
  | none => (.error (.contractViolation (id.text ++ " is not in the reached set")), r)

/-- The set in which the precision of an entry was replaced. -/
def updatePrecision (r : ReachedSet ν ρ θ) (id : EntryId) (p : Precision ρ) :
    Except Error (ReachedSet ν ρ θ) :=
  (r.setPrecision id p).1.map fun _ => (r.setPrecision id p).2

section Frontier

variable [Frontier θ]

/-- The number of entries that wait. -/
def waiting (r : ReachedSet ν ρ θ) : Nat := Frontier.size r.frontier

def hasWaiting (r : ReachedSet ν ρ θ) : Bool := r.waiting ≠ 0

def isWaiting (r : ReachedSet ν ρ θ) (id : EntryId) : Bool := Frontier.contains r.frontier id

/-- Takes the next entry off the frontier. The entry stays reached. -/
def pop (r : ReachedSet ν ρ θ) : Option EntryId × ReachedSet ν ρ θ :=
  let (id, frontier) := Frontier.pop r.frontier
  (id, { r with frontier := frontier })

/-- Removes an entry from the set and from the frontier. -/
def remove (r : ReachedSet ν ρ θ) (id : EntryId) : Option (Entry ν ρ) × ReachedSet ν ρ θ :=
  match r.get? id with
  | none => (none, r)
  | some e =>
    (some e, { r with store := r.store.erase id, frontier := (Frontier.remove r.frontier id).2 })

/-- Removes the entries one after the other. -/
def removeAll (r : ReachedSet ν ρ θ) (ids : List EntryId) : ReachedSet ν ρ θ :=
  ids.foldl (fun r id => (r.remove id).2) r

/-- Removes everything. Numbers start again at zero. -/
def clear (r : ReachedSet ν ρ θ) : ReachedSet ν ρ θ :=
  { r with store := .empty, frontier := Frontier.clear r.frontier }

def describe (r : ReachedSet ν ρ θ) : String :=
  "ReachedSet \x7b len: " ++ Nat.repr r.store.size ++ ", waiting: " ++ Nat.repr r.waiting ++ " \x7d"

end Frontier

section Waitlist

variable [Waitlist θ ν]

/-- Adds an entry and schedules it. Its location must belong to the program, and its state must not
be in the set. The answer comes with the set that the call leaves. -/
def offer [LeafValue ν] (r : ReachedSet ν ρ θ) (e : Entry ν ρ) :
    Except Error EntryId × ReachedSet ν ρ θ :=
  if !r.program.contains e.location then (.error (.unknownLocation e.location), r)
  else if r.store.contains e.state then
    (.error (.contractViolation ("state " ++ e.state.describe ++ " is already in the reached set")),
      r)
  else
    let id := r.store.nextId
    (.ok id, { r with
      store := r.store.insert e
      frontier := Waitlist.push r.frontier id e.location e.state })

/-- The number of an entry that was added, and the set with it. -/
def add [LeafValue ν] (r : ReachedSet ν ρ θ) (e : Entry ν ρ) :
    Except Error (EntryId × ReachedSet ν ρ θ) :=
  (r.offer e).1.map fun id => (id, (r.offer e).2)

/-- Puts an entry back on the frontier. -/
def reschedule (r : ReachedSet ν ρ θ) (id : EntryId) : ReachedSet ν ρ θ :=
  match r.get? id with
  | some e => { r with frontier := Waitlist.push r.frontier id e.location e.state }
  | none => r

end Waitlist

end ReachedSet

end ProgramAnalysis
