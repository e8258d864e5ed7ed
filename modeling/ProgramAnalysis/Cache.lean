/-!
A table of remembered answers that counts how often a look-up found one.
-/

namespace ProgramAnalysis

/-- Remembered answers, the newest first, with the number of successful and of failed look-ups. -/
structure Cache (κ β : Type) where
  pairs : List (κ × β)
  hits : Nat
  misses : Nat
deriving Inhabited

namespace Cache

variable {κ β : Type} [DecidableEq κ]

def empty : Cache κ β := ⟨[], 0, 0⟩

/-- The answer remembered for a key. -/
def find? (c : Cache κ β) (k : κ) : Option β :=
  (c.pairs.find? fun p => p.1 = k).map Prod.snd

/-- Looks a key up and counts the look-up. -/
def get (c : Cache κ β) (k : κ) : Option β × Cache κ β :=
  match c.find? k with
  | some b => (some b, { c with hits := c.hits + 1 })
  | none => (none, { c with misses := c.misses + 1 })

/-- Remembers an answer in place of an older one for the same key. -/
def insert (c : Cache κ β) (k : κ) (b : β) : Cache κ β :=
  { c with pairs := (k, b) :: c.pairs.filter fun p => p.1 ≠ k }

/-- Forgets all answers and keeps the counts. -/
def clear (c : Cache κ β) : Cache κ β := { c with pairs := [] }

def size (c : Cache κ β) : Nat := c.pairs.length

end Cache

end ProgramAnalysis
