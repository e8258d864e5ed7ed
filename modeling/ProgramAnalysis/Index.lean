/-!
Finite maps from keys to values, as lists of pairs with at most one pair per key. Pairs stay in the
order in which their keys came in.
-/

namespace ProgramAnalysis

/-- A finite map. -/
structure Index (κ β : Type) where
  pairs : List (κ × β)
deriving Inhabited, DecidableEq

namespace Index

variable {κ β : Type} [DecidableEq κ]

def empty : Index κ β := ⟨[]⟩

/-- The value at the first pair with the given key. -/
def lookup (k : κ) : List (κ × β) → Option β
  | [] => none
  | (k', b) :: rest => if k' = k then some b else lookup k rest

/-- Puts a value in the place of the old one, or at the end if the key is new. -/
def replace (k : κ) (b : β) : List (κ × β) → List (κ × β)
  | [] => [(k, b)]
  | (k', b') :: rest => if k' = k then (k, b) :: rest else (k', b') :: replace k b rest

/-- The value at a key. -/
def get? (m : Index κ β) (k : κ) : Option β := lookup k m.pairs

def contains (m : Index κ β) (k : κ) : Bool := (m.get? k).isSome

def insert (m : Index κ β) (k : κ) (b : β) : Index κ β := ⟨replace k b m.pairs⟩

def erase (m : Index κ β) (k : κ) : Index κ β := ⟨m.pairs.filter fun p => p.1 ≠ k⟩

def keys (m : Index κ β) : List κ := m.pairs.map Prod.fst

def size (m : Index κ β) : Nat := m.pairs.length

theorem get?_empty (k : κ) : (empty : Index κ β).get? k = none := rfl

theorem mem_keys_of_get? {m : Index κ β} {k : κ} {b : β} (h : m.get? k = some b) :
    k ∈ m.keys := by
  obtain ⟨l⟩ := m
  unfold get? at h
  unfold keys
  induction l with
  | nil => cases h
  | cons p l ih =>
    by_cases hp : p.1 = k
    · exact List.mem_cons.2 (.inl hp.symm)
    · refine List.mem_cons.2 (.inr (ih ?_))
      simpa only [lookup, hp, if_false] using h

theorem lookup_replace (k a : κ) (b : β) (l : List (κ × β)) :
    lookup a (replace k b l) = if k = a then some b else lookup a l := by
  induction l with
  | nil => simp [replace, lookup]
  | cons p l ih =>
    obtain ⟨k', b'⟩ := p
    by_cases hk : k' = k
    · subst hk
      by_cases ha : k' = a <;> simp [replace, lookup, ha]
    · by_cases ha : k' = a
      · subst ha
        simp [replace, lookup, hk, Ne.symm hk]
      · simp [replace, lookup, hk, ha, ih]

@[simp] theorem get?_insert (m : Index κ β) (k a : κ) (b : β) :
    (m.insert k b).get? a = if k = a then some b else m.get? a :=
  lookup_replace k a b m.pairs

theorem lookup_filter (k a : κ) (l : List (κ × β)) :
    lookup a (l.filter fun p => p.1 ≠ k) = if k = a then none else lookup a l := by
  induction l with
  | nil => simp [lookup]
  | cons p l ih =>
    obtain ⟨k', b'⟩ := p
    by_cases hk : k' = k
    · subst hk
      by_cases ha : k' = a <;> simp_all [lookup]
    · by_cases ha : k' = a
      · subst ha
        simp [lookup, hk, Ne.symm hk]
      · simp_all [lookup]

@[simp] theorem get?_erase (m : Index κ β) (k a : κ) :
    (m.erase k).get? a = if k = a then none else m.get? a :=
  lookup_filter k a m.pairs

theorem contains_iff {m : Index κ β} {k : κ} : m.contains k = true ↔ ∃ b, m.get? k = some b :=
  Option.isSome_iff_exists

theorem contains_insert_iff {m : Index κ β} {k a : κ} {b : β} :
    (m.insert k b).contains a = true ↔ a = k ∨ m.contains a = true := by
  unfold contains
  rw [get?_insert]
  by_cases h : k = a
  · simp [h]
  · simp [h, Ne.symm h]

theorem contains_erase_iff {m : Index κ β} {k a : κ} :
    (m.erase k).contains a = true ↔ a ≠ k ∧ m.contains a = true := by
  unfold contains
  rw [get?_erase]
  by_cases h : k = a
  · simp [h]
  · simp [h, Ne.symm h]

end Index

end ProgramAnalysis
