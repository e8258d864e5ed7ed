/-!
Finite maps with ordered keys, as lists of pairs in ascending order of their keys. The order is part
of the type, so the first pair is always the one with the smallest key.
-/

namespace ProgramAnalysis

/-- A finite map with ordered keys. -/
structure OrderedMap (κ β : Type) [Ord κ] where
  pairs : List (κ × β)
  ascending : pairs.Pairwise fun a b => compare a.1 b.1 = .lt

namespace OrderedMap

variable {κ β : Type} [Ord κ]

def empty : OrderedMap κ β := ⟨[], .nil⟩

instance : Inhabited (OrderedMap κ β) := ⟨empty⟩

/-- Puts a value where its key belongs, or in the place of the old one if the key is there. -/
def put (k : κ) (b : β) : List (κ × β) → List (κ × β)
  | [] => [(k, b)]
  | (k', b') :: rest =>
    match compare k k' with
    | .lt => (k, b) :: (k', b') :: rest
    | .eq => (k', b) :: rest
    | .gt => (k', b') :: put k b rest

/-- Only keys that were there or are put in have a pair. -/
theorem key_of_mem_put {k : κ} {b : β} {q : κ × β} {l : List (κ × β)} (h : q ∈ put k b l) :
    q.1 = k ∨ ∃ q' ∈ l, q'.1 = q.1 := by
  induction l with
  | nil => exact .inl (congrArg Prod.fst (List.mem_singleton.1 h))
  | cons p l ih =>
    obtain ⟨k', b'⟩ := p
    unfold put at h
    split at h
    · rcases List.mem_cons.1 h with rfl | h
      · exact .inl rfl
      · exact .inr ⟨q, h, rfl⟩
    · rcases List.mem_cons.1 h with rfl | h
      · exact .inr ⟨(k', b'), List.mem_cons_self, rfl⟩
      · exact .inr ⟨q, .tail _ h, rfl⟩
    · rcases List.mem_cons.1 h with rfl | h
      · exact .inr ⟨(k', b'), List.mem_cons_self, rfl⟩
      · exact (ih h).imp_right fun ⟨q', hq', heq⟩ => ⟨q', .tail _ hq', heq⟩

theorem ascending_put [Std.TransOrd κ] (k : κ) (b : β) {l : List (κ × β)}
    (h : l.Pairwise fun a b => compare a.1 b.1 = .lt) :
    (put k b l).Pairwise fun a b => compare a.1 b.1 = .lt := by
  induction l with
  | nil => exact List.pairwise_singleton _ _
  | cons p l ih =>
    obtain ⟨k', b'⟩ := p
    obtain ⟨hhead, htail⟩ := List.pairwise_cons.1 h
    unfold put
    split
    · next hlt =>
      refine List.pairwise_cons.2 ⟨fun q hq => ?_, h⟩
      rcases List.mem_cons.1 hq with rfl | hq
      · exact hlt
      · exact Std.TransCmp.lt_trans hlt (hhead q hq)
    · exact List.pairwise_cons.2 ⟨hhead, htail⟩
    · next hgt =>
      refine List.pairwise_cons.2 ⟨fun q hq => ?_, ih htail⟩
      rcases key_of_mem_put hq with heq | ⟨q', hq', heq⟩
      · rw [heq]
        exact Std.OrientedCmp.gt_iff_lt.1 hgt
      · rw [← heq]
        exact hhead q' hq'

theorem put_perm {k : κ} {b : β} {l : List (κ × β)} (h : ∀ q ∈ l, compare k q.1 ≠ .eq) :
    (put k b l).Perm ((k, b) :: l) := by
  induction l with
  | nil => exact .refl _
  | cons p l ih =>
    obtain ⟨k', b'⟩ := p
    unfold put
    split
    · exact .refl _
    · next heq => exact absurd heq (h _ List.mem_cons_self)
    · exact ((ih fun q hq => h q (.tail _ hq)).cons _).trans (.swap ..)

def insert [Std.TransOrd κ] (m : OrderedMap κ β) (k : κ) (b : β) : OrderedMap κ β :=
  ⟨put k b m.pairs, ascending_put k b m.ascending⟩

def erase (m : OrderedMap κ β) (k : κ) : OrderedMap κ β :=
  ⟨m.pairs.filter fun q => compare k q.1 ≠ .eq, m.ascending.filter _⟩

/-- Takes out the pair with the smallest key. -/
def popFirst (m : OrderedMap κ β) : Option (κ × β) × OrderedMap κ β :=
  (m.pairs.head?, ⟨m.pairs.tail, m.ascending.tail⟩)

/-- To take out the first pair is to take out its key. -/
theorem erase_first [Std.ReflOrd κ] {m : OrderedMap κ β} {q : κ × β} {rest : List (κ × β)}
    (h : m.pairs = q :: rest) : m.erase q.1 = m.popFirst.2 := by
  obtain ⟨pairs, ascending⟩ := m
  obtain rfl : pairs = q :: rest := h
  have hrest : rest.filter (fun p => compare q.1 p.1 ≠ .eq) = rest :=
    List.filter_eq_self.2 fun p hp => by simp [(List.pairwise_cons.1 ascending).1 p hp]
  simp only [erase, popFirst, mk.injEq, List.tail_cons]
  rw [List.filter_cons_of_neg (by simp), hrest]

def size (m : OrderedMap κ β) : Nat := m.pairs.length

end OrderedMap

end ProgramAnalysis
