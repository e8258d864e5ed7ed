import ProgramAnalysis.Precision
import ProgramAnalysis.State
/-!
Sets of numbered facts as abstract values.

A value holds facts, perhaps a program location, and says whether a fact that counts as a violation
was among its facts when it was made. Facts from 1000 on are ghosts: they steer rules and are
counted, but the domain does not see them.
-/

namespace ProgramAnalysis

/-- A finite set of facts, in ascending order. -/
structure FactSet where
  members : List Nat
  ascending : members.Pairwise (· < ·)
deriving DecidableEq

namespace FactSet

def empty : FactSet := ⟨[], .nil⟩

instance : Inhabited FactSet := ⟨empty⟩

/-- Puts a number into an ascending list, unless it is there. -/
def place (n : Nat) : List Nat → List Nat
  | [] => [n]
  | m :: rest =>
    if n < m then n :: m :: rest
    else if n = m then m :: rest
    else m :: place n rest

theorem mem_place {n k : Nat} {l : List Nat} : k ∈ place n l ↔ k = n ∨ k ∈ l := by
  induction l with
  | nil => simp [place]
  | cons m rest ih =>
    unfold place
    split
    · simp
    · split
      · next h => subst h; simp
      · simp [ih, or_left_comm]

theorem pairwise_place {n : Nat} {l : List Nat} (h : l.Pairwise (· < ·)) :
    (place n l).Pairwise (· < ·) := by
  induction l with
  | nil => simp [place]
  | cons m rest ih =>
    have hm := (List.pairwise_cons.1 h).1
    unfold place
    split
    · next hn =>
      refine List.pairwise_cons.2 ⟨fun k hk => ?_, h⟩
      rcases List.mem_cons.1 hk with rfl | hk
      · exact hn
      · exact Nat.lt_trans hn (hm k hk)
    · split
      · exact h
      · refine List.pairwise_cons.2 ⟨fun k hk => ?_, ih h.of_cons⟩
        rcases mem_place.1 hk with rfl | hk
        · omega
        · exact hm k hk

def insert (s : FactSet) (n : Nat) : FactSet := ⟨place n s.members, pairwise_place s.ascending⟩

def filter (s : FactSet) (p : Nat → Bool) : FactSet :=
  ⟨s.members.filter p, s.ascending.filter p⟩

def contains (s : FactSet) (n : Nat) : Bool := s.members.contains n

def size (s : FactSet) : Nat := s.members.length

def insertAll (s : FactSet) (ns : List Nat) : FactSet := ns.foldl insert s

def eraseAll (s : FactSet) (ns : List Nat) : FactSet := s.filter fun n => !ns.contains n

def ofList (ns : List Nat) : FactSet := empty.insertAll ns

def union (s t : FactSet) : FactSet := s.insertAll t.members

def subset (s t : FactSet) : Bool := s.members.all t.contains

def meets (s t : FactSet) : Bool := s.members.any t.contains

/-- The facts that the domain sees. -/
def visible (s : FactSet) : FactSet := s.filter fun n => n < 1000

def text (s : FactSet) : String :=
  "facts\x7b" ++ Text.joinWith "," (s.members.map Nat.repr) ++ "\x7d"

end FactSet

/-- A set of facts as a value of a leaf analysis. -/
structure FactValue where
  facts : FactSet
  anchor : Option NodeId
  isTarget : Bool
deriving DecidableEq, Inhabited

namespace FactValue

/-- The value that is a target when it holds one of the given facts. -/
def make (targets facts : FactSet) (anchor : Option NodeId) : FactValue :=
  ⟨facts, anchor, facts.meets targets⟩

/-- Ghosts and the target flag do not count. -/
def equals (v w : FactValue) : Bool :=
  v.facts.visible = w.facts.visible && v.anchor = w.anchor

def text (v : FactValue) : String :=
  v.facts.text ++
    match v.anchor with
    | some n => "@" ++ n.text
    | none => ""

end FactValue

instance : LeafValue FactValue where
  equals := FactValue.equals
  location := FactValue.anchor
  isTarget := FactValue.isTarget
  describe := FactValue.text

/-- How closely facts are tracked. -/
structure Level where
  value : Nat
deriving DecidableEq, Inhabited

instance : LeafPrecision Level where
  equals a b := a = b
  describe l := "level(" ++ Nat.repr l.value ++ ")"

/-- The level that a precision stands for; the plain precision is level zero. -/
def Precision.level : Precision Level → Except Error Nat
  | .plain _ => .ok 0
  | p => (Level.value ·) <$> p.asLeaf

/-- The first set of facts inside a state, depth first. -/
def State.facts? (s : State FactValue) : Option FactSet :=
  (s.search State.leaf?).map FactValue.facts

/-- Whether the first set of facts inside a state holds a fact. -/
def State.holdsFact (s : State FactValue) (n : Nat) : Bool :=
  s.facts?.any fun facts => facts.contains n

end ProgramAnalysis
