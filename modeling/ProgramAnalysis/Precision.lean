import ProgramAnalysis.Error
/-!
Precisions: what an analysis keeps beside a state to steer its abstraction. A precision is plain, a
precision of a leaf analysis, or a tuple of the precisions of components. Like states, precisions
carry handles. The precisions of leaf analyses are a parameter `ρ`.
-/

namespace ProgramAnalysis

/-- What the engine asks of the precisions of leaf analyses. -/
class LeafPrecision (ρ : Type) where
  equals : ρ → ρ → Bool
  describe : ρ → String

/-- A precision. -/
inductive Precision (ρ : Type) where
  /-- The precision of an analysis that has nothing to adjust. -/
  | plain (handle : Handle)
  | leaf (handle : Handle) (value : ρ)
  | tuple (handle : Handle) (components : List (Precision ρ))

namespace Precision

variable {ρ : Type}

instance : Inhabited (Precision ρ) := ⟨.plain default⟩

def handle : Precision ρ → Handle
  | plain h => h
  | leaf h _ => h
  | tuple h _ => h

/-- Whether two precisions are one and the same. -/
def sameHandle (a b : Precision ρ) : Bool := a.handle = b.handle

/-- The components of a tuple; none for any other precision. -/
def components : Precision ρ → List (Precision ρ)
  | tuple _ ps => ps
  | _ => []

section Leaf

variable [LeafPrecision ρ]

mutual

/-- Equality of contents. -/
def equals : Precision ρ → Precision ρ → Bool
  | .plain _, .plain _ => true
  | .leaf _ v, .leaf _ w => LeafPrecision.equals v w
  | .tuple _ ps, .tuple _ qs => equalsAll ps qs
  | _, _ => false

/-- Componentwise equality of lists of the same length; equal handles are enough. -/
def equalsAll : List (Precision ρ) → List (Precision ρ) → Bool
  | [], [] => true
  | a :: as, b :: bs => (a.handle = b.handle || equals a b) && equalsAll as bs
  | _, _ => false

end

/-- Whether two precisions are the same or have equal contents. -/
def agrees (a b : Precision ρ) : Bool := a.handle = b.handle || equals a b

mutual

/-- The full text of a precision, as it stands in error messages. -/
def describe : Precision ρ → String
  | .plain _ => "NoPrecision"
  | .leaf _ v => LeafPrecision.describe v
  | .tuple _ ps => "CompositePrecision \x7b components: [" ++ describeAll ps ++ "] \x7d"

/-- The texts of a list of precisions with commas between them. -/
def describeAll : List (Precision ρ) → String
  | [] => ""
  | [p] => describe p
  | p :: rest => describe p ++ ", " ++ describeAll rest

end

/-- The components of a tuple. -/
def asTuple : Precision ρ → Except Error (List (Precision ρ))
  | .tuple _ ps => .ok ps
  | p => .error (.mismatch .tuplePrecision p.describe)

/-- The value of a leaf precision. -/
def asLeaf : Precision ρ → Except Error ρ
  | .leaf _ v => .ok v
  | p => .error (.mismatch .leafPrecision p.describe)

end Leaf

/-- The components of a tuple with one of them replaced. -/
def replaceAt (ps : List (Precision ρ)) (i : Nat) (p : Precision ρ) :
    Except Crash (List (Precision ρ)) :=
  if i < ps.length then .ok (ps.set i p) else .error ⟨ps.length, i⟩

end Precision

end ProgramAnalysis
