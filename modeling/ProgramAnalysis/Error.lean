import ProgramAnalysis.Id
import ProgramAnalysis.Text.Blank
/-!
What can go wrong: while an analysis is assembled from its configuration (`ConfigError`), and while
it runs (`Error`). Each cause is a constructor; its wording is in `message`.

A `Crash` is not an error: it is a look-up that finds nothing, since a value was handed to an
analysis that it does not belong to. Errors are reported to the caller, who may deal with them. A
crash ends everything that is under way.
-/

namespace ProgramAnalysis

/-- A failure to assemble an analysis from its configuration. -/
inductive ConfigError where
  | missingOption (key : String)
  | invalidValue (key value expected : String)
  | unknownAnalysis (name : String)
  | invalidComposition (name reason : String)
  | cyclicDefinition (name : String)
  | unusedOptions (keys : List String)
  | precondition (name reason : String)
  | malformedLine (line : Nat) (text : String)
deriving DecidableEq, Inhabited

def ConfigError.message : ConfigError → String
  | missingOption key => "missing required option '" ++ key ++ "'"
  | invalidValue key value expected =>
    "invalid value '" ++ value ++ "' for option '" ++ key ++ "': expected " ++ expected
  | unknownAnalysis name => "unknown analysis '" ++ name ++ "'"
  | invalidComposition name reason => "invalid composition of '" ++ name ++ "': " ++ reason
  | cyclicDefinition name => "analysis '" ++ name ++ "' is defined in terms of itself"
  | unusedOptions keys => "unused options: " ++ Text.joinWith ", " keys
  | precondition name reason => "precondition violated for '" ++ name ++ "': " ++ reason
  | malformedLine line text =>
    "malformed configuration line " ++ Nat.repr line ++ ": '" ++ text ++ "'"

/-- The kinds of state and precision that an operator can ask for. -/
inductive ValueKind where
  | location
  | leaf
  | tuple
  | monitored
  | graphed
  | leafPrecision
  | tuplePrecision
  | matchingTuple
deriving DecidableEq, Inhabited

/-- A failure of an operator, of the reached set or of the exploration. -/
inductive Error where
  /-- An operator was given a value of another analysis. -/
  | mismatch (expected : ValueKind) (found : String)
  /-- The domain does not relate the two states. -/
  | undefined (operation reason : String)
  /-- A construct on an edge is not supported. Unless fatal, only that edge is dropped. -/
  | transferFailure (edge : EdgeId) (reason : String) (fatal : Bool)
  | backend (component reason : String)
  | interrupted
  | unknownLocation (node : NodeId)
  /-- An analysis broke a rule that its operators promise to keep. -/
  | contractViolation (reason : String)
  | config (error : ConfigError)
deriving DecidableEq, Inhabited

namespace Error

/-- The wording of a backend failure. -/
def backendMessage (component reason : String) : String :=
  "backend failure in " ++ component ++ ": " ++ reason

/-- The wording of an error; `kindName` gives the names under which kinds of value are reported. -/
def message (kindName : ValueKind → String) : Error → String
  | mismatch expected found => "expected " ++ kindName expected ++ ", found " ++ found
  | undefined operation reason => operation ++ " is undefined: " ++ reason
  | transferFailure edge reason _ => "transfer failed on " ++ edge.text ++ ": " ++ reason
  | backend component reason => backendMessage component reason
  | interrupted => "analysis interrupted"
  | unknownLocation node => "location " ++ node.text ++ " does not exist in the CFA"
  | contractViolation reason => "contract violation: " ++ reason
  | config error => error.message

/-- Whether the exploration may drop the current edge and go on. -/
def isRecoverable : Error → Bool
  | transferFailure _ _ fatal => !fatal
  | _ => false

def isBackend : Error → Bool
  | backend .. => true
  | _ => false

def isInterrupted : Error → Bool
  | interrupted => true
  | _ => false

end Error

/-- A position that lies outside a list of the given size. -/
structure Crash where
  size : Nat
  position : Nat
deriving DecidableEq, Inhabited

def Crash.message (c : Crash) : String :=
  "index out of bounds: the len is " ++ Nat.repr c.size ++ " but the index is " ++
    Nat.repr c.position

/-- Why a call has no result. -/
inductive Failure where
  | error (error : Error)
  | crash (crash : Crash)
deriving DecidableEq, Inhabited

end ProgramAnalysis
