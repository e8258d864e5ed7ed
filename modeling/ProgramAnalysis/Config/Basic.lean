import ProgramAnalysis.Error
import ProgramAnalysis.Index
import ProgramAnalysis.Text.Decimal
/-!
Configurations: named options, read from lines `key = value`.

A line that is blank or starts with `#` says nothing. Any other line must have a key without blanks
before its first equals sign. A key that occurs again takes its last value. Reading an option marks
it as used, also when it is not set, so that options that nobody reads can be reported.
-/

namespace ProgramAnalysis

/-- Values by key. -/
abbrev Options := Index String String

/-- The options, and the keys that were read. -/
structure Configuration where
  options : Options
  used : List String
deriving DecidableEq, Inhabited

namespace Configuration

def empty : Configuration := ⟨.empty, []⟩

def set (c : Configuration) (key value : String) : Configuration :=
  { c with options := c.options.insert key value }

def contains (c : Configuration) (key : String) : Bool := c.options.contains key

def size (c : Configuration) : Nat := c.options.size

/-- What a line says. -/
inductive Line where
  | nothing
  | setting (key value : String)
  | malformed (text : String)
deriving DecidableEq, Inhabited

/-- Reads a line. -/
def Line.read (line : List Char) : Line :=
  let text := Text.trim line
  if text.isEmpty || text.head? = some '#' then .nothing
  else
    match Text.splitFirst '=' text with
    | none => .malformed (String.ofList text)
    | some (before, after) =>
      let key := Text.trim before
      if key.isEmpty || key.any Text.isBlank then .malformed (String.ofList text)
      else .setting (String.ofList key) (String.ofList (Text.trim after))

/-- Reads lines, the first of which has the given number. -/
def readLines : Nat → List (List Char) → Configuration → Except ConfigError Configuration
  | _, [], c => .ok c
  | number, line :: rest, c =>
    match Line.read line with
    | .nothing => readLines (number + 1) rest c
    | .setting key value => readLines (number + 1) rest (c.set key value)
    | .malformed text => .error (.malformedLine number text)

/-- Reads a configuration. -/
def parse (text : String) : Except ConfigError Configuration :=
  readLines 1 (Text.lines text.toList) .empty

/-- The keys that are set and were never read, in ascending order. -/
def unused (c : Configuration) : List String :=
  (c.options.keys.filter fun k => !c.used.contains k).mergeSort fun a b => decide (a ≤ b)

/-- Fails when an option was never read. -/
def checkUnused (c : Configuration) : Except ConfigError Unit :=
  if c.unused.isEmpty then .ok () else .error (.unusedOptions c.unused)

end Configuration

/-- A computation that notes the keys it reads and can fail. -/
abbrev Lookup := ExceptT ConfigError (StateM (List String))

/-- A step of assembling an analysis: it looks options up, which it cannot change, notes the keys
that it reads, and can fail. -/
abbrev Setup := ReaderT Options Lookup

/-- The value of an option that must be set. -/
def Options.require (o : Options) (key : String) :
    Lookup { value : String // o.get? key = some value } := do
  modify (key :: ·)
  match hset : o.get? key with
  | some value => return ⟨value, hset⟩
  | none => throw (.missingOption key)

namespace Setup

/-- Carries a step out on a configuration. -/
def perform {α : Type} (x : Setup α) (c : Configuration) :
    Except ConfigError α × Configuration :=
  let (r, used) := (x.run c.options).run.run c.used
  (r, { c with used := used })

/-- The outcome of a check. -/
def ofExcept {α : Type} : Except ConfigError α → Setup α
  | .ok a => pure a
  | .error e => throw e

/-- Whether an option is set; it does not count as read. -/
def isSet (key : String) : Setup Bool := do
  return (← read).contains key

/-- The value of an option. -/
def get (key : String) : Setup (Option String) := do
  modify (key :: ·)
  return (← read).get? key

def require (key : String) : Setup String := do
  return (← Options.require (← read) key).1

/-- The value of an option as `read` understands it; `expected` says what that is. -/
def getAs {α : Type} (key expected : String) (read : String → Option α) : Setup (Option α) := do
  match ← get key with
  | none => return none
  | some value =>
    match read value with
    | some a => return some a
    | none => throw (.invalidValue key value expected)

/-- Reads a truth value; upper and lower case letters count the same. -/
def readBool? (s : String) : Option Bool :=
  let t := String.ofList (s.toList.map Char.toLower)
  if t = "true" then some true
  else if t = "false" then some false
  else none

def getBool (key : String) (absent : Bool) : Setup Bool := do
  return (← getAs key "true or false" readBool?).getD absent

/-- The value of an option as a number of 64 bits. -/
def getNat (key : String) : Setup (Option Nat) :=
  getAs key "a non-negative integer" fun s => Text.readNat? Text.word64 s.toList

/-- The items of a list with commas between them; blank items are left out. -/
def readList (s : String) : List String :=
  (((Text.pieces (· = ',') s.toList).map Text.trim).filter fun w => !w.isEmpty).map String.ofList

def getList (key : String) : Setup (Option (List String)) := do
  return (← get key).map readList

end Setup

end ProgramAnalysis
