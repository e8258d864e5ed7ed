import ProgramAnalysis.Cancellation
import ProgramAnalysis.Duration
import ProgramAnalysis.Error
/-!
Effects of operators.

Operators draw new handles, can raise a cancellation flag, take time, and keep a memory of their own
(call counts, caches, the reachability graph). All of this is one value, `World`, that is passed
along. `Action` is an effect that can fail, and `Attempt` one that can only crash; what was done
before the failure stays done.

The memory is a type parameter, so an analysis cannot touch the memory of another one. A wrapper
works on pairs of the memory of the analysis inside and its own; `Slot` says where a part of a
memory sits.
-/

namespace ProgramAnalysis

/-- Where a part `κ` of a memory `ω` sits. -/
structure Slot (ω κ : Type) where
  get : ω → κ
  set : κ → ω → ω

namespace Slot

variable {ω κ ι : Type}

def fst : Slot (ω × κ) ω := ⟨Prod.fst, fun a p => (a, p.2)⟩

def snd : Slot (ω × κ) κ := ⟨Prod.snd, fun b p => (p.1, b)⟩

/-- A part of a part. -/
def comp (outer : Slot ω κ) (inner : Slot κ ι) : Slot ω ι :=
  ⟨fun w => inner.get (outer.get w), fun i w => outer.set (inner.set i (outer.get w)) w⟩

end Slot

/-- Everything that an operator can read or change, its own memory included. -/
structure World (ω : Type) where
  /-- The next handle; all handles in use are smaller. -/
  next : Handle
  tokens : Tokens
  /-- The token that an operator cancels when it wants the exploration to stop. -/
  session : TokenId
  /-- The time that operators have spent waiting. -/
  clock : Duration
  memory : ω
deriving Inhabited

namespace World

variable {ω κ : Type}

/-- The same world with another memory. -/
def withMemory (w : World ω) (m : κ) : World κ := ⟨w.next, w.tokens, w.session, w.clock, m⟩

end World

/-- Draws a handle that was never used before. -/
def Handle.draw : StateM Handle Handle := modifyGet fun h => (h, h.next)

/-- An effect that draws handles and can fail, and does nothing else. It never crashes. -/
abbrev Alloc := ExceptT Error (StateM Handle)

namespace Alloc

/-- A handle that was never used before. -/
def fresh : Alloc Handle := ExceptT.lift Handle.draw

/-- The outcome of a function that has no effect. -/
def ofExcept {α : Type} : Except Error α → Alloc α
  | .ok a => pure a
  | .error e => throw e

end Alloc

/-- An effect that cannot fail. -/
abbrev Effect (ω : Type) := StateM (World ω)

/-- An effect that can crash, but has no error to report. -/
abbrev Attempt (ω : Type) := ExceptT Crash (Effect ω)

/-- An effect that can fail. -/
abbrev Action (ω : Type) := ExceptT Failure (Effect ω)

namespace Effect

variable {ω κ α : Type}

/-- An effect on a part of the memory. -/
def focus (slot : Slot ω κ) (e : Effect κ α) : Effect ω α := fun w =>
  let (a, w') := e.run (w.withMemory (slot.get w.memory))
  (a, w'.withMemory (slot.set w'.memory w.memory))

def fresh : Effect ω Handle := modifyGet fun w => (w.next, { w with next := w.next.next })

def peek (slot : Slot ω κ) : Effect ω κ := fun w => (slot.get w.memory, w)

def remember (slot : Slot ω κ) (f : κ → κ) : Effect ω Unit := fun w =>
  ((), { w with memory := slot.set (f (slot.get w.memory)) w.memory })

/-- Lets time pass. -/
def pause (d : Duration) : Effect ω Unit := modify fun w => { w with clock := w.clock.add d }

/-- Cancels the token of the session. -/
def cancel : Effect ω Unit := modify fun w => { w with tokens := w.tokens.cancel w.session }

def now : Effect ω Duration := fun w => (w.clock, w)

end Effect

namespace Attempt

variable {ω κ α : Type}

/-- An attempt on a part of the memory. -/
def focus (slot : Slot ω κ) (x : Attempt κ α) : Attempt ω α := ExceptT.mk (Effect.focus slot x.run)

def ofEffect (e : Effect ω α) : Attempt ω α := ExceptT.mk do return .ok (← e)

end Attempt

namespace Action

variable {ω κ α : Type}

/-- An action on a part of the memory. -/
def focus (slot : Slot ω κ) (x : Action κ α) : Action ω α := ExceptT.mk (Effect.focus slot x.run)

def ofEffect (e : Effect ω α) : Action ω α := ExceptT.mk do return .ok (← e)

def ofAttempt (x : Attempt ω α) : Action ω α := ExceptT.mk do
  match ← x.run with
  | .ok a => return .ok a
  | .error c => return .error (.crash c)

/-- An action with its error as a value. A crash stays a crash. -/
def attempt (x : Action ω α) : Attempt ω (Except Error α) := ExceptT.mk do
  match ← x.run with
  | .ok a => return .ok (.ok a)
  | .error (.error e) => return .ok (.error e)
  | .error (.crash c) => return .error c

def fail (e : Error) : Action ω α := throw (.error e)

/-- The outcome of a function that has no effect. -/
def ofExcept : Except Error α → Action ω α
  | .ok a => pure a
  | .error e => fail e

/-- An action that only draws handles. -/
def ofAlloc (x : Alloc α) : Action ω α := ExceptT.mk fun w =>
  let (r, h) := x.run.run w.next
  (r.mapError .error, { w with next := h })

def fresh : Action ω Handle := ofEffect Effect.fresh

def peek (slot : Slot ω κ) : Action ω κ := ofEffect (Effect.peek slot)

def remember (slot : Slot ω κ) (f : κ → κ) : Action ω Unit := ofEffect (Effect.remember slot f)

end Action

end ProgramAnalysis
