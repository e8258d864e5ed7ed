import ProgramAnalysis.Analysis.Basic
import ProgramAnalysis.Cache
/-!
Remembered merges and adjustments.

The answers of both operators are remembered by the handles of their arguments, and failures are not
remembered. An adjustment that depends on the reached states must not be remembered, so such an
analysis is refused.
-/

namespace ProgramAnalysis.Memo

variable {ν ρ ω : Type}

/-- The handles of the precision, of the new state and of the reached state. -/
abbrev MergeKey := Handle × Handle × Handle

/-- The handles of the precision and of the state. -/
abbrev AdjustKey := Handle × Handle

/-- What is remembered. -/
structure Tables (ν ρ : Type) where
  merges : Cache MergeKey (State ν)
  adjustments : Cache AdjustKey (Option (Adjustment ν ρ))

namespace Tables

def empty : Tables ν ρ := ⟨.empty, .empty⟩

instance : Inhabited (Tables ν ρ) := ⟨empty⟩

/-- Forgets all answers and keeps the counts. -/
def clear (t : Tables ν ρ) : Tables ν ρ := ⟨t.merges.clear, t.adjustments.clear⟩

end Tables

/-- Looks an answer up and counts the look-up. -/
def lookup {ω κ β : Type} [DecidableEq κ] (slot : Slot ω (Cache κ β)) (k : κ) :
    Effect ω (Option β) := fun w =>
  let (found, cache) := (slot.get w.memory).get k
  (found, { w with memory := slot.set cache w.memory })

/-- The remembered answer or else the answer of `compute`, which is then remembered. -/
def remembered {ω κ β : Type} [DecidableEq κ] (slot : Slot ω (Cache κ β)) (k : κ)
    (compute : Action ω β) : Action ω β := do
  match ← Action.ofEffect (lookup slot k) with
  | some b => return b
  | none =>
    let b ← compute
    Action.remember slot fun c => c.insert k b
    return b

/-- Where the remembered merges are. -/
def merges : Slot (ω × Tables ν ρ) (Cache MergeKey (State ν)) :=
  ⟨fun m => m.2.merges, fun c m => (m.1, { m.2 with merges := c })⟩

/-- Where the remembered adjustments are. -/
def adjustments : Slot (ω × Tables ν ρ) (Cache AdjustKey (Option (Adjustment ν ρ))) :=
  ⟨fun m => m.2.adjustments, fun c m => (m.1, { m.2 with adjustments := c })⟩

def merger (m : Merge ν ρ ω) : Merge ν ρ (ω × Tables ν ρ) where
  merge s r p := remembered merges (p.handle, s.handle, r.handle) ((m.merge s r p).focus .fst)
  isSep := m.isSep

def adjuster (ad : Adjuster ν ρ ω) : Adjuster ν ρ (ω × Tables ν ρ) where
  adjust s p around :=
    remembered adjustments (p.handle, s.handle) ((ad.adjust s p around).focus .fst)
  fallback s p e := (ad.fallback s p e).focus .fst
  independent := true

/-- The analysis with remembered merges and adjustments. -/
def analysis (a : Analysis ν ρ ω) : Analysis ν ρ (ω × Tables ν ρ) :=
  { a.focus .fst with
    merger := merger a.merger
    adjuster := adjuster a.adjuster }

/-- Checks that the adjustment of the analysis called `name` may be remembered. -/
def check (name : String) (independent : Bool) : Except ConfigError Unit :=
  if independent then .ok ()
  else .error (.precondition "caching"
    ("precision adjustment of '" ++ name ++ "' depends on the reached set and cannot be cached"))

end ProgramAnalysis.Memo
