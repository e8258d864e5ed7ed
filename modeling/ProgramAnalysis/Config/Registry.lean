import ProgramAnalysis.Config.Basic
/-!
Building nested analyses from a configuration.

A registry knows factories by name. The option `cpa` names the root as `name` or `name as label`. A
wrapper finds the spec of its child in `<label>.cpa`, and a composite those of its children in
`<label>.cpas`. What is built is a parameter `β`.
-/

namespace ProgramAnalysis

/-- Builds one kind of analysis; the first argument is the label of the analysis. -/
inductive Factory (β : Type) where
  | leaf (create : String → Setup β)
  | wrapper (create : String → β → Setup β)
  | composite (create : String → List β → Setup β)

/-- Factories by name. -/
structure Registry (β : Type) where
  factories : List (String × Factory β)

namespace Registry

variable {β : Type}

def empty : Registry β := ⟨[]⟩

/-- Registers a factory in place of an older one of the same name. -/
def register (r : Registry β) (name : String) (f : Factory β) : Registry β :=
  ⟨(name, f) :: r.factories.filter fun p => p.1 ≠ name⟩

def find? (r : Registry β) (name : String) : Option (Factory β) :=
  (r.factories.find? fun p => p.1 = name).map Prod.snd

def contains (r : Registry β) (name : String) : Bool := (r.find? name).isSome

/-- The name of a factory and the label of an analysis. -/
structure Spec where
  name : String
  label : String
deriving DecidableEq, Inhabited

/-- The spec that words form, `name` or `name as label`. -/
def Spec.ofWords? : List String → Option Spec
  | [name] => some ⟨name, name⟩
  | [name, "as", label] => some ⟨name, label⟩
  | _ => none

/-- Reads a spec. -/
def Spec.read (s : String) : Except ConfigError Spec :=
  match Spec.ofWords? ((Text.words s.toList).map String.ofList) with
  | some spec => .ok spec
  | none => .error (.invalidValue "cpa" s "'name' or 'name as alias'")

def childKey (label : String) : String := label ++ ".cpa"

def childrenKey (label : String) : String := label ++ ".cpas"

/-- Refuses an option that does not fit the kind of an analysis. -/
def refuseOption (o : Options) (key label reason : String) : Lookup Unit := do
  if o.contains key then
    throw (.invalidComposition label reason)

/-- A spec that stands in an option of the analysis with the given label. -/
structure Child (o : Options) (label : String) where
  text : String
  listed : childKey label ∈ o.keys ∨ childrenKey label ∈ o.keys

/-- The children of an analysis, in their order. -/
def children (o : Options) (label : String) : Factory β → Lookup (List (Child o label))
  | .leaf _ => do
    refuseOption o (childKey label) label "a leaf analysis takes no children"
    refuseOption o (childrenKey label) label "a leaf analysis takes no children"
    return []
  | .wrapper _ => do
    refuseOption o (childrenKey label) label "a wrapper takes exactly one child"
    let ⟨text, hset⟩ ← o.require (childKey label)
    return [⟨text, .inl (Index.mem_keys_of_get? hset)⟩]
  | .composite _ => do
    refuseOption o (childKey label) label "a composite lists its components in '.cpas'"
    let ⟨value, hset⟩ ← o.require (childrenKey label)
    if Setup.readList value = [] then
      throw (.invalidComposition label "at least one component is required")
    else
      return (Setup.readList value).map fun text => ⟨text, .inr (Index.mem_keys_of_get? hset)⟩

/-- What a factory makes of the analyses that were built below the label. -/
def create : Factory β → String → List β → Setup β
  | .leaf create, label, _ => create label
  | .wrapper create, label, [child] => create label child
  | .wrapper _, label, _ => throw (.invalidComposition label "a wrapper takes exactly one child")
  | .composite create, label, children => create label children

/-- The options that belong to none of the labels. -/
def free (o : Options) (labels : List String) : List String :=
  o.keys.filter fun k => !labels.any fun a => k = childKey a || k = childrenKey a

theorem childKey_injective {a b : String} (h : childKey a = childKey b) : a = b :=
  String.append_left_inj _ |>.1 h

theorem childrenKey_injective {a b : String} (h : childrenKey a = childrenKey b) : a = b :=
  String.append_left_inj _ |>.1 h

theorem childKey_ne_childrenKey (a b : String) : childKey a ≠ childrenKey b := by
  intro h
  have hlast := congrArg (fun s => s.toList.getLast?) h
  simp [childKey, childrenKey] at hlast

/-- An analysis below which a child is looked for takes an option away. -/
theorem free_lt {o : Options} {label : String} {labels : List String} (hnew : label ∉ labels)
    (hlisted : childKey label ∈ o.keys ∨ childrenKey label ∈ o.keys) :
    (free o (label :: labels)).length < (free o labels).length := by
  have hfree : free o (label :: labels) =
      (free o labels).filter fun k => !(k = childKey label || k = childrenKey label) := by
    simp only [free, List.filter_filter, List.any_cons, Bool.not_or]
  rw [hfree, List.length_filter_lt_length_iff_exists]
  obtain hkey | hkey := hlisted
  · refine ⟨childKey label, ?_, by simp⟩
    simp only [free, List.mem_filter, hkey, true_and, Bool.not_eq_true', List.any_eq_false,
      Bool.or_eq_true, decide_eq_true_eq, not_or]
    intro a ha
    exact ⟨fun h => hnew (childKey_injective h ▸ ha), childKey_ne_childrenKey label a⟩
  · refine ⟨childrenKey label, ?_, by simp⟩
    simp only [free, List.mem_filter, hkey, true_and, Bool.not_eq_true', List.any_eq_false,
      Bool.or_eq_true, decide_eq_true_eq, not_or]
    intro a ha
    exact ⟨(childKey_ne_childrenKey a label).symm, fun h => hnew (childrenKey_injective h ▸ ha)⟩

/-- Builds what a spec stands for, below analyses with the labels `above`. A label must not occur
below itself, and every child stands in an option of its parent, so the options that are left get
fewer on the way down. -/
def resolve (r : Registry β) (o : Options) (above : List String) (text : String) : Lookup β := do
  let spec ← Setup.ofExcept (Spec.read text) o
  if hnew : spec.label ∈ above then
    throw (.cyclicDefinition spec.label)
  else
    match r.find? spec.name with
    | none => throw (.unknownAnalysis spec.name)
    | some factory =>
      let below ← (← children o spec.label factory).mapM fun child =>
        have := free_lt hnew child.listed
        resolve r o (spec.label :: above) child.text
      create factory spec.label below o
termination_by (free o above).length

/-- Builds the analysis that the option `cpa` names. -/
def build (r : Registry β) : Setup β := do
  resolve r (← read) [] (← Setup.require "cpa")

end Registry

end ProgramAnalysis
