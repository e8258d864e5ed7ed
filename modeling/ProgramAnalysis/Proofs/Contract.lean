import ProgramAnalysis.Analysis.Policy
/-!
What an exploration may expect of an analysis.

`Analysis.Lawful` collects the rules for the operators: transfer and adjustment are functions of
what they are given, up to the handles of their answers; every answer has a handle of its own that
was never used before, or one of the two that the operator may give back; a merge lies above the
reached state; and a state that is stopped lies below a reached one. The order is any preorder of
the states that does not look at handles.

Weaker rules are enough for most statements: an analysis goes `Forward` if it takes no handle back, is
`Fresh` if the states that it makes have new handles, is `Ordered` if stopping and merging fit an
order, and is `Located` if the states that it makes stay within the program.
-/

namespace ProgramAnalysis

/-- Relations between states. -/
abbrev StateRel (ν : Type) := State ν → State ν → Prop

/-! ## States up to handles -/

namespace State

variable {ν : Type}

mutual

/-- The state with all its handles erased. -/
def bare : State ν → State ν
  | .location _ n => .location ⟨0⟩ n
  | .leaf _ v => .leaf ⟨0⟩ v
  | .tuple _ cs anchor => .tuple ⟨0⟩ (bareAll cs) anchor
  | .monitored _ w len x => .monitored ⟨0⟩ (bare w) len x
  | .graphed _ n w => .graphed ⟨0⟩ n (bare w)

def bareAll : List (State ν) → List (State ν)
  | [] => []
  | s :: rest => bare s :: bareAll rest

end

/-- The states differ in their handles only. -/
def Alike (s t : State ν) : Prop := s.bare = t.bare

theorem location?_bare [LeafValue ν] : (s : State ν) → s.bare.location? = s.location?
  | .location _ _ => rfl
  | .leaf _ _ => rfl
  | .tuple _ _ _ => rfl
  | .monitored _ w _ _ => location?_bare w
  | .graphed _ _ w => location?_bare w

theorem Alike.location? [LeafValue ν] {s t : State ν} (h : s.Alike t) :
    s.location? = t.location? := by
  rw [← location?_bare s, ← location?_bare t, h]

end State

/-- A preorder of the states that does not look at handles. -/
structure StateOrder (ν : Type) where
  le : State ν → State ν → Prop
  of_alike : ∀ {s t : State ν}, s.Alike t → le s t
  trans : ∀ {s t u : State ν}, le s t → le t u → le s u

theorem StateOrder.refl {ν : Type} (order : StateOrder ν) (s : State ν) : order.le s s :=
  order.of_alike rfl

namespace Domain

variable {ν : Type} {d : Domain ν} {s : State ν} {rs : List (State ν)}

/-- The second state lies above the first. -/
def Le (d : Domain ν) (a b : State ν) : Prop := d.leq a b = .ok true

theorem exists_le_of_coveredBySome (hc : d.coveredBySome s rs = .ok true) : ∃ t ∈ rs, d.Le s t := by
  induction rs with
  | nil => cases hc
  | cons t rest ih =>
    unfold coveredBySome at hc
    cases hle : d.leq s t with
    | error e =>
      rw [hle] at hc
      cases hc
    | ok b =>
      rw [hle] at hc
      cases b with
      | true => exact ⟨t, by simp, hle⟩
      | false =>
        obtain ⟨u, hu, hsu⟩ := ih hc
        exact ⟨u, List.mem_cons_of_mem t hu, hsu⟩

end Domain

/-! ## The rules for the operators -/

variable {ν ρ ω α ε : Type} {a : Analysis ν ρ ω} {order : StateOrder ν}

/-- Whatever comes of it, the computation keeps the world valid and takes no handle back. -/
def Keeps (valid : World ω → Prop) (x : ExceptT ε (Effect ω) α) : Prop :=
  ∀ w, valid w → valid (x.run.run w).2 ∧ w.next.serial ≤ (x.run.run w).2.next.serial

theorem Keeps.of_run {valid : World ω → Prop} {x : ExceptT ε (Effect ω) α} (h : Keeps valid x)
    {w w' : World ω} {r : Except ε α} (hw : valid w) (hx : x.run.run w = (r, w')) :
    valid w' ∧ w.next.serial ≤ w'.next.serial := by
  have := h w hw
  rwa [hx] at this

/-- The handle was drawn between the two worlds. -/
def World.Drew (w w' : World ω) (h : Handle) : Prop :=
  w.next.serial ≤ h.serial ∧ h.serial < w'.next.serial

/-- A handle that was drawn, and then kept or drawn again. -/
theorem World.Drew.renewed {w w₁ w₂ : World ω} {h k : Handle} (hh : w.Drew w₁ h)
    (hle : w₁.next.serial ≤ w₂.next.serial) (hk : k = h ∨ w₁.Drew w₂ k) : w.Drew w₂ k := by
  unfold World.Drew at *
  rcases hk with rfl | hk <;> omega

/-- What counts of an adjustment for the states that it leads to. -/
def Adjustment.core (a : Adjustment ν ρ) : State ν × Signal := (a.state.bare, a.signal)

/-- The operators follow the rules, in every valid world. -/
structure Analysis.Lawful (a : Analysis ν ρ ω) (order : StateOrder ν) (valid : World ω → Prop) :
    Prop where
  transfer_keeps : ∀ s p g, Keeps valid (a.transfer.successors s [] p g)
  transfer_pure : ∀ s p g w₁ w₂, valid w₁ → valid w₂ →
    ((a.transfer.successors s [] p g).run.run w₁).1.map (List.map State.bare) =
      ((a.transfer.successors s [] p g).run.run w₂).1.map (List.map State.bare)
  transfer_fresh : ∀ s p g w next w', valid w →
    (a.transfer.successors s [] p g).run.run w = (.ok next, w') →
    (next.map State.handle).Nodup ∧ ∀ t ∈ next, w.Drew w' t.handle
  adjust_keeps : ∀ s p store, Keeps valid (a.adjuster.adjust s p ⟨store, id, s⟩)
  /-- The reached states have no influence. -/
  adjust_pure : ∀ s₁ s₂ p store₁ store₂ w₁ w₂, s₁.Alike s₂ → valid w₁ → valid w₂ →
    ((a.adjuster.adjust s₁ p ⟨store₁, id, s₁⟩).run.run w₁).1.map (Option.map Adjustment.core) =
      ((a.adjuster.adjust s₂ p ⟨store₂, id, s₂⟩).run.run w₂).1.map (Option.map Adjustment.core)
  adjust_fresh : ∀ s p store w b w', valid w →
    (a.adjuster.adjust s p ⟨store, id, s⟩).run.run w = (.ok (some b), w') →
    b.state.handle = s.handle ∨ w.Drew w' b.state.handle
  fallback_keeps : ∀ s p err, Keeps valid (a.adjuster.fallback s p err)
  fallback_pure : ∀ s₁ s₂ p err w₁ w₂, s₁.Alike s₂ → valid w₁ → valid w₂ →
    ((a.adjuster.fallback s₁ p err).run.run w₁).1.map (Option.map Adjustment.core) =
      ((a.adjuster.fallback s₂ p err).run.run w₂).1.map (Option.map Adjustment.core)
  fallback_fresh : ∀ s p err w b w', valid w →
    (a.adjuster.fallback s p err).run.run w = (.ok (some b), w') →
    b.state.handle = s.handle ∨ w.Drew w' b.state.handle
  merge_keeps : ∀ s r p, Keeps valid (a.merger.merge s r p)
  merge_fresh : ∀ s r p w m w', valid w → (a.merger.merge s r p).run.run w = (.ok m, w') →
    m.handle = r.handle ∨ w.Drew w' m.handle
  merge_above : ∀ s r p w m w', valid w → (a.merger.merge s r p).run.run w = (.ok m, w') →
    order.le r m
  stop_keeps : ∀ s rs p, Keeps valid (a.stopper.stop s rs p)
  stop_below : ∀ s rs p w w', valid w → (a.stopper.stop s rs p).run.run w = (.ok true, w') →
    ∃ r ∈ rs, order.le s r

/-! ## Weaker rules -/

/-- No operator takes a handle back. -/
structure Analysis.Forward (a : Analysis ν ρ ω) : Prop where
  transfer : ∀ s p e, Keeps (fun _ => True) (a.transfer.successors s [] p e)
  merge : ∀ s r p, Keeps (fun _ => True) (a.merger.merge s r p)
  stop : ∀ s rs p, Keeps (fun _ => True) (a.stopper.stop s rs p)
  adjust : ∀ s p around, Keeps (fun _ => True) (a.adjuster.adjust s p around)
  fallback : ∀ s p err, Keeps (fun _ => True) (a.adjuster.fallback s p err)
  initialState : ∀ n part, Keeps (fun _ => True) (a.initialState n part)
  initialPrecision : ∀ n part, Keeps (fun _ => True) (a.initialPrecision n part)

/-- The states that the transfer gives have handles of their own that were never used before. An
adjustment may give back the one that it was given. -/
structure Analysis.Fresh (a : Analysis ν ρ ω) : Prop where
  transfer : ∀ s p e w next w', (a.transfer.successors s [] p e).run.run w = (.ok next, w') →
    (next.map State.handle).Nodup ∧ ∀ t ∈ next, w.Drew w' t.handle
  adjust : ∀ s p store w b w',
    (a.adjuster.adjust s p ⟨store, id, s⟩).run.run w = (.ok (some b), w') →
    b.state.handle = s.handle ∨ w.Drew w' b.state.handle
  fallback : ∀ s p err w b w', (a.adjuster.fallback s p err).run.run w = (.ok (some b), w') →
    b.state.handle = s.handle ∨ w.Drew w' b.state.handle

theorem Analysis.Lawful.fresh (h : a.Lawful order fun _ => True) : a.Fresh where
  transfer s p e w next w' := h.transfer_fresh s p e w next w' trivial
  adjust s p store w b w' := h.adjust_fresh s p store w b w' trivial
  fallback s p err w b w' := h.fallback_fresh s p err w b w' trivial

/-- The computation can give the answer. -/
def Answers (x : ExceptT ε (Effect ω) α) (v : α) : Prop := ∃ w w', x.run.run w = (.ok v, w')

/-- The order is transitive and fits the operators: a state that is stopped by a single reached one
lies below it, and a merge lies above the reached state. -/
structure Analysis.Ordered (a : Analysis ν ρ ω) (le : StateRel ν) : Prop where
  trans : ∀ s t u, le s t → le t u → le s u
  stop : ∀ s r p, Answers (a.stopper.stop s [r] p) true → le s r
  merge : ∀ s r p m, Answers (a.merger.merge s r p) m → le r m

theorem Analysis.Lawful.ordered (h : a.Lawful order fun _ => True) : a.Ordered order.le where
  trans _ _ _ := order.trans
  stop s r p := by
    rintro ⟨w, w', hrun⟩
    obtain ⟨r', hr', hle⟩ := h.stop_below s [r] p w w' trivial hrun
    rw [List.mem_singleton.1 hr'] at hle
    exact hle
  merge s r p m := by
    rintro ⟨w, w', hrun⟩
    exact h.merge_above s r p w m w' trivial hrun

/-- If the state is bound to a location, the program has that location. -/
def State.LocatedIn [LeafValue ν] (program : Program) (s : State ν) : Prop :=
  ∀ l, s.location? = some l → program.contains l = true

/-- From states of the program the operators make states of the program. -/
structure Analysis.Located [LeafValue ν] (a : Analysis ν ρ ω) (program : Program) : Prop where
  transfer : ∀ s p n next, ∀ e ∈ program.leaving n, s.LocatedIn program →
    Answers (a.transfer.successors s [] p e) next → ∀ t ∈ next, t.LocatedIn program
  merge : ∀ s r p m, s.LocatedIn program → r.LocatedIn program →
    Answers (a.merger.merge s r p) m → m.LocatedIn program
  adjust : ∀ s p around b, s.LocatedIn program →
    (∀ k e, around.reached.get? k = some e → (around.view e.state).LocatedIn program) →
    Answers (a.adjuster.adjust s p around) (some b) → b.state.LocatedIn program
  fallback : ∀ s p err b, s.LocatedIn program →
    Answers (a.adjuster.fallback s p err) (some b) → b.state.LocatedIn program

end ProgramAnalysis
