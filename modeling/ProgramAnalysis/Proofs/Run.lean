import ProgramAnalysis.Proofs.Expansion
/-!
What a run can do.

`Visits x m₀` are the machines that a run from `m₀` has at its loop head. A property of all of them,
and of the machine at the end, is shown by one step (`run_rule`), and a step is a test at the loop
head or an expansion (`step_rule`).
-/

namespace ProgramAnalysis.Exploration

variable {ν ρ ω θ : Type} [LeafValue ν] [Waitlist θ ν] {m : Machine ν ρ ω θ}
  {J : Except Failure Status → Machine ν ρ ω θ → Prop} {x : Exploration ν ρ ω}
  {I : Machine ν ρ ω θ → Prop} {r : ReachedSet ν ρ θ} {fuel : Nat}

/-! ## Initial states -/

/-- An initial state is added when both calls answer and the addition succeeds. -/
theorem seed_eq_ok {n : NodeId} {part : Partition} {w w' : World ω} {r' : ReachedSet ν ρ θ}
    {id : EntryId} :
    x.seed n part w r = (.ok id, w', r') ↔ ∃ s p w₁,
      (x.analysis.initialState n part).run.run w = (.ok s, w₁) ∧
      (x.analysis.initialPrecision n part).run.run w₁ = (.ok p, w') ∧
      r.add ⟨s, p, s.location?.getD n, part⟩ = .ok (id, r') := by
  have hpure : ∀ s p w₂,
      (pure (s, p) : Action ω (State ν × Precision ρ)).run.run w₂ = (.ok (s, p), w₂) :=
    fun _ _ _ => rfl
  unfold seed
  dsimp only
  rw [run_bind]
  constructor
  · intro h
    rcases hs : (x.analysis.initialState n part).run.run w with ⟨e | s, w₁⟩
    · rw [hs] at h
      cases h
    rw [hs] at h
    dsimp only at h
    rw [run_bind] at h
    rcases hp : (x.analysis.initialPrecision n part).run.run w₁ with ⟨e | p, w₂⟩
    · rw [hp] at h
      cases h
    rw [hp] at h
    dsimp only at h
    rw [hpure] at h
    dsimp only at h
    split at h
    · cases h
    · next ha =>
      cases h
      exact ⟨s, p, w₁, rfl, hp, ha⟩
  · rintro ⟨s, p, w₁, hs, hp, ha⟩
    rw [hs]
    dsimp only
    rw [run_bind, hp]
    dsimp only
    rw [hpure]
    dsimp only
    rw [ha]

/-! ## One step -/

/-- What an expansion that was cut short has to give, so that its step ends with `J`. -/
def Cut (J : Except Failure Status → Machine ν ρ ω θ → Prop) (id : EntryId) :
    Ending → Machine ν ρ ω θ → Prop
  | .done status true, m => J (.ok status) (putBack id m)
  | .done status false, m => J (.ok status) m
  | .failed e, m => J (.error (.error e)) (putBack id m)
  | .crashed c, m => J (.error (.crash c)) m

omit [LeafValue ν] in
theorem cut_of_true (id : EntryId) (ending : Ending) (m : Machine ν ρ ω θ) :
    Cut (fun _ _ => True) id ending m := by
  rcases ending with ⟨status, again⟩ | e | c
  · cases again <;> trivial
  · trivial
  · trivial

/-- A step leads to `I`, or it ends with `J`. -/
def Next.Meets (I : Machine ν ρ ω θ → Prop) (J : Except Failure Status → Machine ν ρ ω θ → Prop) :
    Next ν ρ ω θ → Prop
  | .again m => I m
  | .ended result m => J result m

omit [LeafValue ν] [Waitlist θ ν] in
theorem Next.Meets.mono {I' : Machine ν ρ ω θ → Prop}
    {J' : Except Failure Status → Machine ν ρ ω θ → Prop} {next : Next ν ρ ω θ} (h : next.Meets I J)
    (hI : ∀ m, I m → I' m) (hJ : ∀ result m, J result m → J' result m) : next.Meets I' J' := by
  cases next with
  | again m => exact hI m h
  | ended result m => exact hJ result m h

omit [LeafValue ν] in
theorem meets_conclude {id : EntryId} {ending : Except Ending Unit}
    (h : match ending with | .ok _ => I m | .error e => Cut J id e m) :
    (conclude id ending m).Meets I J := by
  match ending, h with
  | .ok (), h => exact h
  | .error (.done _ true), h => exact h
  | .error (.done _ false), h => exact h
  | .error (.failed _), h => exact h
  | .error (.crashed _), h => exact h

theorem step_rule (cancelled : J (.ok .interrupted) m)
    (finished : m.reached.hasWaiting = false →
      J (.ok (if m.targets.isEmpty then .exhausted else .targetFound)) m)
    (limited : J (.ok (.broken .iterationLimit)) m)
    (starved : m.reached.hasWaiting = true → ∀ r, m.reached.pop = (none, r) →
      I { m with reached := r })
    (expanded : ∀ id r, m.reached.pop = (some id, r) →
      Triple (fun m' => m' = popped m r) (x.expand id) (fun _ => I) (Cut J id)) :
    (x.step m).Meets I J := by
  unfold step
  split
  · exact cancelled
  split
  · next h => exact finished (by simpa using h)
  next hwaiting =>
  have hwaiting : m.reached.hasWaiting = true := by simpa using hwaiting
  split
  · exact limited
  split
  · next r hpop => exact starved hwaiting r hpop
  · next id r hpop =>
    have h := expanded id r hpop (popped m r) rfl
    rcases hx : (x.expand id).run.run (popped m r) with ⟨ending, m'⟩
    rw [hx] at h
    refine meets_conclude ?_
    cases ending with
    | ok _ => exact h
    | error e => exact h

section

variable {x : Exploration ν ρ ω} {m : Machine ν ρ ω θ}

theorem step_of_cancelled (h : m.meter.world.tokens.isCancelled x.token = true) :
    x.step m = .ended (.ok .interrupted) m := by
  simp [step, h]

variable (hc : m.meter.world.tokens.isCancelled x.token = false)

include hc

theorem step_of_finished (hw : m.reached.hasWaiting = false) :
    x.step m = .ended (.ok (if m.targets.isEmpty then .exhausted else .targetFound)) m := by
  simp [step, hc, hw]

theorem step_of_limit (hw : m.reached.hasWaiting = true) (hl : x.atLimit m = true) :
    x.step m = .ended (.ok (.broken .iterationLimit)) m := by
  simp [step, hc, hw, hl]

theorem step_of_pop (hw : m.reached.hasWaiting = true) (hl : x.atLimit m = false) {id : EntryId}
    (hpop : m.reached.pop = (some id, r)) :
    x.step m = conclude id ((x.expand id).run.run (popped m r)).1
      ((x.expand id).run.run (popped m r)).2 := by
  simp only [step, hc, hw, hl, hpop, Bool.not_true, Bool.false_eq_true, if_false]
  rfl

omit hc

/-- A run goes on when there was nothing to pop or when an expansion has come to its end. -/
theorem step_eq_again {m' : Machine ν ρ ω θ} (h : x.step m = .again m') :
    m.reached.hasWaiting = true ∧
      ((∃ r, m.reached.pop = (none, r) ∧ m' = { m with reached := r }) ∨
        ∃ id r, m.reached.pop = (some id, r) ∧
          (x.expand id).run.run (popped m r) = (.ok (), m')) := by
  unfold step at h
  split at h
  · cases h
  split at h
  · cases h
  next hwaiting =>
  refine ⟨by simpa using hwaiting, ?_⟩
  split at h
  · cases h
  split at h
  · next r hpop =>
    cases h
    exact .inl ⟨r, hpop, rfl⟩
  · next id r hpop =>
    refine .inr ⟨id, r, hpop, ?_⟩
    rcases hrun : (x.expand id).run.run (popped m r) with ⟨(⟨_, _ | _⟩ | _ | _) | _, m₁⟩ <;>
      rw [hrun] at h <;> cases h
    rfl

end

/-! ## All steps -/

/-- The machines at the loop head of a run from `m₀`. -/
inductive Visits (x : Exploration ν ρ ω) (m₀ : Machine ν ρ ω θ) : Machine ν ρ ω θ → Prop where
  | start : Visits x m₀ m₀
  | step {m m'} : Visits x m₀ m → x.step m = .again m' → Visits x m₀ m'

/-- In a run from `m₀`, an entry of the partition has the adjusted successor `a` at `l`. -/
def Yields (x : Exploration ν ρ ω) (m₀ : Machine ν ρ ω θ) (part : Partition) (a : Adjustment ν ρ)
    (l : NodeId) : Prop :=
  ∃ m id r e out meter, Visits x m₀ m ∧ m.reached.pop = (some id, r) ∧ r.get? id = some e ∧
    (x.successors r.store e).run.run (popped m r).meter = (.ok out, meter) ∧
    e.partition = part ∧ (a, l) ∈ out

section

variable {x : Exploration ν ρ ω} {m₀ : Machine ν ρ ω θ} {I : Machine ν ρ ω θ → Prop}
  {J : Except Failure Status → Machine ν ρ ω θ → Prop}
  (step : ∀ m, Visits x m₀ m → I m → (x.step m).Meets I J)

include step

theorem Visits.invariant (h : Visits x m₀ m) (h₀ : I m₀) : I m := by
  induction h with
  | start => exact h₀
  | step hv hs ih =>
    have := step _ hv ih
    rwa [hs] at this

/-- The end of a run has what every step keeps. -/
theorem run_rule (h₀ : I m₀) {result : Except Failure Status}
    (h : x.run fuel m₀ = some (result, m)) : J result m := by
  suffices ∀ m₁, Visits x m₀ m₁ → I m₁ → x.run fuel m₁ = some (result, m) → J result m from
    this m₀ .start h₀ h
  clear h
  induction fuel with
  | zero => intro m₁ _ _ h; cases h
  | succ fuel ih =>
    intro m₁ hv hm₁ h
    have hm := step m₁ hv hm₁
    unfold run at h
    split at h
    · next hs =>
      cases h
      rwa [hs] at hm
    · next hs =>
      rw [hs] at hm
      exact ih _ (hv.step hs) hm h

end

/-- A run ends when each step that goes on leads to something smaller. -/
theorem run_ends {α : Type} {lt : α → α → Prop} (wf : WellFounded lt) (size : Machine ν ρ ω θ → α)
    (step : ∀ m, I m → (x.step m).Meets (fun m' => I m' ∧ lt (size m') (size m)) fun _ _ => True)
    (m₀ : Machine ν ρ ω θ) (h₀ : I m₀) : ∃ fuel result m, x.run fuel m₀ = some (result, m) := by
  refine (InvImage.wf size wf).induction (C := fun m₀ => I m₀ →
    ∃ fuel result m, x.run fuel m₀ = some (result, m)) m₀ ?_ h₀
  intro m ih hm
  have hstep := step m hm
  cases hnext : x.step m with
  | ended result m' => exact ⟨1, result, m', by simp only [run, hnext]⟩
  | again m' =>
    rw [hnext] at hstep
    obtain ⟨hm', hlt⟩ := hstep
    obtain ⟨fuel, result, m'', hrun⟩ := ih m' hlt hm'
    exact ⟨fuel + 1, result, m'', by simp only [run, hnext]; exact hrun⟩

/-- The run from the machine ends, and `P` holds of how it does. -/
def Ends (x : Exploration ν ρ ω) (m : Machine ν ρ ω θ)
    (P : Except Failure Status → Machine ν ρ ω θ → Prop) : Prop :=
  ∃ fuel result m', x.run fuel m = some (result, m') ∧ P result m'

section

variable {x : Exploration ν ρ ω} {m m' : Machine ν ρ ω θ} {result : Except Failure Status}
  {P : Except Failure Status → Machine ν ρ ω θ → Prop}

theorem Ends.ended (hstep : x.step m = .ended result m') (h : P result m') : x.Ends m P :=
  ⟨1, result, m', by simp only [run, hstep], h⟩

theorem Ends.again (hstep : x.step m = .again m') (h : x.Ends m' P) : x.Ends m P := by
  obtain ⟨fuel, result, m₁, hrun, hP⟩ := h
  exact ⟨fuel + 1, result, m₁, by simp only [run, hstep]; exact hrun, hP⟩

/-- A run ends in one way only. -/
theorem Ends.of_run (h : x.Ends m P) (hrun : x.run fuel m = some (result, m')) : P result m' := by
  obtain ⟨fuel', result', m₁, hrun', hP⟩ := h
  suffices x.run fuel m = x.run fuel' m by
    rw [hrun, hrun'] at this
    cases this
    exact hP
  clear hP
  induction fuel generalizing fuel' m with
  | zero => cases hrun
  | succ fuel ih =>
    cases fuel' with
    | zero => cases hrun'
    | succ fuel' =>
      unfold run at hrun hrun' ⊢
      split
      · rfl
      · next hs =>
        rw [hs] at hrun hrun'
        exact ih hrun fuel' hrun'

end

omit [LeafValue ν] [Waitlist θ ν] in
/-- What was computed of a run that ends as exhausted. -/
theorem exhausted_of_any (run : Option (Except Failure Status × Machine ν ρ ω θ))
    (p : Machine ν ρ ω θ → Bool)
    (h : run.any (fun q => decide (q.1.toOption = some .exhausted) && p q.2) = true) :
    ∃ m, run = some (.ok .exhausted, m) ∧ p m = true := by
  obtain ⟨⟨result, m⟩, hrun, hp⟩ := (Option.any_eq_true _ _).1 h
  obtain ⟨hresult, hm⟩ := Bool.and_eq_true_iff.1 hp
  cases result with
  | error f => simp [Except.toOption] at hresult
  | ok status =>
    obtain rfl : status = .exhausted := by simpa [Except.toOption] using hresult
    exact ⟨m, hrun, hm⟩

/-- The machine after an initial state was added and a run has ended with the given status. -/
def exploreTo (x : Exploration ν ρ ω) (status : Status) (n : NodeId) (fuel : Nat) (w : World ω)
    (r : ReachedSet ν ρ θ) : Option (Machine ν ρ ω θ) :=
  match x.seed n .whole w r with
  | (.ok _, w, r) =>
    match x.run fuel ⟨⟨w, {}⟩, r, []⟩ with
    | some (.ok ended, m) => if ended = status then some m else none
    | _ => none
  | _ => none

theorem exploreTo_eq_some {status : Status} {n : NodeId} {w : World ω}
    (h : x.exploreTo status n fuel w r = some m) :
    ∃ k w' r', x.seed n .whole w r = (.ok k, w', r') ∧
      x.run fuel ⟨⟨w', {}⟩, r', []⟩ = some (.ok status, m) := by
  unfold exploreTo at h
  split at h
  · next hseed =>
    split at h
    · next hrun =>
      split at h
      · next hstatus =>
        cases h
        subst hstatus
        exact ⟨_, _, _, hseed, hrun⟩
      · cases h
    · cases h
  · cases h

end ProgramAnalysis.Exploration
