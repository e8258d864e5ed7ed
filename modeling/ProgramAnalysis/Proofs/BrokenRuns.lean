import ProgramAnalysis.Proofs.Aborts
import ProgramAnalysis.Proofs.Successors
/-!
Runs that an adjustment ends.

There are four ways in which the adjustment of a successor can end a run (`Cause`): it halts, its
fallback halts, a backend fails and there is no fallback, or another error is raised. An iteration
that has come to one of them ends with the result that belongs to it (`Abandons.step`), and a run
that is broken before its limit has come to one of them (`abandons_of_broken`).
-/

namespace ProgramAnalysis.Exploration

variable {ν ρ ω θ : Type}

/-! ## How adjustments end an expansion -/

/-- Why an adjustment ends an expansion. -/
inductive Cause where
  | halted
  /-- A backend failed, and the fallback halted. -/
  | fallbackHalted
  /-- A backend failed, and there was no fallback. -/
  | unaided (component reason : String)
  /-- No backend, but something else failed. -/
  | raised (err : Error)
deriving DecidableEq

namespace Cause

/-- How the expansion ends. -/
def ending : Cause → Ending
  | halted => .done (.broken .adjustment) true
  | fallbackHalted => .done (.broken .adjustment) true
  | unaided component reason =>
    .done (.broken (.backendFailure (Error.backendMessage component reason))) true
  | raised err => .ofError err

/-- What the run answers. -/
def result : Cause → Except Failure Status
  | halted => .ok (.broken .adjustment)
  | fallbackHalted => .ok (.broken .adjustment)
  | unaided component reason =>
    .ok (.broken (.backendFailure (Error.backendMessage component reason)))
  | raised err => if err.isInterrupted then .ok .interrupted else .error (.error err)

theorem conclude_ending [Waitlist θ ν] (cause : Cause) (id : EntryId) (m : Machine ν ρ ω θ) :
    conclude id (.error cause.ending) m = .ended cause.result (putBack id m) := by
  cases cause with
  | halted => rfl
  | fallbackHalted => rfl
  | unaided component reason => rfl
  | raised err => cases err <;> rfl

theorem result_of_ending {cause : Cause} {status : Status}
    (h : cause.ending = .done status true) : cause.result = .ok status := by
  cases cause with
  | halted => cases h; rfl
  | fallbackHalted => cases h; rfl
  | unaided component reason => cases h; rfl
  | raised err =>
    cases err with
    | interrupted => cases h; rfl
    | _ => cases h

end Cause

theorem run_count (f : Counters → Counters) (m : Meter ω) :
    (Phase.count f).run.run m = (.ok (), { m with counters := f m.counters }) := rfl

variable [LeafValue ν] {x : Exploration ν ρ ω} {store : Store ν ρ} {p : Precision ρ} {s : State ν}
  {w w' : World ω} {cause : Cause} {reason : BreakReason} {m m' : Meter ω} {a : Adjustment ν ρ}
  {rest raw : Batch ν}

/-- The adjustment of a successor ends the expansion in the world `w'`. -/
inductive Stops (x : Exploration ν ρ ω) (store : Store ν ρ) (p : Precision ρ) (s : State ν)
    (w : World ω) : Cause → World ω → Prop where
  | halted {a : Adjustment ν ρ} {w'} :
      (x.adjustment store p s).run.run w = (.ok (some a), w') →
      a.signal = .halt → Stops x store p s w .halted w'
  | fallbackHalted {component reason a w₁ w'} :
      (x.adjustment store p s).run.run w = (.error (.error (.backend component reason)), w₁) →
      (x.analysis.adjuster.fallback s p (.backend component reason)).run.run w₁ =
        (.ok (some a), w') →
      a.signal = .halt → Stops x store p s w .fallbackHalted w'
  | unaided {component reason w₁ w'} :
      (x.adjustment store p s).run.run w = (.error (.error (.backend component reason)), w₁) →
      (x.analysis.adjuster.fallback s p (.backend component reason)).run.run w₁ = (.ok none, w') →
      Stops x store p s w (.unaided component reason) w'
  | raised {err w'} :
      (x.adjustment store p s).run.run w = (.error (.error err), w') →
      err.isBackend = false → Stops x store p s w (.raised err) w'

/-- Of the successors that wait for their adjustment, some are adjusted or dropped, and the next one
ends the expansion. -/
inductive BreaksOff (x : Exploration ν ρ ω) (store : Store ν ρ) (p : Precision ρ) :
    Batch ν → World ω → Cause → World ω → Prop where
  | here {s l rest w w' cause} :
      Stops x store p s w cause w' → BreaksOff x store p ((s, l) :: rest) w cause w'
  | later {s l rest w w₁ w' o cause} :
      Answers x store p s w o w₁ → (∀ a, o = some a → a.signal ≠ .halt) →
      BreaksOff x store p rest w₁ cause w' → BreaksOff x store p ((s, l) :: rest) w cause w'

omit [LeafValue ν] in
theorem run_adjust_of_error {err : Error}
    (h : (x.adjustment store p s).run.run m.world =
      (.error (.error err), w')) (hb : err.isBackend = false) :
    ∃ counters, (x.adjust store p s).run.run m = (.error (.ofError err), ⟨w', counters⟩) := by
  obtain ⟨counters, -, htimed⟩ := Phase.run_timed .adjustment
    (x.adjustment store p s) m
  rw [h] at htimed
  refine ⟨counters, (run_bind_of_ok htimed).trans ?_⟩
  cases err with
  | backend component reason => cases hb
  | _ => rfl

theorem adjustAll_of_halt {m₁ : Meter ω} {l : NodeId}
    (h : (x.adjust store p s).run.run m = (.ok (some a), m₁)) (ha : a.signal = .halt) :
    ∃ counters, (x.adjustAll store p ((s, l) :: rest)).run.run m =
      (.error (.done (.broken .adjustment) true), ⟨m₁.world, counters⟩) := by
  unfold adjustAll
  rw [run_bind_of_ok h]
  dsimp only
  rw [if_pos ha]
  exact ⟨_, rfl⟩

theorem adjustAll_of_answer {m₁ : Meter ω} {o : Option (Adjustment ν ρ)} {l : NodeId}
    {ending : Ending} (h : (x.adjust store p s).run.run m = (.ok o, m₁))
    (ho : ∀ a, o = some a → a.signal ≠ .halt)
    (hrest : (x.adjustAll store p rest).run.run m₁ = (.error ending, m')) :
    (x.adjustAll store p ((s, l) :: rest)).run.run m = (.error ending, m') := by
  unfold adjustAll
  rw [run_bind_of_ok h]
  cases o with
  | none => exact hrest
  | some a =>
    dsimp only
    rw [if_neg (ho a rfl)]
    exact run_bind_of_error hrest

theorem Stops.adjustAll (h : Stops x store p s m.world cause w') (l : NodeId)
    (rest : Batch ν) :
    ∃ counters, (x.adjustAll store p ((s, l) :: rest)).run.run m =
      (.error cause.ending, ⟨w', counters⟩) := by
  cases h with
  | halted h ha =>
    obtain ⟨counters, hrun⟩ := run_adjust_of_ok h
    exact adjustAll_of_halt hrun ha
  | fallbackHalted h hf ha =>
    obtain ⟨counters, hrun⟩ := run_adjust_of_backend h hf
    exact adjustAll_of_halt hrun ha
  | unaided h hf =>
    obtain ⟨counters, hrun⟩ := run_adjust_of_backend h hf
    exact ⟨counters, run_bind_of_error hrun⟩
  | raised h hb =>
    obtain ⟨counters, hrun⟩ := run_adjust_of_error h hb
    exact ⟨counters, run_bind_of_error hrun⟩

theorem BreaksOff.adjustAll (h : BreaksOff x store p raw w cause w') (counters : Counters) :
    ∃ counters', (x.adjustAll store p raw).run.run ⟨w, counters⟩ =
      (.error cause.ending, ⟨w', counters'⟩) := by
  induction h generalizing counters with
  | here h => exact Stops.adjustAll (m := ⟨_, counters⟩) h _ _
  | later h ho _ ih =>
    obtain ⟨counters₁, hrun⟩ := Answers.adjust (m := ⟨_, counters⟩) h
    obtain ⟨counters', hrest⟩ := ih counters₁
    exact ⟨counters', adjustAll_of_answer hrun ho hrest⟩

/-! ## There is no other way -/

omit [LeafValue ν] in
theorem Answers.stops (h : Answers x store p s w (some a) w') (ha : a.signal = .halt) :
    ∃ cause : Cause, cause.ending = .done (.broken .adjustment) true ∧
      Stops x store p s w cause w' := by
  cases h with
  | directly h => exact ⟨.halted, rfl, .halted h ha⟩
  | byFallback h hf => exact ⟨.fallbackHalted, rfl, .fallbackHalted h hf ha⟩

omit [LeafValue ν] in
theorem adjust_stops (x : Exploration ν ρ ω) (store : Store ν ρ) (p : Precision ρ) (s : State ν)
    (w : World ω) :
    Triple (fun m => m.world = w) (x.adjust store p s)
      (fun o m => Answers x store p s w o m.world)
      (fun ending m => (∀ c, ending ≠ .crashed c) →
        ∃ cause : Cause, cause.ending = ending ∧ Stops x store p s w cause m.world) := by
  refine adjust_triple (P := fun w₁ => w₁ = w) (Q := Answers x store p s w)
    (E := fun ending w' => (∀ c, ending ≠ .crashed c) →
      ∃ cause : Cause, cause.ending = ending ∧ Stops x store p s w cause w') ?_ ?_ ?_ ?_
    (fun _ c _ _ _ hc => absurd rfl (hc c)) fun _ _ _ _ c _ _ _ _ hc => absurd rfl (hc c)
  · rintro _ o w' rfl h
    exact .directly h
  · rintro _ component reason w₁ a w' rfl h hf
    exact .byFallback h hf
  · rintro _ component reason w₁ w' rfl h hf -
    exact ⟨.unaided component reason, rfl, .unaided h hf⟩
  · rintro _ err w' rfl hb h -
    exact ⟨.raised err, rfl, .raised h hb⟩

/-- Adjustments that end an expansion without a crash do it in one of the four ways. -/
theorem breaksOff_of_adjustAll {ending : Ending}
    (h : (x.adjustAll store p raw).run.run m = (.error ending, m'))
    (hcrash : ∀ c, ending ≠ .crashed c) :
    ∃ cause : Cause, cause.ending = ending ∧ BreaksOff x store p raw m.world cause m'.world := by
  -- What breaks off the adjustments that are still to come breaks off all of them.
  let T (todo : Batch ν) (w : World ω) : Prop :=
    ∀ cause w', BreaksOff x store p todo w cause w' → BreaksOff x store p raw m.world cause w'
  refine (adjustAll_triple (T := fun todo _ => T todo) (E := fun ending w' =>
    (∀ c, ending ≠ .crashed c) → ∃ cause : Cause, cause.ending = ending ∧
      BreaksOff x store p raw m.world cause w') ?_ raw []).error (fun _ _ h => h) h hcrash
  intro s l todo out m₁ hm₁
  have hadjust := adjust_stops x store p s m₁.world m₁ rfl
  revert hadjust
  rcases (x.adjust store p s).run.run m₁ with ⟨ending | _ | a, m₂⟩
  · intro hadjust hc
    obtain ⟨cause, hcause, hstops⟩ := hadjust hc
    exact ⟨cause, hcause, hm₁ _ _ (.here hstops)⟩
  · intro hadjust cause w' hrest
    exact hm₁ cause w' (.later hadjust (fun _ h => by cases h) hrest)
  · intro hadjust
    dsimp only
    split
    · next hhalt =>
      obtain ⟨cause, hcause, hstops⟩ := Answers.stops hadjust hhalt
      exact fun _ => ⟨cause, hcause, hm₁ _ _ (.here hstops)⟩
    · next hgo =>
      refine fun cause w' hrest => hm₁ cause w' (.later hadjust ?_ hrest)
      rintro _ ⟨⟩
      exact hgo

theorem gather_unbroken (e : Entry ν ρ) (edges : List ProgramEdge) :
    Triple (fun _ => True) (x.gather e edges) (fun _ _ => True)
      (fun ending _ => ∀ reason again, ending ≠ .done (.broken reason) again) := by
  have hgathering : x.Gathering e edges (fun _ _ _ => True)
      (fun ending _ => ∀ reason again, ending ≠ .done (.broken reason) again) := by
    refine ⟨fun _ _ _ _ _ _ _ _ _ _ => trivial, fun _ _ _ _ _ _ _ _ _ _ _ => trivial, ?_, nofun,
      nofun⟩
    intro _ _ _ _ _ err _ _ _ _ _ reason again
    unfold Ending.ofError
    split
    · nofun
    · nofun
  exact hgathering.triple edges [] [] rfl

/-- An expansion that ends as broken has its successors, and one of their adjustments ends it. -/
theorem breaksOff_of_successors {e : Entry ν ρ}
    (h : (x.successors store e).run.run m = (.error (.done (.broken reason) true), m')) :
    ∃ raw meter, (x.gather e (x.program.leaving e.location)).run.run m = (.ok raw, meter) ∧
      ∃ cause : Cause, cause.result = .ok (.broken reason) ∧
        BreaksOff x store e.precision raw meter.world cause m'.world := by
  unfold successors at h
  rcases hgather : (x.gather e (x.program.leaving e.location)).run.run m with ⟨ending | raw, meter⟩
  · rw [run_bind_of_error hgather] at h
    cases h
    exact absurd rfl ((gather_unbroken e _).error trivial hgather reason true)
  · rw [run_bind_of_ok hgather] at h
    have h := (run_bind_of_ok (run_count _ meter)).symm.trans h
    obtain ⟨cause, hcause, hbreaks⟩ := breaksOff_of_adjustAll h nofun
    exact ⟨raw, meter, rfl, cause, Cause.result_of_ending hcause, hbreaks⟩

/-! ## Iterations -/

variable [Waitlist θ ν] {m' : Machine ν ρ ω θ}

/-- The iteration from `m` on has all successors of an entry, and one of their adjustments ends it
in the world `w'`. -/
inductive Abandons (x : Exploration ν ρ ω) (m : Machine ν ρ ω θ) (cause : Cause) (w' : World ω) :
    Prop where
  | intro {k r e raw meter} :
      m.meter.world.tokens.isCancelled x.token = false → m.reached.hasWaiting = true →
      x.atLimit m = false → m.reached.pop = (some k, r) → r.get? k = some e →
      (x.gather e (x.program.leaving e.location)).run.run (popped m r).meter = (.ok raw, meter) →
      BreaksOff x r.store e.precision raw meter.world cause w' → Abandons x m cause w'

theorem Abandons.step {m : Machine ν ρ ω θ} (h : x.Abandons m cause w') :
    ∃ m', x.step m = .ended cause.result m' ∧ m'.meter.world = w' := by
  obtain @⟨k, r, e, raw, meter, hc, hw, hl, hpop, he, hgather, hbreaks⟩ := h
  obtain ⟨counters, hadjust⟩ := hbreaks.adjustAll
    { meter.counters with successors := meter.counters.successors + raw.length }
  have hsuccessors : (x.successors (popped m r).reached.store e).run.run (popped m r).meter =
      (.error cause.ending, ⟨w', counters⟩) :=
    (run_bind_of_ok hgather).trans ((run_bind_of_ok (run_count _ meter)).trans hadjust)
  have hexpand : (x.expand k).run.run (popped m r) =
      (.error cause.ending, { popped m r with meter := ⟨w', counters⟩ }) := by
    have he : (popped m r).reached.get? k = some e := he
    rw [run_expand he]
    refine run_bind_of_error ?_
    rw [Stage.run_ofPhase, hsuccessors]
  refine ⟨putBack k { popped m r with meter := ⟨w', counters⟩ }, ?_, rfl⟩
  rw [step_of_pop hc hw hl hpop, hexpand, cause.conclude_ending]

omit [LeafValue ν] in
theorem conclude_eq_broken {k : EntryId} {ending : Except Ending Unit} {m : Machine ν ρ ω θ}
    (h : conclude k ending m = .ended (.ok (.broken reason)) m') :
    (∃ again, ending = .error (.done (.broken reason) again)) ∧ m'.meter = m.meter := by
  rcases ending with (⟨status, _ | _⟩ | _ | _) | _
  · cases h
    exact ⟨⟨false, rfl⟩, rfl⟩
  · cases h
    exact ⟨⟨true, rfl⟩, rfl⟩
  all_goals cases h

/-- An iteration that ends as broken before the limit has popped an entry, and its expansion ends as
broken. -/
theorem expand_of_broken {m : Machine ν ρ ω θ} (hstep : x.step m = .ended (.ok (.broken reason)) m')
    (hreason : reason ≠ .iterationLimit) :
    m.meter.world.tokens.isCancelled x.token = false ∧ m.reached.hasWaiting = true ∧
      x.atLimit m = false ∧ ∃ k r again m₁, m.reached.pop = (some k, r) ∧
        (x.expand k).run.run (popped m r) = (.error (.done (.broken reason) again), m₁) ∧
        m'.meter = m₁.meter := by
  cases hc : m.meter.world.tokens.isCancelled x.token with
  | true =>
    rw [step_of_cancelled hc] at hstep
    cases hstep
  | false =>
  cases hw : m.reached.hasWaiting with
  | false =>
    rw [step_of_finished hc hw] at hstep
    split at hstep <;> cases hstep
  | true =>
  cases hl : x.atLimit m with
  | true =>
    rw [step_of_limit hc hw hl] at hstep
    cases hstep
    exact absurd rfl hreason
  | false =>
  rcases hpop : m.reached.pop with ⟨_ | k, r⟩
  · simp [step, hc, hw, hl, hpop] at hstep
  · rw [step_of_pop hc hw hl hpop] at hstep
    obtain ⟨⟨again, hending⟩, hmeter⟩ := conclude_eq_broken hstep
    exact ⟨rfl, rfl, rfl, k, r, again, _, rfl, Prod.ext hending rfl, hmeter⟩

/-- An iteration ends as broken at the limit, or because an adjustment ends it. -/
theorem abandons_of_broken {m : Machine ν ρ ω θ} (hsound : m.reached.Sound)
    (hstep : x.step m = .ended (.ok (.broken reason)) m') (hreason : reason ≠ .iterationLimit) :
    ∃ cause : Cause, cause.result = .ok (.broken reason) ∧ x.Abandons m cause m'.meter.world := by
  obtain ⟨hc, hw, hl, k, r, again, m₁, hpop, hrun, hmeter⟩ := expand_of_broken hstep hreason
  cases he : r.get? k with
  | none =>
    obtain ⟨err, herr, -⟩ := (expand_missing he).error rfl hrun
    cases herr
  | some e =>
    have hr : (popped m r).reached.Sound := hsound.pop hpop
    rcases (expand_ends hr he).error rfl hrun with
      ⟨-, -, ⟨-, rfl⟩, hsuccessors⟩ | ⟨hlate, -⟩
    · obtain ⟨raw, meter, hgather, cause, hcause, hbreaks⟩ := breaksOff_of_successors hsuccessors
      rw [← hmeter] at hbreaks
      exact ⟨cause, hcause, .intro hc hw hl hpop he hgather hbreaks⟩
    · cases hlate

/-- A run that comes to an iteration from which it ends, ends so. -/
theorem Visits.ends {P : Except Failure Status → Machine ν ρ ω θ → Prop}
    {m₀ m : Machine ν ρ ω θ} (h : x.Visits m₀ m) (hm : x.Ends m P) : x.Ends m₀ P := by
  induction h with
  | start => exact hm
  | step _ hstep ih => exact ih (.again hstep hm)

end ProgramAnalysis.Exploration
