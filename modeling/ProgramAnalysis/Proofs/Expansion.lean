import ProgramAnalysis.Exploration.Run
import ProgramAnalysis.Proofs.ReachedSet
import ProgramAnalysis.Proofs.Triple
/-!
What an expansion can do.

Each function of the expansion has one rule, with one premise for each way in which it can go on or
end; a crash is such a way too. Assertions range over the world, the reached set and the targets,
but never over the counters. The rules are all that later proofs know about the text of an
expansion.
-/

namespace ProgramAnalysis

variable {ν ρ ω θ α : Type} {x : Exploration ν ρ ω} {p : Precision ρ} {entry : Entry ν ρ}
  {place : Place} {E : Ending → World ω → Prop} {store : Store ν ρ} {s : State ν}
  {m₀ : Machine ν ρ ω θ} {part : Partition}

/-! ## Calls of operators -/

theorem Action.run_attempt (x : Action ω α) (w : World ω) :
    x.attempt.run.run w = match x.run.run w with
      | (.ok a, w') => (.ok (.ok a), w')
      | (.error (.error e), w') => (.ok (.error e), w')
      | (.error (.crash c), w') => (.error c, w') := by
  unfold attempt
  simp only [ExceptT.run_mk, StateT.run_bind]
  rcases x.run.run w with ⟨(_ | _) | _, _⟩ <;> rfl

theorem Action.run_ofAttempt (x : Attempt ω α) (w : World ω) :
    (ofAttempt x).run.run w = match x.run.run w with
      | (.ok a, w') => (.ok a, w')
      | (.error c, w') => (.error (.crash c), w') := by
  unfold ofAttempt
  simp only [ExceptT.run_mk, StateT.run_bind]
  rcases x.run.run w with ⟨_ | _, _⟩ <;> rfl

theorem Action.attempt_triple {P : World ω → Prop} {Q : Except Error α → World ω → Prop}
    {E : Crash → World ω → Prop} {x : Action ω α}
    (ok : ∀ w a w', P w → x.run.run w = (.ok a, w') → Q (.ok a) w')
    (error : ∀ w e w', P w → x.run.run w = (.error (.error e), w') → Q (.error e) w')
    (crash : ∀ w c w', P w → x.run.run w = (.error (.crash c), w') → E c w') :
    Triple P x.attempt Q E := by
  intro w hw
  rw [run_attempt]
  rcases h : x.run.run w with ⟨(e | c) | a, w'⟩
  · exact error w e w' hw h
  · exact crash w c w' hw h
  · exact ok w a w' hw h

theorem Counters.iterations_record (c : Counters) (d : Duration) (watch : Watch) :
    (c.record d watch).iterations = c.iterations := by
  cases watch <;> rfl

/-- The outcome of a call whose crash ends the expansion. -/
def Phase.outcome : Except Failure α → Except Ending (Except Error α)
  | .ok a => .ok (.ok a)
  | .error (.error e) => .ok (.error e)
  | .error (.crash c) => .error (.crashed c)

/-- A call changes the world as its operator does, and of the counters only those for the time. -/
theorem Phase.run_timed (watch : Watch) (x : Action ω α) (m : Meter ω) :
    ∃ counters, counters.iterations = m.counters.iterations ∧
      (Phase.timed watch x).run.run m =
        (outcome (x.run.run m.world).1, ⟨(x.run.run m.world).2, counters⟩) := by
  have hget : (get : Phase ω (Meter ω)).run.run m = (.ok m, m) := rfl
  have hperform : (Phase.perform x.attempt).run.run m =
      ((x.attempt.run.run m.world).1.mapError .crashed,
        { m with world := (x.attempt.run.run m.world).2 }) := rfl
  unfold Phase.timed
  rw [run_bind, hget]
  dsimp only
  rw [run_bind, hperform, Action.run_attempt]
  rcases x.run.run m.world with ⟨(e | c) | a, w'⟩
  · exact ⟨_, m.counters.iterations_record _ watch, rfl⟩
  · exact ⟨m.counters, rfl, rfl⟩
  · exact ⟨_, m.counters.iterations_record _ watch, rfl⟩

namespace Phase

variable {P : World ω → Prop} {E : Ending → World ω → Prop}

theorem count_triple (f : Counters → Counters) :
    Triple (fun m => P m.world) (Phase.count f) (fun _ m => P m.world) (fun e m => E e m.world) :=
  .modify fun _ hm => hm

theorem perform_triple {Q : α → World ω → Prop} {x : Attempt ω α}
    (h : Triple P x Q fun c w => E (.crashed c) w) :
    Triple (fun m => P m.world) (Phase.perform x) (fun a m => Q a m.world)
      (fun e m => E e m.world) := by
  intro m hm
  have hx := h m.world hm
  have hr : (Phase.perform x).run.run m =
      ((x.run.run m.world).1.mapError .crashed, { m with world := (x.run.run m.world).2 }) := rfl
  rw [hr]
  revert hx
  rcases x.run.run m.world with ⟨c | a, w⟩ <;> exact id

theorem timed_triple {Q : Except Error α → World ω → Prop} {watch : Watch} {x : Action ω α}
    (ok : ∀ w a w', P w → x.run.run w = (.ok a, w') → Q (.ok a) w')
    (error : ∀ w e w', P w → x.run.run w = (.error (.error e), w') → Q (.error e) w')
    (crash : ∀ w c w', P w → x.run.run w = (.error (.crash c), w') → E (.crashed c) w') :
    Triple (fun m => P m.world) (Phase.timed watch x) (fun r m => Q r m.world)
      (fun e m => E e m.world) := by
  unfold Phase.timed
  refine .bind (R := fun _ m => P m.world) (.get fun _ hm => hm) fun start => ?_
  refine .bind (perform_triple (Action.attempt_triple ok error crash)) fun r => ?_
  exact .bind (R := fun _ m => Q r m.world) (.get fun _ hm => hm) fun stop =>
    .bind (count_triple _) fun _ => .pure fun _ hm => hm

end Phase

/-- How an expansion ends when an operator refuses to answer. -/
def Ending.ofError (err : Error) : Ending :=
  if err.isInterrupted then .done .interrupted true else .failed err

/-- The expansion is cut short: its entry is expanded once more, and the run does not end as
exhausted. -/
def Ending.Early : Ending → Prop
  | .done status again => status ≠ .exhausted ∧ again = true
  | .failed _ => True
  | .crashed _ => True

theorem Ending.Early.ofError (err : Error) : (Ending.ofError err).Early := by
  unfold Ending.ofError
  split
  · exact ⟨by simp, rfl⟩
  · trivial

namespace Exploration

/-! ## The calls of an expansion -/

section

variable (x : Exploration ν ρ ω)

/-- Asks for the states that follow an entry along an edge. -/
abbrev transfer (entry : Entry ν ρ) (e : ProgramEdge) : Action ω (List (State ν)) :=
  x.analysis.transfer.successors entry.state [] entry.precision e

/-- Asks for the adjustment of a successor. -/
abbrev adjustment (store : Store ν ρ) (p : Precision ρ) (s : State ν) :
    Action ω (Option (Adjustment ν ρ)) :=
  x.analysis.adjuster.adjust s p ⟨store, id, s⟩

/-- Asks whether a successor is covered at its place. -/
abbrev coverage (part : Partition) (a : Adjustment ν ρ) (l : NodeId) (r : ReachedSet ν ρ θ) :
    Action ω Bool :=
  x.analysis.stopper.stop a.state (r.store.statesAt ⟨l, part⟩) a.precision

end

/-! ## Adjustment -/

theorem adjust_triple {P : World ω → Prop} {Q : Option (Adjustment ν ρ) → World ω → Prop}
    (answered : ∀ w o w', P w →
      (x.adjustment store p s).run.run w = (.ok o, w') → Q o w')
    (replaced : ∀ w component reason w₁ a w', P w →
      (x.adjustment store p s).run.run w = (.error (.error (.backend component reason)), w₁) →
      (x.analysis.adjuster.fallback s p (.backend component reason)).run.run w₁ =
        (.ok (some a), w') → Q (some a) w')
    (unreplaced : ∀ w component reason w₁ w', P w →
      (x.adjustment store p s).run.run w = (.error (.error (.backend component reason)), w₁) →
      (x.analysis.adjuster.fallback s p (.backend component reason)).run.run w₁ = (.ok none, w') →
      E (.done (.broken (.backendFailure (Error.backendMessage component reason))) true) w')
    (refused : ∀ w err w', P w → err.isBackend = false →
      (x.adjustment store p s).run.run w = (.error (.error err), w') →
      E (.ofError err) w')
    (crashed : ∀ w c w', P w →
      (x.adjustment store p s).run.run w = (.error (.crash c), w') →
      E (.crashed c) w')
    (crashedLater : ∀ w component reason w₁ c w', P w →
      (x.adjustment store p s).run.run w = (.error (.error (.backend component reason)), w₁) →
      (x.analysis.adjuster.fallback s p (.backend component reason)).run.run w₁ = (.error c, w') →
      E (.crashed c) w') :
    Triple (fun m => P m.world) (x.adjust store p s) (fun o m => Q o m.world)
      (fun e m => E e m.world) := by
  unfold adjust
  refine .bind (Phase.timed_triple
    (Q := fun r w' => ∃ w, P w ∧ (x.adjustment store p s).run.run w = (r.mapError .error, w'))
    (fun w a w' hw hx => ⟨w, hw, hx⟩) (fun w err w' hw hx => ⟨w, hw, hx⟩) crashed) fun r => ?_
  rcases r with err | o
  · have hend : err.isBackend = false → ∀ m : Meter ω, (∃ w, P w ∧
        (x.adjustment store p s).run.run w =
          (.error (.error err), m.world)) → E (.ofError err) m.world := by
      rintro hb m ⟨w, hw, hx⟩
      exact refused w err m.world hw hb hx
    cases err with
    | backend component reason =>
      refine .bind (Phase.perform_triple
        (P := fun w₁ => ∃ w, P w ∧ (x.adjustment store p s).run.run w =
          (.error (.error (.backend component reason)), w₁))
        (Q := fun o w' => ∃ w w₁, P w ∧
          (x.adjustment store p s).run.run w = (.error (.error (.backend component reason)), w₁) ∧
          (x.analysis.adjuster.fallback s p (.backend component reason)).run.run w₁ =
            (.ok o, w'))
        (.of_run ?_ ?_)) fun o => ?_
      · rintro w₁ o w' ⟨w, hw, hx⟩ hf
        exact ⟨w, w₁, hw, hx, hf⟩
      · rintro w₁ c w' ⟨w, hw, hx⟩ hf
        exact crashedLater w component reason w₁ c w' hw hx hf
      · cases o with
        | some a =>
          refine .pure ?_
          rintro m ⟨w, w₁, hw, hx, hf⟩
          exact replaced w component reason w₁ a m.world hw hx hf
        | none =>
          refine .throw ?_
          rintro m ⟨w, w₁, hw, hx, hf⟩
          exact unreplaced w component reason w₁ m.world hw hx hf
    | _ => exact .throw (hend rfl)
  · refine .pure ?_
    rintro m ⟨w, hw, hx⟩
    exact answered w o m.world hw hx

theorem adjust_early (store : Store ν ρ) (p : Precision ρ) (s : State ν) :
    Triple (fun _ => True) (x.adjust store p s) (fun _ _ => True)
      (fun ending _ => ending.Early) := by
  refine adjust_triple (P := fun _ => True) (Q := fun _ _ => True)
    (E := fun ending _ => ending.Early) ?_ ?_ ?_ ?_ ?_ ?_
  · intros
    trivial
  · intros
    trivial
  · intros
    exact ⟨by simp, rfl⟩
  · intro w err w' _ _ _
    exact .ofError err
  · intros
    trivial
  · intros
    trivial

theorem adjust_unchanged {P : World ω → Prop}
    (h : ∀ w, P w → (x.adjustment store p s).run.run w = (.ok (some (.unchanged s p)), w)) :
    Triple (fun m => P m.world) (x.adjust store p s)
      (fun o m => o = some (.unchanged s p) ∧ P m.world) (fun _ _ => False) := by
  have hnever : ∀ {w f w'}, P w →
      (x.adjustment store p s).run.run w ≠ (.error f, w') := by
    intro w f w' hw hx
    cases (h w hw).symm.trans hx
  refine adjust_triple (Q := fun o w => o = some (.unchanged s p) ∧ P w) (E := fun _ _ => False)
    ?_ (fun _ _ _ _ _ _ hw hx => absurd hx (hnever hw))
    (fun _ _ _ _ _ hw hx => absurd hx (hnever hw)) (fun _ _ _ hw _ hx => hnever hw hx)
    (fun _ _ _ hw hx => hnever hw hx) fun _ _ _ _ _ _ hw hx => absurd hx (hnever hw)
  intro w o w' hw hx
  cases (h w hw).symm.trans hx
  exact ⟨rfl, hw⟩

/-! ## Successors along the edges -/

variable [LeafValue ν]

/-- The premises about `gather`: `T done raw` holds when the successors along the edges `done` are
`raw`. -/
structure Gathering (x : Exploration ν ρ ω) (entry : Entry ν ρ) (all : List ProgramEdge)
    (T : List ProgramEdge → Batch ν → World ω → Prop)
    (E : Ending → World ω → Prop) : Prop where
  got : ∀ done e rest raw w next w', all = done ++ e :: rest → T done raw w →
    (x.transfer entry e).run.run w = (.ok next, w') →
    T (done ++ [e]) (raw ++ next.map fun s => (s, s.location?.getD e.target)) w'
  dropped : ∀ done e rest raw w err w', all = done ++ e :: rest → T done raw w →
    (x.transfer entry e).run.run w = (.error (.error err), w') →
    err.isRecoverable = true → T (done ++ [e]) raw w'
  refused : ∀ done e rest raw w err w', all = done ++ e :: rest → T done raw w →
    (x.transfer entry e).run.run w = (.error (.error err), w') →
    err.isRecoverable = false → E (.ofError err) w'
  cancelled : ∀ done raw w, T done raw w → w.tokens.isCancelled x.token = true →
    E (.done .interrupted true) w
  crashed : ∀ done e rest raw w c w', all = done ++ e :: rest → T done raw w →
    (x.transfer entry e).run.run w = (.error (.crash c), w') → E (.crashed c) w'

theorem Gathering.triple {all : List ProgramEdge}
    {T : List ProgramEdge → Batch ν → World ω → Prop}
    (h : Gathering x entry all T E) (edges done : List ProgramEdge) (raw : Batch ν)
    (hall : all = done ++ edges) :
    Triple (fun m => T done raw m.world) (x.gather entry edges)
      (fun new m => T all (raw ++ new) m.world) (fun e m => E e m.world) := by
  induction edges generalizing done raw with
  | nil =>
    refine .pure fun m hm => ?_
    rw [hall, List.append_nil, List.append_nil]
    exact hm
  | cons e rest ih =>
    have hnext : all = (done ++ [e]) ++ rest := by simp [hall]
    unfold gather
    refine .bind (R := fun stop m => m.world.tokens.isCancelled x.token = stop ∧ T done raw m.world)
      (.modifyGet fun _ hm => ⟨rfl, hm⟩) fun stop => ?_
    dsimp only
    split
    · next hstop =>
      exact .bind (R := fun _ _ => False)
        (.throw fun m hm => h.cancelled done raw m.world hm.2 (hm.1.trans hstop))
        fun _ _ => False.elim
    refine .bind (.pre (Phase.timed_triple
      (Q := fun r w' => ∃ w, T done raw w ∧
        (x.transfer entry e).run.run w = (r.mapError .error, w'))
      (fun w a w' hw hx => ⟨w, hw, hx⟩) (fun w err w' hw hx => ⟨w, hw, hx⟩)
      fun w c w' => h.crashed done e rest raw w c w' hall) fun _ hm => hm.2) fun r => ?_
    cases r with
    | ok next =>
      refine .bind (.pre (ih (done ++ [e]) (raw ++ next.map fun s => (s, s.location?.getD e.target))
        hnext) ?_) fun new => .pure fun m hm => ?_
      · rintro m ⟨w, hw, hx⟩
        exact h.got done e rest raw w next m.world hall hw hx
      · rw [← List.append_assoc]
        exact hm
    | error err =>
      dsimp only
      split
      · next hr =>
        refine .bind (R := fun _ m => T (done ++ [e]) raw m.world)
          (.pre (Phase.count_triple _) ?_) fun _ => ih (done ++ [e]) raw hnext
        rintro m ⟨w, hw, hx⟩
        exact h.dropped done e rest raw w err m.world hall hw hx hr
      · next hr =>
        have hr : err.isRecoverable = false := by simpa using hr
        have hend : ∀ m : Meter ω, (∃ w, T done raw w ∧
            (x.transfer entry e).run.run w =
              (.error (.error err), m.world)) → E (.ofError err) m.world := by
          rintro m ⟨w, hw, hx⟩
          exact h.refused done e rest raw w err m.world hall hw hx hr
        unfold Ending.ofError at hend
        split
        · next hi => exact .throw fun m hm => by simpa [hi] using hend m hm
        · next hi => exact .throw fun m hm => by simpa [hi] using hend m hm

/-! ## Successors -/

/-- The rule for `adjustAll`: `T todo out` holds when `out` are the adjusted successors and `todo`
is what has to be adjusted yet. -/
theorem adjustAll_triple
    {T : Batch ν → Successors ν ρ → World ω → Prop}
    (one : ∀ s l todo out, Triple (fun m => T ((s, l) :: todo) out m.world) (x.adjust store p s)
      (fun o m => match o with
        | none => T todo out m.world
        | some a =>
          if a.signal = .halt then E (.done (.broken .adjustment) true) m.world
          else T todo (out ++ [(a, a.state.location?.getD l)]) m.world)
      (fun e m => E e m.world)) (todo : Batch ν)
    (out : Successors ν ρ) :
    Triple (fun m => T todo out m.world) (x.adjustAll store p todo)
      (fun new m => T [] (out ++ new) m.world) (fun e m => E e m.world) := by
  induction todo generalizing out with
  | nil =>
    refine .pure fun m hm => ?_
    rw [List.append_nil]
    exact hm
  | cons head todo ih =>
    obtain ⟨s, l⟩ := head
    unfold adjustAll
    refine .bind (one s l todo out) fun o => ?_
    cases o with
    | none => exact ih out
    | some a =>
      dsimp only
      split
      · refine .bind (Phase.count_triple (E := E) _) fun _ => ?_
        exact .bind (R := fun _ _ => False) (.throw fun _ hm => hm) fun _ _ => False.elim
      · refine .bind (ih (out ++ [(a, a.state.location?.getD l)])) fun new => .pure fun m hm => ?_
        rw [List.append_assoc] at hm
        exact hm

theorem successors_triple {T : List ProgramEdge → Batch ν → World ω → Prop}
    {U : Batch ν → Successors ν ρ → World ω → Prop}
    (gathering : Gathering x entry (x.program.leaving entry.location) T E)
    (gathered : ∀ raw w, T (x.program.leaving entry.location) raw w → U raw [] w)
    (adjusting : ∀ s l todo out, Triple (fun m => U ((s, l) :: todo) out m.world)
      (x.adjust store entry.precision s)
      (fun o m => match o with
        | none => U todo out m.world
        | some a =>
          if a.signal = .halt then E (.done (.broken .adjustment) true) m.world
          else U todo (out ++ [(a, a.state.location?.getD l)]) m.world)
      (fun e m => E e m.world)) :
    Triple (fun m => T [] [] m.world) (x.successors store entry) (fun out m => U [] out m.world)
      (fun e m => E e m.world) := by
  unfold successors
  refine .bind (gathering.triple _ [] [] rfl) fun raw => ?_
  refine .bind (R := fun _ m => U raw [] m.world)
    (.pre (Phase.count_triple (P := U raw []) _) fun m hm => gathered raw m.world hm) fun _ => ?_
  exact adjustAll_triple adjusting raw []

/-- The rule for adjustments that change nothing. -/
theorem successors_unchanged {T : List ProgramEdge → Batch ν → World ω → Prop}
    (gathering : Gathering x entry (x.program.leaving entry.location) T E)
    (unchanged : ∀ raw w, T (x.program.leaving entry.location) raw w → ∀ q ∈ raw,
      q.1.location?.getD q.2 = q.2 ∧
        (x.adjustment store entry.precision q.1).run.run w =
          (.ok (some (.unchanged q.1 entry.precision)), w)) :
    Triple (fun m => T [] [] m.world) (x.successors store entry)
      (fun out m =>
        T (x.program.leaving entry.location) (out.map fun q => (q.1.state, q.2)) m.world ∧
        ∀ q ∈ out, q.1.precision = entry.precision) (fun e m => E e m.world) := by
  let U (todo : Batch ν) (out : Successors ν ρ) (w : World ω) :
      Prop := T (x.program.leaving entry.location) (out.map (fun q => (q.1.state, q.2)) ++ todo) w ∧
    ∀ q ∈ out, q.1.precision = entry.precision
  refine .post (successors_triple (U := U) gathering (fun raw w hT => ⟨hT, by simp⟩)
    fun s l todo out => ?_) fun out m hm => ⟨by simpa using hm.1, hm.2⟩
  refine .weaken (adjust_unchanged (P := U ((s, l) :: todo) out) fun w hw =>
    (unchanged _ w hw.1 (s, l) (by simp)).2) (fun _ hm => hm) ?_ fun _ _ hm => hm.elim
  rintro o m ⟨rfl, hT, hprecision⟩
  have hl : s.location?.getD l = l := (unchanged _ _ hT (s, l) (by simp)).1
  show U todo (out ++ [(Adjustment.unchanged s entry.precision, s.location?.getD l)]) m.world
  rw [hl]
  refine ⟨by simpa [Adjustment.unchanged] using hT, fun q hq => ?_⟩
  rcases List.mem_append.1 hq with hq | hq
  · exact hprecision q hq
  · rw [List.mem_singleton.1 hq]
    rfl

/-- Neither the transfer nor the adjustment ends an expansion otherwise than early. -/
theorem successors_early (store : Store ν ρ) (entry : Entry ν ρ) :
    Triple (fun _ => True) (x.successors store entry) (fun _ _ => True)
      (fun ending _ => ending.Early) := by
  have gathering : Gathering x entry (x.program.leaving entry.location) (fun _ _ _ => True)
      (fun ending _ => ending.Early) :=
    { got := fun _ _ _ _ _ _ _ _ _ _ => trivial
      dropped := fun _ _ _ _ _ _ _ _ _ _ _ => trivial
      refused := fun _ _ _ _ _ err _ _ _ _ _ => .ofError err
      cancelled := fun _ _ _ _ _ => ⟨by simp, rfl⟩
      crashed := fun _ _ _ _ _ _ _ _ _ _ => trivial }
  refine .pre (successors_triple (U := fun _ _ _ => True) gathering (fun _ _ _ => trivial) ?_)
    fun _ _ => trivial
  intro s l todo out
  refine .post (adjust_early store entry.precision s) ?_
  intro o m _
  cases o with
  | none => trivial
  | some a =>
    dsimp only
    split
    · exact ⟨by simp, rfl⟩
    · trivial

/-- The premises for a property `G` of all adjusted successors of an entry. The transfer gives states
with it, the adjustment keeps it, and it stays while the world changes along `L`, which starts in
`w₀`. -/
structure Passes (x : Exploration ν ρ ω) (store : Store ν ρ) (entry : Entry ν ρ) (w₀ : World ω)
    (L : World ω → World ω → Prop) (G : State ν → World ω → Prop) : Prop where
  refl : ∀ w, L w w
  trans : ∀ w w' w'', L w w' → L w' w'' → L w w''
  stays : ∀ s w w', G s w → L w w' → G s w'
  transfer : ∀ e ∈ x.program.leaving entry.location, ∀ w r w', L w₀ w →
    (x.transfer entry e).run.run w = (r, w') →
    L w w' ∧ ∀ next, r = .ok next → ∀ s ∈ next, G s w'
  adjust : ∀ s w r w',
    (x.adjustment store entry.precision s).run.run w = (r, w') →
    L w w' ∧ ∀ a, r = .ok (some a) → G s w → G a.state w'
  fallback : ∀ s err w r w',
    (x.analysis.adjuster.fallback s entry.precision err).run.run w = (r, w') →
    L w w' ∧ ∀ a, r = .ok (some a) → G s w → G a.state w'

theorem Passes.triple {w₀ : World ω} {L : World ω → World ω → Prop} {G : State ν → World ω → Prop}
    (h : Passes x store entry w₀ L G) :
    Triple (fun m => m.world = w₀) (x.successors store entry)
      (fun out m => L w₀ m.world ∧ ∀ q ∈ out, G q.1.state m.world) (fun _ _ => True) := by
  have gathering : Gathering x entry (x.program.leaving entry.location)
      (fun _ raw w => L w₀ w ∧ ∀ q ∈ raw, G q.1 w) (fun _ _ => True) := by
    refine ⟨?_, ?_, fun _ _ _ _ _ _ _ _ _ _ _ => trivial, fun _ _ _ _ _ => trivial,
      fun _ _ _ _ _ _ _ _ _ _ => trivial⟩
    · intro done e rest raw w next w' hall hT hx
      obtain ⟨hL, hnext⟩ := h.transfer e (by rw [hall]; simp) w _ w' hT.1 hx
      refine ⟨h.trans _ _ _ hT.1 hL, fun q hq => ?_⟩
      rcases List.mem_append.1 hq with hq | hq
      · exact h.stays _ _ _ (hT.2 q hq) hL
      · obtain ⟨s, hs, rfl⟩ := List.mem_map.1 hq
        exact hnext next rfl s hs
    · intro done e rest raw w err w' hall hT hx _
      have hL := (h.transfer e (by rw [hall]; simp) w _ w' hT.1 hx).1
      exact ⟨h.trans _ _ _ hT.1 hL, fun q hq => h.stays _ _ _ (hT.2 q hq) hL⟩
  let U (todo : Batch ν) (out : Successors ν ρ) (w : World ω) :
      Prop := L w₀ w ∧ (∀ q ∈ todo, G q.1 w) ∧ ∀ q ∈ out, G q.1.state w
  have later : ∀ todo out w w', U todo out w → L w w' → U todo out w' := by
    intro todo out w w' hU hL
    exact ⟨h.trans _ _ _ hU.1 hL, fun q hq => h.stays _ _ _ (hU.2.1 q hq) hL,
      fun q hq => h.stays _ _ _ (hU.2.2 q hq) hL⟩
  refine .weaken (successors_triple (U := U) gathering
    (fun raw w hT => ⟨hT.1, hT.2, by simp⟩) fun s l todo out => ?_)
    (fun m hm => ⟨hm ▸ h.refl w₀, by simp⟩) (fun out m hm => ⟨hm.1, hm.2.2⟩) fun _ _ hm => hm
  refine .post (adjust_triple (P := U ((s, l) :: todo) out)
    (Q := fun o w => U todo out w ∧ ∀ a, o = some a → G a.state w) (E := fun _ _ => True)
    ?_ ?_ (fun _ _ _ _ _ _ _ _ => trivial) (fun _ _ _ _ _ _ => trivial)
    (fun _ _ _ _ _ => trivial) fun _ _ _ _ _ _ _ _ _ => trivial) ?_
  · intro w o w' hU hx
    obtain ⟨hL, ha⟩ := h.adjust s w _ w' hx
    obtain ⟨h0, htodo, hout⟩ := later _ _ _ _ hU hL
    refine ⟨⟨h0, fun q hq => htodo q (by simp [hq]), hout⟩, fun a hoa => ?_⟩
    rw [hoa] at ha
    exact ha a rfl (hU.2.1 (s, l) (by simp))
  · intro w component reason w₁ a w' hU hx hf
    obtain ⟨hL, -⟩ := h.adjust s w _ w₁ hx
    have hU₁ := later _ _ _ _ hU hL
    obtain ⟨hL', ha⟩ := h.fallback s _ w₁ _ w' hf
    obtain ⟨h0, htodo, hout⟩ := later _ _ _ _ hU₁ hL'
    refine ⟨⟨h0, fun q hq => htodo q (by simp [hq]), hout⟩, fun b hb => ?_⟩
    cases hb
    exact ha a rfl (hU₁.2.1 (s, l) (by simp))
  · intro o m hm
    cases o with
    | none => exact hm.1
    | some a =>
      dsimp only
      split
      · trivial
      · refine ⟨hm.1.1, hm.1.2.1, fun q hq => ?_⟩
        rcases List.mem_append.1 hq with hq | hq
        · exact hm.1.2.2 q hq
        · rw [List.mem_singleton.1 hq]
          exact hm.2 a rfl

end Exploration

/-! ## Steps on the reached set -/

/-- An assertion about the world, the reached set and the targets of a machine. -/
abbrev View (ν ρ ω θ : Type) := World ω → ReachedSet ν ρ θ → List (State ν) → Prop

def Machine.Meets (V : View ν ρ ω θ) (m : Machine ν ρ ω θ) : Prop :=
  V m.meter.world m.reached m.targets

namespace Stage

variable {P : View ν ρ ω θ} {E : Ending → View ν ρ ω θ}

theorem run_ofPhase (x : Phase ω α) (m : Machine ν ρ ω θ) :
    (ofPhase x).run.run m =
      ((x.run.run m.meter).1, { m with meter := (x.run.run m.meter).2 }) := rfl

theorem ofPhase_triple {Q : α → View ν ρ ω θ} {x : Phase ω α}
    (h : ∀ r t, Triple (fun m => P m.world r t) x (fun a m => Q a m.world r t)
      (fun e m => E e m.world r t)) :
    Triple (Machine.Meets P) (ofPhase x) (fun a => Machine.Meets (Q a))
      (fun e => Machine.Meets (E e)) := by
  intro m hm
  have hx := h m.reached m.targets m.meter hm
  rw [run_ofPhase]
  revert hx
  rcases x.run.run m.meter with ⟨e | a, meter⟩ <;> exact id

theorem timed_triple {Q : α → View ν ρ ω θ} {watch : Watch} {x : Action ω α}
    (ok : ∀ w r t a w', P w r t → x.run.run w = (.ok a, w') → Q a w' r t)
    (error : ∀ w r t e w', P w r t → x.run.run w = (.error (.error e), w') → E (.failed e) w' r t)
    (crash : ∀ w r t c w', P w r t → x.run.run w = (.error (.crash c), w') →
      E (.crashed c) w' r t) :
    Triple (Machine.Meets P) (timed watch x) (fun a => Machine.Meets (Q a))
      (fun e => Machine.Meets (E e)) := by
  unfold timed
  let R (o : Except Error α) : View ν ρ ω θ := fun w r t =>
    (∀ a, o = .ok a → Q a w r t) ∧ ∀ e, o = .error e → E (.failed e) w r t
  refine .bind (ofPhase_triple fun r t => Phase.timed_triple (P := fun w => P w r t)
    (Q := fun o w => R o w r t) (E := fun e w => E e w r t) ?_ ?_
    fun w => crash w r t) fun o => ?_
  · intro w a w' hw hx
    refine ⟨?_, fun e he => by cases he⟩
    rintro _ ⟨⟩
    exact ok w r t a w' hw hx
  · intro w e w' hw hx
    refine ⟨fun a ha => (by cases ha), ?_⟩
    rintro _ ⟨⟩
    exact error w r t e w' hw hx
  · cases o with
    | ok a => exact .pure fun _ hm => hm.1 a rfl
    | error e => exact .throw fun _ hm => hm.2 e rfl

theorem count_triple (f : Counters → Counters) :
    Triple (Machine.Meets P) (count f) (fun _ => Machine.Meets P) (fun e => Machine.Meets (E e)) :=
  ofPhase_triple fun r t => Phase.count_triple (P := fun w => P w r t) (E := fun e w => E e w r t) f

theorem reached_triple :
    Triple (Machine.Meets P) reached (fun r => Machine.Meets fun w r' t => r' = r ∧ P w r t)
      (fun e => Machine.Meets (E e)) :=
  .modifyGet fun _ hm => ⟨rfl, hm⟩

theorem add_triple [LeafValue ν] [Waitlist θ ν] {Q : View ν ρ ω θ} {e : Entry ν ρ}
    (ok : ∀ w r t id r', P w r t → r.add e = .ok (id, r') → Q w r' t)
    (error : ∀ w r t err, P w r t → r.add e = .error err → E (.failed err) w r t) :
    Triple (Machine.Meets P) (add e) (fun _ => Machine.Meets Q) (fun e => Machine.Meets (E e)) := by
  unfold add
  refine .bind reached_triple fun r => ?_
  rcases h : r.add e with err | ⟨id, r'⟩
  · refine .throw ?_
    rintro m ⟨rfl, hm⟩
    exact error m.meter.world m.reached m.targets err hm h
  · refine .modify ?_
    rintro m ⟨rfl, hm⟩
    exact ok m.meter.world m.reached m.targets id r' hm h

theorem remove_triple [Frontier θ] {Q : View ν ρ ω θ} {id : EntryId}
    (h : ∀ w r t, P w r t → Q w (r.remove id).2 t) :
    Triple (Machine.Meets P) (remove id) (fun _ => Machine.Meets Q)
      (fun e => Machine.Meets (E e)) :=
  .modify fun _ hm => h _ _ _ hm

end Stage

/-! ## Merging -/

namespace Exploration

variable [LeafValue ν] [Waitlist θ ν] {E : Ending → View ν ρ ω θ}
  {P : Successors ν ρ → View ν ρ ω θ}
  {M : Adjustment ν ρ → NodeId → Successors ν ρ → List EntryId → View ν ρ ω θ}

/-- The premises about `mergeEach`: `P ids` holds when the state has yet to be merged into the entries
`ids`, which are at its place. -/
structure MergePass (x : Exploration ν ρ ω) (s : State ν) (p : Precision ρ) (place : Place)
    (P : List EntryId → View ν ρ ω θ) (E : Ending → View ν ρ ω θ) : Prop where
  sound : ∀ ids w r t, P ids w r t → r.Sound
  gone : ∀ id ids w r t, P (id :: ids) w r t → r.get? id = none → P ids w r t
  same : ∀ id ids w r t e merged w', P (id :: ids) w r t → r.get? id = some e → e.place = place →
    (x.analysis.merger.merge s e.state p).run.run w = (.ok merged, w') →
    merged.handle = e.state.handle → P ids w' r t
  replaced : ∀ id ids w r t e merged w' i r', P (id :: ids) w r t → r.get? id = some e →
    e.place = place → (x.analysis.merger.merge s e.state p).run.run w = (.ok merged, w') →
    merged.handle ≠ e.state.handle →
    (r.remove id).2.add ⟨merged, p, place.location, place.partition⟩ = .ok (i, r') → P ids w' r' t
  vanished : ∀ id ids w r t e merged w', P (id :: ids) w r t → r.get? id = some e →
    e.place = place → (x.analysis.merger.merge s e.state p).run.run w = (.ok merged, w') →
    merged.handle ≠ e.state.handle → (r.remove id).2.store.contains merged = true →
    P ids w' (r.remove id).2 t
  failed : ∀ id ids w r t e err w', P (id :: ids) w r t → r.get? id = some e → e.place = place →
    (x.analysis.merger.merge s e.state p).run.run w = (.error (.error err), w') →
    E (.failed err) w' r t
  crashed : ∀ c w r t, E (.crashed c) w r t

/-- The entries with the given numbers are at the place, as far as they still exist. -/
def AtPlace (place : Place) (ids : List EntryId) (r : ReachedSet ν ρ θ) : Prop :=
  ∀ id ∈ ids, ∀ e, r.get? id = some e → e.place = place

omit [LeafValue ν] in
theorem AtPlace.remove {ids : List EntryId} {r : ReachedSet ν ρ θ} (h : AtPlace place ids r)
    (j : EntryId) : AtPlace place ids (r.remove j).2 := by
  intro id hid e he
  exact h id hid e (ReachedSet.get?_remove_eq_some.1 he).2

theorem AtPlace.add {ids : List EntryId} {r r' : ReachedSet ν ρ θ} {f : Entry ν ρ} {i : EntryId}
    (h : AtPlace place ids r) (ha : r.add f = .ok (i, r')) (hf : f.place = place) :
    AtPlace place ids r' := by
  intro id hid e he
  rcases ReachedSet.new_or_old_of_add ha he with ⟨-, rfl⟩ | he
  · exact hf
  · exact h id hid e he

theorem MergePass.triple {P : List EntryId → View ν ρ ω θ} (h : MergePass x s p place P E)
    (ids : List EntryId) :
    Triple (Machine.Meets fun w r t => P ids w r t ∧ AtPlace place ids r) (x.mergeEach s p place ids)
      (fun _ => Machine.Meets (P [])) (fun e => Machine.Meets (E e)) := by
  induction ids with
  | nil => exact .pure fun _ hm => hm.1
  | cons id rest ih =>
    have tail : ∀ w (r : ReachedSet ν ρ θ) t, P rest w r t → AtPlace place (id :: rest) r →
        P rest w r t ∧ AtPlace place rest r :=
      fun _ _ _ hp ha => ⟨hp, fun j hj => ha j (List.mem_cons_of_mem id hj)⟩
    unfold mergeEach
    refine .bind Stage.reached_triple fun r₀ => ?_
    cases hget : r₀.get? id with
    | none =>
      refine .pre ih ?_
      rintro m ⟨rfl, hp, ha⟩
      exact tail _ _ _ (h.gone id rest _ _ _ hp hget) ha
    | some e =>
      refine .bind (Stage.timed_triple
        (Q := fun merged w' r t => ∃ w, r = r₀ ∧ P (id :: rest) w r t ∧
          AtPlace place (id :: rest) r ∧
          (x.analysis.merger.merge s e.state p).run.run w = (.ok merged, w')) ?_ ?_
        fun _ r t c w' _ _ => h.crashed c w' r t) fun merged => ?_
      · rintro w r t merged w' ⟨rfl, hp, ha⟩ hx
        exact ⟨w, rfl, hp, ha, hx⟩
      · rintro w r t err w' ⟨rfl, hp, ha⟩ hx
        exact h.failed id rest w r t e err w' hp hget (ha id (by simp) e hget) hx
      dsimp only
      split
      · next hsame =>
        refine .pre ih ?_
        rintro m ⟨w, rfl, hp, ha, hx⟩
        exact tail _ _ _ (h.same id rest w _ _ e merged _ hp hget (ha id (by simp) e hget) hx hsame)
          ha
      · next hdiff =>
        refine .bind (Stage.count_triple _) fun _ => ?_
        refine .bind (Stage.remove_triple (Q := fun w' r' t => ∃ w, r' = (r₀.remove id).2 ∧
          P (id :: rest) w r₀ t ∧ AtPlace place (id :: rest) r₀ ∧
          (x.analysis.merger.merge s e.state p).run.run w = (.ok merged, w')) ?_) fun _ => ?_
        · rintro w' r t ⟨w, rfl, hp, ha, hx⟩
          exact ⟨w, rfl, hp, ha, hx⟩
        refine .bind Stage.reached_triple fun r₁ => ?_
        split
        · next hc =>
          refine .pre ih ?_
          rintro m ⟨rfl, w, hr, hp, ha, hx⟩
          rw [hr] at hc
          have hv := h.vanished id rest w r₀ _ e merged _ hp hget (ha id (by simp) e hget) hx hdiff
            hc
          exact tail _ _ _ (hr ▸ hv) (hr ▸ ha.remove id)
        · next hc =>
          refine .bind (Stage.add_triple ?_ ?_) fun _ => ih
          · rintro w' r t i r' ⟨rfl, w, rfl, hp, ha, hx⟩ hadd
            have hv := h.replaced id rest w r₀ t e merged w' i r' hp hget (ha id (by simp) e hget)
              hx hdiff hadd
            exact tail _ _ _ hv ((ha.remove id).add hadd rfl)
          · -- The place belongs to the program, since an entry was there.
            rintro w' r t err ⟨rfl, w, rfl, hp, ha, hx⟩ hadd
            have hplace : e.place = place := ha id (by simp) e hget
            have hloc := (h.sound (id :: rest) w r₀ t hp).located id e hget
            obtain ⟨r', hr'⟩ := ReachedSet.exists_add (r := (r₀.remove id).2)
              (e := ⟨merged, p, place.location, place.partition⟩)
              (by rw [ReachedSet.remove_program, ← hplace]; exact hloc) (by simpa using hc)
            rw [hr'] at hadd
            cases hadd

/-- The rule for `mergeInto`: `P` holds before the pass over the entries at the place, and `M []`
after it. -/
theorem mergeInto_pass {P : View ν ρ ω θ} {M : List EntryId → View ν ρ ω θ}
    {Q : Bool → View ν ρ ω θ}
    (apart : x.analysis.merger.isSep = true → ∀ w r t, P w r t → M [] w r t)
    (start : x.analysis.merger.isSep = false → ∀ w r t, P w r t →
      M (r.store.candidates place) w r t)
    (pass : x.analysis.merger.isSep = false → MergePass x s p place M E)
    (answered : ∀ w r t b w', M [] w r t →
      (x.analysis.stopper.stop s (r.store.statesAt place) p).run.run w = (.ok b, w') →
      Q (!b) w' r t)
    (failed : ∀ w r t err w', M [] w r t →
      (x.analysis.stopper.stop s (r.store.statesAt place) p).run.run w = (.error (.error err), w') →
      E (.failed err) w' r t)
    (crashed : ∀ w r t c w', M [] w r t →
      (x.analysis.stopper.stop s (r.store.statesAt place) p).run.run w = (.error (.crash c), w') →
      E (.crashed c) w' r t) :
    Triple (Machine.Meets P) (x.mergeInto s p place) (fun b => Machine.Meets (Q b))
      (fun e => Machine.Meets (E e)) := by
  have hstop : Triple (Machine.Meets (M [])) (do
      let covered ← Stage.timed .stop
        (x.analysis.stopper.stop s ((← Stage.reached).store.statesAt place) p)
      return !covered : Stage ν ρ ω θ Bool) (fun b => Machine.Meets (Q b))
      (fun e => Machine.Meets (E e)) := by
    refine .bind Stage.reached_triple fun r₀ => ?_
    refine .bind (Stage.timed_triple (Q := fun b => Q (!b)) ?_ ?_ ?_) fun b =>
      .pure fun _ hm => hm
    · rintro w r t b w' ⟨rfl, hp⟩ hx
      exact answered w r t b w' hp hx
    · rintro w r t err w' ⟨rfl, hp⟩ hx
      exact failed w r t err w' hp hx
    · rintro w r t c w' ⟨rfl, hp⟩ hx
      exact crashed w r t c w' hp hx
  unfold mergeInto
  split
  · next hsep => exact .pre hstop fun _ hm => apart hsep _ _ _ hm
  · next hsep =>
    have hsep : x.analysis.merger.isSep = false := by simpa using hsep
    have hpass := pass hsep
    refine .bind Stage.reached_triple fun r₀ => ?_
    refine .bind (.pre (hpass.triple (r₀.store.candidates place)) ?_) fun _ => hstop
    rintro m ⟨hr, hp⟩
    rw [← hr] at hp ⊢
    have hM := start hsep _ _ _ hp
    refine ⟨hM, fun id hid e he => ?_⟩
    obtain ⟨f, hf, hplace⟩ := ((hpass.sound _ _ _ _ hM).store.places place id).1 hid
    cases he.symm.trans hf
    exact hplace

/-! ## Admission -/

/-- The premises about a successor `a` after the pass over the entries at its place, when
`N a l todo` holds; `P todo` holds when `todo` has to be admitted yet. -/
structure Reception (x : Exploration ν ρ ω) (part : Partition)
    (N : Adjustment ν ρ → NodeId → Successors ν ρ → View ν ρ ω θ)
    (P : Successors ν ρ → View ν ρ ω θ) (E : Ending → View ν ρ ω θ) : Prop where
  covered : ∀ a l todo w r t w', N a l todo w r t →
    (x.coverage part a l r).run.run w = (.ok true, w') → P todo w' r t
  known : ∀ a l todo w r t w', N a l todo w r t →
    (x.coverage part a l r).run.run w = (.ok false, w') →
    r.store.contains a.state = true → P todo w' r t
  added : ∀ a l todo w r t w' id r', N a l todo w r t →
    (x.coverage part a l r).run.run w = (.ok false, w') →
    r.add ⟨a.state, a.precision, l, part⟩ = .ok (id, r') → x.isTarget a.state = false →
    P todo w' r' t
  found : ∀ a l todo w r t w' id r', N a l todo w r t →
    (x.coverage part a l r).run.run w = (.ok false, w') →
    r.add ⟨a.state, a.precision, l, part⟩ = .ok (id, r') → x.isTarget a.state = true →
    P todo w' r' (t ++ [a.state]) ∧
      E (.done .targetFound (!todo.isEmpty)) w' r' (t ++ [a.state])
  refused : ∀ a l todo w r t w' err, N a l todo w r t →
    (x.coverage part a l r).run.run w = (.ok false, w') →
    r.add ⟨a.state, a.precision, l, part⟩ = .error err → E (.failed err) w' r t
  failed : ∀ a l todo w r t err w', N a l todo w r t →
    (x.coverage part a l r).run.run w = (.error (.error err), w') → E (.failed err) w' r t
  crashed : ∀ a l todo w r t c w', N a l todo w r t →
    (x.coverage part a l r).run.run w = (.error (.crash c), w') → E (.crashed c) w' r t

/-- The premises about `admitAll`: `M a l todo ids` holds while `a` has yet to be merged into the
entries `ids`. -/
structure Intake (x : Exploration ν ρ ω) (part : Partition)
    (P : Successors ν ρ → View ν ρ ω θ)
    (M : Adjustment ν ρ → NodeId → Successors ν ρ → List EntryId → View ν ρ ω θ)
    (E : Ending → View ν ρ ω θ) : Prop extends
    Reception x part (fun a l todo => M a l todo []) P E where
  apart : ∀ a l todo, x.analysis.merger.isSep = true → ∀ w r t, P ((a, l) :: todo) w r t →
    M a l todo [] w r t
  start : ∀ a l todo, x.analysis.merger.isSep = false → ∀ w r t, P ((a, l) :: todo) w r t →
    M a l todo (r.store.candidates ⟨l, part⟩) w r t
  pass : ∀ a l todo, x.analysis.merger.isSep = false →
    MergePass x a.state a.precision ⟨l, part⟩ (M a l todo) E

/-- The premises about `admitAll` for an assertion that the pass over the entries at the place
keeps. -/
structure Admission (x : Exploration ν ρ ω) (part : Partition)
    (P : Successors ν ρ → View ν ρ ω θ) (E : Ending → View ν ρ ω θ) : Prop extends
    Reception x part (fun a l todo => P ((a, l) :: todo)) P E where
  merging : ∀ a l todo, x.analysis.merger.isSep = false →
    MergePass x a.state a.precision ⟨l, part⟩ (fun _ => P ((a, l) :: todo)) E

theorem Admission.intake (h : Admission x part P E) :
    Intake x part P (fun a l todo _ => P ((a, l) :: todo)) E where
  toReception := h.toReception
  apart _ _ _ _ _ _ _ hp := hp
  start _ _ _ _ _ _ _ hp := hp
  pass := h.merging

theorem Intake.one_triple (h : Intake x part P M E) (a : Adjustment ν ρ) (l : NodeId)
    (todo : Successors ν ρ) :
    Triple (Machine.Meets (P ((a, l) :: todo))) (x.admitOne part a l (!todo.isEmpty))
      (fun _ => Machine.Meets (P todo)) (fun e => Machine.Meets (E e)) := by
  let stopped (b : Bool) : View ν ρ ω θ := fun w' r t => ∃ w, M a l todo [] w r t ∧
    (x.coverage part a l r).run.run w = (.ok b, w')
  unfold admitOne
  refine .bind (mergeInto_pass (Q := fun b => stopped (!b)) (h.apart a l todo) (h.start a l todo)
    (h.pass a l todo) ?_ (h.failed a l todo) (h.crashed a l todo)) fun add => ?_
  · intro w r t b w' hp hx
    show stopped (!!b) w' r t
    rw [Bool.not_not]
    exact ⟨w, hp, hx⟩
  cases add with
  | false =>
    refine .pre (Stage.count_triple _) ?_
    rintro m ⟨w, hp, hx⟩
    exact h.covered a l todo w _ _ _ hp hx
  | true =>
    refine .bind Stage.reached_triple fun r₀ => ?_
    split
    · next hc =>
      refine .pure ?_
      rintro m ⟨rfl, w, hp, hx⟩
      exact h.known a l todo w _ _ _ hp hx hc
    · refine .bind (Stage.add_triple (Q := fun w' r' t => ∃ w r id, M a l todo [] w r t ∧
        (x.coverage part a l r).run.run w =
          (.ok false, w') ∧ r.add ⟨a.state, a.precision, l, part⟩ = .ok (id, r')) ?_ ?_)
        fun _ => ?_
      · rintro w' r t id r' ⟨rfl, w, hp, hx⟩ hadd
        exact ⟨w, r, id, hp, hx, hadd⟩
      · rintro w' r t err ⟨rfl, w, hp, hx⟩ hadd
        exact h.refused a l todo w r t w' err hp hx hadd
      split
      · next ht =>
        refine .bind (R := fun _ => Machine.Meets fun w r t => P todo w r t ∧
          E (.done .targetFound (!todo.isEmpty)) w r t) (.modify ?_) fun _ => ?_
        · rintro m ⟨w, r, id, hp, hx, hadd⟩
          exact h.found a l todo w r _ _ id _ hp hx hadd ht
        · split
          · exact .throw fun _ hm => hm.2
          · exact .pure fun _ hm => hm.1
      · next ht =>
        refine .pure ?_
        rintro m ⟨w, r, id, hp, hx, hadd⟩
        exact h.added a l todo w r _ _ id _ hp hx hadd (by simpa using ht)

theorem Intake.triple (h : Intake x part P M E) (todo : Successors ν ρ) :
    Triple (Machine.Meets (P todo)) (x.admitAll part todo) (fun _ => Machine.Meets (P []))
      (fun e => Machine.Meets (E e)) := by
  induction todo with
  | nil => exact .pure fun _ hm => hm
  | cons head todo ih =>
    obtain ⟨a, l⟩ := head
    unfold admitAll
    exact .bind (h.one_triple a l todo) fun _ => ih

theorem Admission.triple (h : Admission x part P E) (todo : Successors ν ρ) :
    Triple (Machine.Meets (P todo)) (x.admitAll part todo) (fun _ => Machine.Meets (P []))
      (fun e => Machine.Meets (E e)) :=
  h.intake.triple todo

/-! ## Expansion -/

/-- What removing and adding entries keep is kept by an admission. -/
theorem admission_of_invariant {I : ReachedSet ν ρ θ → List (State ν) → Prop} {F : Ending → Prop}
    (sound : ∀ r t, I r t → r.Sound) (remove : ∀ r t id, I r t → I (r.remove id).2 t)
    (add : ∀ r t e id r', I r t → r.add e = .ok (id, r') → I r' t)
    (found : ∀ r t s more, I r t → x.isTarget s = true →
      I r (t ++ [s]) ∧ F (.done .targetFound more)) (failed : ∀ err, F (.failed err))
    (crashed : ∀ c, F (.crashed c)) :
    Admission x part (fun _ _ r t => I r t) fun ending _ _ _ => F ending where
  merging _ _ _ _ :=
    { sound := fun _ _ r t h => sound r t h
      gone := fun _ _ _ _ _ h _ => h
      same := fun _ _ _ _ _ _ _ _ h _ _ _ _ => h
      replaced := fun id _ _ r t _ _ _ _ _ h _ _ _ _ ha => add _ t _ _ _ (remove r t id h) ha
      vanished := fun id _ _ r t _ _ _ h _ _ _ _ _ => remove r t id h
      failed := fun _ _ _ _ _ _ _ _ _ _ _ _ => failed _
      crashed := fun c _ _ _ => crashed c }
  covered _ _ _ _ _ _ _ h _ := h
  known _ _ _ _ _ _ _ h _ _ := h
  added _ _ _ _ _ _ _ _ _ h _ ha _ := add _ _ _ _ _ h ha
  found _ _ _ _ _ _ _ _ _ h _ ha ht := found _ _ _ _ (add _ _ _ _ _ h ha) ht
  refused _ _ _ _ _ _ _ _ _ _ _ := failed _
  failed _ _ _ _ _ _ _ _ _ _ := failed _
  crashed _ _ _ _ _ _ c _ _ _ := crashed c

/-- Of an entry that is there, the adjusted successors are computed and admitted. -/
theorem run_expand {id : EntryId} (hentry : m₀.reached.get? id = some entry) :
    (x.expand id).run.run m₀ = (Stage.ofPhase (x.successors m₀.reached.store entry) >>=
      x.admitAll entry.partition).run.run m₀ := by
  have hreached : (Stage.reached : Stage ν ρ ω θ _).run.run m₀ = (.ok m₀.reached, m₀) := rfl
  unfold expand
  rw [run_bind_of_ok hreached, hentry]

theorem expand_intake {id : EntryId} (hentry : m₀.reached.get? id = some entry)
    (succ : Triple (fun m => m = m₀.meter) (x.successors m₀.reached.store entry)
      (fun out m => P out m.world m₀.reached m₀.targets)
      (fun e m => E e m.world m₀.reached m₀.targets)) (intake : Intake x entry.partition P M E) :
    Triple (fun m => m = m₀) (x.expand id) (fun _ => Machine.Meets (P []))
      (fun e => Machine.Meets (E e)) := by
  have hsucc : Triple (fun m => m = m₀) (Stage.ofPhase (x.successors m₀.reached.store entry))
      (fun out => Machine.Meets (P out)) (fun e => Machine.Meets (E e)) := by
    rintro m rfl
    have hm := succ m.meter rfl
    rw [Stage.run_ofPhase]
    revert hm
    rcases (x.successors m.reached.store entry).run.run m.meter with ⟨e | out, meter⟩
    · exact fun h => h
    · exact fun h => h
  rintro m rfl
  rw [run_expand hentry]
  exact Triple.bind hsucc intake.triple m rfl

theorem expand_triple {id : EntryId} (hentry : m₀.reached.get? id = some entry)
    (succ : Triple (fun m => m = m₀.meter) (x.successors m₀.reached.store entry)
      (fun out m => P out m.world m₀.reached m₀.targets)
      (fun e m => E e m.world m₀.reached m₀.targets))
    (admission : Admission x entry.partition P E) :
    Triple (fun m => m = m₀) (x.expand id) (fun _ => Machine.Meets (P []))
      (fun e => Machine.Meets (E e)) :=
  expand_intake hentry succ admission.intake

/-- An entry that is not there cannot be expanded. -/
theorem expand_missing {id : EntryId} (hentry : m₀.reached.get? id = none) :
    Triple (fun m => m = m₀) (x.expand id) (fun _ _ => False)
      (fun e m => ∃ err, e = .failed err ∧ m = m₀) := by
  have hreached : (Stage.reached : Stage ν ρ ω θ _).run.run m₀ = (.ok m₀.reached, m₀) := rfl
  rintro m rfl
  unfold expand
  rw [run_bind_of_ok hreached, hentry]
  exact ⟨_, rfl, rfl⟩

theorem expand_rule {id : EntryId} {Q : Unit → Machine ν ρ ω θ → Prop}
    {F : Ending → Machine ν ρ ω θ → Prop}
    (missing : m₀.reached.get? id = none → ∀ err, F (.failed err) m₀)
    (present : ∀ e, m₀.reached.get? id = some e → Triple (fun m => m = m₀) (x.expand id) Q F) :
    Triple (fun m => m = m₀) (x.expand id) Q F := by
  cases he : m₀.reached.get? id with
  | none =>
    refine .weaken (expand_missing he) (fun _ hm => hm) (fun _ _ hm => hm.elim) ?_
    rintro _ _ ⟨err, rfl, rfl⟩
    exact missing he err
  | some e => exact present e he

end Exploration

end ProgramAnalysis
