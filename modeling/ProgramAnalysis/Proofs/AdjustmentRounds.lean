import ProgramAnalysis.Proofs.TupleCoverage
/-!
How the components of a product adjust a tuple.

A component takes a turn: it is asked about its state and its precision, and its fallback is if a
backend has failed. The turns of a round follow each other until one of them drops the tuple or
fails. Another round follows as long as something changes and nobody halts. `Turns` and `Rounds` are
the course of a round and of a whole adjustment, and what the adjustment ends with can be read off
its course (`Rounds.ends`).

A component that halts is heard, whatever the turns after it do to the tuple, unless one of them
drops it: then the halt goes with the tuple (`halting_adjustment_answers`).
-/

namespace ProgramAnalysis.Product

variable {ν ρ ω : Type}

/-! ## Turns -/

/-- What a component answers in the world `w`, and the world after it. -/
inductive Reply (a : Adjuster ν ρ ω) (s : State ν) (p : Precision ρ) (around : Surroundings ν ρ)
    (w : World ω) : Except Failure (Option (Adjustment ν ρ)) → World ω → Prop where
  | adjusted {answer w'} :
      (a.adjust s p around).run.run w = (.ok answer, w') → Reply a s p around w (.ok answer) w'
  | rescued {e b w₁ w'} :
      (a.adjust s p around).run.run w = (.error (.error e), w₁) → e.isBackend = true →
      (a.fallback s p e).run.run w₁ = (.ok (some b), w') → Reply a s p around w (.ok (some b)) w'
  | unsaved {e w₁ w'} :
      (a.adjust s p around).run.run w = (.error (.error e), w₁) → e.isBackend = true →
      (a.fallback s p e).run.run w₁ = (.ok none, w') →
      Reply a s p around w (.error (.error e)) w'
  | refused {e w'} :
      (a.adjust s p around).run.run w = (.error (.error e), w') → e.isBackend = false →
      Reply a s p around w (.error (.error e)) w'
  | crashed {c w'} :
      (a.adjust s p around).run.run w = (.error (.crash c), w') →
      Reply a s p around w (.error (.crash c)) w'
  | crashedLate {e c w₁ w'} :
      (a.adjust s p around).run.run w = (.error (.error e), w₁) → e.isBackend = true →
      (a.fallback s p e).run.run w₁ = (.error c, w') → Reply a s p around w (.error (.crash c)) w'

theorem exists_reply (a : Adjuster ν ρ ω) (s : State ν) (p : Precision ρ)
    (around : Surroundings ν ρ) (w : World ω) : ∃ answer w', Reply a s p around w answer w' := by
  rcases hadjust : (a.adjust s p around).run.run w with ⟨(e | c) | answer, w₁⟩
  · cases hbackend : e.isBackend with
    | false => exact ⟨_, _, .refused hadjust hbackend⟩
    | true =>
      rcases hfallback : (a.fallback s p e).run.run w₁ with ⟨c | _ | b, w'⟩
      · exact ⟨_, _, .crashedLate hadjust hbackend hfallback⟩
      · exact ⟨_, _, .unsaved hadjust hbackend hfallback⟩
      · exact ⟨_, _, .rescued hadjust hbackend hfallback⟩
  · exact ⟨_, _, .crashed hadjust⟩
  · exact ⟨_, _, .adjusted hadjust⟩

theorem Reply.run_eq {a : Adjuster ν ρ ω} {s : State ν} {p : Precision ρ}
    {around : Surroundings ν ρ} {w w' : World ω} {answer : Except Failure (Option (Adjustment ν ρ))}
    (h : Reply a s p around w answer w') : (adjustOne a s p around).run.run w = (answer, w') := by
  unfold adjustOne
  rw [run_bind, Action.run_ofAttempt, Action.run_attempt]
  cases h with
  | adjusted hadjust =>
    rw [hadjust]
    rfl
  | crashed hadjust => rw [hadjust]
  | refused hadjust hbackend =>
    simp only [hadjust, hbackend]
    rfl
  | rescued hadjust hbackend hfallback | unsaved hadjust hbackend hfallback =>
    simp only [hadjust, hbackend, if_true]
    rw [run_bind, Action.run_ofAttempt, hfallback]
    rfl
  | crashedLate hadjust hbackend hfallback =>
    simp only [hadjust, hbackend, if_true]
    rw [run_bind, Action.run_ofAttempt, hfallback]

/-- A turn of a component: what it is asked about, and its answer. -/
structure Turn (ν ρ : Type) where
  state : State ν
  precision : Precision ρ
  answer : Except Failure (Option (Adjustment ν ρ))

namespace Turn

def failure? : Turn ν ρ → Option Failure
  | ⟨_, _, .error f⟩ => some f
  | _ => none

def fails (t : Turn ν ρ) : Bool := t.failure?.isSome

def drops : Turn ν ρ → Bool
  | ⟨_, _, .ok none⟩ => true
  | _ => false

def halts : Turn ν ρ → Bool
  | ⟨_, _, .ok (some b)⟩ => b.signal = .halt
  | _ => false

theorem halts_eq_false (t : Turn ν ρ) (h : t.drops = true) : t.halts = false := by
  obtain ⟨s, p, f | _ | b⟩ := t
  · rfl
  · rfl
  · cases h

variable [LeafValue ν] [LeafPrecision ρ]

/-- The answer differs from what the component was asked about. -/
def changes : Turn ν ρ → Bool
  | ⟨s, p, .ok (some b)⟩ => !(s.agrees b.state && p.agrees b.precision)
  | _ => false

/-- The state after the turn. An answer that agrees with the old state and precision is discarded. -/
def stateAfter (t : Turn ν ρ) : State ν :=
  match t.answer with
  | .ok (some b) => if t.changes then b.state else t.state
  | _ => t.state

def precisionAfter (t : Turn ν ρ) : Precision ρ :=
  match t.answer with
  | .ok (some b) => if t.changes then b.precision else t.precision
  | _ => t.precision

end Turn

/-- The surroundings as component `i` sees them. -/
def seenBy (i : Nat) (around : Surroundings ν ρ) : Surroundings ν ρ :=
  { around with view := viewOf i around.view }

/-- The turns of one round, by the components numbered from `i` on. -/
inductive Turns (around : Surroundings ν ρ) : List (Adjuster ν ρ ω) → Nat → List (State ν) →
    List (Precision ρ) → World ω → List (Turn ν ρ) → World ω → Prop where
  | nil {i w} : Turns around [] i [] [] w [] w
  | answered {a as i s ss p ps b turns w w₁ w'} :
      Reply a s p (seenBy i around) w (.ok (some b)) w₁ →
      Turns around as (i + 1) ss ps w₁ turns w' →
      Turns around (a :: as) i (s :: ss) (p :: ps) w (⟨s, p, .ok (some b)⟩ :: turns) w'
  | dropped {a as i s ss p ps w w'} :
      Reply a s p (seenBy i around) w (.ok none) w' →
      Turns around (a :: as) i (s :: ss) (p :: ps) w [⟨s, p, .ok none⟩] w'
  | failed {a as i s ss p ps f w w'} :
      Reply a s p (seenBy i around) w (.error f) w' →
      Turns around (a :: as) i (s :: ss) (p :: ps) w [⟨s, p, .error f⟩] w'

variable {around : Surroundings ν ρ} {as : List (Adjuster ν ρ ω)} {i : Nat} {ss : List (State ν)}
  {ps : List (Precision ρ)} {turns turns' : List (Turn ν ρ)} {w w' : World ω} {r : Round ν ρ}

theorem exists_turns (around : Surroundings ν ρ) (i : Nat) (hss : ss.length = as.length)
    (hps : ps.length = as.length) (w : World ω) :
    ∃ turns w', Turns around as i ss ps w turns w' := by
  induction as generalizing i ss ps w with
  | nil =>
    cases List.length_eq_zero_iff.1 hss
    cases List.length_eq_zero_iff.1 hps
    exact ⟨_, _, .nil⟩
  | cons a as ih =>
    obtain ⟨s, ss, rfl⟩ := List.exists_cons_of_length_eq_add_one hss
    obtain ⟨p, ps, rfl⟩ := List.exists_cons_of_length_eq_add_one hps
    obtain ⟨answer, w₁, hreply⟩ := exists_reply a s p (seenBy i around) w
    rcases answer with f | _ | b
    · exact ⟨_, _, .failed hreply⟩
    · exact ⟨_, _, .dropped hreply⟩
    · obtain ⟨turns, w', hturns⟩ := ih (i + 1) (Nat.succ.inj hss) (Nat.succ.inj hps) w₁
      exact ⟨_, _, .answered hreply hturns⟩

/-- Nobody takes a turn after the tuple has been dropped. -/
theorem Turns.eq_append_of_drops (h : Turns around as i ss ps w turns w') {t : Turn ν ρ}
    (ht : t ∈ turns) (hdrops : t.drops = true) : ∃ before, turns = before ++ [t] := by
  induction h with
  | nil => cases ht
  | answered _ _ ih =>
    rcases List.mem_cons.1 ht with rfl | ht
    · cases hdrops
    · obtain ⟨before, rfl⟩ := ih ht
      exact ⟨_ :: before, rfl⟩
  | dropped _ | failed _ => exact ⟨[], congrArg (fun u => [u]) (List.mem_singleton.1 ht).symm⟩

theorem Turns.length_eq (h : Turns around as i ss ps w turns w')
    (hdrops : turns.any Turn.drops = false) (hfails : turns.any Turn.fails = false) :
    turns.length = as.length := by
  induction h with
  | nil => rfl
  | answered _ _ ih => exact congrArg (· + 1) (ih hdrops hfails)
  | dropped _ => cases hdrops
  | failed _ => cases hfails

/-! ## Outcomes -/

/-- One halt is enough. -/
def signalOf (turns : List (Turn ν ρ)) : Signal :=
  if turns.any Turn.halts then .halt else .proceed

theorem signalOf_eq_proceed : signalOf turns = .proceed ↔ turns.any Turn.halts = false := by
  unfold signalOf
  cases turns.any Turn.halts <;> simp

theorem signalOf_cons (s : State ν) (p : Precision ρ) (b : Adjustment ν ρ) :
    signalOf (⟨s, p, .ok (some b)⟩ :: turns) = both b.signal (signalOf turns) := by
  unfold signalOf
  rw [List.any_cons]
  cases hsignal : b.signal <;> cases turns.any Turn.halts <;> simp [Turn.halts, hsignal, both]

theorem signalOf_append (hhalts : turns.any Turn.halts = false) :
    signalOf (turns ++ turns') = signalOf turns' := by
  unfold signalOf
  rw [List.any_append, hhalts, Bool.false_or]

/-- What comes of the turns: their failure, nothing if the tuple was dropped, or else `r`. -/
def outcome (turns : List (Turn ν ρ)) (r : Round ν ρ) : Except Failure (Option (Round ν ρ)) :=
  match turns.findSome? Turn.failure? with
  | some f => .error f
  | none => .ok (if turns.any Turn.drops then none else some r)

theorem isSome_failure (turns : List (Turn ν ρ)) :
    (turns.findSome? Turn.failure?).isSome = turns.any Turn.fails :=
  List.isSome_findSome?

theorem outcome_of_fails (hfails : turns.any Turn.fails = true) :
    ∃ f, outcome turns r = .error f := by
  obtain ⟨f, hf⟩ := Option.isSome_iff_exists.1 ((isSome_failure turns).trans hfails)
  exact ⟨f, by rw [outcome, hf]⟩

theorem outcome_of_not_fails (hfails : turns.any Turn.fails = false) :
    outcome turns r = .ok (if turns.any Turn.drops then none else some r) := by
  have hnone : turns.findSome? Turn.failure? = none := by
    simpa using (isSome_failure turns).trans hfails
  rw [outcome, hnone]

/-- Turns that neither fail nor drop the tuple have no part in the outcome. -/
theorem outcome_append (hfails : turns.any Turn.fails = false)
    (hdrops : turns.any Turn.drops = false) : outcome (turns ++ turns') r = outcome turns' r := by
  have hnone : turns.findSome? Turn.failure? = none := by
    simpa using (isSome_failure turns).trans hfails
  unfold outcome
  rw [List.findSome?_append, List.any_append, hnone, hdrops]
  rfl

theorem outcome_answered {s : State ν} {p : Precision ρ} {b : Adjustment ν ρ} :
    outcome (⟨s, p, .ok (some b)⟩ :: turns) r = outcome turns r := by
  rw [← List.singleton_append]
  exact outcome_append rfl rfl

theorem any_flatten_cons {f : Turn ν ρ → Bool} {rounds : List (List (Turn ν ρ))}
    (h : turns.any f = false) : (turns :: rounds).flatten.any f = rounds.flatten.any f := by
  rw [List.flatten_cons, List.any_append, h, Bool.false_or]

/-! ## Rounds -/

variable [LeafValue ν] [LeafPrecision ρ]

/-- Another round is due. -/
def goesOn (turns : List (Turn ν ρ)) : Bool :=
  turns.any Turn.changes && !(turns.any Turn.halts || turns.any Turn.drops || turns.any Turn.fails)

/-- The course of an adjustment with at most so many rounds. -/
inductive Rounds (around : Surroundings ν ρ) (as : List (Adjuster ν ρ ω)) : Nat → List (State ν) →
    List (Precision ρ) → World ω → List (List (Turn ν ρ)) → World ω → Prop where
  | spent {ss : List (State ν)} {ps w} :
      Rounds around as 0 ss ps w [] w
  | last {n ss ps turns w w'} :
      Turns around as 0 ss ps w turns w' → goesOn turns = false →
      Rounds around as (n + 1) ss ps w [turns] w'
  | again {n ss ps turns rounds w w₁ w'} :
      Turns around as 0 ss ps w turns w₁ → goesOn turns = true →
      Rounds around as n (turns.map Turn.stateAfter) (turns.map Turn.precisionAfter) w₁ rounds w' →
      Rounds around as (n + 1) ss ps w (turns :: rounds) w'

/-- The components after the given rounds. -/
def statesAfter (ss : List (State ν)) (rounds : List (List (Turn ν ρ))) : List (State ν) :=
  rounds.foldl (fun _ turns => turns.map Turn.stateAfter) ss

def precisionsAfter (ps : List (Precision ρ)) (rounds : List (List (Turn ν ρ))) :
    List (Precision ρ) :=
  rounds.foldl (fun _ turns => turns.map Turn.precisionAfter) ps

/-- The components at the end of a round in which nobody fails or drops the tuple. -/
def summary (turns : List (Turn ν ρ)) : Round ν ρ :=
  ⟨turns.map Turn.stateAfter, turns.map Turn.precisionAfter, signalOf turns,
    turns.any Turn.changes⟩

theorem summary_cons (s : State ν) (p : Precision ρ) (b : Adjustment ν ρ) :
    summary (⟨s, p, .ok (some b)⟩ :: turns) =
      { states := (if s.agrees b.state && p.agrees b.precision then s else b.state) ::
          (summary turns).states
        precisions := (if s.agrees b.state && p.agrees b.precision then p else b.precision) ::
          (summary turns).precisions
        signal := both b.signal (summary turns).signal
        changed := !(s.agrees b.state && p.agrees b.precision) || (summary turns).changed } := by
  unfold summary
  rw [signalOf_cons]
  cases hsame : s.agrees b.state && p.agrees b.precision <;>
    simp [Turn.stateAfter, Turn.precisionAfter, Turn.changes, hsame]

theorem Turns.run_eq (h : Turns around as i ss ps w turns w') :
    (adjustRound around as i ss ps).run.run w = (outcome turns (summary turns), w') := by
  induction h with
  | nil => rfl
  | @answered a as i s ss p ps b turns w w₁ w' hreply _ ih =>
    refine (run_bind_of_ok hreply.run_eq).trans ?_
    dsimp only
    rw [run_bind, ih, outcome_answered, summary_cons]
    unfold outcome
    cases turns.findSome? Turn.failure? with
    | some f => rfl
    | none => cases turns.any Turn.drops <;> rfl
  | dropped hreply => exact run_bind_of_ok hreply.run_eq
  | failed hreply => exact run_bind_of_error hreply.run_eq

theorem goesOn_eq_true : goesOn turns = true ↔ turns.any Turn.changes = true ∧
    turns.any Turn.halts = false ∧ turns.any Turn.drops = false ∧ turns.any Turn.fails = false := by
  unfold goesOn
  rw [Bool.and_eq_true, Bool.not_eq_true', Bool.or_eq_false_iff, Bool.or_eq_false_iff, and_assoc]

theorem summary_goesOn (hdrops : turns.any Turn.drops = false)
    (hfails : turns.any Turn.fails = false) :
    ((summary turns).changed && decide ((summary turns).signal = .proceed)) = goesOn turns := by
  unfold summary signalOf goesOn
  rw [hdrops, hfails]
  cases turns.any Turn.halts <;> simp

theorem exists_rounds (around : Surroundings ν ρ) (n : Nat) (hss : ss.length = as.length)
    (hps : ps.length = as.length) (w : World ω) :
    ∃ rounds w', Rounds around as n ss ps w rounds w' := by
  induction n generalizing ss ps w with
  | zero => exact ⟨_, _, .spent⟩
  | succ n ih =>
    obtain ⟨turns, w₁, hturns⟩ := exists_turns around 0 hss hps w
    cases hgoes : goesOn turns with
    | false => exact ⟨_, _, .last hturns hgoes⟩
    | true =>
      obtain ⟨-, -, hdrops, hfails⟩ := goesOn_eq_true.1 hgoes
      have hlength := hturns.length_eq hdrops hfails
      obtain ⟨rounds, w', hrounds⟩ :=
        ih ((List.length_map _).trans hlength) ((List.length_map _).trans hlength) w₁
      exact ⟨_, _, .again hturns hgoes hrounds⟩

variable {n : Nat} {rounds : List (List (Turn ν ρ))}

theorem Rounds.run_eq (h : Rounds around as n ss ps w rounds w') (modified : Bool) :
    (adjustRounds around as n ss ps modified).run.run w =
      (outcome rounds.flatten ⟨statesAfter ss rounds, precisionsAfter ps rounds,
        signalOf rounds.flatten, modified || rounds.flatten.any Turn.changes⟩, w') := by
  induction h generalizing modified with
  | spent =>
    rw [List.flatten_nil, List.any_nil, Bool.or_false]
    rfl
  | @last n ss ps turns w w' hturns hgoes =>
    rw [List.flatten_singleton]
    unfold adjustRounds
    rw [run_bind, hturns.run_eq]
    cases hfails : turns.any Turn.fails with
    | true =>
      obtain ⟨f, hf⟩ : ∃ f, turns.findSome? Turn.failure? = some f :=
        Option.isSome_iff_exists.1 ((isSome_failure turns).trans hfails)
      unfold outcome
      rw [hf]
    | false =>
      rw [outcome_of_not_fails hfails, outcome_of_not_fails hfails]
      cases hdrops : turns.any Turn.drops with
      | true => rfl
      | false =>
        refine (congrArg (fun x : Action ω _ => x.run.run w') (if_neg ?_)).trans rfl
        rw [summary_goesOn hdrops hfails, hgoes]
        exact Bool.false_ne_true
  | @again n ss ps turns rounds w w₁ w' hturns hgoes _ ih =>
    obtain ⟨hchanges, hhalts, hdrops, hfails⟩ := goesOn_eq_true.1 hgoes
    have hround : (adjustRound around as 0 ss ps).run.run w = (.ok (some (summary turns)), w₁) := by
      rw [hturns.run_eq, outcome_of_not_fails hfails, hdrops]
      rfl
    refine (run_bind_of_ok hround).trans ?_
    refine (congrArg (fun x : Action ω _ => x.run.run w₁) (if_pos ?_)).trans ?_
    · rw [summary_goesOn hdrops hfails, hgoes]
    · refine (ih true).trans ?_
      rw [List.flatten_cons, outcome_append hfails hdrops, signalOf_append hhalts, List.any_append,
        hchanges, Bool.true_or, Bool.or_true]
      rfl

/-! ## Tuples -/

/-- How an adjustment of the tuple `s` and the precision `p` ends after the given rounds. -/
inductive Ends (o : ProductOptions) (s : State ν) (p : Precision ρ) (rounds : List (List (Turn ν ρ)))
    (w : World ω) : Except Failure (Option (Adjustment ν ρ)) → World ω → Prop where
  | failed {f} : rounds.flatten.any Turn.fails = true → Ends o s p rounds w (.error f) w
  | dropped : rounds.flatten.any Turn.fails = false → rounds.flatten.any Turn.drops = true →
      Ends o s p rounds w (.ok none) w
  | unchanged : rounds.flatten.any Turn.fails = false → rounds.flatten.any Turn.drops = false →
      rounds.flatten.any Turn.changes = false →
      Ends o s p rounds w (.ok (some ⟨s, p, signalOf rounds.flatten⟩)) w
  | changed {w' : World ω} : rounds.flatten.any Turn.fails = false →
      rounds.flatten.any Turn.drops = false → rounds.flatten.any Turn.changes = true →
      w'.next = w.next.next.next →
      Ends o s p rounds w (.ok (some
        ⟨.tuple w.next (statesAfter s.components rounds)
            (anchor o.locationIndex (statesAfter s.components rounds)),
          .tuple w.next.next (precisionsAfter p.components rounds), signalOf rounds.flatten⟩)) w'

variable {o : ProductOptions} {s : State ν} {p : Precision ρ}

theorem Rounds.ends (hs : s.HasArity as.length) (hp : p.HasArity as.length)
    (h : Rounds around as o.maxRounds s.components p.components w rounds w') :
    ∃ answer w₁, ((adjuster o as).adjust s p around).run.run w = (answer, w₁) ∧
      Ends o s p rounds w' answer w₁ := by
  have hsplit : split as.length s p = .ok (s.components, p.components) :=
    split_eq_ok_iff.2 ⟨hs, hp, rfl⟩
  have hrun := h.run_eq false
  rw [Bool.false_or] at hrun
  unfold adjuster
  dsimp only
  rw [hsplit]
  show ∃ answer w₁, StateT.run (ExceptT.run (adjustRounds _ _ _ _ _ _ >>= _)) w = (answer, w₁) ∧ _
  rw [run_bind, hrun]
  cases hfails : rounds.flatten.any Turn.fails with
  | true =>
    obtain ⟨f, hf⟩ := outcome_of_fails hfails
    rw [hf]
    exact ⟨_, _, rfl, .failed hfails⟩
  | false =>
    rw [outcome_of_not_fails hfails]
    cases hdrops : rounds.flatten.any Turn.drops with
    | true => exact ⟨_, _, rfl, .dropped hfails hdrops⟩
    | false =>
      cases hchanges : rounds.flatten.any Turn.changes with
      | false => exact ⟨_, _, rfl, .unchanged hfails hdrops hchanges⟩
      | true => exact ⟨_, _, rfl, .changed hfails hdrops hchanges rfl⟩

/-- The last turn of all drops the tuple, after another one of its round has halted. -/
def DropsHalt (rounds : List (List (Turn ν ρ))) : Prop :=
  ∃ earlier turns t, rounds = earlier ++ [turns ++ [t]] ∧ turns.any Turn.halts = true ∧
    t.drops = true

theorem Rounds.dropsHalt_iff (h : Rounds around as n ss ps w rounds w')
    (hhalts : rounds.flatten.any Turn.halts = true) :
    rounds.flatten.any Turn.drops = true ↔ DropsHalt rounds := by
  constructor
  · intro hdrops
    induction h with
    | spent => cases hhalts
    | last hturns _ =>
      rw [List.flatten_singleton] at hhalts hdrops
      obtain ⟨t, ht, htdrops⟩ := List.any_eq_true.1 hdrops
      obtain ⟨before, rfl⟩ := hturns.eq_append_of_drops ht htdrops
      refine ⟨[], before, t, rfl, ?_, htdrops⟩
      rw [List.any_append, Bool.or_eq_true_iff] at hhalts
      -- The turn that drops the tuple is not itself the one that halts.
      refine hhalts.resolve_right fun hlast => ?_
      rw [List.any_cons, t.halts_eq_false htdrops] at hlast
      cases hlast
    | again _ hgoes _ ih =>
      obtain ⟨-, hnot, hkept, -⟩ := goesOn_eq_true.1 hgoes
      rw [any_flatten_cons hnot] at hhalts
      rw [any_flatten_cons hkept] at hdrops
      obtain ⟨earlier, turns, t, rfl, hlost⟩ := ih hhalts hdrops
      exact ⟨_ :: earlier, turns, t, rfl, hlost⟩
  · rintro ⟨earlier, turns, t, rfl, -, hdrops⟩
    refine List.any_eq_true.2 ⟨t, ?_, hdrops⟩
    simp

/-- If a component halts and none fails, the adjustment has an answer. It halts too, unless a later
component of the same round has dropped the tuple. -/
theorem halting_adjustment_answers (o : ProductOptions) (as : List (Adjuster ν ρ ω))
    (around : Surroundings ν ρ) {s : State ν} {p : Precision ρ} (hs : s.HasArity as.length)
    (hp : p.HasArity as.length) {w w₁ : World ω} {rounds : List (List (Turn ν ρ))}
    (course : Rounds around as o.maxRounds s.components p.components w rounds w₁)
    (hhalts : rounds.flatten.any Turn.halts = true)
    (hfails : rounds.flatten.any Turn.fails = false) :
    ∃ answer w', ((adjuster o as).adjust s p around).run.run w = (.ok answer, w') ∧
      (answer = none ↔ DropsHalt rounds) ∧ ∀ b, answer = some b → b.signal = .halt := by
  have hsignal : signalOf rounds.flatten = .halt := if_pos hhalts
  obtain ⟨result, w', run, hends⟩ := course.ends hs hp
  cases hends with
  | failed hfailed => simp [hfails] at hfailed
  | dropped _ hdrops =>
    exact ⟨none, _, run, iff_of_true rfl ((course.dropsHalt_iff hhalts).1 hdrops), by simp⟩
  | unchanged _ hdrops _ =>
    refine ⟨_, _, run, ?_, ?_⟩
    · simp [← course.dropsHalt_iff hhalts, hdrops]
    · rintro b hb
      cases hb
      exact hsignal
  | changed _ hdrops _ _ =>
    refine ⟨_, w', run, ?_, ?_⟩
    · simp [← course.dropsHalt_iff hhalts, hdrops]
    · rintro b hb
      cases hb
      exact hsignal

/-! ## A halt that is heard, and one that is lost -/

/-- Facts that are adjusted by the given rules. -/
def ruled (rules : List Facts.Rule) : Adjuster FactValue Level Facts.Notes :=
  Facts.adjuster { adjust := some rules }

def halting : Adjuster FactValue Level Facts.Notes := ruled [⟨[], { halts := true }⟩]

/-- Adds the fact 9 where it is missing. -/
def growing : Adjuster FactValue Level Facts.Notes :=
  ruled [⟨[.hasNone [9]], { results := some [.changed [] [9] none] }⟩]

def dropping : Adjuster FactValue Level Facts.Notes := ruled [⟨[], { results := some [] }⟩]

def aroundPair : Surroundings FactValue Level := ⟨.empty, id, judged 0 [1] [2]⟩

def pairWorld : World Facts.Notes := ⟨⟨6⟩, .empty, ⟨0⟩, ⟨0⟩, ({}, .sep)⟩

/-- The tuple grows after the halt, and what has grown is still part of the answer. -/
theorem halting_then_growing : ∃ rounds w₁ b w',
    Rounds aroundPair [halting, growing] 16 (judged 0 [1] [2]).components
      judgedPrecision.components pairWorld rounds w₁ ∧
    rounds.flatten.any Turn.halts = true ∧ rounds.flatten.any Turn.changes = true ∧
    ((adjuster {} [halting, growing]).adjust (judged 0 [1] [2]) judgedPrecision aroundPair).run.run
      pairWorld = (.ok (some b), w') ∧
    b.signal = .halt := by
  have course : ∃ rounds w₁, Rounds aroundPair [halting, growing] 16
      (judged 0 [1] [2]).components judgedPrecision.components pairWorld rounds w₁ ∧
      rounds.flatten.any Turn.halts = true ∧ rounds.flatten.any Turn.changes = true ∧
      rounds.flatten.any Turn.fails = false ∧ rounds.flatten.any Turn.drops = false :=
    ⟨_, _, .last (.answered (.adjusted rfl) (.answered (.adjusted rfl) .nil)) rfl, rfl, rfl, rfl,
      rfl⟩
  obtain ⟨rounds, w₁, course, hhalts, hchanges, hfails, hdrops⟩ := course
  obtain ⟨answer, w', run, hnone, hsignal⟩ := halting_adjustment_answers {} [halting, growing]
    aroundPair ⟨_, _, _, rfl, rfl⟩ ⟨_, _, rfl, rfl⟩ course hhalts hfails
  cases answer with
  | none =>
    have hlost := (course.dropsHalt_iff hhalts).2 (hnone.1 rfl)
    rw [hdrops] at hlost
    cases hlost
  | some b => exact ⟨rounds, w₁, b, w', course, hhalts, hchanges, run, hsignal b rfl⟩

/-- The first component halts, the second drops the tuple, and nobody learns of the halt. -/
theorem halt_lost_with_dropped_tuple : ∃ rounds w₁ w',
    Rounds aroundPair [halting, dropping] 16 (judged 0 [1] [2]).components
      judgedPrecision.components pairWorld rounds w₁ ∧
    rounds.flatten.any Turn.halts = true ∧ rounds.flatten.any Turn.fails = false ∧
    ((adjuster {} [halting, dropping]).adjust (judged 0 [1] [2]) judgedPrecision aroundPair).run.run
      pairWorld = (.ok none, w') :=
  ⟨_, _, _, .last (.answered (.adjusted rfl) (.dropped (.adjusted rfl))) rfl, rfl, rfl, rfl⟩

end ProgramAnalysis.Product
