import Mathlib.Logic.Relation
import ProgramAnalysis.Proofs.ProductSoundness
/-!
Strengthening comes to an end, and only at tuples that no component changes any more.

A worklist holds the tuples that wait for a pass and is emptied turn by turn: the next tuple has its
pass, and the tuples that come of it wait again or are done. The turns come to an end whatever the
components answer, even if they split a tuple in every pass, since a tuple has at most as many
passes as there are rounds. `settle` does in one recursion what the turns do (`settle_clears`), so
the tuples that it gives are those that were done, and each of them came out of a pass in which all
components were content (`strengthening_settles`).
-/

namespace ProgramAnalysis.Product

variable {ν ρ ω : Type} [LeafValue ν]

/-! ## Content components -/

/-- Component `i` looks at a tuple and is content: it answers nothing, or states that agree with its
own. The tuples that come of it are `out`. -/
inductive Content (e : ProgramEdge) (t : Transfer ν ρ ω) (p : Precision ρ) (i : Nat)
    (cs : List (State ν)) (w : World ω) : List (List (State ν)) → World ω → Prop where
  | silent {s w'} : cs[i]? = some s →
      (t.strengthen s cs e p).run.run w = (.ok none, w') → Content e t p i cs w [cs] w'
  | repeats {s states w'} : cs[i]? = some s →
      (t.strengthen s cs e p).run.run w = (.ok (some states), w') →
      (∀ u ∈ states, u.agrees s = true) → Content e t p i cs w (states.map (cs.set i ·)) w'

/-- Component `i` looks at the tuples one after the other and is content with each of them. -/
inductive ContentEach (e : ProgramEdge) (t : Transfer ν ρ ω) (p : Precision ρ) (i : Nat) :
    List (List (State ν)) → World ω → List (List (State ν)) → World ω → Prop where
  | nil {w} : ContentEach e t p i [] w [] w
  | cons {cs rest out more w w₁ w₂} :
      Content e t p i cs w out w₁ → ContentEach e t p i rest w₁ more w₂ →
      ContentEach e t p i (cs :: rest) w (out ++ more) w₂

/-- A pass in which all components, numbered from `i` on, are content. -/
inductive QuietPass (e : ProgramEdge) : List (Transfer ν ρ ω) → List (Precision ρ) → Nat →
    List (List (State ν)) → World ω → List (List (State ν)) → World ω → Prop where
  | nil {i css w} : QuietPass e [] [] i css w css w
  | cons {t ts p ps i css here out w w₁ w₂} :
      ContentEach e t p i css w here w₁ → QuietPass e ts ps (i + 1) here w₁ out w₂ →
      QuietPass e (t :: ts) (p :: ps) i css w out w₂

/-- A component fails when it looks at a tuple. -/
def Balks (e : ProgramEdge) (ts : List (Transfer ν ρ ω)) (f : Failure) (w' : World ω) : Prop :=
  ∃ t ∈ ts, ∃ s cs p w, (t.strengthen s cs e p).run.run w = (.error f, w')

variable {e : ProgramEdge} {ts : List (Transfer ν ρ ω)} {ps : List (Precision ρ)}
  {cs : List (State ν)} {passes arity i : Nat} {t : Transfer ν ρ ω} {css : List (List (State ν))}

omit [LeafValue ν] in
theorem Balks.mono {ts' : List (Transfer ν ρ ω)} {f : Failure} {w : World ω} (h : Balks e ts f w)
    (hts : ts ⊆ ts') : Balks e ts' f w := by
  obtain ⟨t, ht, hfails⟩ := h
  exact ⟨t, hts ht, hfails⟩

/-- A component keeps the length of a tuple, and what it does not change it is content with. -/
theorem strengthenOne_content {p : Precision ρ} (hi : i < arity) (hcs : cs.length = arity)
    (w : World ω) :
    Triple (· = w) (strengthenOne e t p i cs)
      (fun pass w' => (∀ ds ∈ pass.tuples, ds.length = arity) ∧
        (pass.changed = false → Content e t p i cs w pass.tuples w'))
      (Balks e [t]) := by
  have hget : cs[i]? = some cs[i] := List.getElem?_eq_getElem (hcs ▸ hi)
  unfold strengthenOne
  rw [hget]
  refine .bind (R := fun answer w' => (t.strengthen cs[i] cs e p).run.run w = (.ok answer, w'))
    (.of_run ?_ ?_) fun answer => ?_
  · rintro _ answer w' rfl hrun
    exact hrun
  · rintro _ f w' rfl hrun
    exact ⟨t, List.mem_singleton.2 rfl, _, _, _, _, hrun⟩
  · cases answer with
    | none =>
      refine .pure fun w' hrun => ⟨?_, fun _ => .silent hget hrun⟩
      simpa using hcs
    | some states =>
      refine .pure fun w' hrun => ⟨?_, fun hsame => .repeats hget hrun fun u hu => ?_⟩
      · simpa using fun _ _ => hcs
      · simpa using List.any_eq_false.1 hsame u hu

theorem strengthenEach_content {p : Precision ρ} (hi : i < arity)
    (hcss : ∀ cs ∈ css, cs.length = arity) (w : World ω) :
    Triple (· = w) (strengthenEach e t p i css)
      (fun pass w' => (∀ ds ∈ pass.tuples, ds.length = arity) ∧
        (pass.changed = false → ContentEach e t p i css w pass.tuples w'))
      (Balks e [t]) := by
  induction css generalizing w with
  | nil =>
    refine .pure ?_
    rintro _ rfl
    exact ⟨hcss, fun _ => .nil⟩
  | cons cs rest ih =>
    obtain ⟨hcs, hrest⟩ := List.forall_mem_cons.1 hcss
    unfold strengthenEach
    refine .bind (strengthenOne_content hi hcs w) fun first w₁ hfirst => ?_
    obtain ⟨hsized, hquiet⟩ := hfirst
    refine Triple.bind (P := (· = w₁)) (ih hrest w₁) (fun others => .pure ?_) w₁ rfl
    rintro w₂ ⟨hsized', hquiet'⟩
    refine ⟨List.forall_mem_append.2 ⟨hsized, hsized'⟩, fun hsame => ?_⟩
    obtain ⟨hfirst, hothers⟩ := Bool.or_eq_false_iff.1 hsame
    exact .cons (hquiet hfirst) (hquiet' hothers)

/-- A pass that changes nothing is a quiet one, and only components make it fail. -/
theorem strengthenPass_quiet (hps : ps.length = ts.length) (hi : i + ts.length = arity)
    (hcss : ∀ cs ∈ css, cs.length = arity) (w : World ω) :
    Triple (· = w) (strengthenPass e ts ps i css)
      (fun pass w' => (∀ ds ∈ pass.tuples, ds.length = arity) ∧
        (pass.changed = false → QuietPass e ts ps i css w pass.tuples w'))
      (Balks e ts) := by
  induction ts generalizing ps i css w with
  | nil =>
    cases List.length_eq_zero_iff.1 hps
    refine .pure ?_
    rintro _ rfl
    exact ⟨hcss, fun _ => .nil⟩
  | cons t ts ih =>
    cases ps with
    | nil => cases hps
    | cons p ps =>
      have hlt : i < arity := by
        rw [← hi, List.length_cons]
        omega
      have hnext : i + 1 + ts.length = arity := by
        rw [← hi, List.length_cons]
        omega
      unfold strengthenPass
      refine .bind (.fail (strengthenEach_content hlt hcss w) fun _ _ h => h.mono ?_)
        fun here w₁ hhere => ?_
      · simp
      obtain ⟨hsized, hquiet⟩ := hhere
      have hlater := ih (Nat.succ.inj hps) hnext hsized w₁
      refine Triple.bind (P := (· = w₁)) (.fail hlater fun _ _ h => h.mono ?_)
        (fun later => .pure ?_) w₁ rfl
      · simp
      rintro w₂ ⟨hsized', hquiet'⟩
      refine ⟨hsized', fun hsame => ?_⟩
      obtain ⟨hhere, hlater⟩ := Bool.or_eq_false_iff.1 hsame
      exact .cons (hquiet hhere) (hquiet' hlater)

/-! ## Turns -/

/-- The tuples that wait for a pass, each with the number of passes behind it and the next one
first, and the tuples that are done. -/
structure Worklist (ν : Type) where
  work : List (List (State ν) × Nat)
  done : List (List (State ν))

/-- The failure of a tuple that has had all its passes and has to have another one. -/
def unstable (e : ProgramEdge) (bound : Nat) : Failure :=
  .error (.contractViolation
    ("strengthening along " ++ e.id.text ++ " did not stabilise after " ++ Nat.repr bound ++
      " rounds"))

namespace Worklist

/-- Whether a tuple that came out of a pass over `cs` has to have another pass. -/
def again (cs : List (State ν)) (pass : Pass ν) (t : List (State ν)) : Bool :=
  pass.changed || (!State.anyTarget cs && State.anyTarget t)

/-- The worklist after a pass over its first tuple. -/
def after (cs : List (State ν)) (passes : Nat) (rest : List (List (State ν) × Nat))
    (done : List (List (State ν))) (pass : Pass ν) : Worklist ν :=
  ⟨(pass.tuples.filter (again cs pass)).reverse.map (·, passes + 1) ++ rest,
    done ++ pass.tuples.filter fun t => !again cs pass t⟩

/-- The next tuple has a pass. -/
def turn (e : ProgramEdge) (ts : List (Transfer ν ρ ω)) (ps : List (Precision ρ)) (bound : Nat) :
    Worklist ν → Action ω (Worklist ν)
  | ⟨[], done⟩ => pure ⟨[], done⟩
  | ⟨(cs, passes) :: rest, done⟩ =>
    if bound ≤ passes then
      throw (unstable e bound)
    else do
      return after cs passes rest done (← strengthenPass e ts ps 0 [cs])

/-- A turn leads from a worklist with work to do to the next one. -/
def Turn (e : ProgramEdge) (ts : List (Transfer ν ρ ω)) (ps : List (Precision ρ)) (bound : Nat)
    (a b : Worklist ν × World ω) : Prop :=
  a.1.work ≠ [] ∧ (turn e ts ps bound a.1).run.run a.2 = (.ok b.1, b.2)

/-- Turns lead from `a` to `b`. -/
def Comes (e : ProgramEdge) (ts : List (Transfer ν ρ ω)) (ps : List (Precision ρ)) (bound : Nat) :
    Worklist ν × World ω → Worklist ν × World ω → Prop :=
  Relation.ReflTransGen (Turn e ts ps bound)

/-- The turns from `a` on come to an end: all work is done, or a turn fails. -/
inductive Ends (e : ProgramEdge) (ts : List (Transfer ν ρ ω)) (ps : List (Precision ρ))
    (bound : Nat) (a : Worklist ν × World ω) :
    Except Failure (List (List (State ν))) → World ω → Prop where
  | finished {done w} :
      Comes e ts ps bound a (⟨[], done⟩, w) → Ends e ts ps bound a (.ok done) w
  | failed {l f w w'} : Comes e ts ps bound a (l, w) →
      (turn e ts ps bound l).run.run w = (.error f, w') → Ends e ts ps bound a (.error f) w'

variable {bound : Nat} {a : Worklist ν × World ω}

theorem turn_of_lt (h : passes < bound) (rest : List (List (State ν) × Nat))
    (done : List (List (State ν))) :
    turn e ts ps bound ⟨(cs, passes) :: rest, done⟩ =
      (strengthenPass e ts ps 0 [cs] >>= fun pass => pure (after cs passes rest done pass)) := by
  rw [turn, if_neg (Nat.not_le_of_lt h)]

/-- A tuple that has had all its passes makes the turn fail. -/
theorem turn_of_le (h : bound ≤ passes) (rest : List (List (State ν) × Nat))
    (done : List (List (State ν))) :
    turn e ts ps bound ⟨(cs, passes) :: rest, done⟩ = throw (unstable e bound) := by
  rw [turn, if_pos h]

/-! ## The recursion by rounds -/

/-- The computation takes the tuples `front` and all that comes of them off the worklist. -/
def Clears (e : ProgramEdge) (ts : List (Transfer ν ρ ω)) (ps : List (Precision ρ)) (bound : Nat)
    (a : Worklist ν × World ω) (front : List (List (State ν) × Nat))
    (x : Action ω (List (List (State ν)))) : Prop :=
  ∀ rest done, Triple (fun w => Comes e ts ps bound a (⟨front ++ rest, done⟩, w)) x
    (fun out w => Comes e ts ps bound a (⟨rest, done ++ out⟩, w))
    fun f w => Ends e ts ps bound a (.error f) w

/-- The tuples `todo` wait, with the same number of passes behind each. -/
theorem concatEach_clears {rounds : Nat}
    (ih : ∀ cs, Clears e ts ps bound a [(cs, passes)] (settle e ts ps bound rounds cs))
    (todo : List (List (State ν))) : Clears e ts ps bound a (todo.map (·, passes))
      (concatEach (settle e ts ps bound rounds) todo) := by
  intro rest done
  induction todo generalizing done with
  | nil =>
    refine .pure fun w hw => ?_
    rw [List.append_nil]
    exact hw
  | cons cs todo iht =>
    unfold concatEach
    refine .bind (ih cs _ done) fun here => .bind (iht (done ++ here)) fun more =>
      .pure fun w hw => ?_
    rw [← List.append_assoc]
    exact hw

/-- The tuple has `rounds` passes left. -/
theorem settle_clears (rounds : Nat) (h : passes + rounds = bound) (cs : List (State ν)) :
    Clears e ts ps bound a [(cs, passes)] (settle e ts ps bound rounds cs) := by
  intro rest done
  rw [List.singleton_append]
  induction rounds generalizing passes cs rest done with
  | zero =>
    refine .throw fun w hw => .failed hw ?_
    obtain rfl : passes = bound := h
    rw [turn_of_le (Nat.le_refl passes)]
    rfl
  | succ rounds ih =>
    have hlt : passes < bound := by omega
    have hnext : passes + 1 + rounds = bound := by omega
    unfold settle
    refine .bind (R := fun pass w => Comes e ts ps bound a (after cs passes rest done pass, w))
      (.of_run ?_ ?_) fun pass => ?_
    · intro w pass w' hw hrun
      refine hw.tail ⟨List.cons_ne_nil _ _, ?_⟩
      rw [turn_of_lt hlt, run_bind_of_ok hrun]
      rfl
    · intro w f w' hw hrun
      refine .failed hw ?_
      rw [turn_of_lt hlt, run_bind_of_error hrun]
    · have hconcat := concatEach_clears (a := a) (ih hnext)
      -- A pass that changed something sends all its tuples round again, other passes new targets.
      split
      · next hchanged =>
        have hagain : again cs pass = fun _ => true := by
          funext t
          simp [again, hchanged]
        have hafter : after cs passes rest done pass =
            ⟨pass.tuples.reverse.map (·, passes + 1) ++ rest, done⟩ := by
          simp [after, hagain]
        rw [hafter]
        exact hconcat pass.tuples.reverse rest done
      · next hchanged =>
        have hagain : again cs pass = fun t => !State.anyTarget cs && State.anyTarget t := by
          funext t
          simp [again, hchanged]
        rw [after, hagain]
        dsimp only
        refine .bind (hconcat _ rest _) fun others => .pure fun w hw => ?_
        rw [← List.append_assoc]
        exact hw

/-! ## Settled tuples -/

/-- The tuple came out of a quiet pass over a tuple of the worklist, and this pass has not made it a
target. -/
def Settled (e : ProgramEdge) (ts : List (Transfer ν ρ ω)) (ps : List (Precision ρ)) (bound : Nat)
    (a : Worklist ν × World ω) (t : List (State ν)) : Prop :=
  ∃ cs passes rest done w out w', Comes e ts ps bound a (⟨(cs, passes) :: rest, done⟩, w) ∧
    QuietPass e ts ps 0 [cs] w out w' ∧ t ∈ out ∧
    (State.anyTarget cs = true ∨ State.anyTarget t = false)

/-- A tuple that waits has the right length and has had no pass too many, and a tuple that is done
is settled. -/
structure Kept (e : ProgramEdge) (ts : List (Transfer ν ρ ω)) (ps : List (Precision ρ))
    (bound : Nat) (a : Worklist ν × World ω) (l : Worklist ν) : Prop where
  sized : ∀ q ∈ l.work, q.1.length = ts.length
  bounded : ∀ q ∈ l.work, q.2 ≤ bound
  settled : ∀ t ∈ l.done, Settled e ts ps bound a t

/-- The tuple has had all its passes and waits for another one. -/
def Overdue (bound : Nat) (l : Worklist ν) : Prop :=
  ∃ cs rest, l.work = (cs, bound) :: rest

/-- What is done after a turn was done before or is settled by its pass. A turn fails because its
tuple is overdue or because a component fails. -/
theorem Kept.turn_triple {l : Worklist ν} {w : World ω} (h : Kept e ts ps bound a l)
    (hps : ps.length = ts.length) (hl : Comes e ts ps bound a (l, w)) :
    Triple (· = w) (turn e ts ps bound l) (fun l' _ => Kept e ts ps bound a l')
      (fun f w' => (f = unstable e bound ∧ Overdue bound l) ∨ Balks e ts f w') := by
  obtain ⟨_ | ⟨⟨cs, passes⟩, rest⟩, done⟩ := l
  · exact .pure fun _ _ => h
  obtain ⟨hcs, hsized⟩ := List.forall_mem_cons.1 h.sized
  obtain ⟨hle, hbounded⟩ := List.forall_mem_cons.1 h.bounded
  by_cases hlt : passes < bound
  · have hpass := strengthenPass_quiet (e := e) hps (Nat.zero_add _)
      (List.forall_mem_singleton.2 hcs) w
    rw [turn_of_lt hlt]
    refine .bind (.fail hpass fun _ _ h => .inr h) fun pass =>
      .pure ?_
    rintro w' ⟨hlength, hquiet⟩
    refine ⟨List.forall_mem_append.2 ⟨?_, hsized⟩, List.forall_mem_append.2 ⟨?_, hbounded⟩,
      List.forall_mem_append.2 ⟨h.settled, ?_⟩⟩
    · intro q hq
      obtain ⟨t, ht, rfl⟩ := List.mem_map.1 hq
      exact hlength t (List.mem_of_mem_filter (List.mem_reverse.1 ht))
    · intro q hq
      obtain ⟨t, -, rfl⟩ := List.mem_map.1 hq
      exact hlt
    · intro t ht
      obtain ⟨ht, hdone⟩ := List.mem_filter.1 ht
      have hdone : again cs pass t = false := by simpa using hdone
      obtain ⟨hsame, htarget⟩ := Bool.or_eq_false_iff.1 hdone
      refine ⟨cs, passes, rest, done, w, pass.tuples, w', hl, hquiet hsame, ht, ?_⟩
      rcases Bool.and_eq_false_iff.1 htarget with hwas | hnot
      · exact .inl (by simpa using hwas)
      · exact .inr hnot
  · have hge : bound ≤ passes := Nat.le_of_not_lt hlt
    obtain rfl : passes = bound := Nat.le_antisymm hle hge
    rw [turn_of_le hge]
    exact .throw fun _ _ => .inl ⟨rfl, cs, rest, rfl⟩

theorem Comes.kept {b : Worklist ν × World ω} (h : Comes e ts ps bound a b)
    (hps : ps.length = ts.length) (ha : Kept e ts ps bound a a.1) : Kept e ts ps bound a b.1 := by
  induction h with
  | refl => exact ha
  | tail hb hturn ih => exact (ih.turn_triple hps hb).ok rfl hturn.2

end Worklist

open Worklist in
/-- Whatever the components answer, the turns that strengthen a tuple come to an end, and `settle`
ends as they do. The tuples that it gives are settled, and it gives up only on a tuple that has had
all its passes and waits for another one. -/
theorem strengthening_settles (e : ProgramEdge) (ts : List (Transfer ν ρ ω))
    (ps : List (Precision ρ)) (bound : Nat) (cs : List (State ν)) (hps : ps.length = ts.length)
    (hcs : cs.length = ts.length) (w : World ω) :
    ∃ result w', (settle e ts ps bound bound cs).run.run w = (result, w') ∧
      Ends e ts ps bound (⟨[(cs, 0)], []⟩, w) result w' ∧
      (∀ out, result = .ok out → ∀ t ∈ out, Settled e ts ps bound (⟨[(cs, 0)], []⟩, w) t) ∧
      (∀ f, result = .error f →
        (f = unstable e bound ∧
          ∃ l w₁, Comes e ts ps bound (⟨[(cs, 0)], []⟩, w) (l, w₁) ∧ Overdue bound l) ∨
        Balks e ts f w') := by
  have hstart : Kept e ts ps bound (⟨[(cs, 0)], []⟩, w) ⟨[(cs, 0)], []⟩ :=
    ⟨by simpa using hcs, by simp, by simp⟩
  have hsettle : Triple (fun w₁ => Comes e ts ps bound (⟨[(cs, 0)], []⟩, w) (⟨[(cs, 0)], []⟩, w₁))
      (settle e ts ps bound bound cs)
      (fun out w₁ => Comes e ts ps bound (⟨[(cs, 0)], []⟩, w) (⟨[], [] ++ out⟩, w₁))
      fun f w₁ => Ends e ts ps bound (⟨[(cs, 0)], []⟩, w) (.error f) w₁ :=
    settle_clears bound (Nat.zero_add bound) cs [] []
  have hsettle := hsettle w .refl
  rcases hrun : (settle e ts ps bound bound cs).run.run w with ⟨f | out, w'⟩
  · rw [hrun] at hsettle
    refine ⟨_, _, rfl, hsettle, fun _ h => (by cases h), ?_⟩
    rintro _ ⟨⟩
    cases hsettle with
    | @failed l _ w₁ _ hl hturn =>
      have hwhy := ((hl.kept hps hstart).turn_triple hps hl).error rfl hturn
      exact hwhy.imp_left fun h => ⟨h.1, l, w₁, hl, h.2⟩
  · rw [hrun] at hsettle
    refine ⟨_, _, rfl, .finished hsettle, ?_, fun _ h => (by cases h)⟩
    rintro _ ⟨⟩
    exact (hsettle.kept hps hstart).settled

/-! ## A tuple that is split -/

def forkTransfers : List (Transfer FactValue Level (Unit × Facts.Notes)) :=
  forkParts.map fun part => part.1.transfer

/-- The second edge of the fork leads to these components. -/
def forkCandidate : List (State FactValue) :=
  [.location ⟨1⟩ ⟨1⟩, Facts.make splitting ⟨2⟩ (.ofList [1]) none]

def candidateWorld : World (Unit × Facts.Notes) := ⟨⟨6⟩, .empty, ⟨0⟩, ⟨0⟩, (), {}, .sep⟩

/-- The first pass splits the candidate, and the two tuples that come of it, of which one is a
target, settle in the second. -/
theorem fork_strengthening_settles : ∃ out w',
    (settle forkEdge forkTransfers [.plain ⟨4⟩, .plain ⟨4⟩] 2 2 forkCandidate).run.run
      candidateWorld = (.ok out, w') ∧ out.map State.anyTarget = [true, false] ∧
    ∀ t ∈ out, Worklist.Settled forkEdge forkTransfers [.plain ⟨4⟩, .plain ⟨4⟩] 2
      (⟨[(forkCandidate, 0)], []⟩, candidateWorld) t := by
  obtain ⟨out, w', hrun, htargets⟩ := exists_ok_of_any
    ((settle forkEdge forkTransfers [.plain ⟨4⟩, .plain ⟨4⟩] 2 2 forkCandidate).run.run
      candidateWorld) (fun out => out.map State.anyTarget = [true, false]) (by decide +kernel)
  obtain ⟨result, _, hresult, -, hsettled, -⟩ := strengthening_settles forkEdge forkTransfers
    [.plain ⟨4⟩, .plain ⟨4⟩] 2 forkCandidate rfl rfl candidateWorld
  cases hrun.symm.trans hresult
  exact ⟨out, w', hrun, of_decide_eq_true htargets, hsettled out rfl⟩

end ProgramAnalysis.Product
