import ProgramAnalysis.Proofs.Frontiers
import ProgramAnalysis.Proofs.Targets
/-!
Iterations that are broken off.

An expansion changes the reached set only after all successors are there and adjusted. So an
iteration that a transfer, an adjustment or a cancellation breaks off has done nothing to it but to
take one entry off the frontier (`step_of_aborted`), and that entry is put back. Nothing is lost and
nothing is new; newest first, even the order in which entries wait is the old one
(`aborted_iteration_unmoved`).
-/

namespace ProgramAnalysis

/-! ## An entry that is put back -/

namespace ReachedSet

variable {ν ρ θ : Type} {r r' : ReachedSet ν ρ θ}

theorem pop_store [Frontier θ] {id : Option EntryId} (h : r.pop = (id, r')) :
    r'.store = r.store := by
  obtain rfl : r' = r.pop.2 := by rw [h]
  rfl

theorem pop_program [Frontier θ] {id : Option EntryId} (h : r.pop = (id, r')) :
    r'.program = r.program := by
  obtain rfl : r' = r.pop.2 := by rw [h]
  rfl

/-- An entry that is popped and put back waits, and so does whatever has waited. -/
theorem isWaiting_reschedule_pop [Waitlist θ ν] [Waitlist.Listed θ ν] {id : EntryId} {e : Entry ν ρ}
    (hpop : r.pop = (some id, r')) (he : r'.get? id = some e) (j : EntryId) :
    (r'.reschedule id).isWaiting j = r.isWaiting j := by
  have hqueue : ∀ k, k ∈ (r'.reschedule id).queue ↔ k = id ∨ k ∈ r'.queue := by
    intro k
    have hr : (r'.reschedule id).queue =
        Waitlist.Listed.waiting ν (Waitlist.push r'.frontier id e.location e.state) := by
      unfold reschedule
      rw [he]
      rfl
    rw [hr]
    by_cases hid : id ∈ r'.queue
    · rw [Waitlist.Listed.push_known r'.frontier id e.location e.state hid]
      refine ⟨.inr, ?_⟩
      rintro (rfl | hk)
      · exact hid
      · exact hk
    · rw [(Waitlist.Listed.push_new r'.frontier id e.location e.state hid).mem_iff, List.mem_cons]
      rfl
  rw [Bool.eq_iff_iff, isWaiting_iff_mem, isWaiting_iff_mem, hqueue, (queue_pop hpop).mem_iff,
    List.mem_cons]

/-- Newest first, an entry that is popped and put back comes to the place where it was. -/
theorem reschedule_pop {r r' : ReachedSet ν ρ SimpleWaitlist} {id : EntryId} {e : Entry ν ρ}
    (horder : r.frontier.order = .depthFirst) (hnodup : r.frontier.queue.Nodup)
    (hpop : r.pop = (some id, r')) (he : r'.get? id = some e) : r'.reschedule id = r := by
  have hnext : r.frontier.next? = some id := congrArg Prod.fst hpop
  have hfrontier : r'.frontier = r.frontier.pop.2 := congrArg (fun q => q.2.frontier) hpop.symm
  obtain ⟨⟨order, queue⟩, hr⟩ : ∃ w, w = r.frontier := ⟨_, rfl⟩
  rw [← hr] at horder hnodup hnext hfrontier
  obtain rfl : order = .depthFirst := horder
  obtain ⟨rest, rfl⟩ := List.getLast?_eq_some_iff.1 hnext
  have hrest : r'.frontier = ⟨.depthFirst, rest⟩ := by
    rw [hfrontier]
    simp [SimpleWaitlist.pop]
  have hnew : SimpleWaitlist.contains ⟨.depthFirst, rest⟩ id = false := by
    rw [Bool.eq_false_iff, Ne, SimpleWaitlist.contains_iff]
    intro hid
    exact (List.nodup_append.1 hnodup).2.2 id hid id (List.mem_singleton_self id) rfl
  have hpush : (SimpleWaitlist.mk .depthFirst rest).push id = r.frontier := by
    unfold SimpleWaitlist.push
    rw [hnew, ← hr]
    rfl
  unfold reschedule
  rw [he]
  show { r' with frontier := r'.frontier.push id } = r
  rw [hrest, hpush, pop_store hpop, pop_program hpop]

end ReachedSet

/-! ## Broken off -/

/-- How an expansion ends once it has begun to admit successors. -/
def Ending.Late : Ending → Prop
  | .done status _ => status = .targetFound
  | .failed _ => True
  | .crashed _ => True

namespace Exploration

variable {ν ρ ω θ : Type} [LeafValue ν] [Waitlist θ ν] {x : Exploration ν ρ ω}
  {m m' : Machine ν ρ ω θ} {result : Except Failure Status}

/-- An iteration that ends with the given result was broken off: by an adjustment, by a backend, by
a cancellation, or by an error that a transfer or an adjustment raised. -/
inductive Aborted (x : Exploration ν ρ ω) (m : Machine ν ρ ω θ) : Except Failure Status → Prop where
  | halted : Aborted x m (.ok (.broken .adjustment))
  | backend (text : String) : Aborted x m (.ok (.broken (.backendFailure text)))
  | interrupted : Aborted x m (.ok .interrupted)
  | raised {id r e err meter} :
      m.reached.pop = (some id, r) → r.get? id = some e →
      (x.successors r.store e).run.run (popped m r).meter = (.error (.failed err), meter) →
      Aborted x m (.error (.error err))

/-- Nothing was done, or one entry was taken off the frontier and put back when no successors could
be had. -/
def Restored (x : Exploration ν ρ ω) (m m' : Machine ν ρ ω θ) : Prop :=
  m' = m ∨ ∃ id r e ending, m.reached.pop = (some id, r) ∧ r.get? id = some e ∧
    (x.successors r.store e).run.run (popped m r).meter = (.error ending, m'.meter) ∧
    (∀ c, ending ≠ .crashed c) ∧ m'.reached = r.reschedule id ∧ m'.targets = m.targets

theorem late_admission {part : Partition} :
    Admission x part (fun _ _ (r : ReachedSet ν ρ θ) _ => r.Sound)
      (fun ending _ _ _ => ending.Late) :=
  admission_of_invariant (fun _ _ h => h) (fun _ _ id h => h.remove id)
    (fun _ _ _ _ _ h ha => h.add ha) (fun _ _ _ _ h _ => ⟨h, rfl⟩) (fun _ => trivial)
    fun _ => trivial

/-- An expansion that ends before its time has computed no successors and changed nothing, or it has
computed them and ends late. -/
theorem expand_ends {m₀ : Machine ν ρ ω θ} {id : EntryId} {e : Entry ν ρ}
    (hsound : m₀.reached.Sound) (he : m₀.reached.get? id = some e) :
    Triple (fun m => m = m₀) (x.expand id) (fun _ _ => True)
      (fun ending m =>
        (m.reached = m₀.reached ∧ m.targets = m₀.targets ∧ ending.Early ∧
          (x.successors m₀.reached.store e).run.run m₀.meter = (.error ending, m.meter)) ∨
        ending.Late ∧ ∃ out,
          ((x.successors m₀.reached.store e).run.run m₀.meter).1 = .ok out) := by
  rintro m rfl
  rw [run_expand he]
  refine Triple.bind (P := fun n => n = m)
    (R := fun out n => ((x.successors m.reached.store e).run.run m.meter).1 = .ok out ∧
      Machine.Meets (fun _ r _ => r.Sound) n) ?_ (fun out => .assume fun hout => ?_) m rfl
  · rintro m rfl
    rw [Stage.run_ofPhase]
    rcases hrun : (x.successors m.reached.store e).run.run m.meter with ⟨ending | out, meter⟩
    · exact .inl ⟨rfl, rfl, (successors_early _ e).error trivial hrun, rfl⟩
    · exact ⟨rfl, hsound⟩
  · exact .weaken (late_admission.triple out) (fun _ hm => hm) (fun _ _ _ => trivial)
      fun _ _ hm => .inr ⟨hm, out, hout⟩

theorem step_of_aborted (hsound : m.reached.Sound)
    (haborted : Aborted x m result ∨ result = .ok (.broken .iterationLimit))
    (hstep : x.step m = .ended result m') : Restored x m m' := by
  suffices (x.step m).Meets (fun _ => True)
      (fun result m' => Aborted x m result ∨ result = .ok (.broken .iterationLimit) →
        Restored x m m') by
    rw [hstep] at this
    exact this haborted
  clear haborted hstep
  refine step_rule (fun _ => .inl rfl) (fun _ _ => .inl rfl) (fun _ => .inl rfl)
    (fun _ _ _ => trivial) fun id r hpop => ?_
  have hr : r.Sound := hsound.pop hpop
  cases he : r.get? id with
  | none =>
    refine .weaken (expand_missing he) (fun _ hm => hm) (fun _ _ _ => trivial) ?_
    rintro _ m' ⟨err, rfl, -⟩ ((_ | _ | _ | ⟨hpop', he', -⟩) | hlimit)
    · cases hpop.symm.trans hpop'
      cases he.symm.trans he'
    · cases hlimit
  | some e =>
    refine .weaken (expand_ends hr he) (fun _ hm => hm) (fun _ _ _ => trivial) ?_
    rintro ending m' (⟨hreached, htargets, hearly, hrun⟩ | ⟨hlate, out, hout⟩)
    · have hback : (∀ c, ending ≠ .crashed c) → Restored x m (putBack id m') := by
        intro hcrash
        refine .inr ⟨id, r, e, ending, hpop, he, hrun, hcrash, ?_, htargets⟩
        show m'.reached.reschedule id = _
        rw [hreached]
        rfl
      rcases ending with ⟨status, again⟩ | err | c
      · obtain ⟨-, rfl⟩ := hearly
        exact fun _ => hback nofun
      · exact fun _ => hback nofun
      · exact fun haborted => nomatch haborted
    · rcases ending with ⟨status, again⟩ | err | c
      · obtain rfl : status = .targetFound := hlate
        cases again with
        | false => exact fun haborted => nomatch haborted
        | true => exact fun haborted => nomatch haborted
      · rintro ((_ | _ | _ | ⟨hpop', he', hfail⟩) | hlimit)
        · cases hpop.symm.trans hpop'
          cases he.symm.trans he'
          have hout : ((x.successors r.store e).run.run (popped m r).meter).1 = .ok out := hout
          rw [hfail] at hout
          cases hout
        · cases hlimit
      · exact fun haborted => nomatch haborted

/-- A run is exhausted only at its loop head, when nothing waits. -/
theorem step_of_exhausted (hm : m.reached.Sound) (hstep : x.step m = .ended (.ok .exhausted) m') :
    m' = m ∧ m.reached.hasWaiting = false := by
  suffices (x.step m).Meets (fun _ => True)
      (fun result m' => result = .ok .exhausted → m' = m ∧ m.reached.hasWaiting = false) by
    rw [hstep] at this
    exact this rfl
  refine step_rule nofun (fun hw _ => ⟨rfl, hw⟩) nofun (fun _ _ _ => trivial) fun id r hpop => ?_
  have hr : r.Sound := hm.pop hpop
  refine expand_rule (fun _ _ => nofun) fun e he => ?_
  refine .weaken (expand_ends hr he) (fun _ hm => hm) (fun _ _ _ => trivial) ?_
  rintro ending m' (⟨-, -, hearly, -⟩ | ⟨hlate, -⟩)
  · exact cut_of_inexhausted id (inexhausted_of_early hearly) m'
  · refine cut_of_inexhausted id ?_ m'
    rintro again rfl
    cases hlate

/-! ## Nothing moves -/

/-- The reached set and the targets are as they were, and the same entries wait. -/
structure Unmoved (m m' : Machine ν ρ ω θ) : Prop where
  program : m'.reached.program = m.reached.program
  store : m'.reached.store = m.reached.store
  targets : m'.targets = m.targets
  waiting : ∀ id, m'.reached.isWaiting id = m.reached.isWaiting id

theorem Restored.unmoved [Waitlist.Listed θ ν] (h : Restored x m m') : Unmoved m m' := by
  rcases h with rfl | ⟨id, r, e, ending, hpop, he, -, -, hreached, htargets⟩
  · exact ⟨rfl, rfl, rfl, fun _ => rfl⟩
  · refine ⟨?_, ?_, htargets, fun j => ?_⟩
    · rw [hreached, ReachedSet.reschedule_program, ReachedSet.pop_program hpop]
    · rw [hreached, ReachedSet.reschedule_store, ReachedSet.pop_store hpop]
    · rw [hreached, ReachedSet.isWaiting_reschedule_pop hpop he]

theorem Restored.reached_eq {m m' : Machine ν ρ ω SimpleWaitlist} (h : Restored x m m')
    (horder : m.reached.frontier.order = .depthFirst) (hnodup : m.reached.frontier.queue.Nodup) :
    m'.reached = m.reached := by
  rcases h with rfl | ⟨id, r, e, ending, hpop, he, -, -, hreached, -⟩
  · rfl
  · rw [hreached, ReachedSet.reschedule_pop horder hnodup hpop he]

/-- An iteration that is broken off leaves the entries, both indices, the targets and what waits as
they were; newest first, it leaves the order too. -/
theorem aborted_iteration_unmoved (x : Exploration ν ρ ω) :
    (∀ {θ : Type} [Waitlist θ ν] [Waitlist.Listed θ ν] (m m' : Machine ν ρ ω θ)
      (result : Except Failure Status), m.reached.Sound → Aborted x m result →
      x.step m = .ended result m' → Unmoved m m') ∧
    ∀ (m m' : Machine ν ρ ω SimpleWaitlist) (result : Except Failure Status), m.reached.Sound →
      m.reached.frontier.order = .depthFirst → m.reached.frontier.queue.Nodup →
      Aborted x m result → x.step m = .ended result m' → m'.reached = m.reached := by
  refine ⟨?_, ?_⟩
  · intro θ _ _ m m' result hsound haborted hstep
    exact (step_of_aborted hsound (.inl haborted) hstep).unmoved
  · intro m m' result hsound horder hnodup haborted hstep
    exact (step_of_aborted hsound (.inl haborted) hstep).reached_eq horder hnodup

/-- The step ends with the given status and a machine that has `p`. -/
def Next.endsWith (status : Status) (p : Machine ν ρ ω θ → Bool) : Next ν ρ ω θ → Bool
  | .ended (.ok last) m => decide (last = status) && p m
  | _ => false

omit [LeafValue ν] [Waitlist θ ν] in
theorem Next.exists_of_endsWith (next : Next ν ρ ω θ) (status : Status) (p : Machine ν ρ ω θ → Bool)
    (h : next.endsWith status p = true) : ∃ m, next = .ended (.ok status) m ∧ p m = true := by
  rcases next with _ | ⟨_ | last, m⟩
  · cases h
  · cases h
  · obtain ⟨hstatus, hm⟩ := Bool.and_eq_true_iff.1 h
    obtain rfl : last = status := of_decide_eq_true hstatus
    exact ⟨m, rfl, hm⟩

/-- The facts of the fork, where the adjustment of the second successor halts the exploration. -/
def haltingFork : Exploration FactValue Level Facts.Notes :=
  { forkFacts with
    analysis := Facts.analysis
      { merge := .join, adjust := some [⟨[.callIn [2]], { halts := true }⟩] } }

/-- An entry at the exit of the fork and one at its entry, both of which wait. -/
def haltingStart : Machine FactValue Level Facts.Notes SimpleWaitlist where
  meter := ⟨⟨⟨4⟩, .empty, ⟨0⟩, ⟨0⟩, ({}, .sep)⟩, {}⟩
  reached :=
    { program := fork
      store := (Store.empty.insert ⟨Facts.make {} ⟨0⟩ .empty none, .plain ⟨1⟩, ⟨1⟩, .whole⟩).insert
        ⟨Facts.make {} ⟨2⟩ .empty none, .plain ⟨3⟩, ⟨0⟩, .whole⟩
      frontier := ⟨.depthFirst, [⟨0⟩, ⟨1⟩]⟩ }
  targets := []

theorem made_haltingStart : haltingStart.reached.Made :=
  have hexit : (ReachedSet.ofFrontier fork (SimpleWaitlist.ofOrder .depthFirst)).add
      ⟨Facts.make {} ⟨0⟩ .empty none, .plain ⟨1⟩, ⟨1⟩, .whole⟩ =
      .ok (⟨0⟩, ⟨fork, _, ⟨.depthFirst, [⟨0⟩]⟩⟩) := rfl
  have hentry : ReachedSet.add ⟨fork, _, SimpleWaitlist.mk .depthFirst [⟨0⟩]⟩
      ⟨Facts.make {} ⟨2⟩ .empty none, .plain ⟨3⟩, ⟨0⟩, .whole⟩ =
      .ok (⟨1⟩, haltingStart.reached) := rfl
  .add (.add (.ofFrontier _ _) hexit) hentry

/-- Two successors were there, and one of them was adjusted, when the exploration was halted. -/
theorem halting_fork_unmoved : ∃ m',
    haltingFork.step haltingStart = .ended (.ok (.broken .adjustment)) m' ∧
      m'.meter.counters.successors = 2 ∧ Unmoved haltingStart m' ∧
      m'.reached = haltingStart.reached := by
  obtain ⟨m', hstep, hcount⟩ := Next.exists_of_endsWith (haltingFork.step haltingStart)
    (.broken .adjustment) (fun m => m.meter.counters.successors = 2) (by decide +kernel)
  exact ⟨m', hstep, of_decide_eq_true hcount,
    (aborted_iteration_unmoved haltingFork).1 _ _ _ made_haltingStart.sound .halted hstep,
    (aborted_iteration_unmoved haltingFork).2 _ _ _ made_haltingStart.sound rfl (by decide) .halted
      hstep⟩

end Exploration

end ProgramAnalysis
