import ProgramAnalysis.Proofs.Aborts
import ProgramAnalysis.Proofs.Closure
import ProgramAnalysis.Proofs.FactsPure
import ProgramAnalysis.Proofs.Moments
import ProgramAnalysis.Proofs.Twins
/-!
Runs that are cut short and resumed.

A run that meets its limit, or is cancelled, leaves a reached set from which a new run can go on.
Newest first, that set is the one the last complete iteration has left, queue included. So if the
analysis is pure, the pieces of a run that was cut short again and again follow, step by step, the
run that nobody interrupts, and in the end both have reached the same (`resumed_run_agrees`).
-/

namespace ProgramAnalysis.Exploration

variable {ν ρ ω : Type} [LeafValue ν] {x : Exploration ν ρ ω}

/-! ## Handles are not taken back -/

theorem Restored.rises {θ : Type} [Waitlist θ ν] (hf : x.analysis.Forward) {m m' : Machine ν ρ ω θ}
    (h : Restored x m m') : m.meter.world.next.serial ≤ m'.meter.world.next.serial := by
  have hrises : ∀ {ε α : Type} {y : ExceptT ε (Effect ω) α}, Keeps (fun _ => True) y →
      ProgramAnalysis.Steady (fun w => m.meter.world.next.serial ≤ w.next.serial) y := fun hy =>
    Triple.of_run (fun _ _ _ hw hrun => Nat.le_trans hw (hy.of_run trivial hrun).2)
      fun _ _ _ hw hrun => Nat.le_trans hw (hy.of_run trivial hrun).2
  have hsustains : x.analysis.Sustains fun w => m.meter.world.next.serial ≤ w.next.serial :=
    ⟨fun _ _ _ => hrises (hf.transfer _ _ _), fun _ _ _ => hrises (hf.adjust _ _ _),
      fun _ _ _ => hrises (hf.fallback _ _ _), fun _ _ _ => hrises (hf.merge _ _ _),
      fun _ _ _ => hrises (hf.stop _ _ _)⟩
  rcases h with rfl | ⟨id, r, e, ending, -, -, hrun, -, -, -⟩
  · exact Nat.le_refl _
  · exact ((successors_steady hsustains m r.store e).of_run (s := (popped m r).meter)
      ⟨Nat.le_refl _, rfl⟩ hrun).1

/-! ## What each side keeps -/

/-- Newest first, nothing waits twice, and no target was found. -/
structure Steady (r : ReachedSet ν ρ SimpleWaitlist) (t : List (State ν)) : Prop where
  sound : r.Sound
  order : r.frontier.order = .depthFirst
  nodup : r.frontier.queue.Nodup
  targets : t = []

namespace Steady

variable {r r' : ReachedSet ν ρ SimpleWaitlist} {t : List (State ν)}

omit [LeafValue ν] in
theorem remove (h : Steady r t) (id : EntryId) : Steady (r.remove id).2 t := by
  refine ⟨h.sound.remove id, ?_, ?_, h.targets⟩
  · unfold ReachedSet.remove
    split
    · exact h.order
    · exact h.order
  · unfold ReachedSet.remove
    split
    · exact h.nodup
    · exact h.nodup.filter _

theorem add (h : Steady r t) {e : Entry ν ρ} {id : EntryId} (hadd : r.add e = .ok (id, r')) :
    Steady r' t := by
  refine ⟨h.sound.add hadd, ?_, ?_, h.targets⟩
  · obtain ⟨-, -, -, rfl⟩ := ReachedSet.add_eq_ok hadd
    show (r.frontier.push r.store.nextId).order = _
    unfold SimpleWaitlist.push
    split
    · exact h.order
    · exact h.order
  · obtain ⟨-, -, -, rfl⟩ := ReachedSet.add_eq_ok hadd
    show (r.frontier.push r.store.nextId).queue.Nodup
    unfold SimpleWaitlist.push
    split
    · exact h.nodup
    · next hnew =>
      refine List.nodup_append.2 ⟨h.nodup, List.pairwise_singleton _ _, ?_⟩
      rintro a ha b hb rfl
      rw [List.mem_singleton.1 hb] at ha
      exact hnew (SimpleWaitlist.contains_iff.2 ha)

omit [LeafValue ν] in
theorem pop (h : Steady r t) {id : Option EntryId} (hpop : r.pop = (id, r')) : Steady r' t := by
  refine ⟨h.sound.pop hpop, ?_, ?_, h.targets⟩
  · obtain rfl : r' = r.pop.2 := by rw [hpop]
    show r.frontier.pop.2.order = _
    unfold SimpleWaitlist.pop
    rw [h.order]
  · obtain rfl : r' = r.pop.2 := by rw [hpop]
    show r.frontier.pop.2.queue.Nodup
    unfold SimpleWaitlist.pop
    rw [h.order]
    exact h.nodup.sublist (List.dropLast_sublist _)

end Steady

variable {m m' n : Machine ν ρ ω SimpleWaitlist} {result : Except Failure Status}

theorem steady_admission (htarget : ∀ s, x.isTarget s = false) {part : Partition} :
    Admission x part (fun _ _ r t => Steady r t) (fun _ _ _ _ => True) :=
  admission_of_invariant (fun _ _ h => h.sound) (fun _ _ id h => h.remove id)
    (fun _ _ _ _ _ h ha => h.add ha) (fun _ _ s _ _ hfound => by simp [htarget s] at hfound)
    (fun _ => trivial) fun _ => trivial

theorem step_steady (htarget : ∀ s, x.isTarget s = false) (hm : Steady m.reached m.targets)
    (hstep : x.step m = .again m') : Steady m'.reached m'.targets := by
  obtain ⟨-, ⟨r, hpop, rfl⟩ | ⟨id, r, hpop, hexpand⟩⟩ := step_eq_again hstep
  · exact hm.pop hpop
  · cases he : r.get? id with
    | none => exact ((expand_missing he).ok rfl hexpand).elim
    | some e =>
      have hr : Steady r m.targets := hm.pop hpop
      have he : (popped m r).reached.get? id = some e := he
      refine (expand_triple he (.of_run ?_ ?_) (steady_admission htarget)).ok rfl hexpand
      · exact fun _ _ _ _ _ => hr
      · exact fun _ _ _ _ _ => trivial

/-! ## Steps of two sides -/

/-- A run was cut short: by its limit or by a cancellation. -/
inductive CutShort : Except Failure Status → Prop where
  | limit : CutShort (.ok (.broken .iterationLimit))
  | cancelled : CutShort (.ok .interrupted)

/-- How a cancellation ends an expansion. -/
def Cancelled (ending : Ending) : Prop := ending = .done .interrupted true

/-- Newest first, a run that is cut short leaves the reached set of the last loop head. -/
theorem step_of_cutShort (hf : x.analysis.Forward) (hm : Steady m.reached m.targets)
    (hcut : CutShort result) (hstep : x.step m = .ended result m') :
    m'.reached = m.reached ∧ m.meter.world.next.serial ≤ m'.meter.world.next.serial := by
  have hrestored : Restored x m m' := by
    refine step_of_aborted hm.sound ?_ hstep
    cases hcut with
    | limit => exact .inr rfl
    | cancelled => exact .inl .interrupted
  exact ⟨hrestored.reached_eq hm.order hm.nodup, hrestored.rises hf⟩

variable {interned : Handle → Prop} {c : Pairing} {r r' : ReachedSet ν ρ SimpleWaitlist}
  {w : World ω}

/-- The sides do the same step, unless the second one is cut short. -/
theorem step_again_twin (options : RunOptions) (token : TokenId)
    (hpure : x.analysis.Pure interned Store.Matches) (htarget : ∀ s, x.isTarget s = false)
    (htwins : Bond.machines (Twins interned) c m n) (hstep : x.step m = .again m') :
    (∃ result n', (x.under options token).step n = .ended result n' ∧ CutShort result) ∨
      ∃ d n', (x.under options token).step n = .again n' ∧
        Bond.machines (Twins interned) d m' n' := by
  obtain ⟨hwaiting, ⟨r, hpop, -⟩ | ⟨id, r, hpop, hexpand⟩⟩ := step_eq_again hstep
  · exact absurd hpop (ReachedSet.pop_ne_none hwaiting)
  have hwaiting' : n.reached.hasWaiting = true := htwins.hasWaiting.symm.trans hwaiting
  obtain ⟨r', hpop', hpopped⟩ := htwins.pop hpop
  by_cases hcancelled : n.meter.world.tokens.isCancelled token = true
  · exact .inl ⟨_, n, step_of_cancelled hcancelled, .cancelled⟩
  have hcancelled : n.meter.world.tokens.isCancelled token = false := by simpa using hcancelled
  by_cases hlimit : (x.under options token).atLimit n = true
  · exact .inl ⟨_, n, step_of_limit hcancelled hwaiting' hlimit, .limit⟩
  have hlimit : (x.under options token).atLimit n = false := by simpa using hlimit
  rw [step_of_pop hcancelled hwaiting' hlimit hpop']
  have hnone : ∀ s more, x.isTarget s = true → Cancelled (.done .targetFound more) := by
    intro s more hs
    rw [htarget s] at hs
    cases hs
  have hstop : Cancelled (.done .interrupted true) := rfl
  have hexpand' : Paired Cancelled (Bond.machines (Twins interned)) c (x.expand id)
      ((x.under options token).expand id) fun _ _ _ => True :=
    expand_paired (twins_couples interned) hpure hstop hnone ((htwins.entries id id).2 rfl)
      (.inl rfl)
  have hpaired := hexpand' (popped m r) (popped n r') hpopped
  rw [hexpand] at hpaired
  replace hpaired := hpaired.resolve_left fun hstop => hstop
  revert hpaired
  rcases ((x.under options token).expand id).run.run (popped n r') with ⟨ending | _, n'⟩
  · rintro (rfl | ⟨d, -, -, ho⟩)
    · exact .inl ⟨_, _, rfl, .cancelled⟩
    · exact ho.elim
  · rintro (hstop | ⟨d, -, hd, -⟩)
    · exact hstop.elim
    · exact .inr ⟨d, n', rfl, hd⟩

/-- When the first side is exhausted, so is the second one, unless it is cut short. -/
theorem step_exhausted_twin (x : Exploration ν ρ ω) (options : RunOptions) (token : TokenId)
    (hn : Steady n.reached n.targets) (htwins : Bond.machines (Twins interned) c m n)
    (hwaiting : m.reached.hasWaiting = false) :
    (x.under options token).step n = .ended (.ok .interrupted) n ∨
      (x.under options token).step n = .ended (.ok .exhausted) n := by
  have hwaiting' : n.reached.hasWaiting = false := htwins.hasWaiting.symm.trans hwaiting
  by_cases hcancelled : n.meter.world.tokens.isCancelled token = true
  · exact .inl (step_of_cancelled hcancelled)
  · refine .inr ?_
    rw [step_of_finished (by simpa using hcancelled) hwaiting', hn.targets]
    rfl

/-! ## Runs that are cut short -/

/-- Wherever the run from `m` ends, the other side follows it there or is cut short before. -/
theorem follow (options : RunOptions) (token : TokenId)
    (hpure : x.analysis.Pure interned Store.Matches) (htarget : ∀ s, x.isTarget s = false)
    {P : Except Failure Status → Machine ν ρ ω SimpleWaitlist → Prop}
    (hP : ∀ result n', CutShort result → P result n') {fuel : Nat}
    (hrun : x.run fuel m = some (result, m')) (hresult : result = .ok .exhausted ∨ CutShort result)
    (done : result = .ok .exhausted → ∀ d n', Bond.machines (Twins interned) d m' n' →
      P (.ok .exhausted) n')
    (cut : CutShort result → ∀ d n', Bond.machines (Twins interned) d m' n' →
      Steady m'.reached [] → Steady n'.reached n'.targets → (x.under options token).Ends n' P)
    (hm : Steady m.reached m.targets) (hn : Steady n.reached n.targets)
    (htwins : Bond.machines (Twins interned) c m n) : (x.under options token).Ends n P := by
  induction fuel generalizing m n c with
  | zero => cases hrun
  | succ fuel ih =>
    unfold run at hrun
    split at hrun
    · next hstep =>
      cases hrun
      rcases hresult with rfl | hcut
      · obtain ⟨rfl, hwaiting⟩ := step_of_exhausted hm.sound hstep
        rcases step_exhausted_twin x options token hn htwins hwaiting with hend | hend
        · exact .ended hend (hP _ _ .cancelled)
        · exact .ended hend (done rfl c n htwins)
      · obtain ⟨hreached, hle⟩ := step_of_cutShort hpure.forward hm hcut hstep
        refine cut hcut c n ?_ ?_ hn
        · show Twins interned c m'.meter.world m'.reached n.meter.world n.reached
          rw [hreached]
          exact { htwins with spans := htwins.spans.later hle (Nat.le_refl _) }
        · rw [hreached, ← hm.targets]
          exact hm
    · next m₁ hstep =>
      rcases step_again_twin options token hpure htarget htwins hstep with
        ⟨result', n', hend, hcut⟩ | ⟨d, n', hagain, htwins'⟩
      · exact .ended hend (hP result' n' hcut)
      · exact .again hagain (ih hrun (step_steady htarget hm hstep)
          (step_steady (x := x.under options token) htarget hn hagain) htwins')

/-- Runs one after the other, each on the reached set that the last one has left, all but the last
one cut short. Each has its own options, token and counters, and other handles may have been drawn
in between. -/
inductive Resumed (x : Exploration ν ρ ω) : World ω → ReachedSet ν ρ SimpleWaitlist →
    ReachedSet ν ρ SimpleWaitlist → Prop where
  | finished {options token fuel w r m} :
      (x.under options token).run fuel ⟨⟨w, {}⟩, r, []⟩ = some (.ok .exhausted, m) →
      Resumed x w r m.reached
  | resumed {options token fuel} {w w' : World ω} {r r' result m} :
      (x.under options token).run fuel ⟨⟨w, {}⟩, r, []⟩ = some (result, m) → CutShort result →
      m.meter.world.next.serial ≤ w'.next.serial → Resumed x w' m.reached r' → Resumed x w r r'

theorem Resumed.follow (options : RunOptions) (token : TokenId)
    (hpure : x.analysis.Pure interned Store.Matches) (htarget : ∀ s, x.isTarget s = false)
    (h : Resumed x w r r') (hr : Steady r []) (hn : Steady n.reached n.targets)
    (htwins : Twins interned c w r n.meter.world n.reached) :
    (x.under options token).Ends n fun result n' => CutShort result ∨
      result = .ok .exhausted ∧ ∃ d w', Twins interned d w' r' n'.meter.world n'.reached := by
  induction h generalizing n c with
  | @finished options' token' fuel w r m hrun =>
    refine Exploration.follow (x := x.under options' token') options token hpure htarget
      (fun _ _ hcut => .inl hcut) hrun (.inl rfl) ?_ nofun hr hn htwins
    exact fun _ d n' htwins' => .inr ⟨rfl, d, _, htwins'⟩
  | @resumed options' token' fuel w w' r r' result m hrun hcut hle _ ih =>
    refine Exploration.follow (x := x.under options' token') options token hpure htarget
      (fun _ _ hcut => .inl hcut) hrun (.inr hcut) ?_ ?_ hr hn htwins
    · rintro rfl
      cases hcut
    · intro _ d n' htwins' hm hn'
      exact ih hm hn' { htwins' with spans := htwins'.spans.later hle (Nat.le_refl _) }

theorem Sown.steady {seeds : List (NodeId × Partition)} {w' : World ω} (h : Sown x seeds w r w' r')
    (hr : Steady r []) : Steady r' [] := by
  induction h with
  | nil w r => exact hr
  | cons hseed _ ih =>
    obtain ⟨s, p, w₁, -, -, hadd⟩ := seed_eq_ok.1 hseed
    exact ih (hr.add hadd)

/-- The reached sets are the same up to the names of handles. -/
structure Agree (T : Naming) (r r' : ReachedSet ν ρ SimpleWaitlist) : Prop where
  naming : T.OneToOne
  program : r.program = r'.program
  frontier : r.frontier = r'.frontier
  store : r.store.Matches T r'.store

/-- However often a run was cut short and resumed, newest first it ends with what a run without
interruption ends with: the same entries under the same numbers, up to the names of handles. -/
theorem resumed_run_agrees (x : Exploration ν ρ ω) (interned : Handle → Prop)
    (hpure : x.analysis.Pure interned Store.Matches) (htarget : ∀ s, x.isTarget s = false)
    (program : Program) (seeds : List (NodeId × Partition)) (w₀ w₀' w w' : World ω)
    (r r' last : ReachedSet ν ρ SimpleWaitlist)
    (hinterned : ∀ h, interned h → h.serial < w₀.next.serial)
    (hinterned' : ∀ h, interned h → h.serial < w₀'.next.serial)
    (hsown : Sown x seeds w₀ (.ofFrontier program (.ofOrder .depthFirst)) w r)
    (hsown' : Sown x seeds w₀' (.ofFrontier program (.ofOrder .depthFirst)) w' r')
    (hresumed : Resumed x w r last) (options : RunOptions) (token : TokenId) :
    (∃ fuel result m, (x.under options token).run fuel ⟨⟨w', {}⟩, r', []⟩ = some (result, m)) ∧
    ∀ fuel result m, (x.under options token).run fuel ⟨⟨w', {}⟩, r', []⟩ = some (result, m) →
      CutShort result ∨ result = .ok .exhausted ∧ ∃ T, Agree T last m.reached := by
  have hstart : Steady (.ofFrontier program (.ofOrder .depthFirst) : ReachedSet ν ρ _) [] :=
    ⟨ReachedSet.sound_ofFrontier _ _, rfl, .nil, rfl⟩
  obtain ⟨c, htwins⟩ := sown_paired (twins_couples interned) hpure (fun _ _ => trivial)
    (c := ⟨.ofInterned interned, Eq, fun _ => False⟩)
    ⟨Naming.spans_ofInterned hinterned hinterned', fun _ _ => Iff.rfl, rfl, rfl,
      Store.corresponds_empty _ _⟩ hsown hsown'
  have hends := hresumed.follow (n := ⟨⟨w', {}⟩, r', []⟩) options token hpure htarget
    (hsown.steady hstart) (hsown'.steady hstart) htwins
  refine ⟨?_, fun fuel result m hrun => ?_⟩
  · obtain ⟨fuel, result, m, hrun, -⟩ := hends
    exact ⟨fuel, result, m, hrun⟩
  · rcases hends.of_run hrun with hcut | ⟨hresult, d, w₁, h⟩
    · exact .inl hcut
    · exact .inr ⟨hresult, d.handles, h.spans.toOneToOne, h.program, h.frontier, h.store⟩

/-! ## A loop that is cut short twice -/

/-- Runs with the given options, one after the other and with new tokens each time; all but the last
have to be cut short. -/
def rerun (x : Exploration ν ρ ω) (tokens : Tokens) (fuel : Nat) : List RunOptions → World ω →
    ReachedSet ν ρ SimpleWaitlist → Option (ReachedSet ν ρ SimpleWaitlist)
  | [], _, _ => none
  | options :: rest, w, r =>
    match (x.under options x.token).run fuel ⟨⟨w, {}⟩, r, []⟩ with
    | some (.ok .exhausted, m) => if rest.isEmpty then some m.reached else none
    | some (.ok .interrupted, m) =>
      rerun x tokens fuel rest { m.meter.world with tokens := tokens } m.reached
    | some (.ok (.broken .iterationLimit), m) =>
      rerun x tokens fuel rest { m.meter.world with tokens := tokens } m.reached
    | _ => none

theorem resumed_of_rerun {tokens : Tokens} {fuel : Nat} {all : List RunOptions}
    {last : ReachedSet ν ρ SimpleWaitlist} (h : x.rerun tokens fuel all w r = some last) :
    Resumed x w r last := by
  induction all generalizing w r with
  | nil => cases h
  | cons options rest ih =>
    unfold rerun at h
    split at h
    · next hrun =>
      split at h
      · cases h
        exact .finished hrun
      · cases h
    · next hrun =>
      refine .resumed hrun .cancelled ?_ (ih h)
      exact Nat.le_refl _
    · next hrun =>
      refine .resumed hrun .limit ?_ (ih h)
      exact Nat.le_refl _
    · cases h

/-- The facts of the loop; the first transfer of all cancels the session. -/
def cancelledLoop : Exploration FactValue Level Facts.Notes :=
  { loopFacts with
    analysis := Facts.analysis
      { merge := .join, transfer := [⟨[.callIn [1]], { cancels := true }⟩] } }

/-- A world with one token, in which handles are drawn from `n` on and the transfer was called some
times before. -/
def loopWorld (n calls : Nat) : World Facts.Notes :=
  ⟨⟨n⟩, Tokens.empty.create.2, ⟨0⟩, ⟨0⟩, ({ transfer := calls }, .sep)⟩

def loopSeed (w : World Facts.Notes) : Except Failure EntryId × World Facts.Notes ×
    ReachedSet FactValue Level SimpleWaitlist :=
  cancelledLoop.seed ⟨0⟩ .whole w (.ofFrontier loop (.ofOrder .depthFirst))

theorem pure_cancelledLoop : cancelledLoop.analysis.Pure (fun _ => False) Store.Matches := by
  refine Facts.analysis_pure ?_ rfl rfl rfl rfl _ _
  intro rule hrule
  rw [List.mem_singleton.1 hrule]
  exact ⟨rfl, rfl⟩

/-- The first run is cancelled between the two edges of the entry and the second one ends at its
limit; the third one comes to what a run from other handles comes to at once. -/
theorem cancelled_loop_agrees : ∃ last m T,
    cancelledLoop.rerun Tokens.empty.create.2 10 [{}, { maxIterations := some 1 }, {}]
      (loopSeed (loopWorld 0 0)).2.1 (loopSeed (loopWorld 0 0)).2.2 = some last ∧
    cancelledLoop.run 10
      ⟨⟨(loopSeed (loopWorld 7 1)).2.1, {}⟩, (loopSeed (loopWorld 7 1)).2.2, []⟩ =
      some (.ok .exhausted, m) ∧
    last.store.size = 2 ∧ Agree T last m.reached := by
  have hsown : ∀ n calls, Sown cancelledLoop [(⟨0⟩, .whole)] (loopWorld n calls)
      (.ofFrontier loop (.ofOrder .depthFirst)) (loopSeed (loopWorld n calls)).2.1
      (loopSeed (loopWorld n calls)).2.2 := fun n calls =>
    have hseed : loopSeed (loopWorld n calls) = (.ok ⟨0⟩, _, _) := rfl
    .cons hseed (.nil _ _)
  obtain ⟨last, hlast, hsize⟩ := (Option.any_eq_true _ _).1 (show
    (cancelledLoop.rerun Tokens.empty.create.2 10 [{}, { maxIterations := some 1 }, {}]
      (loopSeed (loopWorld 0 0)).2.1 (loopSeed (loopWorld 0 0)).2.2).any
      (fun last => last.store.size = 2) = true by decide +kernel)
  obtain ⟨m, hrun, -⟩ := exhausted_of_any (cancelledLoop.run 10
    ⟨⟨(loopSeed (loopWorld 7 1)).2.1, {}⟩, (loopSeed (loopWorld 7 1)).2.2, []⟩) (fun _ => true)
    (by decide +kernel)
  have hagree := (resumed_run_agrees cancelledLoop (fun _ => False) pure_cancelledLoop
    (fun _ => rfl) loop [(⟨0⟩, .whole)] (loopWorld 0 0) (loopWorld 7 1) _ _ _ _ last nofun nofun
    (hsown 0 0) (hsown 7 1) (resumed_of_rerun hlast) {} ⟨0⟩).2 10 _ m hrun
  rcases hagree with hcut | ⟨-, T, hT⟩
  · cases hcut
  · exact ⟨last, m, T, hlast, hrun, of_decide_eq_true hsize, hT⟩

end ProgramAnalysis.Exploration
