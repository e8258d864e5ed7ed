import ProgramAnalysis.Proofs.Schedules
/-!
An analysis that joins keeps one state per place.

Nothing is asked of the transfer, the adjustment and the frontier, and of a join only that it lies
above its first argument. A new state meets at most one entry at its place. If the entry lies above
it, the state is covered. Otherwise the join is another state than the entry, since it lies above
the new one; the entry is removed, and either the join takes its place and covers the new state, or
the join is known elsewhere and the place is free. So a state is only ever added at a free place.

A join that is the entry itself is recognised by its handle. This is why handles have to be drawn
before they are used (`Analysis.Issuing`), which an interned or a cached state fulfils as well.
-/

namespace ProgramAnalysis

variable {ν ρ ω θ : Type}

/-! ## Handles -/

/-- A join lies above its first argument. If it has the handle of the second argument, which was
drawn before, it is that argument. -/
structure Domain.BoundsNew (d : Domain ν) : Prop where
  upper : ∀ s r m h h', (d.join s r).run.run h = (.ok m, h') → d.Le s m
  identity : ∀ s r m h h', (d.join s r).run.run h = (.ok m, h') → r.handle.serial < h.serial →
    m.handle = r.handle → m = r

theorem Domain.Bounding.boundsNew {d : Domain ν} (h : d.Bounding) : d.BoundsNew where
  upper := h.upper
  identity s r m n n' hrun hr hsame := by
    rcases h.fresh s r m n n' hrun with hm | ⟨hge, -⟩
    · exact hm
    · rw [hsame] at hge
      omega

/-- In a valid world, the states that an operator gives have handles that were drawn, if the states
that it is given have. -/
structure Analysis.Issuing (a : Analysis ν ρ ω) (valid : World ω → Prop) : Prop where
  transfer_keeps : ∀ s p g, Keeps valid (a.transfer.successors s [] p g)
  transfer_issued : ∀ s p g w next w', valid w → s.handle.serial < w.next.serial →
    (a.transfer.successors s [] p g).run.run w = (.ok next, w') →
    ∀ t ∈ next, t.handle.serial < w'.next.serial
  adjust_keeps : ∀ s p store, Keeps valid (a.adjuster.adjust s p ⟨store, id, s⟩)
  adjust_issued : ∀ s p store w b w', valid w → s.handle.serial < w.next.serial →
    (∀ i (e : Entry ν ρ), store.get? i = some e → e.state.handle.serial < w.next.serial) →
    (a.adjuster.adjust s p ⟨store, id, s⟩).run.run w = (.ok (some b), w') →
    b.state.handle.serial < w'.next.serial
  fallback_keeps : ∀ s p err, Keeps valid (a.adjuster.fallback s p err)
  fallback_issued : ∀ s p err w b w', valid w → s.handle.serial < w.next.serial →
    (a.adjuster.fallback s p err).run.run w = (.ok (some b), w') →
    b.state.handle.serial < w'.next.serial
  merge_keeps : ∀ s r p, Keeps valid (a.merger.merge s r p)
  merge_issued : ∀ s r p w m w', valid w → s.handle.serial < w.next.serial →
    r.handle.serial < w.next.serial → (a.merger.merge s r p).run.run w = (.ok m, w') →
    m.handle.serial < w'.next.serial
  stop_keeps : ∀ s rs p, Keeps valid (a.stopper.stop s rs p)

theorem Analysis.Lawful.issuing {a : Analysis ν ρ ω} {order : StateOrder ν}
    {valid : World ω → Prop} (h : a.Lawful order valid) : a.Issuing valid where
  transfer_keeps := h.transfer_keeps
  transfer_issued s p g w next w' hw _ hrun t ht :=
    ((h.transfer_fresh s p g w next w' hw hrun).2 t ht).2
  adjust_keeps := h.adjust_keeps
  adjust_issued s p store w b w' hw hs _ hrun := by
    have hle := ((h.adjust_keeps s p store).of_run hw hrun).2
    rcases h.adjust_fresh s p store w b w' hw hrun with hsame | hdrew
    · rw [hsame]
      exact Nat.lt_of_lt_of_le hs hle
    · exact hdrew.2
  fallback_keeps := h.fallback_keeps
  fallback_issued s p err w b w' hw hs hrun := by
    have hle := ((h.fallback_keeps s p err).of_run hw hrun).2
    rcases h.fallback_fresh s p err w b w' hw hrun with hsame | hdrew
    · rw [hsame]
      exact Nat.lt_of_lt_of_le hs hle
    · exact hdrew.2
  merge_keeps := h.merge_keeps
  merge_issued s r p w m w' hw _ hr hrun := by
    have hle := ((h.merge_keeps s r p).of_run hw hrun).2
    rcases h.merge_fresh s r p w m w' hw hrun with hsame | hdrew
    · rw [hsame]
      exact Nat.lt_of_lt_of_le hr hle
    · exact hdrew.2
  stop_keeps := h.stop_keeps

namespace Exploration

/-! ## The invariant -/

section

variable {x : Exploration ν ρ ω} {valid : World ω → Prop} {w w' : World ω} {r r' : ReachedSet ν ρ θ}
  {e : Entry ν ρ} {id : EntryId} {todo : Successors ν ρ}

theorem Single.of_store (h : Single r) (hs : r'.store = r.store) : Single r' := by
  intro i j e f he hf
  rw [ReachedSet.get?, hs] at he hf
  exact h i j e f he hf

/-- What holds at each visit of the loop head: the set has one entry at a place at most, and handles
that were drawn. -/
structure Sole (valid : World ω → Prop) (w : World ω) (r : ReachedSet ν ρ θ) : Prop where
  world : valid w
  sound : r.Sound
  below : Below r w
  single : Single r

theorem Sole.later (h : Sole valid w r) (hw : valid w') (hle : w.next.serial ≤ w'.next.serial) :
    Sole valid w' r :=
  ⟨hw, h.sound, h.below.later hle, h.single⟩

theorem Sole.of_store (h : Sole valid w r) (hs : r'.store = r.store)
    (hp : r'.program = r.program) : Sole valid w r' := by
  refine ⟨h.world, h.sound.of_store hs hp, fun j f hf => ?_, h.single.of_store hs⟩
  rw [ReachedSet.get?, hs] at hf
  exact h.below j f hf

/-- The state of an expansion, when `todo` is still to be admitted. -/
structure Sorting (valid : World ω → Prop) (todo : Successors ν ρ) (w : World ω)
    (r : ReachedSet ν ρ θ) : Prop extends Sole valid w r where
  drawn : ∀ q ∈ todo, q.1.state.handle.serial < w.next.serial

theorem Sorting.later (h : Sorting valid todo w r)
    (hkeeps : valid w' ∧ w.next.serial ≤ w'.next.serial) : Sorting valid todo w' r :=
  ⟨h.toSole.later hkeeps.1 hkeeps.2, fun q hq => Nat.lt_of_lt_of_le (h.drawn q hq) hkeeps.2⟩

theorem Sorting.tail {q : Adjustment ν ρ × NodeId} (h : Sorting valid (q :: todo) w r) :
    Sorting valid todo w r :=
  ⟨h.toSole, fun p hp => h.drawn p (List.mem_cons_of_mem q hp)⟩

/-- The handles of the adjusted successors were drawn. -/
theorem passes_issued (issuing : x.analysis.Issuing valid) (hsole : Sole valid w r)
    (he : r.get? id = some e) :
    Passes x r.store e w (fun w₁ w₂ => valid w₁ → valid w₂ ∧ w₁.next.serial ≤ w₂.next.serial)
      (fun s w₁ => Sole valid w₁ r ∧ s.handle.serial < w₁.next.serial) where
  refl w₁ h := ⟨h, Nat.le_refl _⟩
  trans w₁ w₂ w₃ h h' hw :=
    ⟨(h' (h hw).1).1, Nat.le_trans (h hw).2 (h' (h hw).1).2⟩
  stays s w₁ w₂ h hL := by
    obtain ⟨hw, hle⟩ := hL h.1.world
    exact ⟨h.1.later hw hle, Nat.lt_of_lt_of_le h.2 hle⟩
  transfer g _ w₁ answer w₂ hL hrun := by
    obtain ⟨hw₁, hle⟩ := hL hsole.world
    have hkeeps := (issuing.transfer_keeps e.state e.precision g).of_run hw₁ hrun
    refine ⟨fun _ => hkeeps, ?_⟩
    rintro next rfl s hs
    refine ⟨(hsole.later hw₁ hle).later hkeeps.1 hkeeps.2, ?_⟩
    exact issuing.transfer_issued _ _ g w₁ next w₂ hw₁
      (Nat.lt_of_lt_of_le (hsole.below id e he) hle) hrun s hs
  adjust s w₁ answer w₂ hrun := by
    have hkeeps := fun hw => (issuing.adjust_keeps s e.precision r.store).of_run hw hrun
    refine ⟨hkeeps, ?_⟩
    rintro b rfl ⟨h, hs⟩
    obtain ⟨hw, hle⟩ := hkeeps h.world
    exact ⟨h.later hw hle, issuing.adjust_issued s _ r.store w₁ b w₂ h.world hs h.below hrun⟩
  fallback s err w₁ answer w₂ hrun := by
    have hkeeps := fun hw => (issuing.fallback_keeps s e.precision err).of_run hw hrun
    refine ⟨hkeeps, ?_⟩
    rintro b rfl ⟨h, hs⟩
    obtain ⟨hw, hle⟩ := hkeeps h.world
    exact ⟨h.later hw hle, issuing.fallback_issued s _ err w₁ b w₂ h.world hs hrun⟩

end

variable [LeafValue ν] [Waitlist θ ν] {x : Exploration ν ρ ω} {valid : World ω → Prop}
  {w w' : World ω} {r r' : ReachedSet ν ρ θ} {e : Entry ν ρ} {id : EntryId}

theorem Sole.add (h : Sole valid w r) (ha : r.add e = .ok (id, r'))
    (hvacant : ∀ j f, r.get? j = some f → f.place ≠ e.place)
    (hdrawn : e.state.handle.serial < w.next.serial) : Sole valid w r' :=
  ⟨h.world, h.sound.add ha, h.below.add ha hdrawn, h.single.add ha hvacant⟩

omit [LeafValue ν] in
theorem Sole.remove (h : Sole valid w r) (id : EntryId) : Sole valid w (r.remove id).2 :=
  ⟨h.world, h.sound.remove id, h.below.remove id, h.single.remove id⟩

/-! ## One expansion -/

section

variable (joining : x.analysis.Joining) (bounds : x.analysis.domain.BoundsNew)

include joining bounds

/-- A merge that answers gives back an entry above the new state, or a state above it that is
another one than the entry. -/
theorem merge_above {s t m : State ν} {p : Precision ρ} (ht : t.handle.serial < w.next.serial)
    (hrun : (x.analysis.merger.merge s t p).run.run w = (.ok m, w')) :
    x.analysis.domain.Le s m ∧ (m.handle = t.handle → m = t) := by
  rcases Domain.joinInto_eq_ok (joining.joined hrun) with ⟨hle, rfl, -⟩ | ⟨-, -, hjoin⟩
  · exact ⟨hle, fun _ => rfl⟩
  · exact ⟨bounds.upper s t m _ _ hjoin, bounds.identity s t m _ _ hjoin ht⟩

variable (issuing : x.analysis.Issuing valid)

include issuing

/-- While the entries at the place are merged, those that are left lie above the new state. -/
theorem sorting_pass (part : Partition) (a : Adjustment ν ρ) (l : NodeId)
    (todo : Successors ν ρ) :
    MergePass x a.state a.precision ⟨l, part⟩
      (fun ids w (r : ReachedSet ν ρ θ) _ => Sorting valid ((a, l) :: todo) w r ∧
        Passed x.analysis.domain a.state ⟨l, part⟩ ids r)
      (fun ending _ r _ => (∀ c, ending ≠ .crashed c) → Single r) where
  sound ids w r t h := h.1.sound
  gone id ids w r t h hnone := by
    refine ⟨h.1, fun j f hf hplace => ?_⟩
    refine (h.2 j f hf hplace).imp_left fun hmem => (List.mem_cons.1 hmem).resolve_left ?_
    rintro rfl
    rw [hnone] at hf
    cases hf
  same id ids w r t e merged w' h he hplace hrun hsame := by
    obtain ⟨hle, hsame'⟩ := merge_above joining bounds (h.1.below id e he) hrun
    obtain rfl : merged = e.state := hsame' hsame
    refine ⟨h.1.later ((issuing.merge_keeps _ _ _).of_run h.1.world hrun), fun j f hf hfp => ?_⟩
    rcases h.2 j f hf hfp with hmem | habove
    · rcases List.mem_cons.1 hmem with rfl | hmem
      · cases he.symm.trans hf
        exact .inr hle
      · exact .inl hmem
    · exact .inr habove
  replaced id ids w r t e merged w' i r' h he hplace hrun hne hadd := by
    -- The entry was the only one at its place, so the merged state is added at a free one.
    obtain ⟨hle, -⟩ := merge_above joining bounds (h.1.below id e he) hrun
    have hlater := h.1.later ((issuing.merge_keeps _ _ _).of_run h.1.world hrun)
    have hdrawn := issuing.merge_issued _ _ _ w merged w' h.1.world
      (h.1.drawn (a, l) List.mem_cons_self) (h.1.below id e he) hrun
    have hvacant : ∀ j f, (r.remove id).2.get? j = some f → f.place ≠ ⟨l, part⟩ :=
      hplace ▸ h.1.single.vacant he
    refine ⟨⟨(hlater.toSole.remove id).add hadd hvacant hdrawn, hlater.drawn⟩, fun j f hf hfp => ?_⟩
    rcases ReachedSet.new_or_old_of_add hadd hf with ⟨-, rfl⟩ | hf
    · exact .inr hle
    · exact absurd hfp (hvacant j f hf)
  vanished id ids w r t e merged w' h he hplace hrun hne hc := by
    have hlater := h.1.later ((issuing.merge_keeps _ _ _).of_run h.1.world hrun)
    have hvacant : ∀ j f, (r.remove id).2.get? j = some f → f.place ≠ ⟨l, part⟩ :=
      hplace ▸ h.1.single.vacant he
    exact ⟨⟨hlater.toSole.remove id, hlater.drawn⟩, fun j f hf hfp => absurd hfp (hvacant j f hf)⟩
  failed id ids w r t e err w' h he hplace hrun _ := h.1.single
  crashed c w r t hno := absurd rfl (hno c)

/-- A state that is not covered after the pass finds its place free. -/
theorem sorting_intake (part : Partition) :
    Intake x part (fun todo w (r : ReachedSet ν ρ θ) _ => Sorting valid todo w r)
      (fun a l todo ids w r _ => Sorting valid ((a, l) :: todo) w r ∧
        Passed x.analysis.domain a.state ⟨l, part⟩ ids r)
      (fun ending _ r _ => (∀ c, ending ≠ .crashed c) → Single r) where
  apart a l todo hsep := by
    rw [joining.isSep] at hsep
    cases hsep
  start a l todo _ w r t h := by
    refine ⟨h, fun id e he hplace => .inl ?_⟩
    exact (h.sound.store.places ⟨l, part⟩ id).2 ⟨e, he, hplace⟩
  pass a l todo _ := sorting_pass joining bounds issuing part a l todo
  covered a l todo w r t w' h hrun :=
    h.1.tail.later ((issuing.stop_keeps _ _ _).of_run h.1.world hrun)
  known a l todo w r t w' h hrun _ :=
    h.1.tail.later ((issuing.stop_keeps _ _ _).of_run h.1.world hrun)
  added a l todo w r t w' id r' h hrun hadd _ := by
    have hlater := h.1.later ((issuing.stop_keeps _ _ _).of_run h.1.world hrun)
    have hvacant := h.2.vacant h.1.sound (joining.stopped hrun).1
    have hdrawn := hlater.drawn (a, l) List.mem_cons_self
    exact ⟨hlater.toSole.add hadd hvacant hdrawn, hlater.tail.drawn⟩
  found a l todo w r t w' id r' h hrun hadd _ := by
    have hlater := h.1.later ((issuing.stop_keeps _ _ _).of_run h.1.world hrun)
    have hvacant := h.2.vacant h.1.sound (joining.stopped hrun).1
    have hdrawn := hlater.drawn (a, l) List.mem_cons_self
    have hsole := hlater.toSole.add hadd hvacant hdrawn
    exact ⟨⟨hsole, hlater.tail.drawn⟩, fun _ => hsole.single⟩
  refused a l todo w r t w' err h _ _ _ := h.1.single
  failed a l todo w r t err w' h _ _ := h.1.single
  crashed _ _ _ _ _ _ c _ _ _ hno := absurd rfl (hno c)

/-! ## Whole runs -/

/-- One step keeps the invariant, and so does every way in which it ends but a crash. -/
theorem Sole.step {m : Machine ν ρ ω θ} (h : Sole valid m.meter.world m.reached) :
    (x.step m).Meets (fun m' => Sole valid m'.meter.world m'.reached)
      fun result m' => (∀ c, result ≠ .error (.crash c)) → Single m'.reached := by
  have hpop : ∀ next r, m.reached.pop = (next, r) → Sole valid m.meter.world r := by
    intro next r hpop
    obtain rfl : r = m.reached.pop.2 := by rw [hpop]
    exact h.of_store rfl rfl
  refine step_rule (fun _ => h.single) (fun _ _ => h.single) (fun _ => h.single)
    (fun _ => hpop none) fun id r hr => ?_
  have hsole : Sole valid (popped m r).meter.world r := hpop (some id) r hr
  have hend : ∀ ending (m' : Machine ν ρ ω θ),
      ((∀ c, ending ≠ .crashed c) → Single m'.reached) →
      Cut (fun result m' => (∀ c, result ≠ .error (.crash c)) → Single m'.reached) id ending
        m' := by
    intro ending m' hm'
    rcases ending with ⟨status, _ | _⟩ | err | c
    · exact fun _ => hm' (by simp)
    · exact fun _ => (hm' (by simp)).of_store (m'.reached.reschedule_store id)
    · exact fun _ => (hm' (by simp)).of_store (m'.reached.reschedule_store id)
    · exact fun hno => absurd rfl (hno c)
  refine expand_rule (fun _ _ => hend _ _ fun _ => hsole.single) fun e he => ?_
  refine .weaken (expand_intake he (.of_run ?_ ?_)
    (sorting_intake joining bounds issuing e.partition)) (fun _ h => h) ?_ ?_
  · rintro _ out n rfl hrun
    obtain ⟨hkeeps, hdrawn⟩ := (passes_issued issuing hsole he).triple.ok rfl hrun
    obtain ⟨hw, hle⟩ := hkeeps hsole.world
    exact ⟨hsole.later hw hle, fun q hq => (hdrawn q hq).2⟩
  · rintro _ ending n rfl _ _
    exact hsole.single
  · exact fun _ _ hm => hm.toSole
  · exact fun ending m' hm => hend ending m' hm

end

/-- Under an analysis that joins, with joins above their first argument, a run from a set with at
most one entry at each place has such a set at every visit of the loop head and at its end. -/
theorem join_keeps_one_state_per_place (joining : x.analysis.Joining)
    (bounds : x.analysis.domain.BoundsNew) (issuing : x.analysis.Issuing valid)
    {m₀ : Machine ν ρ ω θ} (sound : m₀.reached.Sound) (world : valid m₀.meter.world)
    (below : Below m₀.reached m₀.meter.world) (single : Single m₀.reached) :
    (∀ m, Visits x m₀ m → Single m.reached) ∧
    ∀ fuel result m, x.run fuel m₀ = some (result, m) → (∀ c, result ≠ .error (.crash c)) →
      Single m.reached := by
  have hstep : ∀ m : Machine ν ρ ω θ, Visits x m₀ m → Sole valid m.meter.world m.reached →
      (x.step m).Meets (fun m' => Sole valid m'.meter.world m'.reached)
        fun result m' => (∀ c, result ≠ .error (.crash c)) → Single m'.reached :=
    fun m _ h => h.step joining bounds issuing
  have start : Sole valid m₀.meter.world m₀.reached := ⟨world, sound, below, single⟩
  exact ⟨fun m hm => (hm.invariant hstep start).single,
    fun fuel result m hrun hno => run_rule hstep start hrun hno⟩

/-- Round the loop the entry is replaced by its join with the successor twice, and it always is the
only one at its place. -/
theorem loop_keeps_one_state_per_place :
    (loopFacts.run 10 loopStart).map (fun p => (p.1.toOption, p.2.meter.counters.merges)) =
      some (some .exhausted, 2) ∧
    Below loopStart.reached loopStart.meter.world ∧ Single loopStart.reached ∧
    (∀ m, Visits loopFacts loopStart m → Single m.reached) ∧
    ∀ fuel result m, loopFacts.run fuel loopStart = some (result, m) →
      (∀ c, result ≠ .error (.crash c)) → Single m.reached := by
  have hbelow : Below loopStart.reached loopStart.meter.world := by
    intro id e he
    rw [(eq_of_loopStart he).2]
    decide
  have hsingle : Single loopStart.reached := by
    intro i j e f he hf _
    rw [(eq_of_loopStart he).1, (eq_of_loopStart hf).1]
  have hadd : (ReachedSet.ofFrontier loop (SimpleWaitlist.ofOrder .breadthFirst)).add loopEntry =
      .ok (⟨0⟩, loopStart.reached) := rfl
  have hmade : loopStart.reached.Made := .add (.ofFrontier _ _) hadd
  have lawful : loopFacts.analysis.Lawful Facts.inclusion fun _ => True :=
    Facts.lawful rfl rfl rfl rfl rfl
  have bounding : loopFacts.analysis.domain.Bounding := Facts.bounding rfl rfl
  exact ⟨by decide +kernel, hbelow, hsingle, join_keeps_one_state_per_place (Facts.joining rfl rfl)
    bounding.boundsNew lawful.issuing hmade.sound trivial hbelow hsingle⟩

end Exploration

end ProgramAnalysis
