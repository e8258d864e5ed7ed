import ProgramAnalysis.Proofs.ExactRecording
/-!
The reachability graph mirrors the reached set.

Along a course whose initial states are all found, and whose states lie within the program, the
entries of the reached set correspond one to one to the live nodes that are not covered, and the
node of an entry records the very state of the entry (`graph_mirrors_reached`). The graph and the
reached set are changed one after the other, by different parts of an exploration; what holds
between these changes is that a successor which waits has a location of the program and a handle of
its own, so that no addition is refused after its node was accepted.
-/

namespace ProgramAnalysis

variable {ν ρ ω θ : Type}

namespace ReachGraph

/-! ## Mirrors -/

def Pending (g : ReachGraph ν) (i : GraphNodeId) : Prop := g.At i fun n => n.status = .pending

/-- The entries and the live nodes that are not covered correspond one to one. -/
structure Mirrors (g : ReachGraph ν) (r : ReachedSet ν ρ θ) : Prop where
  /-- The node of an entry is live, not covered, and records the state of the entry. -/
  stands : ∀ k e, r.get? k = some e → ∃ i, e.state.graphNode? = some i ∧ g.Stands i e.state
  injective : ∀ k k' e e', r.get? k = some e → r.get? k' = some e' →
    e.state.graphNode? = e'.state.graphNode? → k = k'
  onto : ∀ i, g.Live i → (∀ q, ¬ g.CoveredBy i q) →
    ∃ k e, r.get? k = some e ∧ e.state.graphNode? = some i
  /-- The states of other nodes are not in the set. -/
  hidden : ∀ i s, g.Holds i s → (∃ q, g.CoveredBy i q) ∨ g.Pending i → r.store.contains s = false

variable {g : ReachGraph ν} {r : ReachedSet ν ρ θ}

/-- The entry that the state of a live node finds is the one that has this node. -/
theorem Mirrors.entryOf_eq_some_iff (h : g.Mirrors r) (hr : r.Sound) {i : GraphNodeId}
    (hi : g.Live i) {k : EntryId} :
    g.entryOf r i = some k ↔ ∃ e, r.get? k = some e ∧ e.state.graphNode? = some i := by
  rw [ReachGraph.entryOf_eq_some_iff hr]
  constructor
  · rintro ⟨s, e, hs, he, hhandle⟩
    refine ⟨e, he, ?_⟩
    -- A covered node would have its state in the set.
    have huncovered : ∀ q, ¬ g.CoveredBy i q := by
      intro q hq
      have hout := h.hidden i s hs (.inl ⟨q, hq⟩)
      rw [hr.store.contains_iff.2 ⟨k, e, he, hhandle⟩] at hout
      cases hout
    obtain ⟨k', e', he', hi'⟩ := h.onto i hi huncovered
    obtain ⟨j, hj, hstands⟩ := h.stands k' e' he'
    obtain rfl : i = j := Option.some.inj (hi'.symm.trans hj)
    have hsame : e'.state.handle = e.state.handle := by
      rw [hstands.holds.unique hs, hhandle]
    obtain rfl : k' = k := hr.store.eq_of_handle he' he hsame
    obtain rfl : e' = e := Option.some.inj (he'.symm.trans he)
    exact hi'
  · rintro ⟨e, he, hnode⟩
    obtain ⟨j, hj, hstands⟩ := h.stands k e he
    obtain rfl : i = j := Option.some.inj (hnode.symm.trans hj)
    exact ⟨e.state, e, hstands.holds, he, rfl⟩

end ReachGraph

namespace Recorder

open ReachGraph

/-! ## Locations -/

section Sited

variable [LeafValue ν] {program : Program} {s : State ν}

theorem locatedIn_unwrapped : (unwrapped s).LocatedIn program ↔ s.LocatedIn program := by
  cases s <;> exact Iff.rfl

/-- The location that a state is put at belongs to the program. -/
theorem contains_getD {l : NodeId} (hs : s.LocatedIn program) (hl : program.contains l = true) :
    program.contains (s.location?.getD l) = true := by
  cases hloc : s.location? with
  | none => exact hl
  | some l' => exact hs l' hloc

/-- A state that was put at its own location is a state of the program. -/
theorem locatedIn_of_contains {l : NodeId} (hl : program.contains (s.location?.getD l) = true) :
    s.LocatedIn program := by
  intro l' hl'
  rwa [hl'] at hl

/-- The reached set is one of the program, and all states are states of the program. -/
structure Scene.Sited (program : Program) (c : Scene ν ρ θ) : Prop where
  home : c.reached.program = program
  entry : ∀ k e, c.reached.get? k = some e → e.state.LocatedIn program
  waiting : ∀ q ∈ c.batch, q.1.LocatedIn program ∧ program.contains q.2 = true

variable {c c' : Scene ν ρ θ} {next : Handle} {g : ReachGraph ν} {batch : Batch ν}

/-- A change of the states that wait. -/
theorem Scene.Sited.rebatch (h : c.Sited program)
    (hbatch : ∀ q ∈ batch, q ∈ c.batch ∨ q.1.LocatedIn program ∧ program.contains q.2 = true) :
    (⟨g, next, batch, c.reached⟩ : Scene ν ρ θ).Sited program where
  home := h.home
  entry := h.entry
  waiting q hq := (hbatch q hq).elim (h.waiting q) id

/-- A state in the middle is replaced by one of the program. -/
theorem Scene.Sited.replace {before after : Batch ν} {q q' : State ν × NodeId}
    (h : c.Sited program) (hb : c.batch = before ++ q :: after)
    (hq : q'.1.LocatedIn program ∧ program.contains q'.2 = true) :
    (⟨g, next, before ++ q' :: after, c.reached⟩ : Scene ν ρ θ).Sited program := by
  refine h.rebatch fun p hp => ?_
  rcases List.mem_append.1 hp with hp | hp
  · exact .inl (by simp [hb, hp])
  · rcases List.mem_cons.1 hp with rfl | hp
    · exact .inr hq
    · exact .inl (by simp [hb, hp])

variable [Waitlist θ ν] {a : Analysis ν ρ ω} {r : ReachedSet ν ρ θ}

theorem Scene.Sited.add {r' : ReachedSet ν ρ θ} {e : Entry ν ρ} {k : EntryId} (h : c.Sited program)
    (hsub : batch.Sublist c.batch) (hr : r.program = c.reached.program)
    (hentry : ∀ j f, r.get? j = some f → c.reached.get? j = some f) (hadd : r.add e = .ok (k, r'))
    (he : e.state.LocatedIn program) : (⟨g, next, batch, r'⟩ : Scene ν ρ θ).Sited program where
  home := by
    obtain ⟨-, -, -, rfl⟩ := ReachedSet.add_eq_ok hadd
    exact hr.trans h.home
  entry j f hf := by
    rcases ReachedSet.new_or_old_of_add hadd hf with ⟨-, rfl⟩ | hf
    · exact he
    · exact h.entry j f (hentry j f hf)
  waiting q hq := h.waiting q (hsub.subset hq)

theorem Step.sited (hs : Step a program c c') (hl : a.Located program) (hp : program.Closed)
    (h : c.Sited program) : c'.Sited program := by
  cases hs with
  | draws => exact h.rebatch fun q hq => .inl hq
  | abandons hsub => exact h.rebatch fun q hq => .inl (hsub.subset hq)
  | @sprouts k e i p edge next w he _ hedge hnext hw =>
    have hloc : w.LocatedIn program := hl.transfer _ p _ next edge hedge
      (locatedIn_unwrapped.2 (h.entry k e he)) hnext w hw
    refine h.rebatch fun q hq => ?_
    rcases List.mem_append.1 hq with hq | hq
    · exact .inl hq
    · obtain rfl := List.mem_singleton.1 hq
      exact .inr ⟨hloc, contains_getD hloc (hp _ edge hedge)⟩
  | @rewraps before after h' i w w' l hb hadj =>
    obtain ⟨hw, hcont⟩ := h.waiting (.graphed h' i w, l) (by simp [hb])
    refine h.replace hb ⟨?_, hcont⟩
    obtain ⟨b, rfl, ⟨p, whole, hb⟩ | ⟨p, err, hb⟩⟩ := hadj
    · refine hl.adjust w p ⟨c.reached.store, unwrapped, whole⟩ b hw (fun k e he => ?_) hb
      exact locatedIn_unwrapped.2 (h.entry k e he)
    · exact hl.fallback w p err b hw hb
  | @relocates before after s l hb =>
    obtain ⟨hw, hcont⟩ := h.waiting (s, l) (by simp [hb])
    exact h.replace hb ⟨hw, contains_getD hw hcont⟩
  | drops hb _ _ =>
    refine h.rebatch fun q hq => .inl ?_
    rw [hb]
    exact ((List.sublist_cons_self _ _).append_left _).subset hq
  | purges _ _ _ => exact h.rebatch fun q hq => .inl hq
  | @merges k k' e _ _ _ _ m p r f hadd =>
    obtain ⟨q, rest, hb, -, p', hmerge⟩ := f.first
    have hm : m.LocatedIn program := hl.merge _ _ p' m
      (locatedIn_unwrapped.2 (h.waiting q (by simp [hb])).1)
      (locatedIn_unwrapped.2 (h.entry k e f.entry)) hmerge
    refine h.add (.refl _) (ReachedSet.remove_program _ _) (fun j f hf => ?_) hadd hm
    exact (ReachedSet.get?_remove_eq_some.1 hf).2
  | @clashes k _ _ _ _ _ _ _ _ _ _ _ _ hr =>
    rcases hr with rfl | rfl
    · exact h.rebatch fun q hq => .inl hq
    · refine ⟨(ReachedSet.remove_program _ _).trans h.home, fun j f hf => ?_, h.waiting⟩
      exact h.entry j f (ReachedSet.get?_remove_eq_some.1 hf).2
  | covers hb _ _ _ _ _ => exact h.rebatch fun q hq => .inl (by simp [hb, hq])
  | @admits s l rest _ _ _ _ _ hb _ hadd =>
    refine h.add (by rw [hb]; exact List.sublist_cons_self _ _) rfl (fun _ _ hf => hf) hadd ?_
    exact (h.waiting (s, l) (by simp [hb])).1
  | strands hb _ _ => exact h.rebatch fun q hq => .inl (by simp [hb, hq])
  | reschedules hstore hprogram =>
    refine ⟨hprogram.trans h.home, fun k e he => h.entry k e ?_, h.waiting⟩
    rw [ReachedSet.get?, hstore] at he
    exact he

theorem Sowing.sited {result : Except Failure EntryId} (hs : Sowing a c result c')
    (h : c.Sited program) : c'.Sited program := by
  cases hs with
  | failed _ => exact h.rebatch fun q hq => .inl hq
  | stranded _ => exact h.rebatch fun q hq => .inl hq
  | @sown _ _ w _ l _ _ _ _ hadd =>
    refine h.add (.refl _) rfl (fun _ _ hf => hf) hadd (locatedIn_of_contains (l := l) ?_)
    rw [← h.home]
    exact (ReachedSet.add_eq_ok hadd).1

theorem Course.sited {seeded : Except Failure EntryId → Prop} {refined : Prop}
    {w : World (Memory ω ν)} (h : Course a program seeded refined w r) (hl : a.Located program)
    (hp : program.Closed) : (sceneOf w r).Sited program := by
  induction h with
  | start frontier _ =>
    refine ⟨rfl, fun k e he => ?_, fun q hq => absurd hq List.not_mem_nil⟩
    have he : (ReachedSet.ofFrontier program frontier).get? k = some e := he
    rw [ReachedSet.get?, ReachedSet.ofFrontier, Store.get?_empty] at he
    cases he
  | drift _ _ _ ih => exact ih.rebatch fun q hq => .inl hq
  | seed _ hx hseed _ hok ih => exact (seed_sowing hx hseed hok).sited ih
  | run h hx hprogram hrun hok ih =>
    subst hprogram
    exact (run_leads hx h.history.upheld hrun hok).invariant h.history.upheld
      (fun _ _ _ hc hs => hs.sited hl hp hc) ih
  | refine h _ hrun _ _ ih =>
    have hcut := refine_refined h.history.prunable h.history.upheld.sound hrun
    refine ⟨hcut.program.trans ih.home, fun k e he => ?_, fun q hq => absurd hq List.not_mem_nil⟩
    obtain ⟨-, e₀, he₀, hstate⟩ := hcut.origin he
    rw [hstate]
    exact ih.entry k e₀ he₀

end Sited

/-! ## Entries for all nodes -/

section Complete

/-- Every live node that is not covered has an entry, and the entries are counted. -/
structure Scene.Complete (c : Scene ν ρ θ) : Prop where
  onto : ∀ i, c.graph.Live i → (∀ q, ¬ c.graph.CoveredBy i q) →
    ∃ k e, c.reached.get? k = some e ∧ e.state.graphNode? = some i
  counted : c.reached.store.Counted

variable {c c' : Scene ν ρ θ} {next : Handle} {batch : Batch ν}

/-- A node that becomes live is covered or gets an entry; the others stay covered, or keep their
entries. -/
theorem Scene.Complete.keep (h : c.Complete)
    (hlive : ∀ i, c'.graph.Live i → c.graph.Live i ∨ (∃ q, c'.graph.CoveredBy i q) ∨
      ∃ k e, c'.reached.get? k = some e ∧ e.state.graphNode? = some i)
    (hcover : ∀ i q, c.graph.CoveredBy i q → c'.graph.Live i → ∃ q', c'.graph.CoveredBy i q')
    (hentry : ∀ k e i, c.reached.get? k = some e → e.state.graphNode? = some i →
      c'.graph.Live i → ∃ e', c'.reached.get? k = some e' ∧ e'.state.graphNode? = some i)
    (hcounted : c'.reached.store.Counted) : c'.Complete where
  onto i hi hu := by
    rcases hlive i hi with hold | ⟨q, hq⟩ | hnew
    · obtain ⟨k, e, he, hnode⟩ := h.onto i hold fun q hq => by
        obtain ⟨q', hq'⟩ := hcover i q hq hi
        exact hu q' hq'
      obtain ⟨e', he', hnode'⟩ := hentry k e i he hnode hi
      exact ⟨k, e', he', hnode'⟩
    · exact absurd hq (hu q)
    · exact hnew
  counted := hcounted

/-- The graph changes, but no node becomes live, and none loses its cover. -/
theorem Scene.Complete.of_graph {g : ReachGraph ν} (h : c.Complete)
    (hlive : ∀ i, g.Live i → c.graph.Live i)
    (hcover : ∀ i q, c.graph.CoveredBy i q → g.CoveredBy i q) :
    (⟨g, next, batch, c.reached⟩ : Scene ν ρ θ).Complete :=
  h.keep (fun i hi => .inl (hlive i hi)) (fun i q hq _ => ⟨q, hcover i q hq⟩)
    (fun _ e _ he hi _ => ⟨e, he, hi⟩) h.counted

variable [LeafValue ν] [Waitlist θ ν] {a : Analysis ν ρ ω} {program : Program} {k : EntryId}

/-- A state gets a new node that is accepted, and an entry. -/
theorem Scene.Complete.add {g : ReachGraph ν} {e : Entry ν ρ} {b : GraphNodeId}
    {r : ReachedSet ν ρ θ} (h : c.Complete) (hlive : ∀ i, g.Live i ↔ c.graph.Live i ∨ i = b)
    (hcover : ∀ i q, c.graph.CoveredBy i q → g.CoveredBy i q) (hadd : c.reached.add e = .ok (k, r))
    (hb : e.state.graphNode? = some b) : (⟨g, next, batch, r⟩ : Scene ν ρ θ).Complete := by
  refine h.keep (fun i hi => ?_) (fun i q hq _ => ⟨q, hcover i q hq⟩) (fun j f i hf hi _ => ?_)
    (ReachedSet.counted_add h.counted hadd)
  · refine ((hlive i).1 hi).imp_right ?_
    rintro rfl
    exact .inr ⟨k, e, by rw [ReachedSet.get?_add hadd, if_pos rfl], hb⟩
  · exact ⟨f, ReachedSet.get?_add_of_some hadd j f hf, hi⟩

omit [Waitlist θ ν] in
/-- After a merge the nodes that were covered still are. -/
theorem Fusion.coveredBy {e : Entry ν ρ} {S R i q : GraphNodeId} {s n : GraphNode ν} {m : State ν}
    (f : Fusion a c k e S R s n m) (hq : c.graph.CoveredBy i q) (hi : (c.fused S R s n m).Live i) :
    ∃ q', (c.fused S R s n m).CoveredBy i q' := by
  have hsame : ∀ {q'}, (c.fused S R s n m).CoveredBy i q' ↔
      (c.graph.merging m.location? S R s n).CoveredBy i q' :=
    at_setState fun _ _ => Iff.rfl
  have hir : i ≠ R := by
    rcases f.live.1 hi with ⟨-, hne⟩ | rfl
    · exact hne
    · exact absurd hq not_at_size
  by_cases hcov : c.graph.Covers R i
  · exact ⟨_, hsame.2 (f.fusible.coveredBy.2 ⟨hir, .inl ⟨hcov, rfl⟩⟩)⟩
  · exact ⟨q, hsame.2 (f.fusible.coveredBy.2 ⟨hir, .inr ⟨hcov, hq⟩⟩)⟩

/-- No addition is refused, since the states that wait have handles of their own and lie within the
program. -/
theorem Step.complete (hs : Step a program c c') (hr : c.Records) (hx : c.Exact)
    (hsited : c.Sited program) (h : c.Complete) : c'.Complete := by
  have hcut : ∀ {b old batch}, ¬ c.graph.Live b → c.graph.node? b = some old →
      (⟨c.graph.cut b old, c.next, batch, c.reached⟩ : Scene ν ρ θ).Complete := by
    intro b old batch hidle hold
    refine h.of_graph (fun i hi => (live_cut.1 hi).1) fun i q hq => ?_
    obtain ⟨hi, -, -⟩ := hr.batchWf.coverer i q hq
    refine (coveredBy_cut hold).2 ⟨hq, ?_, fun hc => hidle (hr.batchWf.covered b i hc).1⟩
    rintro rfl
    exact hidle hi
  cases hs with
  | draws => exact h.of_graph (fun _ hi => hi) fun _ _ hq => hq
  | abandons => exact h.of_graph (fun _ hi => hi) fun _ _ hq => hq
  | sprouts =>
    refine h.of_graph (fun i hi => ?_) fun i q hq => ?_
    · exact (at_create_of_not (by simp)).1 hi
    · exact (at_create_of_not (by simp)).2 hq
  | rewraps => exact h.of_graph (fun _ hi => hi) fun _ _ hq => hq
  | relocates => exact h.of_graph (fun _ hi => hi) fun _ _ hq => hq
  | @drops _ _ s l _ _ hb hnode hold =>
    exact hcut (hr.idle (q := (s, l)) (by simp [hb]) hnode).2 hold
  | purges hold hlive _ => exact hcut hlive hold
  | @merges k k' e _ R _ _ m _ r f hadd =>
    refine h.keep (fun i hi => ?_) (fun i q hq hi => f.coveredBy hq hi)
      (fun j e' i he' hi hlive => ?_)
      (ReachedSet.counted_add (ReachedSet.counted_remove h.counted k) hadd)
    · rcases f.live.1 hi with ⟨hi, -⟩ | rfl
      · exact .inl hi
      · exact .inr (.inr ⟨k', _, by rw [ReachedSet.get?_add hadd, if_pos rfl], rfl⟩)
    · -- The entry of the node that was merged away is the one that was replaced.
      have hold : (c.reached.remove k).2.get? j = some e' := by
        refine ReachedSet.get?_remove_eq_some.2 ⟨?_, he'⟩
        rintro rfl
        obtain rfl : e = e' := Option.some.inj (f.entry.symm.trans he')
        obtain rfl : R = i := Option.some.inj (f.node.symm.trans hi)
        rcases f.live.1 hlive with ⟨-, hne⟩ | hnew
        · exact hne rfl
        · exact f.fusible.new_ne hnew.symm
      exact ⟨e', ReachedSet.get?_add_of_some hadd j e' hold, hi⟩
  | clashes _ hj hsame _ => exact absurd hsame (hx.handle_ne hr hj)
  | @covers _ _ _ _ q _ _ _ hb hnode _ _ _ _ =>
    obtain ⟨hknown, hidle⟩ := hr.idle_head hb hnode
    refine h.keep (fun i hi => ?_) (fun i q' hq' _ => ⟨q', ?_⟩) (fun _ e _ he hi _ => ⟨e, he, hi⟩)
      h.counted
    · refine ((live_cover hknown).1 hi).imp_right fun hib => .inl ⟨q, ?_⟩
      exact (coveredBy_cover hknown).2 (.inl ⟨hib, rfl⟩)
    · refine (coveredBy_cover hknown).2 (.inr ⟨?_, hq'⟩)
      rintro rfl
      exact hidle (hr.batchWf.coverer i q' hq').1
  | admits hb hnode hadd =>
    have hknown := (hr.idle_head hb hnode).1
    exact h.add (fun i => live_accept hknown)
      (fun i q => (coveredBy_accept hknown).2) hadd hnode
  | @strands s l _ _ hb hnode hrefused =>
    have hin : (s, l) ∈ c.batch := by simp [hb]
    rcases hrefused with hheld | hunknown
    · rw [hx.not_contains hr hin] at hheld
      cases hheld
    · rw [hsited.home, (hsited.waiting (s, l) hin).2] at hunknown
      cases hunknown
  | @reschedules r hstore _ =>
    refine h.keep (fun _ hi => .inl hi) (fun _ q hq _ => ⟨q, hq⟩) (fun k e _ he hi _ => ⟨e, ?_, hi⟩)
      (by rw [hstore]; exact h.counted)
    show r.get? k = some e
    rw [ReachedSet.get?, hstore]
    exact he

theorem Sowing.complete (hs : Sowing a c (.ok k) c') (h : c.Complete) : c'.Complete := by
  cases hs with
  | sown _ hadd =>
    exact h.add (fun i => live_root) (fun i q => coveredBy_root.2) hadd rfl

omit [LeafValue ν] in
/-- A refinement takes away a node together with its entry. -/
theorem Scene.Complete.refine {point : GraphNodeId} {result : ReachGraph.Refinement}
    {s : ReachGraph.Recorded ν ρ θ} (h : c.Complete) (hr : c.Records) (hx : c.Exact)
    (hcovers : c.graph.CoverWf fun _ _ => True)
    (hcut : ReachGraph.Refined c.graph c.reached point result s) :
    (⟨s.graph, next, [], s.reached⟩ : Scene ν ρ θ).Complete := by
  have hp := hcovers.prunable hr.batchWf.toLinked
  refine h.keep (fun i hi => .inl (hcut.graph.live.1 hi).1) (fun i q hq hi => ⟨q, ?_⟩)
    (fun k e i he hi hlive => ?_) (hcut.counted h.counted)
  · obtain ⟨hi, hleft⟩ := hcut.graph.live.1 hi
    exact (hcut.graph.coveredBy hi hleft).2
      ⟨hq, hcut.coverer_kept hp (fun i q q' => hcovers.flat i q q') hi hq hleft⟩
  · have hleft : i ∉ result.pruned := (hcut.graph.live.1 hlive).2
    obtain ⟨p, hget⟩ := hx.entry_left hr hcut he hi hleft
    exact ⟨_, hget, hi⟩

end Complete

/-! ## Courses -/

section Course

variable [LeafValue ν] [Waitlist θ ν] {a : Analysis ν ρ ω} {program : Program} {refined : Prop}
  {w : World (Memory ω ν)} {r : ReachedSet ν ρ θ} {seeded : Except Failure EntryId → Prop}
  {x : Exploration ν ρ (Memory ω ν)} {fuel : Nat} {m m' : Machine ν ρ (Memory ω ν) θ}
  {point : GraphNodeId}

theorem Course.complete (h : Course a program seeded refined w r)
    (hseeded : ∀ result, seeded result → ∃ k, result = .ok k) (hf : a.Forward)
    (hl : a.Located program) (hp : program.Closed) : (sceneOf w r).Complete := by
  induction h with
  | start frontier hempty =>
    rw [sceneOf_eq hempty]
    exact ⟨fun i hi => absurd hi not_at_empty, Store.counted_empty⟩
  | drift _ hsame _ ih =>
    rw [sceneOf_eq hsame]
    exact ih.of_graph (fun _ hi => hi) fun _ _ hq => hq
  | seed _ hx hseed hallowed hok ih =>
    obtain ⟨k, rfl⟩ := hseeded _ hallowed
    exact (seed_sowing hx hseed hok).complete ih
  | @run _ _ x _ _ _ _ _ h hx hprogram hrun hok ih =>
    have hall : (sceneOf _ _).Exact ∧ (sceneOf _ _).Sited program ∧ (sceneOf _ _).Complete :=
      (run_leads hx h.history.upheld hrun hok).invariant
        (I := fun c => c.Exact ∧ c.Sited program ∧ c.Complete) h.history.upheld
        (fun c c' hr hc hs => by
          rw [hprogram] at hs
          exact ⟨hs.exact hf hr hc.1, hs.sited hl hp hc.2.1, hs.complete hr hc.1 hc.2.1 hc.2.2⟩)
        ⟨h.exact hf, h.sited hl hp, ih⟩
    exact hall.2.2
  | refine h _ hrun hsame _ ih =>
    have hup := h.history.upheld
    rw [sceneOf_eq hsame]
    exact ih.refine hup (h.exact hf) h.history.coverWf_true
      (refine_refined h.history.prunable hup.sound hrun)

theorem Course.mirrors (h : Course a program seeded refined w r)
    (hseeded : ∀ result, seeded result → ∃ k, result = .ok k) (hf : a.Forward)
    (hl : a.Located program) (hp : program.Closed) : w.graph.Mirrors r := by
  have hr : (sceneOf w r).Records := h.history.upheld
  have hx := h.exact hf
  refine ⟨fun k e he => hx.stands hr he, fun k k' e e' he he' hsame => ?_,
    (h.complete hseeded hf hl hp).onto, fun i s hs hother => ?_⟩
  · obtain ⟨i, hi, -⟩ := hx.stands hr he
    exact hx.eq_of_node hr he he' hi (hsame ▸ hi)
  · -- An entry with the handle of `s` would have the same node, which is live and not covered.
    refine Bool.eq_false_iff.2 fun hin => ?_
    obtain ⟨k, e, he, hhandle⟩ := hr.sound.store.contains_iff.1 hin
    obtain ⟨j, -, hj⟩ := hx.stands hr he
    obtain rfl : j = i := hx.noted.distinct j i e.state s hj.holds hs hhandle
    rcases hother with ⟨q, hq⟩ | ⟨n, hn, hpending⟩
    · exact hj.uncovered q hq
    · have hlive : n.status = .live := (at_iff hn).1 hj.live
      rw [hlive] at hpending
      cases hpending

/-- Cuts the graph at a node, leaves the precisions as they are, and explores on. -/
def resumeAt (x : Exploration ν ρ (Memory ω ν)) (point : GraphNodeId) (fuel : Nat)
    (m : Machine ν ρ (Memory ω ν) θ) : Option (Machine ν ρ (Memory ω ν) θ) :=
  match ReachGraph.refine (fun _ p => pure p) point ⟨m.graph, m.reached⟩ () with
  | (.ok _, s, _) =>
    match x.run fuel ⟨⟨withGraph m.meter.world s.graph, {}⟩, s.reached, []⟩ with
    | some (.ok .exhausted, m) => some m
    | _ => none
  | _ => none

theorem course_exploreTo {status : Status} {n : NodeId} (hx : x.analysis = analysis a)
    (h : Course a x.program seeded refined w r) (hseeded : ∀ k, seeded (.ok k))
    (hm : x.exploreTo status n fuel w r = some m) :
    Course a x.program seeded refined m.meter.world m.reached := by
  obtain ⟨k, w', r', hseed, hrun⟩ := Exploration.exploreTo_eq_some hm
  exact .run (.seed h hx hseed (hseeded k) fun c hc => by cases hc) hx rfl hrun
    fun c hc => by cases hc

theorem resumeAt_eq_some (hm : resumeAt x point fuel m = some m') :
    ∃ result s, ReachGraph.refine (fun _ p => pure p) point
        ⟨m.graph, m.reached⟩ () = (.ok result, s, ()) ∧
      x.run fuel ⟨⟨withGraph m.meter.world s.graph, {}⟩, s.reached, []⟩ =
        some (.ok .exhausted, m') := by
  unfold resumeAt at hm
  split at hm
  · next result s _ hrefine =>
    split at hm
    · next hrun =>
      cases hm
      exact ⟨result, s, hrefine, hrun⟩
    · cases hm
  · cases hm

theorem course_resumeAt (hx : x.analysis = analysis a)
    (h : Course a x.program seeded True m.meter.world m.reached)
    (hm : resumeAt x point fuel m = some m') :
    Course a x.program seeded True m'.meter.world m'.reached := by
  obtain ⟨result, s, hrefine, hrun⟩ := resumeAt_eq_some hm
  have hcut : Course a x.program seeded True (withGraph m.meter.world s.graph) s.reached :=
    .refine h trivial hrefine rfl (Nat.le_refl _)
  exact .run hcut hx rfl hrun fun c hc => by cases hc

end Course

/-- A program with two branches. -/
def fork : Program := .ofPairs 1 [(0, 1), (0, 2)]

theorem fork_built : fork.Built := .of_redraft rfl rfl rfl rfl

/-- The facts of the fork, joined at each place and recorded. -/
def forkFacts : Exploration FactValue Level (Memory Facts.Notes FactValue) :=
  { knotFacts with program := fork }

def forkReached : ReachedSet FactValue Level SimpleWaitlist :=
  .ofFrontier fork (.ofOrder .breadthFirst)

/-- The first branch is cut and explored again; then the new node A4 of the second branch is covered
by A2. -/
def forkResumed :
    Option (Machine FactValue Level (Memory Facts.Notes FactValue) SimpleWaitlist) :=
  (forkFacts.exploreTo .exhausted ⟨0⟩ 10 knotWorld forkReached).bind (resumeAt forkFacts ⟨1⟩ 10)

theorem course_forkResumed
    {m : Machine FactValue Level (Memory Facts.Notes FactValue) SimpleWaitlist}
    (hm : forkResumed = some m) :
    Course joinedFacts fork (fun result => ∃ k, result = .ok k) True
      m.meter.world m.reached := by
  obtain ⟨m₀, hm₀, hm⟩ := Option.bind_eq_some_iff.1 hm
  exact course_resumeAt (x := forkFacts) rfl
    (course_exploreTo (x := forkFacts) rfl (.start _ rfl) (fun k => ⟨k, rfl⟩) hm₀) hm

end Recorder

end ProgramAnalysis
