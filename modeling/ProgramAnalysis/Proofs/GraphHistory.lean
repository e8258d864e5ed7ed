import ProgramAnalysis.Facts.Analysis
import ProgramAnalysis.Proofs.GraphPruning
import ProgramAnalysis.Proofs.RecorderRuns
/-!
The links of the reachability graph along runs and refinements.

An expansion of a recorded exploration creates a node for each successor before any of them is
merged. A merge may take in the expanded node itself, and then the successors that are accepted
later have a parent that was merged away. Nothing else ever goes wrong with the links, over any
sequence of initial states, runs and refinements (`links_agree_iff`).
-/

namespace ProgramAnalysis

/-! ## Refinements -/

namespace ReachGraph

variable {ν ρ θ σ : Type} {g : ReachGraph ν} {r r' : ReachedSet ν ρ θ}
  {f : Strengthening ρ σ}

theorem Records.reweighed {ks : List EntryId} (h : g.Records [] r) (hw : Reweighed r ks r') :
    g.Records [] r' := by
  refine h.of_states (hw.sound h.sound) fun k e he => ?_
  obtain ⟨f, -, hget⟩ := hw.entry k
  rw [hget] at he
  obtain ⟨e₀, he₀, rfl⟩ := Option.map_eq_some_iff.1 he
  exact ⟨e₀, he₀, rfl⟩

variable [Waitlist θ ν]

namespace Pruning

variable {id : GraphNodeId} {below : List GraphNodeId}

omit [Waitlist θ ν] in
theorem prune_triple :
    Triple (fun g => g.Records [] r ∧ (g.Live id → Vacant r id)) (Edit.prune id)
      (fun _ g => g.Records [] r) (fun _ _ => True) := by
  refine .bind (Edit.unlink_triple (Q := fun g => g.Records [] r) ?_) fun _ =>
    .modify fun g hg => hg.of_at fun _ _ => Iff.rfl
  intro g old hg hold
  exact hg.1.cut hold fun hl => ⟨rfl, hg.2 hl⟩

omit [Waitlist θ ν] in
/-- A node that belongs to no entry may be removed; the reached set stays as it is. -/
theorem remove_triple {Q : ReachedSet ν ρ θ → Prop} :
    Triple (fun c : Cut ν ρ θ => c.graph.Records [] c.reached ∧
        (c.graph.Live id → Vacant c.reached id) ∧ Q c.reached)
      (remove below id) (fun _ c => c.graph.Records [] c.reached ∧ Q c.reached)
      (fun _ _ => True) := by
  refine .bind (R := fun _ c => c.graph.Records [] c.reached ∧
    (c.graph.Live id → Vacant c.reached id) ∧ Q c.reached) (.modify fun c hc => hc) fun _ => ?_
  refine .bind (R := fun _ c => c.graph.Records [] c.reached ∧ Q c.reached)
    (edit_triple fun c hc => ?_) fun _ => .modify fun c hc => hc
  refine .weaken (prune_triple (r := c.reached)) ?_ (fun _ _ hg => ⟨hg, hc.2.2⟩) fun _ _ hg => hg
  rintro _ rfl
  exact ⟨hc.1, hc.2.1⟩

omit [Waitlist θ ν] in
/-- The nodes that a node covers belong to no entry. -/
theorem uncover_triple :
    Triple (fun c : Cut ν ρ θ => c.graph.Records [] c.reached) (uncover below id)
      (fun _ c => c.graph.Records [] c.reached) (fun _ _ => True) := by
  refine .bind (R := fun c₀ c => c = c₀ ∧ c.graph.Records [] c.reached)
    (.get fun c hc => ⟨rfl, hc⟩) fun c₀ => ?_
  refine .weaken (.forM (E := fun _ _ => True) (I := fun rest c => c.graph.Records [] c.reached ∧
    ∀ i ∈ rest, Vacant c.reached i) ?_ _) ?_ (fun _ _ hc => hc.1) fun _ _ hc => hc
  · intro i rest
    refine .pre (remove_triple (Q := fun r => ∀ i ∈ rest, Vacant r i)) fun c hc => ?_
    exact ⟨hc.1, fun _ => hc.2 i (by simp), fun j hj => hc.2 j (by simp [hj])⟩
  · rintro c ⟨rfl, hc⟩
    refine ⟨hc, fun i hi => ?_⟩
    have hi : i ∈ ((c.graph.node? id).map GraphNode.covering).getD [] := (List.mem_filter.1 hi).1
    cases hn : c.graph.node? id with
    | none => simp [hn] at hi
    | some n =>
      have hcovers : c.graph.Covers id i := ⟨n, hn, by simpa [hn] using hi⟩
      exact hc.vacant_of_coveredBy (hc.batchWf.covered id i hcovers).2.2

theorem removeEntry_triple :
    Triple (fun c : Cut ν ρ θ => c.graph.Records [] c.reached) (removeEntry id)
      (fun _ c => c.graph.Records [] c.reached ∧ (c.graph.Live id → Vacant c.reached id))
      (fun _ _ => True) := by
  refine .modify fun c hc => ?_
  -- If the node is live, the entry that belongs to it is the one that its state finds.
  have hfound : ∀ k e, c.graph.Live id → c.reached.get? k = some e →
      e.state.graphNode? = some id → c.graph.entryOf c.reached id = some k := by
    intro k e hl he hi
    obtain ⟨j, hj, -, hn⟩ := hc.entry k e he
    obtain rfl : id = j := Option.some.inj (hi.symm.trans hj)
    obtain ⟨n, hn, -, -, hs⟩ := hn.resolve_left fun hm => hm.destroyed.not_live hl
    rw [entryOf, hn, Option.bind_some, hs, Option.bind_some]
    exact hc.sound.store.find?_eq_some.2 ⟨e, he, rfl⟩
  cases hentry : c.graph.entryOf c.reached id with
  | none =>
    refine ⟨hc, fun hl k e he hi => ?_⟩
    have hsome := hfound k e hl he hi
    rw [hentry] at hsome
    cases hsome
  | some entry =>
    refine ⟨hc.remove entry, fun hl k e he hi => ?_⟩
    have he : (c.reached.remove entry).2.get? k = some e := he
    rw [ReachedSet.get?_remove] at he
    split at he
    · cases he
    · next hne =>
      have hsome := hfound k e hl he hi
      rw [hentry] at hsome
      exact hne (Option.some.inj hsome).symm

theorem removeAll_triple :
    Triple (fun c : Cut ν ρ θ => c.graph.Records [] c.reached) (removeAll below)
      (fun _ c => c.graph.Records [] c.reached) (fun _ _ => True) := by
  refine .bind (.forM (I := fun _ (c : Cut ν ρ θ) => c.graph.Records [] c.reached)
    (fun _ _ => uncover_triple) below) fun _ => ?_
  refine .forM (I := fun _ (c : Cut ν ρ θ) => c.graph.Records [] c.reached)
    (fun id rest => ?_) below
  refine .bind removeEntry_triple fun _ => ?_
  refine .weaken (remove_triple (Q := fun _ => True)) (fun c hc => ⟨hc.1, hc.2, trivial⟩)
    (fun _ _ hc => hc.1) fun _ _ hc => hc

end Pruning

theorem Records.refine {point : GraphNodeId} {s : Recorded ν ρ θ} {st st' : σ}
    {result : Except Failure Refinement} (h : g.Records [] r)
    (hrun : ReachGraph.refine f point ⟨g, r⟩ st = (result, s, st'))
    (hok : ∀ c, result ≠ .error (.crash c)) : s.graph.Records [] s.reached := by
  unfold ReachGraph.refine at hrun
  split at hrun
  · cases hrun
    exact h
  dsimp only at hrun
  split at hrun
  · next hstrength =>
    cases hrun
    obtain ⟨ks, hweighed, -⟩ := strengthenEntries_reweighed (reweighed_refl r) hstrength
    exact h.reweighed hweighed
  · next hstrength =>
    obtain ⟨ks, hweighed, -⟩ := strengthenEntries_reweighed (reweighed_refl r) hstrength
    split at hrun
    · cases hrun
      exact absurd rfl (hok _)
    · next cut hprune =>
      have hcut : cut.graph.Records [] cut.reached := Pruning.removeAll_triple.ok
        (h.reweighed hweighed) hprune
      cases hrun
      exact hcut.of_store (reschedule_store ..) (reschedule_program ..)

end ReachGraph

namespace Recorder

variable {ν ρ ω θ : Type} [LeafValue ν] [Waitlist θ ν] {a : Analysis ν ρ ω} {r : ReachedSet ν ρ θ}
  {w : World (Memory ω ν)}

/-! ## Histories -/

/-- What a recorded analysis goes through: initial states, runs and refinements on one reached set,
none of which crashes. Between the calls everything but the graph may change. -/
inductive History (a : Analysis ν ρ ω) : World (Memory ω ν) → ReachedSet ν ρ θ → Prop where
  | start {w : World (Memory ω ν)} (program : Program) (frontier : θ) :
      w.graph = .empty → History a w (.ofFrontier program frontier)
  | drift {w w' : World (Memory ω ν)} {r} :
      History a w r → w'.graph = w.graph → History a w' r
  | seed {w w' r r'} {x : Exploration ν ρ (Memory ω ν)} {n part result} :
      History a w r → x.analysis = analysis a → x.seed n part w r = (result, w', r') →
      (∀ c, result ≠ .error (.crash c)) → History a w' r'
  | run {w : World (Memory ω ν)} {r} {x : Exploration ν ρ (Memory ω ν)}
      {counters targets fuel result m} :
      History a w r → x.analysis = analysis a →
      x.run fuel ⟨⟨w, counters⟩, r, targets⟩ = some (result, m) →
      (∀ c, result ≠ .error (.crash c)) → History a m.meter.world m.reached
  | refine {w w' : World (Memory ω ν)} {r} {σ : Type} {f : ReachGraph.Strengthening ρ σ}
      {point} {st st' : σ} {result s} :
      History a w r →
      ReachGraph.refine f point ⟨w.graph, r⟩ st = (result, s, st') →
      (∀ c, result ≠ .error (.crash c)) → w'.graph = s.graph → History a w' s.reached

theorem History.upheld (h : History a w r) : w.graph.Records [] r := by
  induction h with
  | start program frontier hempty =>
    refine ⟨by rw [hempty]; exact ReachGraph.batchWf_empty,
      ReachedSet.sound_ofFrontier program frontier, fun k e he => ?_⟩
    rw [ReachedSet.get?, ReachedSet.ofFrontier, Store.get?_empty] at he
    cases he
  | drift _ hsame ih =>
    rw [hsame]
    exact ih
  | seed _ hx hseed hok ih => exact (seed_sowing hx hseed hok).records ih rfl
  | run _ hx hrun hok ih => exact (run_leads hx ih hrun hok).records
  | refine _ hrun hok hsame ih =>
    rw [hsame]
    exact ih.refine hrun hok

theorem history_exploreTo {x : Exploration ν ρ (Memory ω ν)} {status : Status} {n : NodeId}
    {fuel : Nat} {m : Machine ν ρ (Memory ω ν) θ} (hx : x.analysis = analysis a)
    (h : History a w r) (hm : x.exploreTo status n fuel w r = some m) :
    History a m.meter.world m.reached := by
  obtain ⟨k, w', r', hseed, hrun⟩ := Exploration.exploreTo_eq_some hm
  exact .run (.seed h hx hseed fun c hc => by cases hc) hx hrun fun c hc => by cases hc

/-- Along every history the links of live nodes agree, but for parents that were merged away; these
are what the check reports, and all that it reports. -/
theorem links_agree_iff {a : Analysis ν ρ ω} {w : World (Memory ω ν)} {r : ReachedSet ν ρ θ}
    (h : History a w r) :
    w.graph.Linked ∧ (w.graph.fault? = none ↔ ∀ i p, ¬ w.graph.Orphaned i p) ∧
      ∀ text, w.graph.fault? = some text → ∃ i p, w.graph.Orphaned i p ∧
        text = i.text ++ " has destroyed parent " ++ p.text := by
  have hlinked : w.graph.Linked := h.upheld.batchWf.toLinked
  exact ⟨hlinked, hlinked.fault?_eq_none_iff, fun _ hf => hlinked.orphaned_of_fault? hf⟩

/-! ## An expanded node that is merged away -/

/-- A program with a loop at its entry and an edge to its exit. -/
def knot : Program := .ofPairs 0 [(0, 0), (0, 1)]

/-- The facts, joined at each place. -/
abbrev joinedFacts : Analysis FactValue Level Facts.Notes := Facts.analysis { merge := .join }

/-- The joined facts of the knot, recorded. -/
def knotFacts : Exploration FactValue Level (Memory Facts.Notes FactValue) where
  program := knot
  analysis := analysis joinedFacts
  isTarget _ := false
  options := {}
  token := ⟨0⟩

def knotWorld : World (Memory Facts.Notes FactValue) :=
  ⟨⟨0⟩, .empty, ⟨0⟩, ⟨0⟩, ({}, .sep), .empty⟩

def knotReached : ReachedSet FactValue Level SimpleWaitlist :=
  .ofFrontier knot (.ofOrder .breadthFirst)

theorem knot_run : ∃ k w r m, knotFacts.seed ⟨0⟩ .whole knotWorld knotReached = (.ok k, w, r) ∧
    knotFacts.run 10 ⟨⟨w, {}⟩, r, []⟩ = some (.ok .exhausted, m) ∧
    m.graph.fault? = some "A6 has destroyed parent A0" := by
  have hrun : (knotFacts.exploreTo .exhausted ⟨0⟩ 10 knotWorld knotReached).any (fun m =>
      decide (m.graph.fault? = some "A6 has destroyed parent A0")) = true := by
    decide +kernel
  obtain ⟨m, hm, hfault⟩ := (Option.any_eq_true _ _).1 hrun
  obtain ⟨k, w, r, hseed, hrun⟩ := Exploration.exploreTo_eq_some hm
  exact ⟨k, w, r, m, hseed, hrun, of_decide_eq_true hfault⟩

theorem history_knot {k : EntryId} {w : World (Memory Facts.Notes FactValue)}
    {r : ReachedSet FactValue Level SimpleWaitlist}
    {m : Machine FactValue Level (Memory Facts.Notes FactValue) SimpleWaitlist}
    (hseed : knotFacts.seed ⟨0⟩ .whole knotWorld knotReached = (.ok k, w, r))
    (hrun : knotFacts.run 10 ⟨⟨w, {}⟩, r, []⟩ = some (.ok .exhausted, m)) :
    History joinedFacts m.meter.world m.reached := by
  have hstart : History joinedFacts knotWorld knotReached :=
    .start knot _ rfl
  exact .run (.seed hstart rfl hseed fun c h => by cases h) rfl hrun fun c h => by cases h

theorem knot_links_agree_iff : ∃ w r,
    History joinedFacts w (r : ReachedSet FactValue Level SimpleWaitlist) ∧
    w.graph.Linked ∧ (w.graph.fault? = none ↔ ∀ i p, ¬ w.graph.Orphaned i p) ∧
      ∀ text, w.graph.fault? = some text → ∃ i p, w.graph.Orphaned i p ∧
        text = i.text ++ " has destroyed parent " ++ p.text := by
  obtain ⟨k, w, r, m, hseed, hrun, -⟩ := knot_run
  have h := history_knot hseed hrun
  exact ⟨m.meter.world, m.reached, h, links_agree_iff h⟩

/-- The successor along the loop is merged into the entry, whose node is the parent of the successor
at the exit; that successor is accepted afterwards. -/
theorem knot_parent_destroyed : ∃ k w r m,
    knotFacts.seed ⟨0⟩ .whole knotWorld knotReached = (.ok k, w, r) ∧
    knotFacts.run 10 ⟨⟨w, {}⟩, r, []⟩ = some (.ok .exhausted, m) ∧
    History joinedFacts m.meter.world m.reached ∧
    m.graph.fault? = some "A6 has destroyed parent A0" := by
  obtain ⟨k, w, r, m, hseed, hrun, hfault⟩ := knot_run
  exact ⟨k, w, r, m, hseed, hrun, history_knot hseed hrun, hfault⟩

end Recorder

end ProgramAnalysis
