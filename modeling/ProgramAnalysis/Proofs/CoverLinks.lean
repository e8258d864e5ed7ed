import ProgramAnalysis.Proofs.FactsContract
import ProgramAnalysis.Proofs.GraphHistory
/-!
Covered nodes and the nodes that cover them.

A node is covered when the exploration finds that a reached state lies above its own. Later the
coverer may be merged away, more than once, and each time the merged node takes over what it covers.
`CoverWf` is what all changes of the graph keep up: covers do not chain, a covered node is nobody's
parent, and its state lies below the one of its coverer. The last needs an order that the stop
operator and the merge operator respect (`covered_below_coverer`).
-/

namespace ProgramAnalysis

variable {ν ρ ω θ : Type}

open Recorder (unwrapped)

namespace ReachGraph

/-! ## Well-formed covers -/

/-- Covered nodes lie below their coverers, which are not covered themselves. -/
structure CoverWf (le : StateRel ν) (g : ReachGraph ν) : Prop where
  sterile : ∀ i p q, g.HasParent i p → ¬ g.CoveredBy p q
  flat : ∀ i q q', g.CoveredBy i q → ¬ g.CoveredBy q q'
  once : ∀ i n, g.node? i = some n → n.covering.Nodup
  below : ∀ i q, g.CoveredBy i q → ∃ s t, g.Holds i s ∧ g.Holds q t ∧ le (unwrapped s) (unwrapped t)

variable {le : StateRel ν} {g g' : ReachGraph ν} {batch : List GraphNodeId}

theorem coverWf_empty (le : StateRel ν) : (empty : ReachGraph ν).CoverWf le where
  sterile _ _ _ h := absurd h not_at_empty
  flat _ _ _ h := absurd h not_at_empty
  once i n h := absurd ⟨n, h, trivial⟩ (not_at_empty (i := i) (P := fun _ => True))
  below _ _ h := absurd h not_at_empty

section

variable (h : g.CoverWf le) {location : Option NodeId}

include h

theorem CoverWf.prunable (hl : g.Linked) : g.Prunable :=
  { hl.toMutual with
    sterile := fun i q c hq hc => h.sterile c i q (hl.child i c hc).2.2 hq
    once := h.once }

/-- A change that covers nothing new keeps the covers well-formed if it keeps what it should. -/
theorem CoverWf.keep (parent : ∀ i p q, g'.HasParent i p → ¬ g.CoveredBy p q)
    (cover : ∀ i q, g'.CoveredBy i q → g.CoveredBy i q)
    (once : ∀ i n, g'.node? i = some n → n.covering.Nodup)
    (holds : ∀ i q s, g'.CoveredBy i q →
      (g.Holds i s → g'.Holds i s) ∧ (g.Holds q s → g'.Holds q s)) : g'.CoverWf le where
  sterile i p q hp hq := parent i p q hp (cover p q hq)
  flat i q q' hq hq' := h.flat i q q' (cover i q hq) (cover q q' hq')
  once := once
  below i q hq := by
    obtain ⟨s, t, hs, ht, hle⟩ := h.below i q (cover i q hq)
    exact ⟨s, t, (holds i q s hq).1 hs, (holds i q t hq).2 ht, hle⟩

theorem CoverWf.of_at (hat : ∀ i (P : GraphNode ν → Prop), g'.At i P ↔ g.At i P) :
    g'.CoverWf le := by
  refine h.keep (fun i p q hp => h.sterile i p q ((hat i _).1 hp)) (fun i q => (hat i _).1) ?_
    fun i q s _ => ⟨(hat i _).2, (hat q _).2⟩
  intro i n hn
  obtain ⟨m, hm, rfl⟩ := (hat i fun m => m = n).1 ⟨n, hn, rfl⟩
  exact h.once i m hm

theorem CoverWf.create {links : List ParentLink}
    (hlinks : ∀ p ∈ links.map Prod.fst, ∀ q, ¬ g.CoveredBy p q) :
    (g.create location links).2.CoverWf le := by
  refine h.keep ?_ (fun i q hq => (at_create_of_not (by simp)).1 hq) ?_ ?_
  · intro i p q hp
    rcases hasParent_create.1 hp with hp | ⟨-, hp⟩
    · exact h.sterile i p q hp
    · exact hlinks p hp q
  · intro i n hn
    rcases at_create.1 (⟨n, hn, rfl⟩ : (g.create location links).2.At i fun m => m = n) with
      ⟨m, hm, rfl⟩ | ⟨-, rfl⟩
    · exact h.once i m hm
    · exact .nil
  · exact fun i q s _ => ⟨fun hs => at_create.2 (.inl hs), fun hs => at_create.2 (.inl hs)⟩

/-- The node that is accepted is not live before, so that it is not covered and covers nothing. -/
theorem CoverWf.accept (hl : g.Linked) {b : GraphNodeId} {s : State ν} (hb : g.Known b)
    (hidle : ¬ g.Live b) : (g.accept b s).CoverWf le := by
  have hholds : ∀ {i t}, i ≠ b → g.Holds i t → (g.accept b s).Holds i t := by
    intro i t hib ht
    obtain ⟨old, hold, -⟩ := hb
    exact (at_accept hold).2 (ht.mono fun n hn => by simpa [accepted, hib] using hn)
  refine h.keep ?_ (fun i q => (coveredBy_accept hb).1) ?_ ?_
  · exact fun i p q hp => h.sterile i p q ((hasParent_accept hb).1 hp)
  · intro i n hn
    obtain ⟨old, hold, -⟩ := hb
    obtain ⟨m, hm, rfl⟩ := (at_accept hold).1
      (⟨n, hn, rfl⟩ : (g.accept b s).At i fun m => m = n)
    exact h.once i m hm
  · intro i q t hq
    obtain ⟨hi, hlq, -⟩ := hl.coverer i q ((coveredBy_accept hb).1 hq)
    exact ⟨hholds fun hib => hidle (hib ▸ hi), hholds fun hqb => hidle (hqb ▸ hlq)⟩

theorem CoverWf.cut (hl : g.Linked) {id : GraphNodeId} {old : GraphNode ν}
    (hid : g.node? id = some old) : (g.cut id old).CoverWf le := by
  have hholds : ∀ {i t}, i ≠ id → g.Holds i t → (g.cut id old).Holds i t := fun hne ht =>
    at_cut.2 (ht.mono fun n hn => by simpa [hne, severed] using hn)
  refine h.keep ?_ (fun i q hq => ((coveredBy_cut hid).1 hq).1) ?_ ?_
  · exact fun i p q hp => h.sterile i p q ((hasParent_cut hid).1 hp).1
  · intro i n hn
    obtain ⟨m, hm, hsame⟩ := at_cut.1 (⟨n, hn, rfl⟩ : (g.cut id old).At i fun m => m = n)
    have honce := h.once i m hm
    rw [← hsame]
    split
    · exact .nil
    · unfold severed
      dsimp only
      split
      · exact honce.filter _
      · exact honce
  · intro i q t hq
    obtain ⟨hcovered, hne, hno⟩ := (coveredBy_cut hid).1 hq
    have hqid : q ≠ id := by
      rintro rfl
      exact hno (hl.coverer i q hcovered).2.2
    exact ⟨hholds hne, hholds hqid⟩

/-- A node that waits is covered by one that is not covered and whose state lies above. -/
theorem CoverWf.cover {b q : GraphNodeId} {s t : State ν} (ht : g.BatchWf (b :: batch))
    (hq : g.Stands q t) (hle : le (unwrapped s) (unwrapped t)) : (g.cover b q s).CoverWf le := by
  obtain ⟨hb, hidle⟩ := ht.idle b (by simp)
  have hqb : q ≠ b := by
    rintro rfl
    exact hidle hq.live
  obtain ⟨old, hold, -⟩ := id hb
  -- Nothing is covered by a node that is not live.
  have hnot : ∀ {i q'}, g.CoveredBy i q' → q' ≠ b := by
    rintro i _ hi rfl
    exact hidle (ht.coverer i _ hi).2.1
  have hholds : ∀ {i u}, i ≠ b → g.Holds i u → (g.cover b q s).Holds i u := by
    intro i u hib hu
    rw [Holds, at_cover hold]
    exact hu.mono fun n hn => by simpa [accepted, hib] using hn
  constructor
  · intro i p q' hp hp'
    rcases (coveredBy_cover hb).1 hp' with ⟨rfl, -⟩ | ⟨-, hc⟩
    · exact ht.childless i p ((hasParent_cover hb).1 hp) (by simp)
    · exact h.sterile i p q' ((hasParent_cover hb).1 hp) hc
  · intro i q' q'' hi hi'
    rcases (coveredBy_cover hb).1 hi with ⟨-, rfl⟩ | ⟨-, hc⟩
    · rcases (coveredBy_cover hb).1 hi' with ⟨hb, -⟩ | ⟨-, hc'⟩
      · exact hqb hb
      · exact hq.uncovered q'' hc'
    · rcases (coveredBy_cover hb).1 hi' with ⟨hb, -⟩ | ⟨-, hc'⟩
      · exact hnot hc hb
      · exact h.flat i q' q'' hc hc'
  · intro i n hn
    have hat : (g.cover b q s).At i fun m => m = n := ⟨n, hn, rfl⟩
    rw [at_cover hold] at hat
    obtain ⟨m, hm, rfl⟩ := hat
    dsimp only
    split
    · next hiq =>
      refine List.nodup_append.2 ⟨h.once i m hm, by simp, ?_⟩
      rintro x hx y hy rfl
      obtain rfl : x = b := by simpa using hy
      exact hidle (ht.covered i x ⟨m, hm, hx⟩).2.1
    · exact h.once i m hm
  · intro i q' hi
    rcases (coveredBy_cover hb).1 hi with ⟨rfl, rfl⟩ | ⟨hib, hc⟩
    · refine ⟨s, t, ?_, hholds hqb hq.holds, hle⟩
      rw [Holds, at_cover hold]
      exact ⟨old, hold, by simp [accepted]⟩
    · obtain ⟨u, v, hu, hv, huv⟩ := h.below i q' hc
      exact ⟨u, v, hholds hib hu, hholds (hnot hc) hv, huv⟩

/-- A merge hands on what `R` covers to the new node, whose state `t` lies above the one of `R`. -/
theorem CoverWf.merging (trans : ∀ s t u, le s t → le t u → le s u) {S R : GraphNodeId}
    {s n : GraphNode ν} {t : State ν} (hf : Fusible g batch S R s n)
    (habove : ∀ u, g.Holds R u → g.Live R → le (unwrapped u) (unwrapped t)) :
    ((g.merging location S R s n).setState ⟨g.nodes.size⟩ t).CoverWf le := by
  have hparent : ∀ {i p}, ((g.merging location S R s n).setState ⟨g.nodes.size⟩ t).HasParent i p ↔
      (g.merging location S R s n).HasParent i p := at_setState fun _ _ => Iff.rfl
  have hcoverer : ∀ {i q}, ((g.merging location S R s n).setState ⟨g.nodes.size⟩ t).CoveredBy i q ↔
      (g.merging location S R s n).CoveredBy i q := at_setState fun _ _ => Iff.rfl
  have hnew : ∀ {q}, ¬ (g.merging location S R s n).CoveredBy ⟨g.nodes.size⟩ q := by
    intro q hq
    rcases hf.coveredBy.1 hq with ⟨-, ⟨hx, -⟩ | ⟨-, hq⟩⟩
    · exact not_at_size (hf.batchWf.covered R _ hx).2.1
    · exact not_at_size hq
  have hold : ∀ {i q}, (g.merging location S R s n).CoveredBy i q → ∃ q', g.CoveredBy i q' := by
    intro i q hq
    rcases hf.coveredBy.1 hq with ⟨-, ⟨hx, -⟩ | ⟨-, hq⟩⟩
    · exact ⟨R, (hf.batchWf.covered R i hx).2.2⟩
    · exact ⟨q, hq⟩
  have hholds : ∀ {i u}, i ≠ R → g.Holds i u →
      ((g.merging location S R s n).setState ⟨g.nodes.size⟩ t).Holds i u := by
    rintro i u hir ⟨m, hm, hu⟩
    have hne : i ≠ ⟨g.nodes.size⟩ := by
      rintro rfl
      exact not_at_size (P := fun _ => True) ⟨m, hm, trivial⟩
    rw [Holds, at_setState_of_ne hne, hf.at_merging]
    exact .inl ⟨m, hm, by simpa [fused, hir] using hu⟩
  constructor
  · intro i p q hp hq
    have hq := hcoverer.1 hq
    rcases hf.parent_origin (hparent.1 hp) with rfl | ⟨k, hk⟩
    · exact hnew hq
    · obtain ⟨q', hq'⟩ := hold hq
      exact h.sterile k p q' hk hq'
  · intro i q q' hi hq
    have hq := hcoverer.1 hq
    rcases hf.coveredBy.1 (hcoverer.1 hi) with ⟨-, ⟨-, rfl⟩ | ⟨-, hi⟩⟩
    · exact hnew hq
    · obtain ⟨q'', hq''⟩ := hold hq
      exact h.flat i q q'' hi hq''
  · intro i m hm
    have hat : (g.merging location S R s n).At i fun m' => m'.covering = m.covering :=
      (at_setState fun _ _ => Iff.rfl).1 ⟨m, hm, rfl⟩
    rcases hf.at_merging.1 hat with ⟨m', hm', hsame⟩ | ⟨-, hsame⟩
    · have honce := h.once i m' hm'
      rw [← hsame, fused]
      dsimp only
      split
      · exact .nil
      · rw [if_neg fun hnew => not_at_size (P := fun _ => True) ⟨m', hnew ▸ hm', trivial⟩]
        exact honce
    · rw [← hsame]
      simpa [fused, hf.new_ne] using h.once R n hf.reached
  · intro i q hi
    rcases hf.coveredBy.1 (hcoverer.1 hi) with ⟨hir, ⟨hx, rfl⟩ | ⟨hx, hq⟩⟩
    · obtain ⟨hR, -, hc⟩ := hf.batchWf.covered R i hx
      obtain ⟨u, v, hu, hv, huv⟩ := h.below i R hc
      exact ⟨u, t, hholds hir hu, holds_setState (hf.known.2 (.inr rfl)) t,
        trans _ _ _ huv (habove v hv hR)⟩
    · obtain ⟨u, v, hu, hv, huv⟩ := h.below i q hq
      have hqr : q ≠ R := by
        rintro rfl
        exact hx (hf.batchWf.coverer i q hq).2.2
      exact ⟨u, v, hholds hir hu, hholds hqr hv, huv⟩

theorem CoverWf.trimmed {gone : List GraphNodeId} (ht : Trimmed g gone g') (hl : g'.Linked) :
    g'.CoverWf le := by
  have hcover : ∀ {i q}, g'.CoveredBy i q → g.CoveredBy i q ∧ i ∉ gone ∧ q ∉ gone := by
    intro i q hq
    obtain ⟨hi, hlq, -⟩ := hl.coverer i q hq
    obtain ⟨hi, hout⟩ := ht.live.1 hi
    exact ⟨((ht.coveredBy hi hout).1 hq).1, hout, (ht.live.1 hlq).2⟩
  refine h.keep ?_ (fun i q hq => (hcover hq).1) ?_ ?_
  · exact fun i p q hp => h.sterile i p q (ht.hasParent_origin hp)
  · intro i m hm
    by_cases hi : g'.Live i
    · obtain ⟨⟨n, hn, hlive⟩, hout⟩ := ht.live.1 hi
      obtain rfl : ReachGraph.trimmed gone n = m :=
        Option.some.inj ((ht.kept i n hn hlive hout).symm.trans hm)
      exact (h.once i n hn).filter _
    · -- A node that is not live covers nothing.
      have hnone : m.covering = [] :=
        List.eq_nil_iff_forall_not_mem.2 fun x hx => hi (hl.covered i x ⟨m, hm, hx⟩).1
      rw [hnone]
      exact .nil
  · intro i q u hq
    obtain ⟨-, hi, hq⟩ := hcover hq
    exact ⟨(ht.holds hi).2, (ht.holds hq).2⟩

/-- A new root has no parents and is accepted at once. -/
theorem CoverWf.root (ht : g.BatchWf []) (location : Option NodeId) (s : State ν) :
    ((g.addRoot location).2.setState ⟨g.nodes.size⟩ s).CoverWf le := by
  have hcreated : (g.create location []).2.BatchWf [⟨g.nodes.size⟩] := ht.create (by simp)
  obtain ⟨hknown, hidle⟩ := hcreated.idle ⟨g.nodes.size⟩ (by simp)
  have hcovers : (g.create location []).2.CoverWf le := h.create (by simp)
  exact (hcovers.accept hcreated.toLinked hknown hidle).of_at fun _ _ => at_root

end

end ReachGraph

namespace Recorder

variable [LeafValue ν] [Waitlist θ ν] {a : Analysis ν ρ ω} {le : StateRel ν}
  {c' : Scene ν ρ θ}

/-! ## Along recorded explorations -/

open ReachGraph (CoverWf)

theorem Step.coverWf {program : Program} {c : Scene ν ρ θ} (hs : Step a program c c')
    (ho : a.Ordered le) (hr : c.Records) (h : CoverWf le c.graph) : CoverWf le c'.graph := by
  -- The state of an entry is recorded at its node as long as that is live.
  have hstands : ∀ {k e i}, c.reached.get? k = some e → e.state.graphNode? = some i →
      c.graph.Live i → c.graph.Stands i e.state := by
    intro k e i he hi hl
    obtain ⟨j, hj, -, hn⟩ := hr.entry k e he
    obtain rfl : i = j := Option.some.inj (hi.symm.trans hj)
    exact hn.resolve_left fun hm => hm.destroyed.not_live hl
  have hfused : ∀ {k e S R s n m}, Fusion a c k e S R s n m →
      CoverWf le (c.fused S R s n m) := by
    intro k e S R s n m f
    refine h.merging ho.trans f.fusible fun u hu hl => ?_
    rw [hu.unique (hstands f.entry f.node hl).holds]
    obtain ⟨q, -, -, -, p, hmerge⟩ := f.first
    exact ho.merge _ _ p m hmerge
  cases hs with
  | draws => exact h
  | abandons => exact h
  | @sprouts _ e i _ edge _ w hk hi _ _ _ =>
    refine h.create fun p hp q hq => ?_
    obtain rfl : p = i := by simpa using hp
    exact ReachGraph.Records.vacant_of_coveredBy hr hq _ e hk hi
  | rewraps => exact h
  | relocates => exact h
  | drops _ _ hold => exact h.cut hr.batchWf.toLinked hold
  | purges hold _ _ => exact h.cut hr.batchWf.toLinked hold
  | merges f _ => exact hfused f
  | clashes f _ _ _ => exact hfused f
  | covers hb hnode hk hq hmay hstop =>
    rw [Scene.Records, hb, nodesOf_of_cons hnode] at hr
    exact h.cover hr.batchWf (hstands hk hq (live_of_mayCover hmay)) (ho.stop _ _ _ hstop)
  | admits hb hnode _ | strands hb hnode _ =>
    obtain ⟨hknown, hidle⟩ := hr.idle_head hb hnode
    exact h.accept hr.batchWf.toLinked hknown hidle
  | reschedules => exact h

theorem Sowing.coverWf {c : Scene ν ρ θ} {result : Except Failure EntryId}
    (hs : Sowing a c result c') (hr : c.graph.Records [] c.reached) (h : CoverWf le c.graph) :
    CoverWf le c'.graph := by
  cases hs with
  | failed _ => exact h
  | stranded _ => exact h.root hr.batchWf _ _
  | sown _ _ => exact h.root hr.batchWf _ _

theorem History.coverWf {w : World (Memory ω ν)} {r : ReachedSet ν ρ θ} (h : History a w r)
    (ho : a.Ordered le) : CoverWf le w.graph := by
  induction h with
  | start program frontier hempty =>
    rw [hempty]
    exact ReachGraph.coverWf_empty le
  | drift _ hsame ih =>
    rw [hsame]
    exact ih
  | seed h hx hseed hok ih => exact (seed_sowing hx hseed hok).coverWf h.upheld ih
  | run h hx hrun hok ih =>
    exact (run_leads hx h.upheld hrun hok).invariant (I := fun c => CoverWf le c.graph) h.upheld
      (fun _ _ hr hc hs => hs.coverWf ho hr hc) ih
  | @refine _ _ _ _ _ _ _ _ result _ h hrun hok hsame ih =>
    have hup := h.upheld
    rw [hsame]
    cases result with
    | error f =>
      rw [ReachGraph.refine_error_graph hrun fun c hc => hok c (congrArg _ hc)]
      exact ih
    | ok result =>
      have hp := ih.prunable hup.batchWf.toLinked
      exact ih.trimmed (ReachGraph.refine_refined hp hup.sound hrun).graph
        (hup.refine hrun hok).batchWf.toLinked

/-- Whatever a recorded analysis goes through, a covered node is covered by a live node that is not
covered itself, has no children, and its state lies below the state of the node that covers it
now. -/
theorem covered_below_coverer {w : World (Memory ω ν)} {r : ReachedSet ν ρ θ}
    (h : History a w r) (ho : a.Ordered le) {i q : GraphNodeId}
    (hq : w.graph.CoveredBy i q) :
    w.graph.Live q ∧ (∀ q', ¬ w.graph.CoveredBy q q') ∧ (∀ c, ¬ w.graph.HasChild i c) ∧
      ∃ s t, w.graph.Holds i s ∧ w.graph.Holds q t ∧ le (unwrapped s) (unwrapped t) := by
  have hl : w.graph.Linked := h.upheld.batchWf.toLinked
  have hs := h.coverWf ho
  exact ⟨(hl.coverer i q hq).2.1, fun q' => hs.flat i q q' hq,
    fun c => (hs.prunable hl).sterile i q c hq, hs.below i q hq⟩

/-! ## A coverer that is merged away -/

/-- A program with a loop that is reached in two ways. -/
def detour : Program := .ofPairs 1 [(0, 2), (0, 1), (1, 1), (2, 1)]

/-- The facts of the detour, joined at each place and recorded. -/
def detourFacts : Exploration FactValue Level (Memory Facts.Notes FactValue) :=
  { knotFacts with program := detour }

def detourReached : ReachedSet FactValue Level SimpleWaitlist :=
  .ofFrontier detour (.ofOrder .depthFirst)

/-- The loop is explored first, and the node A5 is covered by A4. The detour then merges A4 into
A7. -/
theorem detour_covered_below_coverer : ∃ w r,
    History joinedFacts w (r : ReachedSet FactValue Level SimpleWaitlist) ∧
    joinedFacts.Ordered Facts.inclusion.le ∧
    w.graph.CoveredBy ⟨5⟩ ⟨7⟩ ∧ w.graph.MergedAway ⟨4⟩ ∧
    w.graph.Live ⟨7⟩ ∧ (∀ q', ¬ w.graph.CoveredBy ⟨7⟩ q') ∧ (∀ c, ¬ w.graph.HasChild ⟨5⟩ c) ∧
      ∃ s t, w.graph.Holds ⟨5⟩ s ∧ w.graph.Holds ⟨7⟩ t ∧
        Facts.inclusion.le (unwrapped s) (unwrapped t) := by
  have hrun : (detourFacts.exploreTo .exhausted ⟨0⟩ 10 knotWorld detourReached).any (fun m =>
      ((m.graph.node? ⟨5⟩).any fun n => decide (n.coveredBy = some ⟨7⟩)) &&
        (m.graph.node? ⟨4⟩).any fun n =>
          decide (n.status = .destroyed) && n.mergedWith.isSome) = true := by
    decide +kernel
  obtain ⟨m, hm, hcheck⟩ := (Option.any_eq_true _ _).1 hrun
  rw [Bool.and_eq_true, ReachGraph.any_node?_iff, ReachGraph.any_node?_iff] at hcheck
  have hcover : m.graph.CoveredBy ⟨5⟩ ⟨7⟩ :=
    hcheck.1.mono fun n hn => of_decide_eq_true hn
  have hmerged : m.graph.MergedAway ⟨4⟩ := by
    refine hcheck.2.mono fun n hn => ?_
    rw [Bool.and_eq_true] at hn
    exact ⟨of_decide_eq_true hn.1, hn.2⟩
  have h : History joinedFacts m.meter.world m.reached :=
    history_exploreTo rfl (.start detour _ rfl) hm
  have ho : joinedFacts.Ordered Facts.inclusion.le :=
    (Facts.lawful rfl rfl rfl rfl rfl).ordered
  exact ⟨_, _, h, ho, hcover, hmerged, covered_below_coverer h ho hcover⟩

end Recorder

end ProgramAnalysis
