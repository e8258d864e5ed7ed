import ProgramAnalysis.Proofs.Frontiers
import ProgramAnalysis.Proofs.Mirroring
/-!
What a refinement cuts, and what it schedules again.

A refinement takes the nodes below a point out of the graph, together with the nodes elsewhere that
they cover, and their entries out of the reached set. Nothing may be lost by that: whoever led to a
removed node has to be expanded again. `Reopens` says what a refinement that succeeds leaves, and
`refine_reopens` that it always leaves this, if the graph is consistent and mirrors the reached set
before. What it asks of covered nodes holds of every recorded graph (`reopens_of_history`).
-/

namespace ProgramAnalysis

variable {ν ρ θ σ : Type}

namespace ReachGraph

/-! ## What a refinement leaves -/

/-- The entry of the node waits. -/
def Reopened [Frontier θ] (r : ReachedSet ν ρ θ) (i : GraphNodeId) : Prop :=
  ∃ k e, r.get? k = some e ∧ e.state.graphNode? = some i ∧ r.isWaiting k = true

/-- What a refinement of `g` and `r` at `point` with the given result leaves. -/
structure Reopens [Frontier θ] (g : ReachGraph ν) (r : ReachedSet ν ρ θ) (point : GraphNodeId)
    (result : Refinement) (s : Recorded ν ρ θ) : Prop where
  once : result.pruned.Nodup
  /-- The nodes below the point are pruned, and those that one of them covers. -/
  pruned : ∀ i, i ∈ result.pruned ↔ g.Below point i ∨ ∃ d, g.Below point d ∧ g.Covers d i
  destroyed : ∀ i ∈ result.pruned, s.graph.Destroyed i
  lost : ∀ k e i, r.get? k = some e → e.state.graphNode? = some i → i ∈ result.pruned →
    s.reached.get? k = none
  kept : ∀ k e i, r.get? k = some e → e.state.graphNode? = some i → i ∉ result.pruned →
    ∃ p, s.reached.get? k = some { e with precision := p } ∧
      (k ∉ result.strengthened → p = e.precision)
  added : ∀ k, r.get? k = none → s.reached.get? k = none
  parent : ∀ i p, i ∈ result.pruned → g.HasParent i p → p ∉ result.pruned → Reopened s.reached p
  ancestor : ∀ p, g.Above point p → ¬ g.Below point p → Reopened s.reached p
  waiting : ∀ k, s.reached.isWaiting k = true ↔
    r.isWaiting k = true ∧ (∃ e, s.reached.get? k = some e) ∨ k ∈ result.readded
  consistent : s.graph.fault? = none

variable {g : ReachGraph ν} {r : ReachedSet ν ρ θ}

/-! ## The pruned nodes -/

/-- A node is covered by one node only, so that it is not pruned twice. -/
theorem Prunable.nodup_doomed (hp : g.Prunable) {below : List GraphNodeId} (hbelow : below.Nodup)
    (hlive : ∀ i ∈ below, g.Live i) : (g.doomed below).Nodup := by
  refine List.nodup_append.2 ⟨List.pairwise_flatMap.2 ⟨fun i hi => ?_, ?_⟩, hbelow, ?_⟩
  · obtain ⟨n, hn, -⟩ := hlive i hi
    have hlisted : g.listed GraphNode.covering i = n.covering := by
      rw [listed, hn]
      rfl
    rw [coveredOutside, hlisted]
    exact (hp.once i n hn).filter _
  · refine List.Pairwise.imp_of_mem ?_ hbelow
    rintro i j hi hj hne x hx _ hy rfl
    have hxi := (hp.covered i x (hlive i hi) (mem_coveredOutside.1 hx).1).2
    have hxj := (hp.covered j x (hlive j hj) (mem_coveredOutside.1 hy).1).2
    exact hne (hxi.unique hxj)
  · rintro x hx _ hy rfl
    obtain ⟨i, -, hxi⟩ := List.mem_flatMap.1 hx
    exact (mem_coveredOutside.1 hxi).2 hy

section Refined

variable [Waitlist θ ν] {point i : GraphNodeId} {result : Refinement} {s : Recorded ν ρ θ}

/-! ## The entries -/

namespace Refined

variable (h : Refined g r point result s)

include h

/-- The removed entries are those of the pruned nodes. -/
theorem mem_removed_iff (hp : g.Prunable) (hr : r.Sound) (hm : g.Mirrors r) {k : EntryId}
    {e : Entry ν ρ} (he : r.get? k = some e) (hi : e.state.graphNode? = some i) :
    k ∈ (g.subtree point).filterMap (g.entryOf r) ↔ i ∈ result.pruned := by
  obtain ⟨j, hj, hstands⟩ := hm.stands k e he
  obtain rfl : i = j := Option.some.inj (hi.symm.trans hj)
  rw [List.mem_filterMap, h.mem_pruned]
  constructor
  · rintro ⟨j, hj, hentry⟩
    have hlive : g.Live j := (mem_subtree.1 hj).live hp.toMutual h.live
    obtain ⟨e', he', hnode⟩ := (hm.entryOf_eq_some_iff hr hlive).1 hentry
    obtain rfl : e = e' := Option.some.inj (he.symm.trans he')
    obtain rfl : i = j := Option.some.inj (hi.symm.trans hnode)
    exact .inl (mem_subtree.1 hj)
  · rintro (hbelow | ⟨d, hd, hx⟩)
    · exact ⟨i, mem_subtree.2 hbelow, (hm.entryOf_eq_some_iff hr hstands.live).2 ⟨e, he, hi⟩⟩
    · exact absurd (hp.covered d i (hd.live hp.toMutual h.live) hx).2 (hstands.uncovered d)

/-! ## The frontier -/

/-- What waits afterwards waited before and is left, or was scheduled again. -/
theorem isWaiting_iff [Waitlist.Exact θ ν] (hr : r.Sound) (hs : r.Scheduled) {k : EntryId} :
    s.reached.isWaiting k = true ↔
      r.isWaiting k = true ∧ (∃ e, s.reached.get? k = some e) ∨ k ∈ result.readded := by
  obtain ⟨f, -, hget⟩ := h.get? k
  obtain ⟨r₁, hweighed, hagain⟩ := h.reached
  have hsame : ∀ j, r₁.isWaiting j = r.isWaiting j := fun j => by
    rw [ReachedSet.isWaiting, hweighed.frontier]
    rfl
  have hscheduled : r₁.Scheduled := by
    intro j hj
    rw [hsame] at hj
    obtain ⟨e, he⟩ := hs j hj
    obtain ⟨f, -, hentry⟩ := hweighed.entry j
    rw [he] at hentry
    exact ⟨_, hentry⟩
  have hiff : (s.graph.reschedule (g.revisited point)
        (r₁.removeAll ((g.subtree point).filterMap (g.entryOf r))) []).1.isWaiting k = true ↔ _ :=
    isWaiting_reschedule_iff ((hweighed.sound hr).removeAll _) fun _ hj =>
      absurd hj List.not_mem_nil
  rw [hagain, ReachedSet.isWaiting_removeAll_iff hscheduled, hsame] at hiff
  refine hiff.trans (or_congr_left (and_congr_right fun hk => ?_))
  obtain ⟨e, he⟩ := hs k hk
  rw [hget, he]
  by_cases hremoved : k ∈ (g.subtree point).filterMap (g.entryOf r) <;> simp [hremoved]

/-- A live node that is scheduled again and left has its entry on the frontier. -/
theorem reopened [Waitlist.Exact θ ν] (hp : g.Prunable) (hr : r.Sound) (hs : r.Scheduled)
    (hm : g.Mirrors r) (hrevisited : i ∈ g.revisited point) (hi : g.Live i)
    (huncovered : ∀ q, ¬ g.CoveredBy i q) (hleft : i ∉ result.pruned) : Reopened s.reached i := by
  obtain ⟨k, e, he, hnode⟩ := hm.onto i hi huncovered
  have hkept : k ∉ (g.subtree point).filterMap (g.entryOf r) := fun hin =>
    hleft ((h.mem_removed_iff hp hr hm he hnode).1 hin)
  obtain ⟨f, -, hget⟩ := h.get? k
  rw [if_neg hkept, he] at hget
  refine ⟨k, _, hget, hnode, (h.isWaiting_iff hr hs).2 (.inr ?_)⟩
  obtain ⟨r₁, hweighed, hagain⟩ := h.reached
  have hentry : g.entryOf r₁ i = some k := by
    rw [entryOf_congr rfl hweighed.find?]
    exact (hm.entryOf_eq_some_iff hr hi).2 ⟨e, he, hnode⟩
  have hreadded : k ∈ (s.graph.reschedule (g.revisited point)
      (r₁.removeAll ((g.subtree point).filterMap (g.entryOf r))) []).2 := by
    refine mem_reschedule.2 (.inr ⟨i, hrevisited, ?_⟩)
    rw [h.graph.entryOf_eq hi hleft, entryOf_removeAll (hweighed.sound hr)]
    exact ⟨hentry, hkept⟩
  rw [hagain] at hreadded
  exact hreadded

end Refined

/-! ## The whole refinement -/

/-- In a consistent graph ancestors are live. -/
theorem Above.live (h : g.Above point i) (hc : g.Consistent) (hpoint : g.Live point) :
    g.Live i := by
  induction h with
  | refl => exact hpoint
  | tail _ hp ih => exact (hc.listed ih hp).1

section Whole

variable [Waitlist.Exact θ ν] {f : Strengthening ρ σ} {st st' : σ}

theorem Prunable.reopens (hp : g.Prunable) (hcheck : g.fault? = none) (hm : g.Mirrors r)
    (hr : r.Sound) (hs : r.Scheduled)
    (hrun : ReachGraph.refine f point ⟨g, r⟩ st = (.ok result, s, st')) :
    Reopens g r point result s := by
  have hc : g.Consistent := fault?_eq_none_iff.1 hcheck
  have h := refine_refined hp hr hrun
  -- Whoever leads to a live node is live and has a child, so that it is not covered.
  have hleads : ∀ i p, g.Live i → g.HasParent i p → g.Live p ∧ ∀ q, ¬ g.CoveredBy p q := by
    intro i p hi hlink
    obtain ⟨hl, hchild⟩ := hc.listed hi hlink
    exact ⟨hl, fun q hq => hp.sterile p q i hq hchild⟩
  constructor
  case once =>
    rw [h.pruned]
    exact hp.nodup_doomed (nodup_subtree g point) fun i hi =>
      (mem_subtree.1 hi).live hp.toMutual h.live
  case pruned => exact fun i => h.mem_pruned
  case destroyed => exact fun i hi => h.graph.destroyed hi
  case lost =>
    intro k e i he hi hpruned
    obtain ⟨f, -, hget⟩ := h.get? k
    rw [hget, if_pos ((h.mem_removed_iff hp hr hm he hi).2 hpruned)]
  case kept =>
    intro k e i he hi hleft
    obtain ⟨f, hf, hget⟩ := h.get? k
    rw [if_neg fun hin => hleft ((h.mem_removed_iff hp hr hm he hi).1 hin), he] at hget
    exact ⟨_, hget, fun hk => by rw [hf hk]; rfl⟩
  case added =>
    intro k hnone
    obtain ⟨f, -, hget⟩ := h.get? k
    rw [hget, hnone]
    split <;> rfl
  case parent =>
    intro i p hi hlink hleft
    obtain ⟨hl, hu⟩ := hleads i p (h.live_of_pruned hi) hlink
    refine h.reopened hp hr hs hm (List.mem_append_right _ ?_) hl hu hleft
    refine List.mem_flatMap.2 ⟨i, h.pruned ▸ hi, mem_outsideParents.2 ⟨hlink, fun hin => ?_⟩⟩
    exact hleft (h.mem_pruned.2 (.inl (mem_subtree.1 hin)))
  case ancestor =>
    intro p habove hout
    have hne : p ≠ point := by
      rintro rfl
      exact hout .refl
    obtain ⟨i, hi, hlink⟩ := (Relation.ReflTransGen.cases_tail habove).resolve_left hne
    obtain ⟨hl, hu⟩ := hleads i p (Above.live hi hc h.live) hlink
    have hrevisited : p ∈ g.revisited point := by
      refine List.mem_append_left _ (List.mem_filter.2 ⟨mem_ancestors.2 ⟨habove, hne⟩, ?_⟩)
      simpa [mem_subtree] using hout
    refine h.reopened hp hr hs hm hrevisited hl hu fun hin => ?_
    rcases h.mem_pruned.1 hin with hbelow | ⟨d, hd, hx⟩
    · exact hout hbelow
    · exact hu d (hp.covered d p (hd.live hp.toMutual h.live) hx).2
  case waiting => exact fun k => h.isWaiting_iff hr hs
  case consistent => exact fault?_eq_none_iff.2 (h.graph.consistent hp.toMutual hc)

/-- Along every history covered nodes are live, have no children and are listed once. -/
theorem reopens_of_history [LeafValue ν] {ω : Type} {a : Analysis ν ρ ω}
    {w : World (Recorder.Memory ω ν)} (h : Recorder.History a w r)
    (hcheck : w.graph.fault? = none) (hm : w.graph.Mirrors r) (hs : r.Scheduled)
    (hrun : ReachGraph.refine f point ⟨w.graph, r⟩ st = (.ok result, s, st')) :
    Reopens w.graph r point result s :=
  h.prunable.reopens hcheck hm h.upheld.sound hs hrun

/-- Let the graph be consistent and mirror the reached set, let covered nodes be live and without
children and be listed once, and let nothing but entries wait. Then a refinement that succeeds cuts
the nodes below its point and what they cover, with their entries and nothing else, and everything
that led to a node of the cut waits to be expanded again. -/
theorem refine_reopens (hcheck : g.fault? = none) (hm : g.Mirrors r)
    (hcovered : ∀ i q, g.CoveredBy i q → g.Live i ∧ ∀ c, ¬ g.HasChild i c)
    (honce : ∀ i n, g.node? i = some n → n.covering.Nodup) (hr : r.Sound) (hs : r.Scheduled)
    (hrun : ReachGraph.refine f point ⟨g, r⟩ st = (.ok result, s, st')) :
    Reopens g r point result s := by
  have hc : g.Consistent := fault?_eq_none_iff.1 hcheck
  have hp : g.Prunable :=
    { hc.toMutual fun i q hq => (hcovered i q hq).1 with
      sterile := fun i q c hq => (hcovered i q hq).2 c
      once := honce }
  exact hp.reopens hcheck hm hr hs hrun

end Whole

end Refined

/-! ## A node outside the cut -/

open Recorder (forkResumed course_forkResumed fork_built)

/-- The second branch of the fork is cut at A2. The node A4 is not below it, but covered by it. -/
theorem fork_refine_reopens :
    ∃ (g : ReachGraph FactValue) (r : ReachedSet FactValue Level SimpleWaitlist)
      (result : Refinement) (s : Recorded FactValue Level SimpleWaitlist),
      g.fault? = none ∧ g.Mirrors r ∧
      (∀ i q, g.CoveredBy i q → g.Live i ∧ ∀ c, ¬ g.HasChild i c) ∧
      (∀ i n, g.node? i = some n → n.covering.Nodup) ∧ r.Sound ∧ r.Scheduled ∧
      ReachGraph.refine (fun _ _ => pure (.plain ⟨100⟩)) ⟨2⟩ ⟨g, r⟩ () = (.ok result, s, ()) ∧
      result = ⟨[⟨4⟩, ⟨2⟩], [⟨0⟩], [⟨0⟩]⟩ ∧ Reopens g r ⟨2⟩ result s := by
  have hrun : forkResumed.any (fun m =>
      decide (m.graph.fault? = none) &&
        decide (m.reached.frontier.queue = []) &&
          (ReachGraph.refine (fun _ _ => pure (.plain ⟨100⟩)) ⟨2⟩
            ⟨m.graph, m.reached⟩ ()).1.toOption.any fun result =>
              decide (result = ⟨[⟨4⟩, ⟨2⟩], [⟨0⟩], [⟨0⟩]⟩)) = true := by
    decide +kernel
  obtain ⟨m, hm, hcheck⟩ := (Option.any_eq_true _ _).1 hrun
  rw [Bool.and_eq_true, Bool.and_eq_true] at hcheck
  obtain ⟨⟨hfault, hqueue⟩, hresult⟩ := hcheck
  obtain ⟨result, hsome, hresult⟩ := (Option.any_eq_true _ _).1 hresult
  have hfault := of_decide_eq_true hfault
  have hqueue := of_decide_eq_true hqueue
  have h := course_forkResumed hm
  have hmirrors := h.mirrors (fun _ => id) (Facts.forward rfl rfl rfl rfl rfl)
    (Facts.located rfl rfl rfl rfl rfl _) fork_built.closed
  have hscheduled : m.reached.Scheduled := by
    intro k hk
    have hk : k ∈ m.reached.frontier.queue := SimpleWaitlist.contains_iff.1 hk
    rw [hqueue] at hk
    cases hk
  rcases hrefine : ReachGraph.refine (fun _ _ => pure (.plain ⟨100⟩)) ⟨2⟩
    ⟨m.graph, m.reached⟩ () with ⟨_ | result', s, st⟩
  · rw [hrefine] at hsome
    cases hsome
  · rw [hrefine] at hsome
    cases hsome
    exact ⟨_, _, result, s, hfault, hmirrors, fun _ _ => h.history.covered_sterile,
      h.history.prunable.once, h.history.upheld.sound, hscheduled, hrefine,
      of_decide_eq_true hresult,
      refine_reopens hfault hmirrors (fun _ _ => h.history.covered_sterile)
        h.history.prunable.once h.history.upheld.sound hscheduled hrefine⟩

end ReachGraph

end ProgramAnalysis
