import ProgramAnalysis.Proofs.Paths
/-!
What becomes of the initial state.

The node of the initial state is a root, and it can be merged away like any other node. Its heir is
the live node that stands for it in the end. A refinement spares the heir unless it cuts the graph
at the heir or above it, and then the initial state keeps an entry. Otherwise no entry at all is
left, if the graph is consistent, and a run that follows ends as exhausted at once. The list of
roots does not tell the two apart: once the root was merged away, its heir can lie below nodes that
are not listed (`retained_iff_spared`).
-/

namespace ProgramAnalysis

variable {ν ρ ω θ : Type} {point : GraphNodeId}

open Recorder (unwrapped)

/-- A preorder in which a merged state lies above the reached one. -/
structure Analysis.Preordered (a : Analysis ν ρ ω) (le : StateRel ν) : Prop where
  refl : ∀ s, le s s
  trans : ∀ s t u, le s t → le t u → le s u
  merge : ∀ s r p m, Answers (a.merger.merge s r p) m → le r m

namespace ReachGraph

/-! ## Heirs -/

/-- The node is live and is the root, or took its place. -/
def Heir (g : ReachGraph ν) (root i : GraphNodeId) : Prop :=
  g.Live i ∧ Relation.ReflTransGen g.TookOver root i

/-- No heir of the root is cut off by a refinement at the point. -/
def Spares (g : ReachGraph ν) (root point : GraphNodeId) : Prop :=
  ∀ i, g.Heir root i → ¬ g.Below point i

variable {g g' : ReachGraph ν} {root i j : GraphNodeId}

theorem TookOver.unique (h : g.TookOver i j) {j' : GraphNodeId} (h' : g.TookOver i j') :
    j = j' := by
  obtain ⟨n, hn, -, hj⟩ := h
  have hj' : n.mergedWith = some j' := ((at_iff hn).1 h').2
  rw [hj] at hj'
  exact Option.some.inj hj'

theorem Heir.unique (h : g.Heir root i) (h' : g.Heir root j) : i = j := by
  have hright : Relator.RightUnique g.TookOver := fun _ _ _ ht ht' => ht.unique ht'
  rcases Relation.ReflTransGen.total_of_right_unique hright h.2 h'.2 with hpath | hpath
  · exact h.1.eq_of_path hpath
  · exact (h'.1.eq_of_path hpath).symm

theorem Heir.known (h : g.Heir root i) : g.Known root := by
  rcases Relation.ReflTransGen.cases_head h.2 with rfl | ⟨j, htook, -⟩
  · exact h.1.known
  · exact htook.known

theorem Heir.keep (h : g.Heir root i) (live : ∀ i, g.Live i → g'.Live i)
    (took : ∀ i j, g.TookOver i j → g'.TookOver i j) : g'.Heir root i :=
  ⟨live i h.1, Relation.ReflTransGen.mono took _ _ h.2⟩

/-- As long as the root is live, it is its own heir; and nothing leads to it. -/
theorem spares_of_live (hl : g.Linked) (hroot : g.Live root) (hfirst : ∀ p, ¬ g.HasParent root p)
    (hne : point ≠ root) : g.Spares root point := by
  intro i hi hbelow
  obtain rfl : root = i := hroot.eq_of_path hi.2
  rcases Relation.ReflTransGen.cases_tail hbelow with heq | ⟨p, -, hchild⟩
  · exact hne heq.symm
  · exact hfirst p (hl.child p root hchild).2.2

/-- There is only one heir to look at. -/
theorem spares_of_heir (h : g.Heir root i) (hout : i ∉ g.subtree point) : g.Spares root point := by
  intro j hj hbelow
  obtain rfl := h.unique hj
  exact hout (mem_subtree.2 hbelow)

/-- Who is led to is below. -/
theorem LeadsTo.below {o : GraphNodeId} (h : g.LeadsTo o i) (hm : g.Mutual) (hi : g.Live i) :
    g.Below o i := by
  induction h using Relation.ReflTransGen.head_induction_on with
  | refl => exact .refl
  | head hlink _ ih => exact (ih hlink.2).tail (hm.parent _ _ hi hlink.2 hlink.1)

end ReachGraph

namespace Recorder

open ReachGraph

/-! ## The entry of the heir -/

/-- The reached set has an entry at the place of `e₀` with a live node and a state above. -/
def Retained (le : StateRel ν) (e₀ : Entry ν ρ) (g : ReachGraph ν)
    (r : ReachedSet ν ρ θ) : Prop :=
  ∃ k e i, r.get? k = some e ∧ e.state.graphNode? = some i ∧ g.Live i ∧ e.place = e₀.place ∧
    le (unwrapped e₀.state) (unwrapped e.state)

/-- The only root was the node of `e₀`. It has no parents, and its heir has an entry at the place of
`e₀` with a state above. -/
structure Scene.Seeded (le : StateRel ν) (root : GraphNodeId) (e₀ : Entry ν ρ)
    (c : Scene ν ρ θ) : Prop where
  roots : c.graph.roots = [root]
  first : ∀ p, ¬ c.graph.HasParent root p
  heir : ∃ k e i, c.reached.get? k = some e ∧ e.state.graphNode? = some i ∧
    c.graph.Heir root i ∧ e.place = e₀.place ∧ le (unwrapped e₀.state) (unwrapped e.state)

section Seeded

variable {le : StateRel ν} {root : GraphNodeId} {e₀ : Entry ν ρ} {c c' : Scene ν ρ θ}

section

variable (h : c.Seeded le root e₀) {r : ReachedSet ν ρ θ}

include h

theorem Scene.Seeded.retained : Retained le e₀ c.graph c.reached := by
  obtain ⟨k, e, i, he, hi, hheir, hplace, hle⟩ := h.heir
  exact ⟨k, e, i, he, hi, hheir.1, hplace, hle⟩

theorem Scene.Seeded.known : c.graph.Known root := by
  obtain ⟨_, _, _, _, _, hheir, _⟩ := h.heir
  exact hheir.known

theorem Scene.Seeded.ne_newNode : root ≠ c.newNode := by
  rintro rfl
  exact not_at_size h.known

/-- Other nodes change, and no entry is lost. -/
theorem Scene.Seeded.keep (roots : c'.graph.roots = c.graph.roots)
    (first : ∀ p, c'.graph.HasParent root p → c.graph.HasParent root p)
    (live : ∀ i, c.graph.Live i → c'.graph.Live i)
    (took : ∀ i j, c.graph.TookOver i j → c'.graph.TookOver i j)
    (entry : ∀ k e, c.reached.get? k = some e → c'.reached.get? k = some e) :
    c'.Seeded le root e₀ := by
  obtain ⟨k, e, i, he, hi, hheir, habove⟩ := h.heir
  exact ⟨roots.trans h.roots, fun p hp => h.first p (first p hp),
    k, e, i, entry k e he, hi, hheir.keep live took, habove⟩

theorem Scene.Seeded.of_graph {next : Handle} {batch : Batch ν}
    (entry : ∀ k e, c.reached.get? k = some e → r.get? k = some e) :
    (⟨c.graph, next, batch, r⟩ : Scene ν ρ θ).Seeded le root e₀ :=
  h.keep rfl (fun _ hp => hp) (fun _ hi => hi) (fun _ _ ht => ht) entry

/-- A successor becomes live. -/
theorem Scene.Seeded.settle {g : ReachGraph ν} {s : State ν} {l : NodeId}
    {rest : Batch ν} {b : GraphNodeId} (hr : c.Records) (hgrounded : c.Grounded)
    (hb : c.batch = (s, l) :: rest) (hnode : s.graphNode? = some b) (hg : c.graph.Settles b g)
    (entry : ∀ k e, c.reached.get? k = some e → r.get? k = some e) :
    (⟨g, c.next, rest, r⟩ : Scene ν ρ θ).Seeded le root e₀ := by
  obtain ⟨p, hp⟩ := hgrounded.waiting b (by rw [hb, nodesOf_of_cons hnode]; simp)
  refine h.keep hg.roots (fun p hp => (hg.parent root p).1 hp) (fun i hi => (hg.live i).2 (.inl hi))
    (fun i j ht => hg.took i j ?_ ht) entry
  rintro rfl
  exact hr.batchWf.bare i p hp ht.destroyed

end

variable [LeafValue ν] [Waitlist θ ν] {a : Analysis ν ρ ω} {program : Program} {k : EntryId}
  {result : ReachGraph.Refinement} {s : ReachGraph.Recorded ν ρ θ}

/-- If the heir is merged away, the merged node is the next heir, and its entry has the same
place. -/
theorem Fusion.seeded {k' : EntryId} {e : Entry ν ρ} {S R : GraphNodeId} {s n : GraphNode ν}
    {m : State ν} {p : Precision ρ} {r : ReachedSet ν ρ θ} (f : Fusion a c k e S R s n m)
    (ho : a.Preordered le) (hr : c.Records) (hx : c.Exact) (hgrounded : c.Grounded)
    (hadd : (c.reached.remove k).2.add ⟨c.newState m, p, e.location, e.partition⟩ = .ok (k', r))
    (h : c.Seeded le root e₀) :
    (⟨c.fused S R s n m, c.next.next, c.batch, r⟩ : Scene ν ρ θ).Seeded le root e₀ := by
  have hR : c.graph.Live R := hx.live k e R f.entry f.node
  have htook : ∀ i j, c.graph.TookOver i j → (c.fused S R s n m).TookOver i j := fun i j ht =>
    f.tookOver hr hR hgrounded ht
  refine ⟨Scene.roots_fused.trans h.roots, fun q hq => ?_, ?_⟩
  · rcases f.fusible.hasParent.1 (Scene.hasParent_fused.1 hq) with ⟨hnew, -⟩ | ⟨-, -, q', hq', -⟩ |
      ⟨-, -, hq⟩
    · exact h.ne_newNode hnew
    · exact h.first q' hq'
    · exact h.first q hq
  · obtain ⟨j, e', i, he', hi, hheir, hplace, hle⟩ := h.heir
    by_cases hjk : j = k
    · subst hjk
      obtain rfl : e = e' := Option.some.inj (f.entry.symm.trans he')
      obtain rfl : R = i := Option.some.inj (f.node.symm.trans hi)
      obtain ⟨q, rest, -, -, p', hmerge⟩ := f.first
      have hpath : Relation.ReflTransGen (c.fused S R s n m).TookOver root R :=
        Relation.ReflTransGen.mono htook _ _ hheir.2
      exact ⟨k', ⟨c.newState m, p, e.location, e.partition⟩, c.newNode,
        by rw [ReachedSet.get?_add hadd, if_pos rfl], rfl,
        ⟨f.live.2 (.inr rfl), hpath.tail (Scene.tookOver_fused.2 f.fusible.tookOver_reached)⟩,
        hplace, ho.trans _ _ _ hle (ho.merge _ _ _ _ hmerge)⟩
    · have hir : i ≠ R := by
        rintro rfl
        exact hjk (hx.eq_of_node hr he' f.entry hi f.node)
      have hleft := ReachedSet.get?_remove_eq_some.2 ⟨hjk, he'⟩
      exact ⟨j, e', i, ReachedSet.get?_add_of_some hadd j e' hleft, hi,
        ⟨f.live.2 (.inl ⟨hheir.1, hir⟩), Relation.ReflTransGen.mono htook _ _ hheir.2⟩, hplace, hle⟩

theorem Step.seeded (hs : Step a program c c') (ho : a.Preordered le) (hr : c.Records)
    (hx : c.Exact) (hgrounded : c.Grounded) (h : c.Seeded le root e₀) : c'.Seeded le root e₀ := by
  have hcut : ∀ {b old batch}, ¬ c.graph.Live b → c.graph.node? b = some old →
      (⟨c.graph.cut b old, c.next, batch, c.reached⟩ : Scene ν ρ θ).Seeded le root e₀ := by
    intro b old batch hidle hold
    exact h.keep (c.graph.cut_roots b old) (fun p hp => ((hasParent_cut hold).1 hp).1)
      (fun i hi => (live_cut_of_not_live hidle).2 hi) (fun _ _ ht => ht.cut)
      fun _ _ he => he
  cases hs with
  | draws => exact h.of_graph fun _ _ he => he
  | abandons => exact h.of_graph fun _ _ he => he
  | sprouts =>
    refine h.keep rfl (fun p hp => ?_)
      (fun i hi => (at_create_of_not (by simp)).2 hi) (fun _ _ ht => ht.create)
      fun _ _ he => he
    rcases hasParent_create.1 hp with hp | ⟨hnew, -⟩
    · exact hp
    · exact absurd hnew h.ne_newNode
  | rewraps => exact h.of_graph fun _ _ he => he
  | relocates => exact h.of_graph fun _ _ he => he
  | @drops _ _ s l _ _ hb hnode hold =>
    exact hcut (hr.idle (q := (s, l)) (by simp [hb]) hnode).2 hold
  | purges hold hlive _ => exact hcut hlive hold
  | merges f hadd => exact f.seeded ho hr hx hgrounded hadd h
  | clashes _ hj hsame _ => exact absurd hsame (hx.handle_ne hr hj)
  | covers hb hnode _ _ _ _ =>
    exact h.settle hr hgrounded hb hnode (settles_cover (hr.idle_head hb hnode).1)
      fun _ _ he => he
  | admits hb hnode hadd =>
    exact h.settle hr hgrounded hb hnode (settles_accept (hr.idle_head hb hnode).1)
      (ReachedSet.get?_add_of_some hadd)
  | strands hb hnode _ =>
    exact h.settle hr hgrounded hb hnode (settles_accept (hr.idle_head hb hnode).1)
      fun _ _ he => he
  | @reschedules r hsame _ =>
    refine h.of_graph fun k e he => ?_
    rw [ReachedSet.get?, hsame]
    exact he

/-- The entry of an initial state has the new node. -/
theorem Sowing.entry (hs : Sowing a c (.ok k) c') :
    ∃ e, c'.reached.get? k = some e ∧ e.state.graphNode? = some c.newNode := by
  cases hs with
  | sown _ hadd => exact ⟨_, by rw [ReachedSet.get?_add hadd, if_pos rfl], rfl⟩

/-- The first initial state is its own heir. -/
theorem Sowing.seeded (hs : Sowing a c (.ok k) c') (hrefl : ∀ s, le s s)
    (hempty : c.graph.roots = []) (he₀ : c'.reached.get? k = some e₀)
    (hroot : e₀.state.graphNode? = some root) : c'.Seeded le root e₀ := by
  cases hs with
  | sown _ hadd =>
    have hnew := he₀
    rw [ReachedSet.get?_add hadd, if_pos rfl] at hnew
    cases hnew
    obtain rfl : c.newNode = root := Option.some.inj hroot
    refine ⟨?_, fun p hp => ?_, k, _, c.newNode, he₀, rfl,
      ⟨live_root.2 (.inr rfl), .refl⟩, rfl, hrefl _⟩
    · show c.graph.roots ++ [c.newNode] = [c.newNode]
      rw [hempty]
      rfl
    · have hp := (hasParent_accept known_create).1 (at_root.1 hp)
      rcases hasParent_create.1 hp with hp | ⟨-, hp⟩
      · exact not_at_size hp
      · cases hp

omit [LeafValue ν] in
/-- The heir is not covered, so that it is only pruned if it is below the point. -/
theorem Scene.Seeded.refine {next : Handle} (h : c.Seeded le root e₀) (hr : c.Records)
    (hx : c.Exact) (hp : c.graph.Prunable)
    (hcut : ReachGraph.Refined c.graph c.reached point result s)
    (hspares : c.graph.Spares root point) :
    (⟨s.graph, next, [], s.reached⟩ : Scene ν ρ θ).Seeded le root e₀ := by
  obtain ⟨k, e, i, he, hi, hheir, hplace, hle⟩ := h.heir
  obtain ⟨i', hi', hstands⟩ := hx.stands hr he
  obtain rfl : i = i' := Option.some.inj (hi.symm.trans hi')
  have hleft : i ∉ result.pruned := by
    intro hin
    rcases hcut.mem_pruned.1 hin with hbelow | ⟨d, hd, hcovers⟩
    · exact hspares i hheir hbelow
    · exact hstands.uncovered d (hp.covered d i (hd.live hp.toMutual hcut.live) hcovers).2
  obtain ⟨p, hget⟩ := hx.entry_left hr hcut he hi hleft
  exact ⟨hcut.graph.roots.trans h.roots, fun p hp => h.first p (hcut.graph.hasParent_origin hp),
    k, _, i, hget, hi, ⟨hcut.graph.live.2 ⟨hheir.1, hleft⟩,
      Relation.ReflTransGen.mono (fun _ _ ht => hcut.graph.tookOver ht) _ _ hheir.2⟩, hplace, hle⟩

omit [LeafValue ν] in
/-- In a consistent graph all live nodes are below the heir. If it is pruned, they all are. -/
theorem Scene.Seeded.nothing_left (h : c.Seeded le root e₀) (hr : c.Records) (hx : c.Exact)
    (hgrounded : c.Grounded) (hp : c.graph.Prunable) (hcheck : c.graph.fault? = none)
    (hcut : ReachGraph.Refined c.graph c.reached point result s)
    (hlost : ¬ c.graph.Spares root point) (k : EntryId) : s.reached.get? k = none := by
  obtain ⟨i, hheir, hbelow⟩ : ∃ i, c.graph.Heir root i ∧ c.graph.Below point i := by
    simpa [ReachGraph.Spares] using hlost
  refine Option.eq_none_iff_forall_ne_some.2 fun e he => ?_
  obtain ⟨-, e₁, he₁, hstate⟩ := hcut.origin he
  obtain ⟨j, -, hstands⟩ := hx.stands hr he₁
  obtain ⟨o, ⟨root', hroot', hpath⟩, ho, hleads⟩ := (hgrounded.all j hstands.live).exists_origin
    (fault?_eq_none_iff.1 hcheck)
  rw [h.roots, List.mem_singleton] at hroot'
  subst hroot'
  obtain rfl : i = o := hheir.unique ⟨ho, hpath⟩
  have hdown : c.graph.Below point j :=
    Relation.ReflTransGen.trans hbelow (hleads.below hp.toMutual hstands.live)
  refine hcut.not_pruned hp hr.sound he ?_ (hcut.mem_pruned.2 (.inl hdown))
  rw [hstate]
  exact hstands

end Seeded

/-! ## What follows an initial state -/

section Sequel

variable [LeafValue ν] [Waitlist θ ν]

/-- What a recorded analysis goes through after its initial state was found: runs that end in any
way but a crash, and refinements that succeed, at the points that `allowed` admits. -/
inductive Sequel (a : Analysis ν ρ ω) (program : Program)
    (allowed : ReachGraph ν → GraphNodeId → Prop) (w₁ : World (Memory ω ν))
    (r₁ : ReachedSet ν ρ θ) : World (Memory ω ν) → ReachedSet ν ρ θ → Prop where
  | start : Sequel a program allowed w₁ r₁ w₁ r₁
  | drift {w w' : World (Memory ω ν)} {r} :
      Sequel a program allowed w₁ r₁ w r → w'.graph = w.graph →
      w.next.serial ≤ w'.next.serial → Sequel a program allowed w₁ r₁ w' r
  | run {w r} {x : Exploration ν ρ (Memory ω ν)} {counters targets fuel result m} :
      Sequel a program allowed w₁ r₁ w r → x.analysis = analysis a → x.program = program →
      x.run fuel ⟨⟨w, counters⟩, r, targets⟩ = some (result, m) →
      (∀ c, result ≠ .error (.crash c)) →
      Sequel a program allowed w₁ r₁ m.meter.world m.reached
  | refine {w w' : World (Memory ω ν)} {r} {σ : Type} {f : ReachGraph.Strengthening ρ σ}
      {point} {st st' : σ} {result s} :
      Sequel a program allowed w₁ r₁ w r → allowed w.graph point →
      ReachGraph.refine f point ⟨w.graph, r⟩ st = (.ok result, s, st') →
      w'.graph = s.graph → w.next.serial ≤ w'.next.serial →
      Sequel a program allowed w₁ r₁ w' s.reached

variable {a : Analysis ν ρ ω} {program : Program} {allowed : ReachGraph ν → GraphNodeId → Prop}
  {found : Except Failure EntryId → Prop} {w₁ w : World (Memory ω ν)} {r₁ r : ReachedSet ν ρ θ}

theorem Sequel.course (h : Sequel a program allowed w₁ r₁ w r)
    (h₁ : Course a program found True w₁ r₁) : Course a program found True w r := by
  induction h with
  | start => exact h₁
  | drift _ hsame hle ih => exact .drift ih hsame hle
  | run _ hx hprogram hrun hok ih => exact .run ih hx hprogram hrun hok
  | refine _ _ hrun hsame hle ih => exact .refine ih trivial hrun hsame hle

theorem Sequel.resumeAt {x : Exploration ν ρ (Memory ω ν)} {fuel : Nat}
    {m m' : Machine ν ρ (Memory ω ν) θ} (hx : x.analysis = analysis a)
    (h : Sequel a x.program allowed w₁ r₁ m.meter.world m.reached)
    (hpoint : allowed m.graph point) (hm : resumeAt x point fuel m = some m') :
    Sequel a x.program allowed w₁ r₁ m'.meter.world m'.reached := by
  obtain ⟨result, s, hrefine, hrun⟩ := resumeAt_eq_some hm
  have hcut : Sequel a x.program allowed w₁ r₁ (withGraph m.meter.world s.graph) s.reached :=
    .refine h hpoint hrefine rfl (Nat.le_refl _)
  exact .run hcut hx rfl hrun fun c hc => by cases hc

theorem Sequel.seeded {le : StateRel ν} {root : GraphNodeId} {e₀ : Entry ν ρ}
    (h : Sequel a program (fun g p => g.Spares root p) w₁ r₁ w r) (hf : a.Forward)
    (hp : program.Ascending) (ho : a.Preordered le) (h₁ : Course a program found True w₁ r₁)
    (hstart : (sceneOf w₁ r₁).Seeded le root e₀) : (sceneOf w r).Seeded le root e₀ := by
  induction h with
  | start => exact hstart
  | drift _ hsame _ ih =>
    rw [sceneOf_eq hsame]
    exact ih.of_graph fun _ _ he => he
  | run h hx hprogram hrun hok ih =>
    have hcourse := h.course h₁
    have hall := (run_leads hx hcourse.history.upheld hrun hok).invariant
      (I := fun c => c.Exact ∧ c.Grounded ∧ c.Seeded le root e₀) hcourse.history.upheld
      (fun c c' hr hc hs => by
        rw [hprogram] at hs
        exact ⟨hs.exact hf hr hc.1, hs.grounded hp hr hc.1 hc.2.1,
          hs.seeded ho hr hc.1 hc.2.1 hc.2.2⟩)
      ⟨hcourse.exact hf, hcourse.grounded hf hp, ih⟩
    exact hall.2.2
  | refine h hspares hrun hsame _ ih =>
    have hcourse := h.course h₁
    have hpr := hcourse.history.prunable
    rw [sceneOf_eq hsame]
    exact ih.refine hcourse.history.upheld (hcourse.exact hf) hpr
      (refine_refined hpr hcourse.history.upheld.sound hrun) hspares

/-- The initial state is found, and then come runs and refinements that spare its heir. All the time
the reached set has an entry at its place with a live node and a state above. While the root is live,
every refinement at an unlisted point spares the heir. And if the check of the graph finds nothing, a
refinement keeps such an entry exactly if it spares the heir; if not, it removes all entries. -/
theorem retained_iff_spared {le : StateRel ν}
    {x : Exploration ν ρ (Memory ω ν)} {n : NodeId} {part : Partition} {frontier : θ}
    {w₀ : World (Memory ω ν)} {k₀ : EntryId} {e₀ : Entry ν ρ} {root : GraphNodeId}
    (hf : a.Forward) (hp : program.Built) (ho : a.Preordered le) (hx : x.analysis = analysis a)
    (hempty : w₀.graph = .empty)
    (hseed : x.seed n part w₀ (.ofFrontier program frontier) = (.ok k₀, w₁, r₁))
    (he₀ : r₁.get? k₀ = some e₀) (hroot : e₀.state.graphNode? = some root)
    (h : Sequel a program (fun g p => g.Spares root p) w₁ r₁ w r) :
    Retained le e₀ w.graph r ∧ (w.graph.Live root →
        ∀ point, point ∉ w.graph.roots → w.graph.Spares root point) ∧
      (w.graph.fault? = none →
        ∀ {σ : Type} (f : ReachGraph.Strengthening ρ σ) (point : GraphNodeId) (st : σ) result s st',
          ReachGraph.refine f point ⟨w.graph, r⟩ st = (.ok result, s, st') →
          (Retained le e₀ s.graph s.reached ↔ w.graph.Spares root point) ∧
            (¬ w.graph.Spares root point → ∀ k, s.reached.get? k = none)) := by
  have hfirst : (sceneOf w₁ r₁).Seeded le root e₀ := by
    refine (seed_sowing hx hseed fun c hc => by cases hc).seeded ho.refl ?_ he₀ hroot
    rw [sceneOf_eq hempty]
    rfl
  have h₁ : Course a program (fun _ => True) True w₁ r₁ :=
    .seed (.start frontier hempty) hx hseed trivial fun c hc => by cases hc
  have hcourse := h.course h₁
  have hup := hcourse.history.upheld
  have hpr := hcourse.history.prunable
  have hs := h.seeded hf hp.ascending ho h₁ hfirst
  refine ⟨hs.retained, fun hlive point hout => ?_, fun hcheck σ f point st result s st' hrun => ?_⟩
  · refine spares_of_live hup.batchWf.toLinked hlive hs.first ?_
    rintro rfl
    exact hout (by rw [show w.graph.roots = [point] from hs.roots]; simp)
  · have hcut := refine_refined hpr hup.sound hrun
    have hnone := hs.nothing_left hup (hcourse.exact hf) (hcourse.grounded hf hp.ascending) hpr
      hcheck hcut
    refine ⟨⟨fun hkept => ?_, fun hspares => ?_⟩, hnone⟩
    · by_contra hlost
      obtain ⟨k, e, i, he, -⟩ := hkept
      rw [hnone hlost k] at he
      cases he
    · have hkept : (⟨s.graph, w.next, [], s.reached⟩ : Scene ν ρ θ).Seeded le root e₀ :=
        hs.refine hup (hcourse.exact hf) hpr hcut hspares
      exact hkept.retained

end Sequel

/-! ## A root that is merged away -/

/-- A program that only goes to and fro between its entry and its exit. -/
def orbit : Program := .ofPairs 0 [(0, 1), (1, 0)]

theorem orbit_built : orbit.Built := .of_redraft rfl rfl rfl rfl

/-- The facts of the orbit, joined at each place and recorded. -/
def orbitFacts : Exploration FactValue Level (Memory Facts.Notes FactValue) :=
  { knotFacts with program := orbit }

def orbitReached : ReachedSet FactValue Level SimpleWaitlist :=
  .ofFrontier orbit (.ofOrder .breadthFirst)

/-- The way back merges the entry's node A0 into A3. A refinement at A6, which A3 covers, spares
A3. -/
theorem orbit_retained_iff_spared : ∃ k w₁ r₁ e w r,
    joinedFacts.Forward ∧ orbit.Built ∧
    joinedFacts.Preordered Facts.inclusion.le ∧
    orbitFacts.seed ⟨0⟩ .whole knotWorld orbitReached = (.ok k, w₁, r₁) ∧
    r₁.get? k = some e ∧ e.state.graphNode? = some ⟨0⟩ ∧
    Sequel joinedFacts orbit (fun g p => g.Spares ⟨0⟩ p) w₁ r₁ w r ∧
    ¬ w.graph.Live ⟨0⟩ ∧
    Retained Facts.inclusion.le e w.graph r ∧ (w.graph.Live ⟨0⟩ →
        ∀ point, point ∉ w.graph.roots → w.graph.Spares ⟨0⟩ point) ∧
      (w.graph.fault? = none →
        ∀ {σ : Type} (f : ReachGraph.Strengthening Level σ) (point : GraphNodeId) (st : σ)
          result s st', ReachGraph.refine f point ⟨w.graph, r⟩ st = (.ok result, s, st') →
          (Retained Facts.inclusion.le e s.graph s.reached ↔ w.graph.Spares ⟨0⟩ point) ∧
          (¬ w.graph.Spares ⟨0⟩ point → ∀ k, s.reached.get? k = none)) := by
  have hrun : (orbitFacts.exploreTo .exhausted ⟨0⟩ 10 knotWorld orbitReached).any (fun m =>
      ((m.graph.node? ⟨0⟩).any fun n =>
        decide (n.status = .destroyed ∧ n.mergedWith = some ⟨3⟩)) &&
        m.graph.isLive ⟨3⟩ &&
          !(m.graph.subtree ⟨6⟩).contains ⟨3⟩ &&
            (resumeAt orbitFacts ⟨6⟩ 10 m).any fun m' =>
              !m'.graph.isLive ⟨0⟩) = true := by
    decide +kernel
  obtain ⟨m, hm, hcheck⟩ := (Option.any_eq_true _ _).1 hrun
  rw [Bool.and_eq_true, Bool.and_eq_true, Bool.and_eq_true, any_node?_iff] at hcheck
  obtain ⟨⟨⟨htook, hlive⟩, hout⟩, hresumed⟩ := hcheck
  obtain ⟨m', hm', hgone⟩ := (Option.any_eq_true _ _).1 hresumed
  obtain ⟨k, w₁, r₁, hseed, hrun⟩ := Exploration.exploreTo_eq_some hm
  have hheir : m.graph.Heir ⟨0⟩ ⟨3⟩ :=
    ⟨isLive_iff.1 hlive, .single (htook.mono fun n hn => of_decide_eq_true hn)⟩
  have hsequel : Sequel joinedFacts orbit (fun g p => g.Spares ⟨0⟩ p)
      w₁ r₁ m'.meter.world m'.reached := by
    refine Sequel.resumeAt (x := orbitFacts) rfl
      (.run .start rfl rfl hrun fun c hc => by cases hc) (spares_of_heir hheir ?_) hm'
    simpa using hout
  obtain ⟨e, he, hnode⟩ :=
    (seed_sowing (x := orbitFacts) rfl hseed fun c hc => by cases hc).entry
  have hf : joinedFacts.Forward := Facts.forward rfl rfl rfl rfl rfl
  have ho : joinedFacts.Preordered Facts.inclusion.le :=
    ⟨Facts.inclusion.refl, fun _ _ _ => Facts.inclusion.trans,
      (Facts.lawful rfl rfl rfl rfl rfl).ordered.merge⟩
  exact ⟨k, w₁, r₁, e, _, _, hf, orbit_built, ho, hseed, he, hnode, hsequel,
    fun hl => by simp [isLive_iff.2 hl] at hgone,
    retained_iff_spared hf orbit_built ho rfl rfl hseed he hnode hsequel⟩

/-- The node A5 is not listed as a root, and is live. But A0 was merged into A3, which is below A5:
after a refinement at A5 nothing is left of the initial state, and the next run finds nothing to
do. -/
theorem orbit_initial_state_lost : ∃ k w₁ r₁ m result s m',
    orbitFacts.seed ⟨0⟩ .whole knotWorld orbitReached = (.ok k, w₁, r₁) ∧
    orbitFacts.run 10 ⟨⟨w₁, {}⟩, r₁, []⟩ = some (.ok .exhausted, m) ∧
    m.graph.fault? = none ∧ m.graph.Live ⟨5⟩ ∧
    ⟨5⟩ ∉ m.graph.roots ∧
    ReachGraph.refine (fun _ p => pure p) ⟨5⟩ ⟨m.graph, m.reached⟩ () = (.ok result, s, ()) ∧
    orbitFacts.run 10 ⟨⟨withGraph m.meter.world s.graph, {}⟩, s.reached, []⟩ =
      some (.ok .exhausted, m') ∧
    Sequel joinedFacts orbit (fun g p => p ∉ g.roots) w₁ r₁
      m'.meter.world m'.reached ∧
    ∀ e, ¬ Retained Facts.inclusion.le e m'.graph m'.reached := by
  have hrun : (orbitFacts.exploreTo .exhausted ⟨0⟩ 10 knotWorld orbitReached).any (fun m =>
      decide (m.graph.fault? = none) &&
        m.graph.isLive ⟨5⟩ &&
          decide (⟨5⟩ ∉ m.graph.roots) &&
            (resumeAt orbitFacts ⟨5⟩ 10 m).any fun m' =>
              m'.reached.store.entries.isEmpty) = true := by
    decide +kernel
  obtain ⟨m, hm, hcheck⟩ := (Option.any_eq_true _ _).1 hrun
  rw [Bool.and_eq_true, Bool.and_eq_true, Bool.and_eq_true] at hcheck
  obtain ⟨⟨⟨hfault, hlive⟩, hout⟩, hresumed⟩ := hcheck
  obtain ⟨m', hm', hgone⟩ := (Option.any_eq_true _ _).1 hresumed
  obtain ⟨k, w₁, r₁, hseed, hrun⟩ := Exploration.exploreTo_eq_some hm
  obtain ⟨result, s, hrefine, hagain⟩ := resumeAt_eq_some hm'
  refine ⟨k, w₁, r₁, m, result, s, m', hseed, hrun, of_decide_eq_true hfault,
    isLive_iff.1 hlive, of_decide_eq_true hout, hrefine, hagain, ?_, ?_⟩
  · exact Sequel.resumeAt (x := orbitFacts) rfl
      (.run .start rfl rfl hrun fun c hc => by cases hc) (of_decide_eq_true hout) hm'
  · rintro e ⟨j, f, i, hf, -⟩
    have hin := Store.mem_entries.2 hf
    rw [List.isEmpty_iff.1 hgone] at hin
    cases hin

end Recorder

end ProgramAnalysis
