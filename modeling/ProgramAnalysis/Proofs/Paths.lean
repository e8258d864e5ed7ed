import ProgramAnalysis.Proofs.Mirroring
/-!
Paths from the roots to the live nodes.

A path to a live node is found exactly if one of the listed roots leads to it. Every node is led to
by a root at first, but a root can be merged away like any other node, and the node that takes its
place is not listed. `Origin` are the roots and all that took their places. Along a course every
live node of a consistent graph is led to by a live origin, so that a path can only be missing
because a root was merged away (`path_isSome_iff_rooted`).
-/

namespace ProgramAnalysis

variable {ν ρ ω θ : Type}

namespace ReachGraph

/-! ## Origins -/

/-- The node `i` was destroyed when it was merged into `j`. -/
def TookOver (g : ReachGraph ν) (i j : GraphNodeId) : Prop :=
  g.At i fun n => n.status = .destroyed ∧ n.mergedWith = some j

/-- A root, or a node that took the place of one. -/
def Origin (g : ReachGraph ν) (i : GraphNodeId) : Prop :=
  ∃ root ∈ g.roots, Relation.ReflTransGen g.TookOver root i

variable {g g' : ReachGraph ν} {i j p : GraphNodeId}

theorem TookOver.destroyed (h : g.TookOver i j) : g.Destroyed i := h.mono fun _ hn => hn.1

/-- Nothing took the place of a live node. -/
theorem Live.eq_of_path (h : g.Live i) (hpath : Relation.ReflTransGen g.TookOver i j) : i = j := by
  rcases Relation.ReflTransGen.cases_head hpath with heq | ⟨k, htook, -⟩
  · exact heq
  · exact absurd h htook.destroyed.not_live

theorem Origin.mono (h : g.Origin i) (hroots : ∀ root ∈ g.roots, root ∈ g'.roots)
    (htook : ∀ i j, g.TookOver i j → g'.TookOver i j) : g'.Origin i := by
  obtain ⟨root, hroot, hpath⟩ := h
  exact ⟨root, hroots root hroot, Relation.ReflTransGen.mono htook _ _ hpath⟩

/-- As long as the roots are live, nothing takes their places. -/
theorem Origin.mem_roots (h : g.Origin i) (hlive : ∀ root ∈ g.roots, g.Live root) :
    i ∈ g.roots := by
  obtain ⟨root, hroot, hpath⟩ := h
  rw [← (hlive root hroot).eq_of_path hpath]
  exact hroot

/-! ## Grounded nodes -/

/-- The node is live and is led to by an origin, or by a node that was merged away. -/
inductive Grounded (g : ReachGraph ν) : GraphNodeId → Prop where
  | origin {i : GraphNodeId} : g.Live i → g.Origin i → Grounded g i
  | orphan {i p j : GraphNodeId} : g.Live i → g.HasParent i p → g.TookOver p j → Grounded g i
  | child {i p : GraphNodeId} : g.Live i → g.HasParent i p → Grounded g p → Grounded g i

theorem Grounded.live (h : g.Grounded i) : g.Live i := by
  cases h with
  | origin hi _ => exact hi
  | orphan hi _ _ => exact hi
  | child hi _ _ => exact hi

/-- A change of the graph that turns each live node `i` into `f i` keeps the nodes grounded if it
keeps their parents. -/
theorem Grounded.map {f : GraphNodeId → GraphNodeId} (h : g.Grounded i)
    (live : ∀ i, g.Live i → g'.Live (f i))
    (link : ∀ i p, g.Live i → g.HasParent i p → g.Live p → g'.HasParent (f i) (f p))
    (lost : ∀ i p, g.Live i → g.HasParent i p → g.Destroyed p → g'.HasParent (f i) p)
    (took : ∀ i j, g.TookOver i j → g'.TookOver i j)
    (origin : ∀ i, g.Live i → g.Origin i → g'.Origin (f i)) : g'.Grounded (f i) := by
  induction h with
  | origin hi ho => exact .origin (live _ hi) (origin _ hi ho)
  | orphan hi hp ht => exact .orphan (live _ hi) (lost _ _ hi hp ht.destroyed) (took _ _ ht)
  | child hi hp hg ih => exact .child (live _ hi) (link _ _ hi hp hg.live) ih

/-- A change that leaves the live nodes and their parents as they are. -/
theorem Grounded.keep (h : g.Grounded i) (live : ∀ i, g.Live i → g'.Live i)
    (link : ∀ i p, g.Live i → g.HasParent i p → g'.HasParent i p)
    (took : ∀ i j, g.TookOver i j → g'.TookOver i j) (roots : ∀ root ∈ g.roots, root ∈ g'.roots) :
    g'.Grounded i :=
  h.map (f := id) live (fun i p hi hp _ => link i p hi hp) (fun i p hi hp _ => link i p hi hp) took
    fun _ _ ho => ho.mono roots took

/-- In a consistent graph no parent was merged away, so that the origin is reached. -/
theorem Grounded.exists_origin (h : g.Grounded i) (hc : g.Consistent) :
    ∃ o, g.Origin o ∧ g.Live o ∧ g.LeadsTo o i := by
  induction h with
  | origin hi ho => exact ⟨_, ho, hi, .refl⟩
  | orphan hi hp ht => exact absurd (hc.listed hi hp).1 ht.destroyed.not_live
  | child _ hp hg ih =>
    obtain ⟨o, ho, hl, hleads⟩ := ih
    exact ⟨o, ho, hl, .head ⟨hp, hg.live⟩ hleads⟩

/-- Who leads to a live node is live. -/
theorem LeadsTo.live {root target : GraphNodeId} (h : g.LeadsTo root target) (ht : g.Live target) :
    g.Live root := by
  rcases Relation.ReflTransGen.cases_tail h with rfl | ⟨i, -, -, hl⟩
  · exact ht
  · exact hl

/-! ## What changes the roots -/

theorem linkToParents_roots (g : ReachGraph ν) (id : GraphNodeId) :
    (g.linkToParents id).roots = g.roots := by
  have hlink : ∀ (g : ReachGraph ν) p, (g.linkTo id p).roots = g.roots := by
    intro g p
    unfold linkTo
    split <;> rfl
  unfold linkToParents
  split
  · exact foldl_roots hlink _ g
  · rfl

theorem accept_roots (g : ReachGraph ν) (b : GraphNodeId) (s : State ν) :
    (g.accept b s).roots = g.roots :=
  linkToParents_roots _ b

theorem cover_roots (g : ReachGraph ν) (b q : GraphNodeId) (s : State ν) :
    (g.cover b q s).roots = g.roots := by
  rw [cover, update_roots, update_roots, accept_roots]

theorem succeed_roots (g : ReachGraph ν) (reached merged : GraphNodeId) (links : List ParentLink)
    (old : GraphNode ν) : (g.succeed reached merged links old).roots = g.roots := by
  unfold succeed
  dsimp only
  exact (foldl_roots (fun _ _ => by rfl) old.covering _).trans
    (foldl_roots (fun _ _ => by rfl) old.children _)

theorem merging_roots (g : ReachGraph ν) (location : Option NodeId) (S R : GraphNodeId)
    (n m : GraphNode ν) : (g.merging location S R n m).roots = g.roots := by
  unfold merging fuse noteMerge
  dsimp only
  rw [linkToParents_roots, update_roots, update_roots, cut_roots, succeed_roots]
  rfl

/-! ## What changes who took over whom -/

section TookOver

variable {s : State ν} {b q id : GraphNodeId} {old : GraphNode ν} {location : Option NodeId}
  {batch : List GraphNodeId}

theorem TookOver.create {links : List ParentLink} (h : g.TookOver i j) :
    (g.create location links).2.TookOver i j :=
  at_create.2 (.inl h)

theorem TookOver.accept (h : g.TookOver i j) (hb : g.Known b) (hne : i ≠ b) :
    (g.accept b s).TookOver i j := by
  obtain ⟨old, hold, -⟩ := hb
  rw [TookOver, at_accept hold]
  exact h.mono fun n hn => by simpa [accepted, hne] using hn

/-- The node `b` has become live, and nobody has lost a parent or a root. -/
structure Settles (g : ReachGraph ν) (b : GraphNodeId) (g' : ReachGraph ν) : Prop where
  live : ∀ i, g'.Live i ↔ g.Live i ∨ i = b
  parent : ∀ i p, g'.HasParent i p ↔ g.HasParent i p
  took : ∀ i j, i ≠ b → g.TookOver i j → g'.TookOver i j
  roots : g'.roots = g.roots

theorem settles_accept (hb : g.Known b) : g.Settles b (g.accept b s) where
  live _ := live_accept hb
  parent _ _ := hasParent_accept hb
  took _ _ hne ht := ht.accept hb hne
  roots := accept_roots g b s

theorem settles_cover (hb : g.Known b) : g.Settles b (g.cover b q s) where
  live _ := live_cover hb
  parent _ _ := hasParent_cover hb
  took _ _ hne ht := (at_cover_iff_accept hb fun _ _ _ => Iff.rfl).2 (ht.accept hb hne)
  roots := cover_roots g b q s

theorem TookOver.cut (h : g.TookOver i j) : (g.cut id old).TookOver i j := by
  rw [TookOver, at_cut]
  refine h.mono fun n hn => ?_
  by_cases hi : i = id
  · simpa [hi, dead] using hn.2
  · simpa [hi, severed] using hn

/-- Both nodes of a merge were not destroyed before. -/
theorem Fusible.tookOver {S R : GraphNodeId} {n m : GraphNode ν} (hf : Fusible g batch S R n m)
    (h : g.TookOver i j) (hS : ¬ g.Destroyed S) (hR : g.Live R) :
    (g.merging location S R n m).TookOver i j := by
  have hiS : i ≠ S := by
    rintro rfl
    exact hS h.destroyed
  have hiR : i ≠ R := by
    rintro rfl
    exact h.destroyed.not_live hR
  have hnew : i ≠ ⟨g.nodes.size⟩ := by
    rintro rfl
    exact not_at_size h
  exact hf.at_merging.2 (.inl (h.mono fun n hn => by simpa [fused, hiS, hiR, hnew] using hn))

/-- Nodes are removed; those that were destroyed before stay as they are. -/
theorem Trimmed.tookOver {gone : List GraphNodeId} (ht : Trimmed g gone g') (h : g.TookOver i j) :
    g'.TookOver i j := by
  have hout : i ∉ gone := by
    intro hgone
    obtain ⟨n, hn, hl, -⟩ := ht.removed i hgone
    exact h.destroyed.not_live ⟨n, hn, hl⟩
  exact (ht.idle i h.destroyed.not_live hout
    fun status _ _ merged => status = .destroyed ∧ merged = some j).2 h

theorem Fusible.tookOver_reached {S R : GraphNodeId} {n m : GraphNode ν}
    (hf : Fusible g batch S R n m) : (g.merging location S R n m).TookOver R ⟨g.nodes.size⟩ :=
  hf.at_merging.2 (.inl ⟨m, hf.reached, by simp [fused]⟩)

end TookOver

/-- A refinement leaves the parents of the nodes that it leaves. -/
theorem Grounded.refined [Waitlist θ ν] {r : ReachedSet ν ρ θ} {point : GraphNodeId}
    {result : Refinement} {s : Recorded ν ρ θ} (h : g.Grounded i) (hp : g.Prunable)
    (hcut : Refined g r point result s) (hleft : i ∉ result.pruned) : s.graph.Grounded i := by
  have htook : ∀ i j, g.TookOver i j → s.graph.TookOver i j := fun _ _ => hcut.graph.tookOver
  induction h with
  | origin hi ho =>
    refine .origin (hcut.graph.live.2 ⟨hi, hleft⟩) (ho.mono (fun root hroot => ?_) htook)
    rw [hcut.graph.roots]
    exact hroot
  | @orphan i p j hi hlink ht =>
    have hout : p ∉ result.pruned := fun hin => ht.destroyed.not_live (hcut.live_of_pruned hin)
    exact .orphan (hcut.graph.live.2 ⟨hi, hleft⟩)
      ((hcut.graph.hasParent hi hleft).2 ⟨hlink, hout⟩) (htook _ _ ht)
  | @child i p hi hlink hg ih =>
    have hchild : g.HasChild p i := hp.parent i p hi hg.live hlink
    have hout : p ∉ result.pruned := by
      intro hin
      rcases hcut.mem_pruned.1 hin with hbelow | ⟨d, hd, hx⟩
      · exact hleft (hcut.mem_pruned.2 (.inl (hbelow.tail hchild)))
      · exact hp.sterile p d i (hp.covered d p (hd.live hp.toMutual hcut.live) hx).2 hchild
    exact .child (hcut.graph.live.2 ⟨hi, hleft⟩)
      ((hcut.graph.hasParent hi hleft).2 ⟨hlink, hout⟩) (ih hout)

end ReachGraph

namespace Recorder

open ReachGraph

/-! ## Along recorded explorations -/

/-- The live nodes are grounded, and the successors that wait have parents. -/
structure Scene.Grounded (c : Scene ν ρ θ) : Prop where
  all : ∀ i, c.graph.Live i → c.graph.Grounded i
  waiting : ∀ b ∈ nodesOf c.batch, ∃ p, c.graph.HasParent b p

section Grounded

variable {c c' : Scene ν ρ θ} {next : Handle} {r : ReachedSet ν ρ θ}
  {batch : Batch ν}

namespace Scene.Grounded

variable (h : c.Grounded)

include h

/-- Successors are given up, or change apart from their nodes. -/
theorem rebatch (hsub : ∀ b ∈ nodesOf batch, b ∈ nodesOf c.batch) :
    (⟨c.graph, next, batch, r⟩ : Scene ν ρ θ).Grounded :=
  ⟨h.all, fun b hb => h.waiting b (hsub b hb)⟩

theorem of_nodes (hsame : nodesOf batch = nodesOf c.batch) :
    (⟨c.graph, next, batch, c.reached⟩ : Scene ν ρ θ).Grounded :=
  h.rebatch fun _ hb => hsame ▸ hb

/-- Nodes that are not live change, or are created. -/
theorem keep (live : ∀ i, c'.graph.Live i ↔ c.graph.Live i)
    (link : ∀ i p, c.graph.Live i → c.graph.HasParent i p → c'.graph.HasParent i p)
    (took : ∀ i j, c.graph.TookOver i j → c'.graph.TookOver i j)
    (roots : c'.graph.roots = c.graph.roots)
    (waiting : ∀ b ∈ nodesOf c'.batch, ∃ p, c'.graph.HasParent b p) : c'.Grounded where
  all i hi := (h.all i ((live i).1 hi)).keep (fun i => (live i).2) link took fun _ hroot =>
    roots ▸ hroot
  waiting := waiting

/-- A successor becomes live: its parents are live, or were merged away. -/
theorem settle {g : ReachGraph ν} {s : State ν} {l : NodeId} {rest : Batch ν}
    {b : GraphNodeId} (hr : c.Records) (hb : c.batch = (s, l) :: rest)
    (hnode : s.graphNode? = some b) (hg : c.graph.Settles b g) :
    (⟨g, c.next, rest, r⟩ : Scene ν ρ θ).Grounded := by
  have hwaits : nodesOf c.batch = b :: nodesOf rest := by rw [hb, nodesOf_of_cons hnode]
  obtain ⟨p, hp⟩ := h.waiting b (by simp [hwaits])
  obtain ⟨live, parent, took, roots⟩ := hg
  have htook : ∀ i j, c.graph.TookOver i j → g.TookOver i j := by
    intro i j ht
    refine took i j ?_ ht
    rintro rfl
    exact hr.batchWf.bare i p hp ht.destroyed
  have hold : ∀ i, c.graph.Live i → g.Grounded i := fun i hi =>
    (h.all i hi).keep (fun i hi => (live i).2 (.inl hi)) (fun i p _ hp => (parent i p).2 hp) htook
      fun root hroot => roots ▸ hroot
  refine ⟨fun i hi => ?_, fun b' hb' => ?_⟩
  · rcases (live i).1 hi with hi | rfl
    · exact hold i hi
    · have hlink := (parent i p).2 hp
      rcases hr.batchWf.ready i (by simp [hwaits]) p hp with hl | ⟨n, hn, hd, hm⟩
      · exact .child hi hlink (hold p hl)
      · obtain ⟨j, hj⟩ := Option.isSome_iff_exists.1 hm
        exact .orphan hi hlink (htook p j ⟨n, hn, hd, hj⟩)
  · obtain ⟨p', hp'⟩ := h.waiting b' (by simp [hwaits, show b' ∈ nodesOf rest from hb'])
    exact ⟨p', (parent b' p').2 hp'⟩

end Scene.Grounded

variable [LeafValue ν] {a : Analysis ν ρ ω} {program : Program}

section Fusion

variable {k : EntryId} {e : Entry ν ρ} {S R i : GraphNodeId} {s n : GraphNode ν} {m : State ν}

theorem Scene.hasParent_fused {p : GraphNodeId} : (c.fused S R s n m).HasParent i p ↔
    (c.graph.merging m.location? S R s n).HasParent i p :=
  at_setState fun _ _ => Iff.rfl

theorem Scene.tookOver_fused {j : GraphNodeId} : (c.fused S R s n m).TookOver i j ↔
    (c.graph.merging m.location? S R s n).TookOver i j :=
  at_setState fun _ _ => Iff.rfl

theorem Scene.roots_fused : (c.fused S R s n m).roots = c.graph.roots := by
  rw [Scene.fused, setState, update_roots, merging_roots]

namespace Fusion

variable (f : Fusion a c k e S R s n m) (hr : c.Records)

include f hr

/-- After a merge a live node has its old parents, where `R` is replaced by the new node: a live
node that has `R` as its parent is listed as a child there. -/
theorem hasParent (hR : c.graph.Live R) {p : GraphNodeId} (hi : c.graph.Live i)
    (hp : c.graph.HasParent i p) :
    (c.fused S R s n m).HasParent (renamed R c.newNode i)
      (renamed R c.newNode p) := by
  refine Scene.hasParent_fused.2 (f.fusible.hasParent.2 ?_)
  by_cases hir : i = R
  · subst hir
    exact .inl ⟨renamed_self i _, p, .inl hp, rfl⟩
  · rw [renamed_of_ne hir]
    by_cases hc : c.graph.HasChild R i
    · exact .inr (.inl ⟨hir, hc, p, hp, rfl⟩)
    · have hpr : p ≠ R := by
        rintro rfl
        rcases hr.batchWf.parent i p hi hp with hlisted | hm
        · exact hc hlisted.2
        · exact hm.destroyed.not_live hR
      rw [renamed_of_ne hpr]
      exact .inr (.inr ⟨hir, hc, hp⟩)

theorem tookOver (hR : c.graph.Live R) (h : c.Grounded) {j : GraphNodeId}
    (ht : c.graph.TookOver i j) : (c.fused S R s n m).TookOver i j := by
  obtain ⟨p, hp⟩ := h.waiting S f.fusible.waits
  exact Scene.tookOver_fused.2 (f.fusible.tookOver ht (hr.batchWf.bare S p hp) hR)

/-- If `R` was an origin, the new node is one. -/
theorem origin (hR : c.graph.Live R) (h : c.Grounded) (ho : c.graph.Origin i) :
    (c.fused S R s n m).Origin (renamed R c.newNode i) := by
  have hold : (c.fused S R s n m).Origin i :=
    ho.mono (fun root hroot => by rw [Scene.roots_fused]; exact hroot) fun i j ht =>
      f.tookOver hr hR h ht
  by_cases hir : i = R
  · obtain ⟨root, hroot, hpath⟩ := hold
    subst hir
    rw [renamed_self]
    exact ⟨root, hroot, hpath.tail (Scene.tookOver_fused.2 f.fusible.tookOver_reached)⟩
  · rw [renamed_of_ne hir]
    exact hold

theorem grounded (hx : c.Exact) (h : c.Grounded) :
    (⟨c.fused S R s n m, next, c.batch, r⟩ : Scene ν ρ θ).Grounded := by
  have hR : c.graph.Live R := hx.live k e R f.entry f.node
  have hlive : ∀ i, c.graph.Live i →
      (c.fused S R s n m).Live (renamed R c.newNode i) := by
    intro i hi
    by_cases hir : i = R
    · rw [hir, renamed_self]
      exact f.live.2 (.inr rfl)
    · rw [renamed_of_ne hir]
      exact f.live.2 (.inl ⟨hi, hir⟩)
  have hmoved : ∀ i, c.graph.Live i →
      (c.fused S R s n m).Grounded (renamed R c.newNode i) := by
    intro i hi
    refine (h.all i hi).map hlive (fun i p hi hp _ => f.hasParent hr hR hi hp)
      (fun i p hi hp hd => ?_) (fun i j ht => f.tookOver hr hR h ht)
      fun i _ ho => f.origin hr hR h ho
    have hpr : p ≠ R := by
      rintro rfl
      exact hd.not_live hR
    have hlink := f.hasParent hr hR hi hp
    rwa [renamed_of_ne hpr] at hlink
  refine ⟨fun i hi => ?_, fun b hb => ?_⟩
  · rcases f.live.1 hi with ⟨hi, hir⟩ | rfl
    · have hg := hmoved i hi
      rwa [renamed_of_ne hir] at hg
    · have hg := hmoved R hR
      rwa [renamed_self] at hg
  · -- A successor that waits is nobody's child yet, and keeps its parents.
    obtain ⟨p, hp⟩ := h.waiting b hb
    have hidle := (hr.batchWf.idle b hb).2
    refine ⟨p, Scene.hasParent_fused.2
      (f.fusible.hasParent.2 (.inr (.inr ⟨?_, fun hc => ?_, hp⟩)))⟩
    · rintro rfl
      exact hidle hR
    · exact hidle (hr.batchWf.child R b hc).2.1

end Fusion

end Fusion

/-- A new root is listed. -/
theorem Scene.Grounded.root {h₀ : Handle} {w : State ν} (h : c.Grounded) (hbatch : c.batch = []) :
    (⟨c.rooted h₀ w, next, c.batch, r⟩ : Scene ν ρ θ).Grounded := by
  have hroots : (c.rooted h₀ w).roots = c.graph.roots ++ [c.newNode] := rfl
  refine ⟨fun i hi => ?_, fun b hb => ?_⟩
  · rcases live_root.1 hi with hold | rfl
    · refine (h.all i hold).keep (fun _ hi => live_root.2 (.inl hi)) (fun i p _ hp => ?_)
        (fun i j ht => ?_) fun root hroot => hroots ▸ List.mem_append_left _ hroot
      · exact at_root.2 ((hasParent_accept known_create).2
          (hasParent_create.2 (.inl hp)))
      · refine at_root.2 (ht.create.accept known_create ?_)
        rintro rfl
        exact not_at_size ht
    · exact .origin hi ⟨_, hroots ▸ List.mem_append_right _ (List.mem_singleton.2 rfl), .refl⟩
  · rw [hbatch] at hb
    cases hb

variable [Waitlist θ ν]

theorem Step.grounded (hs : Step a program c c') (hp : program.Ascending) (hr : c.Records)
    (hx : c.Exact) (h : c.Grounded) : c'.Grounded := by
  -- A node that is not live has no children that could lose it as a parent.
  have hcut : ∀ {b old}, ¬ c.graph.Live b → c.graph.node? b = some old → ∀ {i p}, i ≠ b →
      c.graph.HasParent i p → (c.graph.cut b old).HasParent i p := by
    intro b old hidle hold i p hib hlink
    refine (hasParent_cut hold).2 ⟨hlink, hib, ?_⟩
    rintro ⟨-, hc⟩
    exact hidle (hr.batchWf.child b i hc).1
  cases hs with
  | draws => exact h.rebatch fun _ hb => hb
  | abandons hsub => exact h.rebatch fun _ hb => (hsub.filterMap _).subset hb
  | @sprouts _ _ i _ edge _ w _ _ _ _ _ =>
    refine h.keep (fun j => at_create_of_not (by simp))
      (fun _ _ _ hp => hasParent_create.2 (.inl hp)) (fun _ _ ht => ht.create) rfl ?_
    intro b hb
    rw [nodesOf_append] at hb
    rcases List.mem_append.1 hb with hb | hb
    · obtain ⟨p, hp⟩ := h.waiting b hb
      exact ⟨p, hasParent_create.2 (.inl hp)⟩
    · obtain rfl : b = c.newNode := by simpa [nodesOf, Scene.newState, State.graphNode?] using hb
      exact ⟨i, hasParent_create.2 (.inr ⟨rfl, by simp⟩)⟩
  | rewraps hb _ => exact h.of_nodes (Scene.nodesOf_replace hb rfl)
  | relocates hb => exact h.of_nodes (Scene.nodesOf_replace hb rfl)
  | @drops before after s l b old hb hnode hold =>
    have hidle := (hr.idle (q := (s, l)) (by simp [hb]) hnode).2
    refine h.keep (fun _ => live_cut_of_not_live hidle)
      (fun i p hi hp => hcut hidle hold ?_ hp) (fun _ _ ht => ht.cut) (c.graph.cut_roots b old)
      fun b' hin => ?_
    · rintro rfl
      exact hidle hi
    · obtain ⟨hb', hne⟩ := hr.ne_of_dropped hb hnode hin
      obtain ⟨p, hp⟩ := h.waiting b' hb'
      exact ⟨p, hcut hidle hold hne hp⟩
  | @purges b old hold hidle hbatch =>
    refine h.keep (fun _ => live_cut_of_not_live hidle)
      (fun i p hi hp => hcut hidle hold ?_ hp) (fun _ _ ht => ht.cut) (c.graph.cut_roots b old)
      fun b' hb' => ?_
    · rintro rfl
      exact hidle hi
    · rw [show nodesOf c.batch = [] by rw [hbatch hp]; rfl] at hb'
      cases hb'
  | merges f _ => exact f.grounded hr hx h
  | clashes _ hj hsame _ => exact absurd hsame (hx.handle_ne hr hj)
  | covers hb hnode _ _ _ _ =>
    exact h.settle hr hb hnode (settles_cover (hr.idle_head hb hnode).1)
  | admits hb hnode _ | strands hb hnode _ =>
    exact h.settle hr hb hnode (settles_accept (hr.idle_head hb hnode).1)
  | reschedules => exact h.rebatch fun _ hb => hb

theorem Sowing.grounded {result : Except Failure EntryId} (hs : Sowing a c result c')
    (hbatch : c.batch = []) (h : c.Grounded) : c'.Grounded := by
  cases hs with
  | failed _ => exact h.rebatch fun _ hb => hb
  | stranded _ => exact h.root hbatch
  | sown _ _ => exact h.root hbatch

omit [LeafValue ν] in
theorem Scene.Grounded.refine {point : GraphNodeId} {result : ReachGraph.Refinement}
    {s : ReachGraph.Recorded ν ρ θ} (h : c.Grounded) (hp : c.graph.Prunable)
    (hcut : ReachGraph.Refined c.graph c.reached point result s) :
    (⟨s.graph, next, [], s.reached⟩ : Scene ν ρ θ).Grounded := by
  refine ⟨fun i hi => ?_, fun b hb => absurd hb List.not_mem_nil⟩
  obtain ⟨hold, hleft⟩ := hcut.graph.live.1 hi
  exact (h.all i hold).refined hp hcut hleft

end Grounded

section Course

variable [LeafValue ν] [Waitlist θ ν] {a : Analysis ν ρ ω} {program : Program}
  {seeded : Except Failure EntryId → Prop} {w : World (Memory ω ν)} {r : ReachedSet ν ρ θ}

theorem Course.grounded {refined : Prop} (h : Course a program seeded refined w r) (hf : a.Forward)
    (hp : program.Ascending) : (sceneOf w r).Grounded := by
  induction h with
  | start frontier hempty =>
    rw [sceneOf_eq hempty]
    exact ⟨fun i hi => absurd hi not_at_empty, fun b hb => absurd hb List.not_mem_nil⟩
  | drift _ hsame _ ih =>
    rw [sceneOf_eq hsame]
    exact ih.rebatch fun _ hb => hb
  | seed _ hx hseed _ hok ih => exact (seed_sowing hx hseed hok).grounded rfl ih
  | run h hx hprogram hrun hok ih =>
    have hboth := (run_leads hx h.history.upheld hrun hok).invariant
      (I := fun c => c.Exact ∧ c.Grounded) h.history.upheld
      (fun c c' hr hc hs => by
        rw [hprogram] at hs
        exact ⟨hs.exact hf hr hc.1, hs.grounded hp hr hc.1 hc.2⟩)
      ⟨h.exact hf, ih⟩
    exact hboth.2
  | refine h _ hrun hsame _ ih =>
    rw [sceneOf_eq hsame]
    exact ih.refine h.history.prunable
      (refine_refined h.history.prunable h.history.upheld.sound hrun)

/-- Along every course of initial states and runs, and whenever the check of the graph finds
nothing, a live node is led to by a live root or by a live node that took the place of one. A path
is found exactly if the first is the case; so paths are found to all live nodes as long as no root
was merged away. -/
theorem path_isSome_iff_rooted (hf : a.Forward) (hp : program.Built)
    (h : Course a program (fun _ => True) False w r) (hcheck : w.graph.fault? = none)
    {n : GraphNodeId} (hn : w.graph.Live n) :
    (∃ o, w.graph.Origin o ∧ w.graph.Live o ∧ w.graph.LeadsTo o n) ∧
      ((w.graph.pathTo n).isSome = true ↔
        ∃ o ∈ w.graph.roots, w.graph.Live o ∧ w.graph.LeadsTo o n) ∧
      ((∀ o ∈ w.graph.roots, w.graph.Live o) → (w.graph.pathTo n).isSome = true) := by
  have horigin := ((h.grounded hf hp.ascending).all n hn).exists_origin
    (fault?_eq_none_iff.1 hcheck)
  refine ⟨horigin, ?_, fun hroots => ?_⟩
  · rw [pathTo_isSome hn]
    refine exists_congr fun o => and_congr_right fun _ => ⟨fun hleads => ⟨?_, hleads⟩, And.right⟩
    exact hleads.live hn
  · obtain ⟨o, ho, -, hleads⟩ := horigin
    exact (pathTo_isSome hn).2 ⟨o, ho.mem_roots hroots, hleads⟩

end Course

theorem detour_built : detour.Built := .of_redraft rfl rfl rfl rfl

/-- The loop of the detour was merged twice, but its root is live. -/
theorem detour_path_isSome_iff_rooted : ∃ w r,
    joinedFacts.Forward ∧ detour.Built ∧
    Course joinedFacts detour (fun _ => True) False w
      (r : ReachedSet FactValue Level SimpleWaitlist) ∧
    w.graph.fault? = none ∧ w.graph.Live ⟨8⟩ ∧
    (∀ o ∈ w.graph.roots, w.graph.Live o) ∧
    (∃ o, w.graph.Origin o ∧ w.graph.Live o ∧ w.graph.LeadsTo o ⟨8⟩) ∧
    ((w.graph.pathTo ⟨8⟩).isSome = true ↔ ∃ o ∈ w.graph.roots,
      w.graph.Live o ∧ w.graph.LeadsTo o ⟨8⟩) ∧
    ((∀ o ∈ w.graph.roots, w.graph.Live o) → (w.graph.pathTo ⟨8⟩).isSome = true) := by
  have hrun : (detourFacts.exploreTo .exhausted ⟨0⟩ 10 knotWorld detourReached).any (fun m =>
      decide (m.graph.fault? = none) &&
        m.graph.isLive ⟨8⟩ &&
          m.graph.roots.all m.graph.isLive) = true := by
    decide +kernel
  obtain ⟨m, hm, hcheck⟩ := (Option.any_eq_true _ _).1 hrun
  rw [Bool.and_eq_true, Bool.and_eq_true, List.all_eq_true] at hcheck
  obtain ⟨⟨hfault, hlive⟩, hroots⟩ := hcheck
  have hf : joinedFacts.Forward := Facts.forward rfl rfl rfl rfl rfl
  have h : Course joinedFacts detour (fun _ => True) False
      m.meter.world m.reached :=
    course_exploreTo (x := detourFacts) rfl (.start _ rfl) (fun _ => trivial) hm
  have hfault := of_decide_eq_true hfault
  have hlive := isLive_iff.1 hlive
  exact ⟨_, _, hf, detour_built, h, hfault, hlive,
    fun o ho => isLive_iff.1 (hroots o ho),
    path_isSome_iff_rooted hf detour_built h hfault hlive⟩

/-! ## A root that is merged away -/

/-- A program whose entry can be reached again, with an exit on the way. -/
def shuttle : Program := .ofPairs 1 [(0, 1), (1, 0), (1, 2)]

/-- The facts of the shuttle, joined at each place and recorded; a state is a target if the last
edge was taken. -/
def shuttleFacts : Exploration FactValue Level (Memory Facts.Notes FactValue) :=
  { knotFacts with
    program := shuttle
    isTarget := fun s => (unwrapped s).leaf?.any fun v => v.facts.contains 2 }

def shuttleReached : ReachedSet FactValue Level SimpleWaitlist :=
  .ofFrontier shuttle (.ofOrder .breadthFirst)

/-- The way back merges the entry's node A0 into A4, which is not listed as a root. The target is
found, its node A3 is live and the check finds nothing, but there is no path. -/
theorem shuttle_target_without_path : ∃ k w r m,
    shuttleFacts.seed ⟨0⟩ .whole knotWorld shuttleReached = (.ok k, w, r) ∧
    shuttleFacts.run 10 ⟨⟨w, {}⟩, r, []⟩ = some (.ok .targetFound, m) ∧
    Course joinedFacts shuttle (fun _ => True) False
      m.meter.world m.reached ∧
    m.graph.fault? = none ∧
    (∃ t ∈ m.targets, t.graphNode? = some ⟨3⟩) ∧ m.graph.Live ⟨3⟩ ∧
    m.graph.pathTo ⟨3⟩ = none := by
  have hrun : (shuttleFacts.exploreTo .targetFound ⟨0⟩ 10 knotWorld shuttleReached).any (fun m =>
      decide (m.graph.fault? = none) &&
        (m.targets.any fun t => decide (t.graphNode? = some ⟨3⟩)) &&
          m.graph.isLive ⟨3⟩ &&
            (m.graph.pathTo ⟨3⟩).isNone) = true := by
    decide +kernel
  obtain ⟨m, hm, hcheck⟩ := (Option.any_eq_true _ _).1 hrun
  rw [Bool.and_eq_true, Bool.and_eq_true, Bool.and_eq_true] at hcheck
  obtain ⟨⟨⟨hfault, htarget⟩, hlive⟩, hpath⟩ := hcheck
  obtain ⟨t, ht, hnode⟩ := List.any_eq_true.1 htarget
  obtain ⟨k, w, r, hseed, hrun⟩ := Exploration.exploreTo_eq_some hm
  exact ⟨k, w, r, m, hseed, hrun,
    course_exploreTo (x := shuttleFacts) rfl (.start _ rfl) (fun _ => trivial) hm,
    of_decide_eq_true hfault, ⟨t, ht, of_decide_eq_true hnode⟩, isLive_iff.1 hlive,
    Option.isNone_iff_eq_none.1 hpath⟩

end Recorder

end ProgramAnalysis
