import ProgramAnalysis.Proofs.GraphLinks
/-!
Merging a node that waits into a node of the reachability graph.

The merged node takes over the links of both; the reached node is destroyed, and whoever had it for
a parent has the merged node instead. `Fusible` says when a merge is made, and under it the graph
stays well-formed (`Fusible.merging_batchWf`). The other nodes that wait may have had the reached
node for a parent: they keep it, and it is a parent that was merged away.
-/

namespace ProgramAnalysis.ReachGraph

variable {ν : Type} {merged reached : GraphNodeId} {r : GraphNode ν} {links : List ParentLink}

/-! ## Members of the fused node -/

theorem mem_redirect {p : GraphNodeId} :
    p ∈ (redirect reached merged links).map Prod.fst ↔
      ∃ q ∈ links.map Prod.fst, p = renamed reached merged q := by
  unfold redirect renamed
  simp only [List.map_map, List.mem_map, Function.comp_apply]
  constructor
  · rintro ⟨l, hl, rfl⟩
    refine ⟨l.1, ⟨l, hl, rfl⟩, ?_⟩
    split <;> rfl
  · rintro ⟨q, ⟨l, hl, rfl⟩, rfl⟩
    refine ⟨l, hl, ?_⟩
    split <;> rfl

theorem mem_unite {more : List ParentLink} {l : ParentLink} :
    l ∈ unite links more ↔ l ∈ links ∨ l ∈ more := by
  unfold unite
  induction more generalizing links with
  | nil => simp
  | cons k more ih =>
    rw [List.foldl_cons, ih]
    split
    · next hk =>
      have hk : k ∈ links := by simpa using hk
      by_cases hl : l = k
      · simp [hl, hk]
      · simp [hl]
    · simp [or_assoc]

theorem mem_foldl_withMember {ids more : List GraphNodeId} {i : GraphNodeId} :
    i ∈ more.foldl withMember ids ↔ i ∈ ids ∨ i ∈ more := by
  induction more generalizing ids with
  | nil => simp
  | cons k more ih =>
    rw [List.foldl_cons, ih, mem_withMember]
    simp [or_assoc]

theorem mem_fusedLinks {p : GraphNodeId} {s : GraphNode ν} :
    p ∈ (fusedLinks reached merged s r).map Prod.fst ↔
      ∃ q, (q ∈ r.parentIds ∨ q ∈ s.parentIds) ∧ p = renamed reached merged q := by
  rw [fusedLinks, mem_redirect]
  refine exists_congr fun q => and_congr_left fun _ => ?_
  simp only [GraphNode.parentIds, List.mem_map, mem_unite]
  constructor
  · rintro ⟨l, hl | hl, rfl⟩
    · exact .inl ⟨l, hl, rfl⟩
    · exact .inr ⟨l, hl, rfl⟩
  · rintro (⟨l, hl, rfl⟩ | ⟨l, hl, rfl⟩)
    · exact ⟨l, .inl hl, rfl⟩
    · exact ⟨l, .inr hl, rfl⟩

theorem mem_keptChildren {j c : GraphNodeId} {n : GraphNode ν} :
    c ∈ keptChildren reached merged r j n ↔
      j ≠ reached ∧
        (j = merged ∧ (c ∈ n.children ∨ ∃ d ∈ r.children, c = renamed reached merged d) ∨
          j ≠ merged ∧ c ∈ n.children ∧ ¬ (c = reached ∧ j ∈ r.parentIds)) := by
  unfold keptChildren
  by_cases hr : j = reached
  · simp [hr]
  rcases Decidable.em (j = merged) with rfl | hm
  · rw [if_neg hr, if_pos rfl, mem_foldl_withMember]
    simp [hr, eq_comm]
  · by_cases hp : j ∈ r.parentIds <;> simp [hr, hm, hp]

theorem mem_fused_children {successor j c : GraphNodeId} {s n : GraphNode ν} :
    c ∈ (fused successor reached merged s r j n).children ↔
      c ∈ keptChildren reached merged r j n ∨
        c = merged ∧ j ∈ (fusedLinks reached merged s r).map Prod.fst ∧ j ≠ reached ∧
          (j = merged ∨ n.status = .live) := by
  unfold fused
  dsimp only
  split
  · next hlink => rw [mem_withMember, and_iff_left hlink]
  · next hlink => simp only [hlink, and_false, or_false]

theorem renamed_of_ne {i : GraphNodeId} (h : i ≠ reached) : renamed reached merged i = i := if_neg h

theorem renamed_self (reached merged : GraphNodeId) : renamed reached merged reached = merged :=
  if_pos rfl

/-! ## Links of a fused graph -/

/-- A merge of `S` and `R` that gives `M`. Neither a parent nor a child of `R` is `M`, which has no
children yet. -/
structure Fuses (g : ReachGraph ν) (S R M : GraphNodeId) (s r m : GraphNode ν) : Prop where
  successor : g.node? S = some s
  reached : g.node? R = some r
  merged : g.node? M = some m
  ne : M ≠ R
  childless : m.children = []
  not_child : M ∉ r.children
  not_parent : M ∉ r.parentIds

namespace Fuses

variable {g : ReachGraph ν} {S R M j : GraphNodeId} {s r m : GraphNode ν} (h : Fuses g S R M s r m)

include h

theorem live : (g.fuse S R M s r).Live j ↔ g.Live j ∧ j ≠ R ∨ j = M := by
  have hne := h.ne
  rw [Live, at_fuse_of_covered hne h.merged h.not_child h.not_parent]
  rcases Decidable.em (j = M) with rfl | hj
  · simp [fused, hne, at_iff h.merged]
  · rcases Decidable.em (j = R) with rfl | hr
    · simp [fused, hj, At]
    · simp [fused, hj, hr, Live]

/-- A child of `R` becomes a child of the new node; all other nodes keep their parents. -/
theorem hasParent {p : GraphNodeId} :
    (g.fuse S R M s r).HasParent j p ↔
      j = M ∧ (∃ q, (g.HasParent R q ∨ g.HasParent S q) ∧ p = renamed R M q) ∨
      j ≠ M ∧ j ≠ R ∧ g.HasChild R j ∧ (∃ q, g.HasParent j q ∧ p = renamed R M q) ∨
      j ≠ M ∧ j ≠ R ∧ ¬ g.HasChild R j ∧ g.HasParent j p := by
  have hne := h.ne
  have hR : ∀ {q}, g.HasParent R q ↔ q ∈ r.parentIds := at_iff h.reached
  have hS : ∀ {q}, g.HasParent S q ↔ q ∈ s.parentIds := at_iff h.successor
  have hC : g.HasChild R j ↔ j ∈ r.children := at_iff h.reached
  rw [HasParent, at_fuse_of_covered hne h.merged h.not_child h.not_parent]
  simp only [hR, hS, hC, GraphNode.parentIds, fused]
  rcases Decidable.em (j = M) with rfl | hj
  · simp only [hne, if_true, if_false, at_iff h.merged, mem_fusedLinks]
    simp [GraphNode.parentIds]
  · rcases Decidable.em (j = R) with rfl | hr
    · simp [hj, At]
    · by_cases hc : j ∈ r.children
      · simp only [hj, hr, hc, if_true, if_false, mem_redirect, false_and, false_or, or_false,
          not_false_eq_true, true_and, not_true_eq_false, ne_eq]
        constructor
        · rintro ⟨n, hn, q, hq, hp⟩
          exact ⟨q, ⟨n, hn, hq⟩, hp⟩
        · rintro ⟨q, ⟨n, hn, hq⟩, hp⟩
          exact ⟨n, hn, q, hq, hp⟩
      · simp [hj, hr, hc, HasParent, GraphNode.parentIds]

theorem hasChild {c : GraphNodeId} :
    (g.fuse S R M s r).HasChild j c ↔
      j = M ∧ (∃ d, g.HasChild R d ∧ c = renamed R M d) ∨
      j ≠ M ∧ j ≠ R ∧ g.HasChild j c ∧ ¬ (c = R ∧ g.HasParent R j) ∨
      c = M ∧ (g.fuse S R M s r).HasParent M j ∧ (g.fuse S R M s r).Live j := by
  have hne := h.ne
  have hP : g.HasParent R j ↔ j ∈ r.parentIds := at_iff h.reached
  have hC : ∀ {d}, g.HasChild R d ↔ d ∈ r.children := at_iff h.reached
  have hlinks : (g.fuse S R M s r).HasParent M j ↔ j ∈ (fusedLinks R M s r).map Prod.fst := by
    rw [h.hasParent, mem_fusedLinks]
    simp [HasParent, at_iff h.reached, at_iff h.successor]
  rw [hlinks, h.live, hP, HasChild,
    at_fuse_of_covered hne h.merged h.not_child h.not_parent]
  simp only [mem_fused_children, mem_keptChildren, hC]
  generalize (fusedLinks R M s r).map Prod.fst = ids
  rcases Decidable.em (j = M) with rfl | hj
  · simp [hne, at_iff h.merged, h.childless]
  · rcases Decidable.em (j = R) with rfl | hr
    · simp [hj, At]
    · simp only [hj, hr, ne_eq, not_false_eq_true, true_and, false_and, false_or, or_false,
        and_true]
      constructor
      · rintro ⟨n, hn, hc | ⟨rfl, hi, hl⟩⟩
        · exact .inl ⟨⟨n, hn, hc.1⟩, hc.2⟩
        · exact .inr ⟨rfl, hi, ⟨n, hn, hl⟩⟩
      · rintro (⟨⟨n, hn, hc⟩, hno⟩ | ⟨rfl, hi, ⟨n, hn, hl⟩⟩)
        · exact ⟨n, hn, .inl ⟨hc, hno⟩⟩
        · exact ⟨n, hn, .inr ⟨rfl, hi, hl⟩⟩

end Fuses

/-- A merge in a graph with coherent links. Only a live `R` has links, and `M` has none yet. -/
structure Joins (g : ReachGraph ν) (away : GraphNodeId → Prop) (S R M : GraphNodeId)
    (s r m : GraphNode ν) : Prop extends Fuses g S R M s r m where
  coherent : g.Coherent away
  idle : ¬ g.Live M
  uncovered : m.coveredBy = none
  covering : m.covering = []
  linked : ∀ j, g.HasParent R j ∨ g.HasChild R j ∨ g.CoveredBy R j ∨ g.Covers R j → g.Live R
  ready : ∀ p ∈ s.parentIds, g.Live p ∨ away p

namespace Joins

variable {g : ReachGraph ν} {away : GraphNodeId → Prop} {S R M i j q x : GraphNodeId}
  {s r m : GraphNode ν} (h : Joins g away S R M s r m)

include h

theorem child {d : GraphNodeId} (hd : g.HasChild R d) : g.Live d ∧ g.HasParent d R :=
  h.coherent.child R d (h.linked d (.inr (.inl hd))) hd

theorem coverer (hq : g.CoveredBy R q) : g.Live q ∧ g.Covers q R :=
  h.coherent.coverer R q (h.linked q (.inr (.inr (.inl hq)))) hq

theorem covered (hx : g.Covers R x) : g.CoveredBy x R :=
  h.coherent.covered R x (h.linked x (.inr (.inr (.inr hx)))) hx

theorem parent_ready (hq : g.HasParent R q ∨ g.HasParent S q) : g.Live q ∨ away q := by
  rcases hq with hq | hq
  · exact (h.coherent.parent R q (h.linked q (.inl hq)) hq).imp_left And.left
  · exact h.ready q ((at_iff h.successor).1 hq)

/-- The reached node covers itself exactly if it lists itself. -/
theorem self_covered : R ∈ r.covering ↔ r.coveredBy = some R := by
  constructor
  · exact fun hx => (at_iff h.reached).1 (h.covered ⟨r, h.reached, hx⟩)
  · exact fun hc => (at_iff h.reached).1 (h.coverer ⟨r, h.reached, hc⟩).2

theorem coveredBy_fuse :
    (g.fuse S R M s r).CoveredBy j q ↔
      j ≠ R ∧ (g.Covers R j ∧ q = M ∨ ¬ g.Covers R j ∧ g.CoveredBy j q) := by
  have hC : g.Covers R j ↔ j ∈ r.covering := at_iff h.reached
  rw [CoveredBy, at_fuse_of_covered h.ne h.merged h.not_child h.not_parent]
  simp only [fused, hC]
  rcases Decidable.em (j = R) with rfl | hr
  · simp [At]
  · by_cases hc : j ∈ r.covering
    · obtain ⟨n, hn, -⟩ := h.covered (hC.2 hc)
      simp [hr, hc, at_iff hn, eq_comm]
    · simp [hr, hc, CoveredBy]

/-- Who lists `R` among the nodes it covers when `R` is removed. -/
theorem outerCoverer_eq_some_iff (hj : j ≠ R) :
    outerCoverer R M r = some j ↔ j = M ∧ R ∈ r.covering ∨ j ≠ M ∧ r.coveredBy = some j := by
  unfold outerCoverer
  split
  · next hself =>
    have hnot : r.coveredBy ≠ some j := by
      rw [h.self_covered.1 hself]
      exact fun he => hj (Option.some.inj he).symm
    simp [hself, hnot, eq_comm]
  · next hself =>
    have hM : r.coveredBy = some j → j ≠ M := by
      rintro hc rfl
      exact h.idle (h.coverer ⟨r, h.reached, hc⟩).1
    simpa [hself] using hM

/-- The new node takes over what `R` covers, and nobody lists `R` itself. -/
theorem covers_fuse :
    (g.fuse S R M s r).Covers j x ↔
      j = M ∧ g.Covers R x ∧ x ≠ R ∨
      j ≠ M ∧ j ≠ R ∧ g.Covers j x ∧ ¬ (x = R ∧ g.CoveredBy R j) := by
  have hne := h.ne
  have hC : g.Covers R x ↔ x ∈ r.covering := at_iff h.reached
  have hB : g.CoveredBy R j ↔ r.coveredBy = some j := at_iff h.reached
  rw [Covers, at_fuse_of_covered hne h.merged h.not_child h.not_parent, hC, hB]
  rcases Decidable.em (j = R) with rfl | hr
  · simp [fused, At, hne.symm]
  simp only [h.outerCoverer_eq_some_iff hr]
  rcases Decidable.em (j = M) with rfl | hj
  · rw [at_iff h.merged]
    by_cases hself : R ∈ r.covering
    · simp [fused, hr, hself, h.covering]
    · have hx : x ∈ r.covering → x ≠ R := by
        rintro hx rfl
        exact hself hx
      simpa [fused, hr, hself, h.covering] using hx
  · by_cases hc : r.coveredBy = some j
    · simp [fused, hr, hj, hc, Covers, at_and]
    · simp [fused, hr, hj, hc, Covers]

theorem live_new : (g.fuse S R M s r).Live M :=
  h.live.2 (.inr rfl)

theorem live_of_ne (hl : g.Live j) (hj : j ≠ R) : (g.fuse S R M s r).Live j :=
  h.live.2 (.inl ⟨hl, hj⟩)

theorem live_origin (hl : (g.fuse S R M s r).Live j) (hj : j ≠ M) : g.Live j :=
  ((h.live.1 hl).resolve_right hj).1

theorem ne_of_live (hl : g.Live j) : j ≠ M := by
  rintro rfl
  exact h.idle hl

theorem fuse_parent {p : GraphNodeId} (hi : (g.fuse S R M s r).Live i)
    (hp : (g.fuse S R M s r).HasParent i p) :
    (g.fuse S R M s r).Live p ∧ (g.fuse S R M s r).HasChild p i ∨ away p := by
  rcases h.hasParent.1 hp with ⟨rfl, q, hq, rfl⟩ | ⟨hiM, hiR, hc, q, hq, rfl⟩ | ⟨hiM, hiR, hc, hq⟩
  · -- The new node and its parents.
    have hlinked (hl : (g.fuse S R i s r).Live (renamed R i q)) :
        (g.fuse S R i s r).HasChild (renamed R i q) i := h.hasChild.2 (.inr (.inr ⟨rfl, hp, hl⟩))
    rcases Decidable.em (q = R) with rfl | hqr
    · rw [renamed_self] at hlinked ⊢
      exact .inl ⟨hi, hlinked hi⟩
    · rw [renamed_of_ne hqr] at hlinked ⊢
      exact (h.parent_ready hq).imp_left fun hl =>
        ⟨h.live_of_ne hl hqr, hlinked (h.live_of_ne hl hqr)⟩
  · -- A child of `R` and its parents.
    rcases Decidable.em (q = R) with rfl | hqr
    · rw [renamed_self]
      exact .inl ⟨h.live_new, h.hasChild.2 (.inl ⟨rfl, i, hc, (renamed_of_ne hiR).symm⟩)⟩
    · rw [renamed_of_ne hqr]
      refine (h.coherent.parent i q (h.live_origin hi hiM) hq).imp_left ?_
      rintro ⟨hl, hc'⟩
      exact ⟨h.live_of_ne hl hqr,
        h.hasChild.2 (.inr (.inl ⟨h.ne_of_live hl, hqr, hc', fun he => hiR he.1⟩))⟩
  · refine (h.coherent.parent i p (h.live_origin hi hiM) hq).imp_left ?_
    rintro ⟨hl, hc'⟩
    have hpr : p ≠ R := by
      rintro rfl
      exact hc hc'
    exact ⟨h.live_of_ne hl hpr,
      h.hasChild.2 (.inr (.inl ⟨h.ne_of_live hl, hpr, hc', fun he => hiR he.1⟩))⟩

theorem fuse_child {c : GraphNodeId} (hi : (g.fuse S R M s r).Live i)
    (hc : (g.fuse S R M s r).HasChild i c) :
    (g.fuse S R M s r).Live c ∧ (g.fuse S R M s r).HasParent c i := by
  rcases h.hasChild.1 hc with ⟨rfl, d, hd, rfl⟩ | ⟨hiM, hiR, hc, hno⟩ | ⟨rfl, hp, -⟩
  · obtain ⟨hl, hp⟩ := h.child hd
    rcases Decidable.em (d = R) with rfl | hdr
    · rw [renamed_self]
      exact ⟨hi, h.hasParent.2 (.inl ⟨rfl, d, .inl hp, (renamed_self d _).symm⟩)⟩
    · rw [renamed_of_ne hdr]
      exact ⟨h.live_of_ne hl hdr, h.hasParent.2
        (.inr (.inl ⟨h.ne_of_live hl, hdr, hd, R, hp, (renamed_self R _).symm⟩))⟩
  · obtain ⟨hl, hp⟩ := h.coherent.child i c (h.live_origin hi hiM) hc
    have hcr : c ≠ R := by
      rintro rfl
      exact hno ⟨rfl, hp⟩
    refine ⟨h.live_of_ne hl hcr, h.hasParent.2 (.inr ?_)⟩
    by_cases hRc : g.HasChild R c
    · exact .inl ⟨h.ne_of_live hl, hcr, hRc, i, hp, (renamed_of_ne hiR).symm⟩
    · exact .inr ⟨h.ne_of_live hl, hcr, hRc, hp⟩
  · exact ⟨h.live_new, hp⟩

theorem fuse_coverer (hi : (g.fuse S R M s r).Live i) (hq : (g.fuse S R M s r).CoveredBy i q) :
    (g.fuse S R M s r).Live q ∧ (g.fuse S R M s r).Covers q i := by
  obtain ⟨hiR, ⟨hx, rfl⟩ | ⟨hx, hold⟩⟩ := h.coveredBy_fuse.1 hq
  · exact ⟨h.live_new, h.covers_fuse.2 (.inl ⟨rfl, hx, hiR⟩)⟩
  · have hiM : i ≠ M := by
      rintro rfl
      have hnone : m.coveredBy = some q := (at_iff h.merged).1 hold
      rw [h.uncovered] at hnone
      cases hnone
    obtain ⟨hl, hx'⟩ := h.coherent.coverer i q (h.live_origin hi hiM) hold
    have hqr : q ≠ R := by
      rintro rfl
      exact hx hx'
    exact ⟨h.live_of_ne hl hqr,
      h.covers_fuse.2 (.inr ⟨h.ne_of_live hl, hqr, hx', fun he => hiR he.1⟩)⟩

theorem fuse_covered (hi : (g.fuse S R M s r).Live i) (hx : (g.fuse S R M s r).Covers i x) :
    (g.fuse S R M s r).CoveredBy x i := by
  rcases h.covers_fuse.1 hx with ⟨rfl, hx, hxr⟩ | ⟨hiM, hiR, hx, hno⟩
  · exact h.coveredBy_fuse.2 ⟨hxr, .inl ⟨hx, rfl⟩⟩
  · have hc := h.coherent.covered i x (h.live_origin hi hiM) hx
    have hxr : x ≠ R := by
      rintro rfl
      exact hno ⟨rfl, hc⟩
    refine h.coveredBy_fuse.2 ⟨hxr, .inr ⟨fun hR => hiR ?_, hc⟩⟩
    exact hc.unique (h.covered hR)

theorem fuse_coherent : (g.fuse S R M s r).Coherent away :=
  ⟨fun _ _ => h.fuse_parent, fun _ _ => h.fuse_child, fun _ _ => h.fuse_coverer,
    fun _ _ => h.fuse_covered⟩

end Joins

/-! ## The merge -/

/-- The node `S`, which waits to be accepted, can be merged into `R`. -/
structure Fusible (g : ReachGraph ν) (batch : List GraphNodeId) (S R : GraphNodeId)
    (s r : GraphNode ν) : Prop where
  batchWf : g.BatchWf batch
  waits : S ∈ batch
  used : g.Live R ∨ g.MergedAway R
  uncovered : ∀ q, ¬ g.CoveredBy R q
  successor : g.node? S = some s
  reached : g.node? R = some r

/-- The graph after `S` and `R` have been merged into a new node. -/
def merging (g : ReachGraph ν) (location : Option NodeId) (S R : GraphNodeId)
    (s r : GraphNode ν) : ReachGraph ν :=
  (g.create location []).2.fuse S R ⟨g.nodes.size⟩ s r

section Fusion

variable {g : ReachGraph ν} {batch : List GraphNodeId} {S R : GraphNodeId} {s r : GraphNode ν}
  {location : Option NodeId}

namespace Fusible

variable (h : Fusible g batch S R s r) {j p q i : GraphNodeId}

include h

theorem new_ne : (⟨g.nodes.size⟩ : GraphNodeId) ≠ R := by
  intro hR
  exact not_at_size (P := fun _ => True) ⟨r, by rw [hR]; exact h.reached, trivial⟩

theorem joins : (g.create location []).2.Joins (g.create location []).2.MergedAway S R
    ⟨g.nodes.size⟩ s r ⟨.pending, none, location, [], [], none, [], none⟩ := by
  have ht : (g.create location []).2.BatchWf (batch ++ [⟨g.nodes.size⟩]) :=
    h.batchWf.create (by simp)
  have hcreate : ∀ {i n}, g.At i (n = ·) ∨ i = ⟨g.nodes.size⟩ ∧
      n = (⟨.pending, none, location, [], [], none, [], none⟩ : GraphNode ν) →
      (g.create location []).2.node? i = some n := by
    intro i n hn
    obtain ⟨n', hn', rfl⟩ := at_create.2 hn
    exact hn'
  have hs := hcreate (.inl ⟨s, h.successor, rfl⟩)
  refine ⟨⟨hs, hcreate (.inl ⟨r, h.reached, rfl⟩), hcreate (.inr ⟨rfl, rfl⟩), h.new_ne, rfl,
    fun hc => not_at_size (h.batchWf.child R _ ⟨r, h.reached, hc⟩).2.1,
    fun hp => not_at_size (h.batchWf.known R _ ⟨r, h.reached, hp⟩)⟩, ht.coherent,
    (ht.idle _ (by simp)).2, rfl, rfl, ?_, fun p hp => ht.ready S (by simp [h.waits]) p ⟨s, hs, hp⟩⟩
  rintro j (hp | hc | hq | hx)
  · refine at_create.2 (.inl (h.used.resolve_right fun hm => ?_))
    exact ht.bare R j hp (mergedAway_create.2 hm).destroyed
  · exact (ht.child R j hc).1
  · exact (ht.coverer R j hq).1
  · exact (ht.covered R j hx).1

theorem at_merging {P : GraphNode ν → Prop} :
    (g.merging location S R s r).At j P ↔
      g.At j (fun n => P (fused S R ⟨g.nodes.size⟩ s r j n)) ∨
        j = ⟨g.nodes.size⟩ ∧ P (fused S R ⟨g.nodes.size⟩ s r ⟨g.nodes.size⟩
          ⟨.pending, none, location, [], [], none, [], none⟩) := by
  have hf := @joins _ _ _ _ _ _ _ location h
  have hcover : r.coveredBy = none := by
    cases hc : r.coveredBy with
    | none => rfl
    | some q => exact absurd ⟨r, h.reached, hc⟩ (h.uncovered q)
  have hcovers : R ∉ r.covering := fun hx =>
    h.uncovered R (h.batchWf.covered R R ⟨r, h.reached, hx⟩).2.2
  rw [merging, at_fuse hf.ne hf.merged hf.not_child hf.not_parent hcover hcovers, at_create]
  refine or_congr_right (and_congr_right ?_)
  rintro rfl
  exact Iff.rfl

theorem live : (g.merging location S R s r).Live j ↔ g.Live j ∧ j ≠ R ∨ j = ⟨g.nodes.size⟩ := by
  have hcreate : (g.create location []).2.Live j ↔ g.Live j := at_create_of_not (by simp)
  rw [merging, h.joins.live, hcreate]

theorem destroyed : (g.merging location S R s r).Destroyed j ↔ g.Destroyed j ∨ j = R := by
  have hne := h.new_ne
  rw [Destroyed, h.at_merging]
  rcases Decidable.em (j = ⟨g.nodes.size⟩) with rfl | hj
  · simp [fused, hne, Destroyed, not_at_size]
  · rcases Decidable.em (j = R) with rfl | hr
    · simp [fused, hj, at_iff h.reached]
    · simp [fused, hj, hr, Destroyed]

theorem mergedAway (hj : g.MergedAway j) : (g.merging location S R s r).MergedAway j := by
  obtain ⟨n, hn, hd, hm⟩ := hj
  have hne : j ≠ ⟨g.nodes.size⟩ := by
    rintro rfl
    exact not_at_size (P := fun _ => True) ⟨n, hn, trivial⟩
  refine h.at_merging.2 (.inl ⟨n, hn, ?_, ?_⟩)
  · simp [fused, hne, hd]
  · by_cases hS : j = R ∨ j = S <;> simp [fused, hS, hm]

theorem mergedAway_reached : (g.merging location S R s r).MergedAway R :=
  h.at_merging.2 (.inl ⟨r, h.reached, by simp [fused]⟩)

theorem known : (g.merging location S R s r).Known j ↔ g.Known j ∨ j = ⟨g.nodes.size⟩ := by
  rw [Known, h.at_merging]
  simp [Known]

/-- The new node has the parents of both nodes. A child of `R` becomes a child of the new node; all
other nodes keep their parents. -/
theorem hasParent :
    (g.merging location S R s r).HasParent j p ↔
      j = ⟨g.nodes.size⟩ ∧
        (∃ q, (g.HasParent R q ∨ g.HasParent S q) ∧ p = renamed R ⟨g.nodes.size⟩ q) ∨
      j ≠ R ∧ g.HasChild R j ∧ (∃ q, g.HasParent j q ∧ p = renamed R ⟨g.nodes.size⟩ q) ∨
      j ≠ R ∧ ¬ g.HasChild R j ∧ g.HasParent j p := by
  rw [merging, h.joins.hasParent]
  simp only [hasParent_create, hasChild_create, List.map_nil, List.not_mem_nil, and_false, or_false]
  rcases Decidable.em (j = ⟨g.nodes.size⟩) with rfl | hj
  · have hnone : ∀ {q}, ¬ g.HasParent ⟨g.nodes.size⟩ q := not_at_size
    simp [hnone]
  · simp [hj]

theorem hasChild {c : GraphNodeId} :
    (g.merging location S R s r).HasChild j c ↔
      j = ⟨g.nodes.size⟩ ∧ (∃ d, g.HasChild R d ∧ c = renamed R ⟨g.nodes.size⟩ d) ∨
      j ≠ R ∧ g.HasChild j c ∧ ¬ (c = R ∧ g.HasParent R j) ∨
      c = ⟨g.nodes.size⟩ ∧ (g.merging location S R s r).HasParent ⟨g.nodes.size⟩ j ∧
        (g.merging location S R s r).Live j := by
  rw [merging, h.joins.hasChild]
  simp only [hasParent_create, hasChild_create, List.map_nil, List.not_mem_nil, and_false, or_false]
  rcases Decidable.em (j = ⟨g.nodes.size⟩) with rfl | hj
  · have hnone : ¬ g.HasChild ⟨g.nodes.size⟩ c := not_at_size
    simp [hnone]
  · simp [hj]

theorem coveredBy :
    (g.merging location S R s r).CoveredBy j q ↔
      j ≠ R ∧ (g.Covers R j ∧ q = ⟨g.nodes.size⟩ ∨ ¬ g.Covers R j ∧ g.CoveredBy j q) := by
  rw [merging, h.joins.coveredBy_fuse, covers_create, coveredBy_create]

theorem covers {x : GraphNodeId} :
    (g.merging location S R s r).Covers j x ↔
      j = ⟨g.nodes.size⟩ ∧ g.Covers R x ∨ j ≠ R ∧ g.Covers j x := by
  have hxR : g.Covers R x → x ≠ R := by
    rintro hx rfl
    exact h.uncovered x (h.batchWf.covered x x hx).2.2
  have hj : g.Covers j x → j ≠ ⟨g.nodes.size⟩ := by
    rintro hx rfl
    exact not_at_size hx
  rw [merging, h.joins.covers_fuse, covers_create, covers_create, coveredBy_create]
  simp only [h.uncovered, and_false, not_false_eq_true, and_true, and_iff_left_of_imp hxR]
  exact or_congr_right ⟨And.right, fun hx => ⟨hj hx.2, hx⟩⟩

/-- A parent after the merge was a parent before it, or is the new node. -/
theorem parent_origin (hp : (g.merging location S R s r).HasParent i p) :
    p = ⟨g.nodes.size⟩ ∨ ∃ k, g.HasParent k p := by
  have hold : ∀ k q, g.HasParent k q → renamed R ⟨g.nodes.size⟩ q = ⟨g.nodes.size⟩ ∨
      ∃ k, g.HasParent k (renamed R ⟨g.nodes.size⟩ q) := by
    intro k q hq
    rcases Decidable.em (q = R) with rfl | hqr
    · exact .inl (renamed_self q _)
    · rw [renamed_of_ne hqr]
      exact .inr ⟨k, hq⟩
  rcases h.hasParent.1 hp with ⟨-, q, hq | hq, rfl⟩ | ⟨-, -, q, hq, rfl⟩ | ⟨-, -, hq⟩
  · exact hold R q hq
  · exact hold S q hq
  · exact hold i q hq
  · exact .inr ⟨i, hq⟩

/-- A merge keeps the links well-formed. It is the one change after which a node that waits may have
a parent that is not live. -/
theorem merging_batchWf : (g.merging location S R s r).BatchWf batch := by
  have ht := h.batchWf
  have hnew : ∀ b ∈ batch, b ≠ ⟨g.nodes.size⟩ := by
    intro b hb hbn
    exact not_at_size (hbn ▸ (ht.idle b hb).1)
  constructor
  · have hcoherent : (g.merging location S R s r).Coherent _ := h.joins.fuse_coherent
    refine (hcoherent.mono fun i p _ hm => h.mergedAway (mergedAway_create.1 hm)).linked ?_ ?_ ?_
    · intro i c hc
      rcases h.hasChild.1 hc with ⟨rfl, -⟩ | ⟨hir, hc, -⟩ | ⟨-, -, hl⟩
      · exact h.live.2 (.inr rfl)
      · exact h.live.2 (.inl ⟨(ht.child i c hc).1, hir⟩)
      · exact hl
    · intro i q hq
      obtain ⟨hir, ⟨hx, -⟩ | ⟨-, hq⟩⟩ := h.coveredBy.1 hq
      · exact h.live.2 (.inl ⟨(ht.covered R i hx).2.1, hir⟩)
      · exact h.live.2 (.inl ⟨(ht.coverer i q hq).1, hir⟩)
    · intro i x hx
      rcases h.covers.1 hx with ⟨rfl, -⟩ | ⟨hir, hx⟩
      · exact h.live.2 (.inr rfl)
      · exact h.live.2 (.inl ⟨(ht.covered i x hx).1, hir⟩)
  · intro i p hp
    rcases h.parent_origin hp with rfl | ⟨k, hk⟩
    · exact h.known.2 (.inr rfl)
    · exact h.known.2 (.inl (ht.known k p hk))
  · intro i p hp hd
    rcases h.destroyed.1 hd with hd | rfl
    · rcases h.hasParent.1 hp with ⟨rfl, -⟩ | ⟨-, -, q, hq, -⟩ | ⟨-, -, hq⟩
      · exact not_at_size hd
      · exact ht.bare i q hq hd
      · exact ht.bare i p hq hd
    · rcases h.hasParent.1 hp with ⟨hi, -⟩ | ⟨hi, -⟩ | ⟨hi, -⟩
      · exact h.new_ne hi.symm
      · exact hi rfl
      · exact hi rfl
  · exact ht.distinct
  · intro b hb
    obtain ⟨hk, hl⟩ := ht.idle b hb
    refine ⟨h.known.2 (.inl hk), fun hl' => ?_⟩
    rcases h.live.1 hl' with hl' | rfl
    · exact hl hl'.1
    · exact hnew _ hb rfl
  · intro b hb p hp
    rcases h.hasParent.1 hp with ⟨rfl, -⟩ | ⟨-, hc, -⟩ | ⟨-, -, hq⟩
    · exact absurd rfl (hnew _ hb)
    · exact absurd (ht.child R b hc).2.1 (ht.idle b hb).2
    · rcases ht.ready b hb p hq with hl | hm
      · rcases Decidable.em (p = R) with rfl | hpr
        · exact .inr h.mergedAway_reached
        · exact .inl (h.live.2 (.inl ⟨hl, hpr⟩))
      · exact .inr (h.mergedAway hm)
  · intro i p hp
    rcases h.parent_origin hp with rfl | ⟨k, hk⟩
    · exact fun hb => hnew _ hb rfl
    · exact ht.childless k p hk

end Fusible

end Fusion

end ProgramAnalysis.ReachGraph
