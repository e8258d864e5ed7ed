import ProgramAnalysis.Proofs.GraphFusion
import ProgramAnalysis.Proofs.GraphTrimming
/-!
Changes of the reachability graph that keep its links consistent.

A `Change` is one of the ways in which the graph can be changed, and `Permits` says when it may be
made. A change that may be made does not crash, and if the check of the links finds nothing before
it, then it finds nothing after it (`change_keeps_links`). For a merge it also says which links the
new node has: the reached node may have loops, be covered, or be a parent of the very node that is
merged into it.

A node that waits knows its parents, but no live node knows of it. All that a change has to see to
is that it goes without leaving or taking a link of a live node: this is why a node that is dropped
must not cover others.
-/

namespace ProgramAnalysis

variable {ν : Type} {j q i : GraphNodeId} {old : GraphNode ν}

/-- A pending node without links, but it may have parents. -/
structure GraphNode.Fresh (n : GraphNode ν) : Prop where
  pending : n.status = .pending
  children : n.children = []
  coveredBy : n.coveredBy = none
  covering : n.covering = []

namespace ReachGraph

variable {g g' : ReachGraph ν} {location : Option NodeId}

/-! ## Single changes -/

/-- A fresh node whose parents are live. -/
def Awaits (g : ReachGraph ν) (i : GraphNodeId) : Prop :=
  g.At i fun n => n.Fresh ∧ ∀ p ∈ n.parentIds, g.Live p

/-- A node that is not live and covers none, and whose parents exist. -/
def Droppable (g : ReachGraph ν) (i : GraphNodeId) : Prop :=
  g.At i fun n => n.status ≠ .live ∧ n.covering = [] ∧ ∀ p ∈ n.parentIds, g.Known p

theorem Awaits.droppable (h : g.Awaits i) : g.Droppable i :=
  h.mono fun n hn => ⟨by rw [hn.1.pending]; decide, hn.1.covering, fun p hp => (hn.2 p hp).known⟩

/-- When the live nodes and their links stay, so does consistency. -/
theorem Consistent.of_links (h : g.Consistent) (live : ∀ i, g'.Live i ↔ g.Live i)
    (parent : ∀ i p, g.Live i → (g'.HasParent i p ↔ g.HasParent i p))
    (child : ∀ i c, g'.HasChild i c ↔ g.HasChild i c)
    (coverer : ∀ i q, g'.CoveredBy i q ↔ g.CoveredBy i q)
    (covers : ∀ i x, g'.Covers i x ↔ g.Covers i x) : g'.Consistent := by
  constructor <;> simp only [live, child, coverer, covers]
  · intro i p hi hp
    exact h.parent i p hi ((parent i p hi).1 hp)
  · intro i c hi hc
    obtain ⟨hl, hp⟩ := h.child i c hi hc
    exact ⟨hl, (parent c i hl).2 hp⟩
  · exact h.coverer
  · exact h.covered

theorem Consistent.create (h : g.Consistent) (location : Option NodeId) (links : List ParentLink) :
    (g.create location links).2.Consistent := by
  refine h.of_links (fun i => at_create_of_not (by simp)) (fun i p hi => ?_)
    (fun i c => at_create_of_not (by simp)) (fun i q => at_create_of_not (by simp))
    fun i x => at_create_of_not (by simp)
  rw [hasParent_create, or_iff_left]
  rintro ⟨rfl, -⟩
  exact not_at_size hi

theorem at_addRoot {P : GraphNode ν → Prop} :
    (g.addRoot location).2.At j P ↔
      g.At j P ∨ j = ⟨g.nodes.size⟩ ∧ P ⟨.live, none, location, [], [], none, [], none⟩ := by
  have hroot : (g.addRoot location).2.At j P ↔
      ((g.create location []).2.update ⟨g.nodes.size⟩ fun n => { n with status := .live }).At j P :=
    Iff.rfl
  rw [hroot, at_update, at_create]
  rcases Decidable.em (j = ⟨g.nodes.size⟩) with rfl | hj
  · simp [not_at_size]
  · simp [hj]

theorem live_addRoot : (g.addRoot location).2.Live j ↔ g.Live j ∨ j = ⟨g.nodes.size⟩ := by
  rw [Live, at_addRoot]
  simp [Live]

namespace Consistent

variable (h : g.Consistent)

include h

theorem addRoot (location : Option NodeId) : (g.addRoot location).2.Consistent := by
  have parent : ∀ i p, (g.addRoot location).2.HasParent i p ↔ g.HasParent i p := fun i p =>
    at_addRoot.trans (by simp [HasParent, GraphNode.parentIds])
  have child : ∀ i c, (g.addRoot location).2.HasChild i c ↔ g.HasChild i c := fun i c =>
    at_addRoot.trans (by simp [HasChild])
  have coverer : ∀ i q, (g.addRoot location).2.CoveredBy i q ↔ g.CoveredBy i q := fun i q =>
    at_addRoot.trans (by simp [CoveredBy])
  have covers : ∀ i x, (g.addRoot location).2.Covers i x ↔ g.Covers i x := fun i x =>
    at_addRoot.trans (by simp [Covers])
  constructor <;> simp only [live_addRoot, parent, child, coverer, covers]
  · rintro i p (hi | rfl) hp
    · exact (h.parent i p hi hp).imp_left (.imp_left .inl)
    · exact absurd hp not_at_size
  · rintro i c (hi | rfl) hc
    · exact (h.child i c hi hc).imp_left .inl
    · exact absurd hc not_at_size
  · rintro i q (hi | rfl) hq
    · exact (h.coverer i q hi hq).imp_left .inl
    · exact absurd hq not_at_size
  · rintro i x (hi | rfl) hx
    · exact h.covered i x hi hx
    · exact absurd hx not_at_size

theorem accept {b : GraphNodeId} (hb : g.Awaits b) (s : State ν) : (g.accept b s).Consistent := by
  have hknown : g.Known b := hb.known
  obtain ⟨old, hold, hfresh, hready⟩ := hb
  refine Coherent.accept hknown h ?_ ?_ ?_ fun p hp => .inl (hready p ((at_iff hold).1 hp))
  · simp [HasChild, at_iff hold, hfresh.children]
  · simp [CoveredBy, at_iff hold, hfresh.coveredBy]
  · simp [Covers, at_iff hold, hfresh.covering]

theorem cover {b : GraphNodeId} (hb : g.Awaits b) (hq : g.Live q) (s : State ν) :
    (g.cover b q s).Consistent := by
  have ha := h.accept hb s
  have hknown : g.Known b := hb.known
  obtain ⟨old, hold, hfresh, -⟩ := hb
  have live : ∀ {j}, (g.cover b q s).Live j ↔ (g.accept b s).Live j :=
    at_cover_iff_accept hknown fun _ _ _ => Iff.rfl
  have parent : ∀ {j p}, (g.cover b q s).HasParent j p ↔ (g.accept b s).HasParent j p :=
    at_cover_iff_accept hknown fun _ _ _ => Iff.rfl
  have child : ∀ {j c}, (g.cover b q s).HasChild j c ↔ (g.accept b s).HasChild j c :=
    at_cover_iff_accept hknown fun _ _ _ => Iff.rfl
  have coverer : ∀ {j q'}, (g.cover b q s).CoveredBy j q' ↔
      j = b ∧ q' = q ∨ j ≠ b ∧ (g.accept b s).CoveredBy j q' := by
    intro j q'
    rw [coveredBy_cover hknown, coveredBy_accept hknown]
  constructor <;> simp only [live, parent, child, coverer, covers_cover hknown hq]
  · exact ha.parent
  · exact ha.child
  · rintro i q' hi (⟨rfl, rfl⟩ | ⟨-, hc⟩)
    · exact ⟨(live_accept hknown).2 (.inl hq), .inr ⟨rfl, rfl⟩⟩
    · exact (ha.coverer i q' hi hc).imp_right .inl
  · rintro i x hi (hx | ⟨rfl, rfl⟩)
    · have hc := ha.covered i x hi hx
      refine .inr ⟨?_, hc⟩
      rintro rfl
      have hnone : old.coveredBy = some i := (at_iff hold).1 ((coveredBy_accept hknown).1 hc)
      rw [hfresh.coveredBy] at hnone
      cases hnone
    · exact .inl ⟨rfl, rfl⟩

end Consistent

theorem Droppable.cut_consistent {id : GraphNodeId} (hd : g.Droppable id) (h : g.Consistent)
    (hid : g.node? id = some old) : (g.cut id old).Consistent := by
  refine h.cut hid fun x hx => ?_
  have hnone : old.covering = [] := ((at_iff hid).1 hd).2.1
  have hx : x ∈ old.covering := (at_iff hid).1 hx
  rw [hnone] at hx
  cases hx

theorem Droppable.cut {id : GraphNodeId} (h : g.Droppable i) : (g.cut id old).Droppable i := by
  obtain ⟨n, hn, hidle, hcovering, hknown⟩ := h
  rw [Droppable, at_cut]
  refine ⟨n, hn, ?_⟩
  simp only [known_cut]
  split
  · simp [dead, GraphNode.parentIds]
  · refine ⟨hidle, by simp [severed, hcovering], fun p hp => hknown p ?_⟩
    have hsub : (severed id i old n).parents ⊆ n.parents := by
      unfold severed
      dsimp only
      split
      · exact fun l hl => (List.mem_filter.1 hl).1
      · exact fun l hl => hl
    exact List.map_subset _ hsub hp

/-! ## Merges -/

section Merge

variable {S R M : GraphNodeId} {s r m : GraphNode ν}

/-- The new node has the links of both nodes to their parents. -/
theorem Joins.parents_fuse {away : GraphNodeId → Prop} {link : ParentLink}
    (h : Joins g away S R M s r m) :
    ((g.fuse S R M s r).At M fun n => link ∈ n.parents) ↔
      ∃ l, (l ∈ r.parents ∨ l ∈ s.parents) ∧ link = (renamed R M l.1, l.2) := by
  rw [at_fuse_of_covered h.ne h.merged h.not_child h.not_parent]
  simp only [fused, h.ne, if_true, if_false, at_iff h.merged, fusedLinks, redirect, List.mem_map,
    mem_unite]
  refine exists_congr fun l => and_congr_right fun _ => ?_
  unfold renamed
  split <;> exact eq_comm

/-- What has become of `R` and `S`, which were merged into `M`. -/
structure TakesOver (g : ReachGraph ν) (S R M : GraphNodeId) (g' : ReachGraph ν) : Prop where
  live : g'.Live M
  parents : ∀ link, (g'.At M fun n => link ∈ n.parents) ↔
    ∃ l, ((g.At R fun n => l ∈ n.parents) ∨ g.At S fun n => l ∈ n.parents) ∧
      link = (renamed R M l.1, l.2)
  /-- The new node is its own child if `R` had been that, or the parent of `S`. -/
  children : ∀ c, g'.HasChild M c ↔
    (∃ d, g.HasChild R d ∧ c = renamed R M d) ∨ c = M ∧ g.HasParent S R
  covered : ∀ x, g'.Covers M x ↔ g.Covers R x ∧ x ≠ R
  destroyed : g'.Destroyed R
  forgotten : ∀ i, g'.Live i →
    ¬ g'.HasParent i R ∧ ¬ g'.HasChild i R ∧ ¬ g'.CoveredBy i R ∧ ¬ g'.Covers i R

theorem Fuses.destroyed (h : Fuses g S R M s r m) : (g.fuse S R M s r).Destroyed R := by
  rw [Destroyed, at_fuse_of_covered h.ne h.merged h.not_child h.not_parent]
  exact ⟨r, h.reached, by simp [fused]⟩

variable (h : Joins g (fun _ => False) S R M s r m)

include h

theorem Joins.parent_live (hq : g.HasParent R q ∨ g.HasParent S q) : g.Live q :=
  (h.parent_ready hq).resolve_right id

theorem Joins.takesOver : g.TakesOver S R M (g.fuse S R M s r) where
  live := h.live_new
  parents link := by
    rw [h.parents_fuse]
    simp only [at_iff h.reached, at_iff h.successor]
  children c := by
    have hself : (g.fuse S R M s r).HasParent M M ↔ g.HasParent R R ∨ g.HasParent S R := by
      rw [h.hasParent]
      constructor
      · rintro (⟨-, q, hq, hM⟩ | ⟨hne, -⟩ | ⟨hne, -⟩)
        · rcases Decidable.em (q = R) with rfl | hqr
          · exact hq
          · rw [renamed_of_ne hqr] at hM
            exact absurd hM.symm (h.ne_of_live (h.parent_live hq))
        · exact absurd rfl hne
        · exact absurd rfl hne
      · exact fun hq => .inl ⟨rfl, R, hq, (renamed_self R M).symm⟩
    rw [h.hasChild]
    constructor
    · rintro (⟨-, hd⟩ | ⟨hne, -⟩ | ⟨rfl, hp, -⟩)
      · exact .inl hd
      · exact absurd rfl hne
      · rcases hself.1 hp with hp | hp
        · -- A loop at `R` is noted at both ends.
          have hc := (h.coherent.parent R R (h.linked R (.inl hp)) hp).resolve_right id
          exact .inl ⟨R, hc.2, (renamed_self R c).symm⟩
        · exact .inr ⟨rfl, hp⟩
    · rintro (hd | ⟨rfl, hp⟩)
      · exact .inl ⟨rfl, hd⟩
      · exact .inr (.inr ⟨rfl, hself.2 (.inr hp), h.live_new⟩)
  covered x := by
    rw [h.covers_fuse]
    simp
  destroyed := h.destroyed
  forgotten i hi := by
    have hdead := h.destroyed.not_live
    refine ⟨fun hp => hdead ((h.fuse_parent hi hp).resolve_right id).1,
      fun hc => hdead (h.fuse_child hi hc).1, fun hq => hdead (h.fuse_coverer hi hq).1,
      fun hx => ?_⟩
    exact (h.coveredBy_fuse.1 (h.fuse_covered hi hx)).1 rfl

end Merge

end ReachGraph

/-! ## Runs of changes -/

namespace Edit

variable {g : ReachGraph ν} {id : GraphNodeId}

theorem run_fetch {n : GraphNode ν} (h : g.node? id = some n) :
    (fetch id).run.run g = (.ok n, g) := by
  have hget : (get : Edit ν (ReachGraph ν)).run.run g = (.ok g, g) := rfl
  rw [fetch, run_bind_of_ok hget, h]
  rfl

theorem run_disown (ps : List GraphNodeId) (h : ∀ p ∈ ps, g.Known p) :
    (ps.forM fun p => do
      let _ ← fetch p
      modify fun g => g.disown id p : Edit ν Unit).run.run g =
        (.ok (), ps.foldl (fun g p => g.disown id p) g) := by
  induction ps generalizing g with
  | nil => rfl
  | cons p ps ih =>
    obtain ⟨⟨n, hn, -⟩, hps⟩ := List.forall_mem_cons.1 h
    have hstep : (do
        let _ ← fetch p
        modify fun g => g.disown id p : Edit ν Unit).run.run g = (.ok (), g.disown id p) :=
      run_bind_of_ok (run_fetch hn)
    have hknown : ∀ q ∈ ps, (g.disown id p).Known q := fun q hq =>
      ReachGraph.at_update.2 (hps q hq)
    exact (run_bind_of_ok hstep).trans (ih hknown)

/-- A node whose parents exist can be removed. -/
theorem run_unlink (hid : g.node? id = some old) (h : ∀ p ∈ old.parentIds, g.Known p) :
    (unlink id).run.run g = (.ok (), g.cut id old) := by
  have hparents : ∀ p ∈ old.parentIds.filter (· ≠ id), (g.destroy id).Known p := fun p hp =>
    ReachGraph.at_update.2 (h p (List.mem_filter.1 hp).1)
  have hdestroy : (modify fun g => g.destroy id : Edit ν Unit).run.run g = (.ok (), g.destroy id) :=
    rfl
  unfold unlink
  rw [run_bind_of_ok (run_fetch hid), run_bind_of_ok hdestroy,
    run_bind_of_ok (run_disown _ hparents)]
  rfl

theorem run_merge {S R M : GraphNodeId} {s r m : GraphNode ν}
    (h : ReachGraph.Joins g (fun _ => False) S R M s r m) :
    (merge S R M).run.run g = (.ok (), g.fuse S R M s r) := by
  let links := ReachGraph.fusedLinks R M s r
  have hsucceed : (modify fun g => g.succeed R M links r : Edit ν Unit).run.run g =
      (.ok (), g.succeed R M links r) := rfl
  have hat : ∀ {j} {P : GraphNode ν → Prop}, (g.succeed R M links r).At j P ↔
      g.At j fun n => P (ReachGraph.succeeded R M links r j n) :=
    ReachGraph.at_succeed h.ne h.not_child
  obtain ⟨old, hold, rfl⟩ : (g.succeed R M links r).At R fun n =>
      n = ReachGraph.succeeded R M links r R r := hat.2 ⟨r, h.reached, rfl⟩
  have hparents : ∀ p ∈ (ReachGraph.succeeded R M links r R r).parentIds,
      (g.succeed R M links r).Known p := by
    intro p hp
    have hp : p ∈ r.parentIds := by
      simpa [ReachGraph.succeeded, GraphNode.parentIds, h.ne.symm] using hp
    exact hat.2 (h.parent_live (.inl ⟨r, h.reached, hp⟩)).known
  unfold merge
  rw [run_bind_of_ok (run_fetch h.reached), run_bind_of_ok (run_fetch h.successor)]
  show (modify (fun g => g.succeed R M links r) >>= _ : Edit ν Unit).run.run g = _
  rw [run_bind_of_ok hsucceed, run_bind_of_ok (run_unlink hold hparents)]
  rfl

/-- Nodes that can be dropped can be dropped one after the other. -/
theorem run_unlinkAll (ids : List GraphNodeId) (hg : g.Consistent) (h : ∀ i ∈ ids, g.Droppable i) :
    ∃ g', (ids.forM unlink : Edit ν Unit).run.run g = (.ok (), g') ∧ g'.Consistent ∧
      ∀ j, g'.Live j ↔ g.Live j := by
  induction ids generalizing g with
  | nil => exact ⟨g, rfl, hg, fun _ => Iff.rfl⟩
  | cons i ids ih =>
    obtain ⟨hi, hids⟩ := List.forall_mem_cons.1 h
    have hdrop := hi
    obtain ⟨old, hold, hidle, -, hknown⟩ := hi
    obtain ⟨g', hrun, hg', hlive⟩ :=
      ih (hdrop.cut_consistent hg hold) fun j hj => (hids j hj).cut
    have hnot : ¬ g.Live i := fun hl => hidle ((ReachGraph.at_iff hold).1 hl)
    refine ⟨g', (run_bind_of_ok (run_unlink hold hknown)).trans hrun, hg', fun j => ?_⟩
    rw [hlive, ReachGraph.live_cut_of_not_live hnot]

end Edit

/-- The ways in which a graph is changed. -/
inductive Change (ν : Type) where
  | create (location : Option NodeId) (links : List ParentLink)
  | addRoot (location : Option NodeId)
  | accept (id : GraphNodeId) (s : State ν)
  | cover (id coverer : GraphNodeId) (s : State ν)
  | merge (successor reached merged : GraphNodeId)
  | discard (id : GraphNodeId)
  | discardPending
  | prune (id : GraphNodeId)

/-- The change as it is made. -/
def Change.edit : Change ν → Edit ν Unit
  | create location links => modify fun g => (g.create location links).2
  | addRoot location => modify fun g => (g.addRoot location).2
  | accept id s => Edit.accept id s
  | cover id coverer s => Edit.cover id coverer s
  | merge successor reached merged => Edit.merge successor reached merged
  | discard id => Edit.discard id
  | discardPending => Edit.discardPending
  | prune id => Edit.prune id

namespace ReachGraph

/-- When a change may be made. -/
def Permits (g : ReachGraph ν) : Change ν → Prop
  | .create _ _ => True
  | .addRoot _ => True
  | .accept id _ => g.Awaits id
  | .cover id coverer _ => g.Awaits id ∧ g.Live coverer
  | .merge successor reached merged =>
    g.Awaits successor ∧ g.Live reached ∧ g.At merged GraphNode.Fresh
  | .discard id => g.Awaits id
  | .discardPending => ∀ id ∈ g.pendingIds, g.Droppable id
  | .prune id => g.Live id

/-- The nodes that are live after a change. -/
def LiveAfter (g : ReachGraph ν) (i : GraphNodeId) : Change ν → Prop
  | .create _ _ => g.Live i
  | .addRoot _ => g.Live i ∨ i = ⟨g.nodes.size⟩
  | .accept id _ => g.Live i ∨ i = id
  | .cover id _ _ => g.Live i ∨ i = id
  | .merge _ reached merged => g.Live i ∧ i ≠ reached ∨ i = merged
  | .discard _ => g.Live i
  | .discardPending => g.Live i
  | .prune id => g.Live i ∧ i ≠ id

variable {g : ReachGraph ν}

theorem Permits.mergeable {S R M : GraphNodeId} (h : g.Permits (.merge S R M)) (hg : g.Consistent) :
    ∃ s r m, Joins g (fun _ => False) S R M s r m := by
  obtain ⟨⟨s, hs, -, hready⟩, ⟨r, hr, hlive⟩, ⟨m, hm, hfresh⟩⟩ := h
  have hR : g.Live R := ⟨r, hr, hlive⟩
  have hidle : ¬ g.Live M := by
    intro hl
    have hl : m.status = .live := (at_iff hm).1 hl
    rw [hfresh.pending] at hl
    cases hl
  refine ⟨s, r, m, ⟨hs, hr, hm, ?_, hfresh.children, ?_, ?_⟩, hg, hidle,
    hfresh.coveredBy, hfresh.covering, fun _ _ => hR, fun p hp => .inl (hready p hp)⟩
  · rintro rfl
    exact hidle hR
  · exact fun hc => hidle (hg.child R M hR ⟨r, hr, hc⟩).1
  · exact fun hp => hidle (hg.listed hR ⟨r, hr, hp⟩).1

/-- A change that may be made is made, and keeps the links consistent. -/
theorem Permits.exists_run {c : Change ν} (h : g.Permits c) (hg : g.Consistent) :
    ∃ g', c.edit.run.run g = (.ok (), g') ∧ g'.Consistent ∧ ∀ i, g'.Live i ↔ g.LiveAfter i c := by
  cases c with
  | create location links =>
    exact ⟨_, rfl, hg.create location links, fun i => at_create_of_not (by simp)⟩
  | addRoot location => exact ⟨_, rfl, hg.addRoot location, fun i => live_addRoot⟩
  | accept id s =>
    have hb : g.Awaits id := h
    obtain ⟨n, hn, -⟩ := h
    exact ⟨_, run_bind_of_ok (Edit.run_fetch hn), hg.accept hb s, fun i =>
      live_accept hb.known⟩
  | cover id coverer s =>
    obtain ⟨hb, hq⟩ := h
    have hknown : g.Known id := hb.known
    obtain ⟨n, hn, -⟩ := hknown
    exact ⟨_, run_bind_of_ok (Edit.run_fetch hn), hg.cover hb hq s, fun i => live_cover hb.known⟩
  | merge successor reached merged =>
    obtain ⟨s, r, m, hm⟩ := h.mergeable hg
    exact ⟨_, Edit.run_merge hm, hm.fuse_coherent, fun i => hm.live⟩
  | discard id =>
    have hdrop := Awaits.droppable h
    obtain ⟨old, hold, hidle, -, hknown⟩ := Awaits.droppable h
    have hnot : ¬ g.Live id := fun hl => hidle ((at_iff hold).1 hl)
    exact ⟨_, Edit.run_unlink hold hknown, hdrop.cut_consistent hg hold, fun i =>
      live_cut_of_not_live hnot⟩
  | discardPending =>
    obtain ⟨g', hrun, hg', hlive⟩ := Edit.run_unlinkAll g.pendingIds hg h
    have hget : (get : Edit ν (ReachGraph ν)).run.run g = (.ok g, g) := rfl
    exact ⟨g', (run_bind_of_ok hget).trans hrun, hg', hlive⟩
  | prune id =>
    have hid : g.Live id := h
    obtain ⟨old, hold, -⟩ := h
    have hknown : ∀ p ∈ old.parentIds, g.Known p := fun p hp =>
      (hg.listed hid ⟨old, hold, hp⟩).1.known
    have hcut := hg.cut hold fun _ _ => hid
    refine ⟨_, run_bind_of_ok (Edit.run_unlink hold hknown), ?_, fun i => live_cut⟩
    exact ⟨hcut.parent, hcut.child, hcut.coverer, hcut.covered⟩

/-- The check of the links finds nothing after a change that may be made, if it found nothing
before. A merge hands all links of the node that is destroyed over to the new one. -/
theorem change_keeps_links {c : Change ν} (hg : g.fault? = none) (hc : g.Permits c) :
    ∃ g', c.edit.run.run g = (.ok (), g') ∧ g'.fault? = none ∧
      (∀ i, g'.Live i ↔ g.LiveAfter i c) ∧
      ∀ S R M, c = .merge S R M → g.TakesOver S R M g' := by
  have hg := fault?_eq_none_iff.1 hg
  obtain ⟨g', hrun, hg', hlive⟩ := hc.exists_run hg
  refine ⟨g', hrun, fault?_eq_none_iff.2 hg', hlive, ?_⟩
  rintro S R M rfl
  obtain ⟨s, r, m, hm⟩ := hc.mergeable hg
  obtain rfl : g.fuse S R M s r = g' := congrArg Prod.snd ((Edit.run_merge hm).symm.trans hrun)
  exact hm.takesOver

/-- A node that has a loop and covers its other child, while the root covers it. A node that waits
was reached from both of them. -/
def knotGraph : ReachGraph Unit where
  nodes := #[
    ⟨.live, none, none, [], [⟨1⟩], none, [⟨1⟩], none⟩,
    ⟨.live, none, none, [(⟨0⟩, some ⟨0⟩), (⟨1⟩, some ⟨1⟩)], [⟨1⟩, ⟨2⟩], some ⟨0⟩, [⟨2⟩], none⟩,
    ⟨.live, none, none, [(⟨1⟩, some ⟨2⟩)], [], some ⟨1⟩, [], none⟩,
    ⟨.pending, none, none, [(⟨1⟩, some ⟨2⟩), (⟨0⟩, some ⟨0⟩)], [], none, [], none⟩,
    ⟨.pending, none, none, [], [], none, [], none⟩]
  roots := [⟨0⟩]
  merged := 0
  pruned := 0

/-- The merged node has a loop too, and nobody lists the node that is gone. -/
theorem knotGraph_merge_keeps_links :
    knotGraph.fault? = none ∧ knotGraph.Permits (.merge ⟨3⟩ ⟨1⟩ ⟨4⟩) ∧
      ∃ g', (Edit.merge ⟨3⟩ ⟨1⟩ ⟨4⟩).run.run knotGraph = (.ok (), g') ∧ g'.fault? = none ∧
        knotGraph.TakesOver ⟨3⟩ ⟨1⟩ ⟨4⟩ g' ∧ g'.HasChild ⟨4⟩ ⟨4⟩ := by
  have hcheck : knotGraph.fault? = none := by decide +kernel
  have hlive : ∀ p ∈ ([⟨1⟩, ⟨0⟩] : List GraphNodeId), knotGraph.Live p := by
    intro p hp
    simp only [List.mem_cons, List.not_mem_nil, or_false] at hp
    rcases hp with rfl | rfl <;> exact ⟨_, rfl, rfl⟩
  have hpermits : knotGraph.Permits (.merge ⟨3⟩ ⟨1⟩ ⟨4⟩) :=
    ⟨⟨_, rfl, ⟨rfl, rfl, rfl, rfl⟩, hlive⟩, hlive ⟨1⟩ (by simp), ⟨_, rfl, ⟨rfl, rfl, rfl, rfl⟩⟩⟩
  obtain ⟨g', hrun, hfine, -, hmerge⟩ := change_keeps_links hcheck hpermits
  have htakes := hmerge _ _ _ rfl
  have hparent : knotGraph.HasParent ⟨3⟩ ⟨1⟩ := ⟨_, rfl, by decide⟩
  exact ⟨hcheck, hpermits, g', hrun, hfine, htakes, (htakes.children _).2 (.inr ⟨rfl, hparent⟩)⟩

end ReachGraph

end ProgramAnalysis
