import ProgramAnalysis.Proofs.Recording
/-!
Pending nodes in the reachability graph.

A node is pending until it is known whether its state is admitted. Until then it knows its parent,
but no other node knows it. Every single change of the graph keeps it so (`LinksDecided`), so it is
so even after a crash within a change. For the same reason the live nodes are untouched
(`Unaltered`) as long as nodes are only created and only nodes that are not live are dropped.
-/

namespace ProgramAnalysis

variable {ν α : Type} {f : GraphNode ν → GraphNode ν} {parents : List ParentLink} {s : State ν}
  {old : GraphNode ν}

/-- The node is linked to `j` as to a child, to a node that it covers, or to the one that covers
it. -/
def GraphNode.Names (n : GraphNode ν) (j : GraphNodeId) : Prop :=
  j ∈ n.children ∨ j ∈ n.covering ∨ n.coveredBy = some j

namespace ReachGraph

/-! ## Links to pending nodes -/

/-- The node exists and is no longer pending. -/
def Decided (g : ReachGraph ν) (j : GraphNodeId) : Prop := g.At j fun n => n.status ≠ .pending

/-- All links lead to nodes that are no longer pending; neither are the nodes `ids`. -/
structure LinksDecided (g : ReachGraph ν) (ids : List GraphNodeId) : Prop where
  links : ∀ i j, g.At i (fun n => n.Names j) → g.Decided j
  decided : ∀ j ∈ ids, g.Decided j

variable {g : ReachGraph ν} {ids more : List GraphNodeId} {id j merged reached : GraphNodeId}

theorem LinksDecided.subset (h : g.LinksDecided more) (hsub : ids ⊆ more) : g.LinksDecided ids :=
  ⟨h.links, fun j hj => h.decided j (hsub hj)⟩

theorem LinksDecided.foldl {step : ReachGraph ν → α → ReachGraph ν} {l : List α}
    (h : g.LinksDecided ids)
    (hstep : ∀ g a, a ∈ l → g.LinksDecided ids → (step g a).LinksDecided ids) :
    (l.foldl step g).LinksDecided ids :=
  List.foldlRecOn (motive := fun g : ReachGraph ν => g.LinksDecided ids) l step h
    fun g hg a ha => hstep g a ha hg

namespace LinksDecided

variable (h : g.LinksDecided ids)

include h

theorem append (hmore : ∀ j ∈ more, g.Decided j) : g.LinksDecided (more ++ ids) :=
  ⟨h.links, fun j hj => (List.mem_append.1 hj).elim (hmore j) (h.decided j)⟩

theorem cons (hj : g.Decided j) : g.LinksDecided (j :: ids) :=
  ⟨h.links, List.forall_mem_cons.2 ⟨hj, h.decided⟩⟩

theorem of_nodes {g' : ReachGraph ν} (hsame : g'.nodes = g.nodes) : g'.LinksDecided ids := by
  have hnode : ∀ i, g'.node? i = g.node? i := fun i => by rw [node?, hsame, node?]
  have hat : ∀ i P, g'.At i P ↔ g.At i P := fun i P => by rw [At, hnode, At]
  exact ⟨fun i j hij => (hat j _).2 (h.links i j ((hat i _).1 hij)),
    fun j hj => (hat j _).2 (h.decided j hj)⟩

/-- A node may be changed in any way that does not make it pending again and adds no links but to
the nodes `ids`. -/
theorem update (hstatus : ∀ n, n.status ≠ .pending → (f n).status ≠ .pending)
    (hlinks : ∀ n j, (f n).Names j → n.Names j ∨ j ∈ ids) : (g.update id f).LinksDecided ids := by
  have hdecided : ∀ j, g.Decided j → (g.update id f).Decided j := by
    intro j hj
    rw [Decided, at_update]
    refine hj.mono fun n hn => ?_
    split
    · exact hstatus n hn
    · exact hn
  refine ⟨fun i j hij => hdecided j ?_, fun j hj => hdecided j (h.decided j hj)⟩
  rw [at_update] at hij
  obtain ⟨n, hn, hnames⟩ := hij
  split at hnames
  · exact (hlinks n j hnames).elim (fun hold => h.links i j ⟨n, hn, hold⟩) (h.decided j)
  · exact h.links i j ⟨n, hn, hnames⟩

/-- Making a node live decides on it. -/
theorem enliven (hid : g.Known id) (hlive : ∀ n, (f n).status = .live)
    (hlinks : ∀ n j, (f n).Names j → n.Names j) : (g.update id f).LinksDecided (id :: ids) := by
  have hf : ∀ n : GraphNode ν, (f n).status ≠ .pending := fun n => by simp [hlive]
  have hupdate : (g.update id f).LinksDecided ids :=
    h.update (fun n _ => hf n) fun n j hj => .inl (hlinks n j hj)
  refine hupdate.cons ?_
  rw [Decided, at_update]
  exact hid.mono fun n _ => by simp [hf n]

theorem linkToParents (hid : id ∈ ids) : (g.linkToParents id).LinksDecided ids := by
  unfold ReachGraph.linkToParents
  split
  · refine h.foldl fun g p _ hg => ?_
    unfold linkTo
    split
    · refine hg.update (fun _ hn => hn) fun n j hj => ?_
      rcases hj with hj | hj
      · rcases mem_withMember.1 hj with hj | rfl
        · exact .inl (.inl hj)
        · exact .inr hid
      · exact .inl (.inr hj)
    · exact hg
  · exact h

theorem accept (hid : g.Known id) : (g.accept id s).LinksDecided (id :: ids) := by
  unfold ReachGraph.accept
  refine LinksDecided.linkToParents ?_ (List.mem_cons_self)
  exact h.enliven hid (fun _ => rfl) fun _ _ hj => hj

theorem takeCover {covered : GraphNodeId} (hmerged : merged ∈ ids) (hcovered : covered ∈ ids) :
    (g.takeCover merged covered).LinksDecided ids := by
  unfold ReachGraph.takeCover
  refine .update (.update h (fun _ hn => hn) ?_) (fun _ hn => hn) ?_
  · rintro n j (hj | hj | hj)
    · exact .inl (.inl hj)
    · exact .inl (.inr (.inl hj))
    · exact .inr (Option.some.inj hj ▸ hmerged)
  · rintro n j (hj | hj | hj)
    · exact .inl (.inl hj)
    · exact (List.mem_append.1 hj).imp (fun hj => .inr (.inl hj)) fun hj => by simp_all
    · exact .inl (.inr (.inr hj))

/-- A node that is covered is accepted, and then the one that covers it takes it over. -/
theorem cover {q : GraphNodeId} (hid : g.Known id) (hq : q ∈ ids) :
    (g.cover id q s).LinksDecided (id :: ids) :=
  (h.accept hid).takeCover (List.mem_cons_of_mem id hq) List.mem_cons_self

theorem create {location : Option NodeId} : (g.create location parents).2.LinksDecided ids := by
  have hdecided : ∀ j, g.Decided j → (g.create location parents).2.Decided j :=
    fun j hj => at_create.2 (.inl hj)
  refine ⟨fun i j hij => hdecided j (h.links i j ?_), fun j hj => hdecided j (h.decided j hj)⟩
  refine (at_create.1 hij).resolve_right ?_
  rintro ⟨-, hj⟩
  simp [GraphNode.Names] at hj

/-! ### Removal -/

theorem destroy : (g.destroy id).LinksDecided ids :=
  h.update (fun _ _ => by simp) fun _ _ hj => by simp [GraphNode.Names] at hj

theorem disown {p : GraphNodeId} : (g.disown id p).LinksDecided ids := by
  refine h.update (fun _ hn => hn) fun n j hj => .inl ?_
  exact hj.imp_left fun hj => (List.mem_filter.1 hj).1

theorem release : (g.release id old).LinksDecided ids := by
  have hall : ∀ (g : ReachGraph ν) (l : List GraphNodeId) (f : GraphNode ν → GraphNode ν),
      g.LinksDecided ids → (∀ n, (f n).status = n.status) → (∀ n j, (f n).Names j → n.Names j) →
      (g.updateAll l f).LinksDecided ids := by
    intro g l f hg hstatus hlinks
    exact hg.foldl fun g i _ hg =>
      hg.update (fun n hn => by rwa [hstatus]) fun n j hj => .inl (hlinks n j hj)
  refine hall _ _ _ (hall _ _ _ (hall _ _ _ h (fun _ => rfl) fun _ _ hj => hj) (fun _ => rfl) ?_)
    (fun _ => rfl) ?_
  · rintro n j (hj | hj | hj)
    · exact .inl hj
    · exact .inr (.inl (List.mem_filter.1 hj).1)
    · exact .inr (.inr hj)
  · rintro n j (hj | hj | hj)
    · exact .inl hj
    · exact .inr (.inl hj)
    · cases hj

/-! ### Merging -/

theorem adopt {child : GraphNodeId} (hmerged : merged ∈ ids) (hchild : child ∈ ids) :
    (g.adopt reached merged child).LinksDecided ids := by
  unfold ReachGraph.adopt
  refine .update (.update h (fun _ hn => hn) fun _ _ hj => .inl hj) (fun _ hn => hn) ?_
  intro n j hj
  rcases hj with hj | hj
  · refine (mem_withMember.1 hj).imp .inl ?_
    rintro rfl
    split
    · exact hmerged
    · exact hchild
  · exact .inl (.inr hj)

theorem succeed (hmerged : g.Known merged) (hchildren : ∀ c ∈ old.children, c ∈ ids)
    (hcovering : ∀ c ∈ old.covering, c ∈ ids) :
    (g.succeed reached merged parents old).LinksDecided (merged :: ids) := by
  unfold ReachGraph.succeed
  refine .foldl (.update (.foldl (.update (h.enliven hmerged (fun _ => rfl) fun _ _ hj => hj)
    (fun _ hn => hn) ?_) ?_) (fun _ hn => hn) ?_) ?_
  · rintro n j (hj | hj)
    · cases hj
    · exact .inl (.inr hj)
  · exact fun g c hc hg => hg.adopt List.mem_cons_self (List.mem_cons_of_mem _ (hchildren c hc))
  · rintro n j (hj | hj | hj)
    · exact .inl (.inl hj)
    · cases hj
    · exact .inl (.inr (.inr hj))
  · exact fun g c hc hg =>
      hg.takeCover List.mem_cons_self (List.mem_cons_of_mem _ (hcovering c hc))

theorem noteMerge {successor : GraphNodeId} (hmerged : merged ∈ ids) :
    (g.noteMerge successor reached merged).LinksDecided ids := by
  have hnote : ∀ (g : ReachGraph ν) (i : GraphNodeId), g.LinksDecided ids →
      (g.update i fun n => { n with mergedWith := some merged }).LinksDecided ids :=
    fun g i hg => hg.update (fun _ hn => hn) fun _ _ hj => .inl hj
  exact ((hnote _ successor (hnote g reached h)).linkToParents hmerged).of_nodes rfl

end LinksDecided

/-! ## Live nodes -/

/-- The live nodes and the roots are those of `g₀`, and only live nodes have links. -/
structure Unaltered (g₀ g : ReachGraph ν) : Prop where
  roots : g.roots = g₀.roots
  grown : g₀.nodes.size ≤ g.nodes.size
  live : ∀ i n, n.status = .live → (g.node? i = some n ↔ g₀.node? i = some n)
  bare : ∀ i n j, g.node? i = some n → n.Names j → n.status = .live

theorem Linked.live_of_names {i : GraphNodeId} (h : g.Linked) (hij : g.At i fun n => n.Names j) :
    g.Live i ∧ g.Live j := by
  obtain ⟨n, hn, hj | hj | hj⟩ := hij
  · exact ⟨(h.child i j ⟨n, hn, hj⟩).1, (h.child i j ⟨n, hn, hj⟩).2.1⟩
  · exact ⟨(h.covered i j ⟨n, hn, hj⟩).1, (h.covered i j ⟨n, hn, hj⟩).2.1⟩
  · exact ⟨(h.coverer i j ⟨n, hn, hj⟩).1, (h.coverer i j ⟨n, hn, hj⟩).2.1⟩

theorem Linked.linksDecided (h : g.Linked) : g.LinksDecided [] :=
  ⟨fun _ _ hij => (h.live_of_names hij).2.mono fun n hn => by simp [hn], by simp⟩

theorem Linked.unaltered (h : g.Linked) : Unaltered g g :=
  ⟨rfl, Nat.le_refl _, fun _ _ _ => Iff.rfl,
    fun _ n _ hn hj => (at_iff hn).1 (h.live_of_names ⟨n, hn, hj⟩).1⟩

section Unaltered

variable {g₀ : ReachGraph ν} (hlinked : g₀.Linked) (h : Unaltered g₀ g)

include h

theorem Unaltered.live_iff {i : GraphNodeId} : g.Live i ↔ g₀.Live i :=
  exists_congr fun n => and_congr_left fun hn => h.live i n hn

/-- A node that is not live may be changed, but stays without links and does not become live. -/
theorem Unaltered.update
    (hf : ∀ n, g.node? id = some n → f n = n ∨
      n.status ≠ .live ∧ (f n).status ≠ .live ∧ ∀ j, ¬ (f n).Names j) :
    Unaltered g₀ (g.update id f) := by
  -- The changed node neither was nor is one that is live or has links.
  have hnode : ∀ i n, n.status = .live ∨ (∃ j, n.Names j) →
      ((g.update id f).node? i = some n ↔ g.node? i = some n) := by
    intro i n hn
    rw [node?_update]
    cases hm : g.node? i with
    | none => simp
    | some m =>
      by_cases hi : i = id
      · subst hi
        rcases hf m hm with hsame | ⟨hm', hfm, hbare⟩
        · simp [hsame]
        · have hne : f m ≠ n := by
            rintro rfl
            exact hn.elim hfm fun hj => hj.elim hbare
          have hne' : m ≠ n := by
            rintro rfl
            exact hn.elim hm' fun hj => hj.elim fun j hj => hm' (h.bare i m j hm hj)
          simp [hne, hne']
      · simp [hi]
  refine ⟨h.roots, ?_, fun i n hn => (hnode i n (.inl hn)).trans (h.live i n hn),
    fun i n j hi hj => h.bare i n j ((hnode i n (.inr ⟨j, hj⟩)).1 hi) hj⟩
  have hsize : (g.update id f).nodes.size = g.nodes.size := by simp [ReachGraph.update]
  rw [hsize]
  exact h.grown

theorem Unaltered.create {location : Option NodeId} :
    Unaltered g₀ (g.create location parents).2 := by
  have hnode : ∀ i n, n.status = .live ∨ (∃ j, n.Names j) →
      ((g.create location parents).2.node? i = some n ↔ g.node? i = some n) := by
    intro i n hn
    by_cases hi : i = ⟨g.nodes.size⟩
    · subst hi
      have hnew : (⟨.pending, none, location, parents, [], none, [], none⟩ : GraphNode ν) ≠ n := by
        rintro rfl
        simp [GraphNode.Names] at hn
      simp [node?, ReachGraph.create, hnew]
    · rw [node?_create_of_ne hi]
  refine ⟨h.roots, Nat.le_trans h.grown (by simp [ReachGraph.create]),
    fun i n hn => (hnode i n (.inl hn)).trans (h.live i n hn),
    fun i n j hi hj => h.bare i n j ((hnode i n (.inr ⟨j, hj⟩)).1 hi) hj⟩

theorem Unaltered.not_live_new : ¬ g₀.Live ⟨g.nodes.size⟩ :=
  fun hl => not_at_size (h.live_iff.2 hl)

theorem Unaltered.not_names (hid : ¬ g₀.Live id) {n : GraphNode ν} (hn : g.node? id = some n)
    (j : GraphNodeId) : ¬ n.Names j :=
  fun hj => hid (h.live_iff.1 ⟨n, hn, h.bare id n j hn hj⟩)

theorem Unaltered.destroy (hid : ¬ g₀.Live id) : Unaltered g₀ (g.destroy id) := by
  refine h.update fun n hn => .inr ⟨fun hl => hid (h.live_iff.1 ⟨n, hn, hl⟩), by simp, fun j => ?_⟩
  simp [GraphNode.Names]

include hlinked in
theorem Unaltered.disown {p : GraphNodeId} (hid : ¬ g₀.Live id) : Unaltered g₀ (g.disown id p) := by
  refine h.update fun n hn => .inl ?_
  have hnot : id ∉ n.children := by
    intro hc
    have hlive := h.bare p n id hn (.inl hc)
    exact hid (hlinked.live_of_names ⟨n, (h.live p n hlive).1 hn, .inl hc⟩).2
  have hsame : n.children.filter (· ≠ id) = n.children := by
    refine List.filter_eq_self.2 fun c hc => ?_
    have hne : c ≠ id := fun hci => hnot (hci ▸ hc)
    simp [hne]
  rw [hsame]

omit h in
/-- The removal of a node without links leaves the links of the others alone. -/
theorem release_of_bare (hold : ∀ j, ¬ old.Names j) : g.release id old = g := by
  have hchildren : old.children = [] :=
    List.eq_nil_iff_forall_not_mem.2 fun j hj => hold j (.inl hj)
  have hcovering : old.covering = [] :=
    List.eq_nil_iff_forall_not_mem.2 fun j hj => hold j (.inr (.inl hj))
  have hcoverer : old.coveredBy = none :=
    Option.eq_none_iff_forall_ne_some.2 fun j hj => hold j (.inr (.inr hj))
  rw [release, hchildren, hcovering, hcoverer]
  rfl

/-- The list of live nodes is the old one. -/
theorem Unaltered.liveNodes : g.liveNodes = g₀.liveNodes := by
  have hsorted : ∀ g : ReachGraph ν,
      g.liveNodes.Pairwise fun p q => p.1.index < q.1.index := by
    intro g
    have hnumbered : g.numbered.Pairwise fun p q => p.1.index < q.1.index := by
      rw [numbered, List.pairwise_map]
      have hindex : (g.nodes.toList.zipIdx.map Prod.snd).Pairwise (· < ·) := by
        rw [List.zipIdx_map_snd]
        exact List.pairwise_lt_range'
      exact List.pairwise_map.1 hindex
    exact hnumbered.sublist List.filter_sublist
  have hnodup : ∀ g : ReachGraph ν, g.liveNodes.Nodup := fun g =>
    (hsorted g).imp fun hlt heq => by simp [heq] at hlt
  -- Both lists are in the order of their numbers, so they are equal if they have the same members.
  refine List.Perm.eq_of_pairwise (fun p q _ _ hpq hqp => absurd hpq (Nat.lt_asymm hqp))
    (hsorted g) (hsorted g₀) ((List.perm_ext_iff_of_nodup (hnodup g) (hnodup g₀)).2 ?_)
  rintro ⟨i, n⟩
  rw [mem_liveNodes, mem_liveNodes]
  exact and_congr_left fun hn => h.live i n hn

end Unaltered

end ReachGraph

/-! ## Edits -/

namespace Edit

variable {P : ReachGraph ν → Prop} {ids : List GraphNodeId} {id : GraphNodeId}

/-- What each change of a removal keeps. -/
theorem unlink_steady {R : GraphNode ν → Prop}
    (found : ∀ g old, P g → g.node? id = some old → R old) (destroy : ∀ g, P g → P (g.destroy id))
    (disown : ∀ g p, P g → P (g.disown id p))
    (release : ∀ g old, R old → P g → P (g.release id old)) : Steady P (unlink id) := by
  unfold unlink
  refine .bind fetch_steady fun old => ?_
  refine .pre (P := fun g => R old ∧ P g) (.assume fun hold => ?_)
    fun g hg => ⟨found g old hg.1 hg.2, hg.1⟩
  refine .bind (R := fun _ => P) (.modify destroy) fun _ => ?_
  refine .bind (.forM (I := fun _ => P) (fun p _ => ?_) _) fun _ =>
    .modify fun g hg => release g old hold hg
  exact .bind fetch_steady fun _ => .modify fun g hg => disown g p hg.1

theorem unlink_linksDecided : Steady (fun g : ReachGraph ν => g.LinksDecided ids) (unlink id) :=
  unlink_steady (R := fun _ => True) (fun _ _ _ _ => trivial) (fun _ hg => hg.destroy)
    (fun _ _ hg => hg.disown) fun _ _ _ hg => hg.release

theorem accept_linksDecided :
    Steady (fun g : ReachGraph ν => g.LinksDecided ids) (accept id s) := by
  refine .bind fetch_steady fun n => .modify fun g hg => ?_
  exact (hg.1.accept ⟨n, hg.2, trivial⟩).subset (List.subset_cons_self id ids)

theorem cover_linksDecided {q : GraphNodeId} (hq : q ∈ ids) :
    Steady (fun g : ReachGraph ν => g.LinksDecided ids) (cover id q s) := by
  refine .bind fetch_steady fun n => .modify fun g hg => ?_
  exact (hg.1.cover ⟨n, hg.2, trivial⟩ hq).subset (List.subset_cons_self id ids)

/-- The links that the new node takes over lead to nodes that are decided, and so is it by then. -/
theorem merge_linksDecided {successor reached merged : GraphNodeId} :
    Triple (fun g : ReachGraph ν => g.LinksDecided ids ∧ g.Known merged)
      (merge successor reached merged) (fun _ g => g.LinksDecided ids)
      (fun _ g => g.LinksDecided ids) := by
  unfold merge
  refine .bind (.fail fetch_steady fun _ _ hg => hg.1)
    fun r => ?_
  refine .bind (.fail fetch_steady fun _ _ hg => hg.1.1)
    fun s => ?_
  have hback : ∀ g : ReachGraph ν, g.LinksDecided (merged :: (r.children ++ r.covering ++ ids)) →
      g.LinksDecided ids := fun g hg => hg.subset fun j hj => by simp [hj]
  refine .bind (R := fun _ g => g.LinksDecided (merged :: (r.children ++ r.covering ++ ids)))
    (.modify ?_) fun _ => ?_
  · rintro g ⟨⟨⟨hg, hmerged⟩, hr⟩, -⟩
    -- What the new node takes over was linked to before.
    have hheirs : g.LinksDecided (r.children ++ r.covering ++ ids) := by
      refine hg.append fun j hj => hg.links reached j ⟨r, hr, ?_⟩
      exact (List.mem_append.1 hj).imp_right .inl
    exact hheirs.succeed hmerged (fun c hc => by simp [hc]) fun c hc => by simp [hc]
  · refine .bind (.fail unlink_linksDecided fun _ g hg => hback g hg) fun _ =>
      .modify fun g hg => ?_
    exact hback _ (hg.noteMerge (by simp))

theorem unlink_unaltered {g₀ : ReachGraph ν} (hlinked : g₀.Linked) (hid : ¬ g₀.Live id) :
    Steady (fun g => g₀.Unaltered g) (unlink id) :=
  unlink_steady (R := fun old => ∀ j, ¬ old.Names j) (fun _ _ hg hold => hg.not_names hid hold)
    (fun _ hg => hg.destroy hid) (fun _ _ hg => hg.disown hlinked hid)
    fun g old hold hg => by rwa [ReachGraph.release_of_bare hold]

end Edit

end ProgramAnalysis
