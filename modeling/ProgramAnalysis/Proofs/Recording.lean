import ProgramAnalysis.Proofs.GraphFusion
import ProgramAnalysis.Proofs.ReachedSet
/-!
The graph and the reached set that it records.

`Records g batch r` says that the graph is batchWf and that the node of every entry is live,
uncovered and holds the state of the entry, unless it was merged away. The nodes of `batch` wait to
be accepted and belong to no entry yet. Each change of the graph or of the reached set has a lemma
that says when this is kept up.
-/

namespace ProgramAnalysis

variable {ν ρ ω θ α : Type} {s : State ν} {i b q : GraphNodeId} {g : ReachGraph ν} {e : Entry ν ρ}

namespace ReachGraph

/-- The node is live, uncovered and holds the state. -/
def Stands (g : ReachGraph ν) (i : GraphNodeId) (s : State ν) : Prop :=
  g.At i fun n => n.status = .live ∧ n.coveredBy = none ∧ n.state = some s

theorem Stands.live (h : g.Stands i s) : g.Live i :=
  h.mono fun _ hn => hn.1

theorem Stands.holds (h : g.Stands i s) : g.Holds i s :=
  h.mono fun _ hn => hn.2.2

theorem Stands.uncovered (h : g.Stands i s) (q : GraphNodeId) : ¬ g.CoveredBy i q := by
  obtain ⟨n, hn, -, hc, -⟩ := h
  intro hq
  have hq : n.coveredBy = some q := (at_iff hn).1 hq
  rw [hc] at hq
  cases hq

/-- No entry belongs to the node. -/
def Vacant (r : ReachedSet ν ρ θ) (i : GraphNodeId) : Prop :=
  ∀ k e, r.get? k = some e → e.state.graphNode? ≠ some i

/-- The graph is well-formed, and each entry has a node that stands for it or was merged away. -/
structure Records (g : ReachGraph ν) (batch : List GraphNodeId) (r : ReachedSet ν ρ θ) : Prop where
  batchWf : g.BatchWf batch
  sound : r.Sound
  entry : ∀ id e, r.get? id = some e → ∃ i, e.state.graphNode? = some i ∧ i ∉ batch ∧
    (g.MergedAway i ∨ g.Stands i e.state)

namespace Records

variable {g g' : ReachGraph ν} {batch batch' : List GraphNodeId} {r r' : ReachedSet ν ρ θ}

/-! ## Changes of the reached set -/

section

variable (h : g.Records batch r)

include h

theorem sublist (hs : batch'.Sublist batch) : g.Records batch' r := by
  refine ⟨h.batchWf.sublist hs, h.sound, fun id e he => ?_⟩
  obtain ⟨i, hi, hb, hn⟩ := h.entry id e he
  exact ⟨i, hi, fun hb' => hb (hs.subset hb'), hn⟩

/-- The precisions and the frontier do not matter, nor does it if entries are removed. -/
theorem of_states (hr : r'.Sound)
    (hget : ∀ id e, r'.get? id = some e → ∃ f, r.get? id = some f ∧ f.state = e.state) :
    g.Records batch r' := by
  refine ⟨h.batchWf, hr, fun id e he => ?_⟩
  obtain ⟨f, hf, hs⟩ := hget id e he
  rw [← hs]
  exact h.entry id f hf

theorem of_store (hs : r'.store = r.store) (hp : r'.program = r.program) : g.Records batch r' := by
  refine h.of_states (h.sound.of_store hs hp) fun id e he => ⟨e, ?_, rfl⟩
  rw [ReachedSet.get?, ← hs]
  exact he

theorem remove [Frontier θ] (id : EntryId) : g.Records batch (r.remove id).2 := by
  refine h.of_states (h.sound.remove id) fun j e he => ⟨e, ?_, rfl⟩
  exact (ReachedSet.get?_remove_eq_some.1 he).2

theorem add [LeafValue ν] [Waitlist θ ν] {id : EntryId} (ha : r.add e = .ok (id, r'))
    (hi : e.state.graphNode? = some i) (hs : g.Stands i e.state) : g.Records batch r' := by
  refine ⟨h.batchWf, h.sound.add ha, fun j f hf => ?_⟩
  rcases ReachedSet.new_or_old_of_add ha hf with ⟨-, rfl⟩ | hf
  · exact ⟨i, hi, fun hb => (h.batchWf.idle i hb).2 hs.live, .inr hs⟩
  · exact h.entry j f hf

/-! ## Changes of the graph -/

/-- What a change of the graph has to leave to the nodes of the entries. -/
theorem change (ht : g'.BatchWf batch') (hb : ∀ i ∈ batch', i ∈ batch ∨ ¬ g.Known i)
    (hm : ∀ i, i ∉ batch → g.MergedAway i → g'.MergedAway i)
    (hs : ∀ i s, i ∉ batch → g.Stands i s → g'.MergedAway i ∨ g'.Stands i s) :
    g'.Records batch' r := by
  refine ⟨ht, h.sound, fun id e he => ?_⟩
  obtain ⟨i, hi, hout, hn⟩ := h.entry id e he
  have hk : g.Known i := hn.elim At.known At.known
  refine ⟨i, hi, fun hib => (hb i hib).elim hout fun hno => hno hk, ?_⟩
  rcases hn with hn | hn
  · exact .inl (hm i hout hn)
  · exact hs i e.state hout hn

theorem of_at (hat : ∀ i (P : GraphNode ν → Prop), g'.At i P ↔ g.At i P) : g'.Records batch r :=
  h.change (h.batchWf.of_at fun i P _ => hat i P) (fun _ hi => .inl hi)
    (fun i _ hm => (hat i _).2 hm) fun i _ _ hs => .inr ((hat i _).2 hs)

theorem create {location : Option NodeId} {links : List ParentLink}
    (hlinks : ∀ p ∈ links.map Prod.fst, (g.Live p ∨ g.MergedAway p) ∧ p ∉ batch) :
    (g.create location links).2.Records (batch ++ [⟨g.nodes.size⟩]) r := by
  refine h.change (h.batchWf.create hlinks) (fun i hi => ?_) (fun i _ hm => ?_) fun i s _ hs => ?_
  · rcases List.mem_append.1 hi with hi | hi
    · exact .inl hi
    · rw [List.mem_singleton.1 hi]
      exact .inr not_at_size
  · exact at_create.2 (.inl hm)
  · exact .inr (at_create.2 (.inl hs))

/-- A node may be removed if it is not live. While nothing waits, a live one may be removed too,
unless an entry belongs to it. -/
theorem cut {id : GraphNodeId} {old : GraphNode ν} (hid : g.node? id = some old)
    (hlive : g.Live id → batch = [] ∧ Vacant r id) :
    (g.cut id old).Records batch r := by
  refine ⟨h.batchWf.cut hid fun hl => (hlive hl).1, h.sound, fun k e he => ?_⟩
  obtain ⟨i, hi, hb, hn⟩ := h.entry k e he
  refine ⟨i, hi, hb, ?_⟩
  rcases hn with hn | hn
  · exact .inl (mergedAway_cut hn)
  · have hne : i ≠ id := by
      rintro rfl
      exact (hlive hn.live).2 k e he hi
    refine .inr (at_cut.2 (hn.mono fun n hn => ?_))
    simp [hne, severed, hn]

theorem setState {t : State ν} (hnew : Vacant r b) : (g.setState b t).Records batch r := by
  refine ⟨h.batchWf.of_at fun _ _ => at_setState, h.sound, fun k e he => ?_⟩
  obtain ⟨i, hi, hb, hn⟩ := h.entry k e he
  refine ⟨i, hi, hb, ?_⟩
  rcases hn with hn | hn
  · exact .inl ((at_setState fun _ _ => Iff.rfl).2 hn)
  · have hib : i ≠ b := by
      rintro rfl
      exact hnew k e he hi
    exact .inr ((at_setState_of_ne hib).2 hn)

/-- The node of an entry may be a parent. -/
theorem parent {k : EntryId} (he : r.get? k = some e)
    (hi : e.state.graphNode? = some i) : (g.Live i ∨ g.MergedAway i) ∧ i ∉ batch := by
  obtain ⟨j, hj, hb, hn⟩ := h.entry k e he
  obtain rfl : i = j := Option.some.inj (hi.symm.trans hj)
  exact ⟨hn.symm.imp_left Stands.live, hb⟩

theorem vacant_new : Vacant r ⟨g.nodes.size⟩ := by
  intro k e he hnew
  obtain ⟨i, hi, -, hn⟩ := h.entry k e he
  have hk : g.Known i := hn.elim At.known At.known
  rw [hnew] at hi
  cases hi
  exact not_at_size hk

/-- A node that is covered belongs to no entry. -/
theorem vacant_of_coveredBy (hq : g.CoveredBy i q) : Vacant r i := by
  intro k e he hi
  obtain ⟨j, hj, -, hn⟩ := h.entry k e he
  obtain rfl : i = j := Option.some.inj (hi.symm.trans hj)
  rcases hn with hm | hs
  · exact hm.destroyed.not_live (h.batchWf.coverer i q hq).1
  · exact hs.uncovered q hq

section Merging

variable {location : Option NodeId} {S R : GraphNodeId} {s n : GraphNode ν} {id : EntryId}
  {e : Entry ν ρ}

theorem fusible (hS : S ∈ batch) (hs : g.node? S = some s)
    (hn : g.node? R = some n) (he : r.get? id = some e) (hR : e.state.graphNode? = some R) :
    Fusible g batch S R s n := by
  obtain ⟨hused, -⟩ := h.parent he hR
  exact ⟨h.batchWf, hS, hused, fun q hq => h.vacant_of_coveredBy hq id e he hR, hs, hn⟩

/-- The merge of a state that waits into the state of an entry, whose node is merged away then. -/
theorem merging (hf : Fusible g batch S R s n) :
    (g.merging location S R s n).Records batch r := by
  refine h.change hf.merging_batchWf (fun i hi => .inl hi) (fun i _ hm => hf.mergedAway hm) ?_
  intro i t hi hst
  rcases Decidable.em (i = R) with rfl | hir
  · exact .inl hf.mergedAway_reached
  · have hcover : i ∉ n.covering := fun hx =>
      hst.uncovered R (h.batchWf.covered R i ⟨n, hf.reached, hx⟩).2.2
    obtain ⟨m, hm, hst⟩ := hst
    have hne : i ≠ ⟨g.nodes.size⟩ := by
      rintro rfl
      exact not_at_size (P := fun _ => True) ⟨m, hm, trivial⟩
    refine .inr (hf.at_merging.2 (.inl ⟨m, hm, ?_⟩))
    simpa [fused, hir, hne, hcover] using hst

/-- The new node stands for the merged state, once that is noted. -/
theorem stands_merging (hf : Fusible g batch S R s n) (t : State ν) :
    ((g.merging location S R s n).setState ⟨g.nodes.size⟩ t).Stands ⟨g.nodes.size⟩ t := by
  have hcover : (⟨g.nodes.size⟩ : GraphNodeId) ∉ n.covering := fun hx =>
    not_at_size (h.batchWf.covered R _ ⟨n, hf.reached, hx⟩).2.1
  refine at_update.2 (hf.at_merging.2 (.inr ⟨rfl, ?_⟩))
  simp [fused, hf.new_ne, hcover]

end Merging

end

theorem accept (h : g.Records (b :: batch) r) : (g.accept b s).Records batch r := by
  obtain ⟨hb, -⟩ := h.batchWf.idle b (by simp)
  refine h.change h.batchWf.accept (fun i hi => .inl (by simp [hi])) (fun i hi hm => ?_)
    fun i s hi hs => .inr ?_
  · exact (mergedAway_accept hb).2 ⟨hm, fun hib => hi (by simp [hib])⟩
  · obtain ⟨old, hold, -⟩ := hb
    have hib : i ≠ b := fun hib => hi (by simp [hib])
    refine (at_accept hold).2 (hs.mono fun n hn => ?_)
    simpa [accepted, hib] using hn

theorem stands_accept (h : g.Records (b :: batch) r) : (g.accept b s).Stands b s := by
  obtain ⟨⟨old, hold, -⟩, hidle⟩ := h.batchWf.idle b (by simp)
  refine (at_accept hold).2 ⟨old, hold, ?_⟩
  have hc : old.coveredBy = none := by
    cases hc : old.coveredBy with
    | none => rfl
    | some q => exact absurd (h.batchWf.coverer b q ⟨old, hold, hc⟩).1 hidle
  simp [accepted, hc]

theorem root (h : g.Records [] r) (location : Option NodeId) (s : State ν) :
    ((g.addRoot location).2.setState ⟨g.nodes.size⟩ s).Records [] r ∧
      ((g.addRoot location).2.setState ⟨g.nodes.size⟩ s).Stands ⟨g.nodes.size⟩ s := by
  have hnew : (g.create location []).2.Records [⟨g.nodes.size⟩] r := h.create (by simp)
  have haccept : ((g.create location []).2.accept ⟨g.nodes.size⟩ s).Records [] r := hnew.accept
  exact ⟨haccept.of_at fun i P => at_root, at_root.2 hnew.stands_accept⟩

theorem cover (h : g.Records (b :: batch) r) (hq : g.Live q) : (g.cover b q s).Records batch r := by
  obtain ⟨⟨old, hold, -⟩, -⟩ := h.batchWf.idle b (by simp)
  have hne : ∀ {i}, i ∉ b :: batch → i ≠ b := fun hi hib => hi (by simp [hib])
  refine h.change (h.batchWf.cover hq) (fun i hi => .inl (by simp [hi])) (fun i hi hm => ?_)
    fun i s hi hs => .inr ?_
  · refine (at_cover hold).2 (hm.mono fun n hn => ?_)
    simpa [accepted, hne hi] using hn
  · refine (at_cover hold).2 (hs.mono fun n hn => ?_)
    simpa [accepted, hne hi] using hn

end Records

end ReachGraph

/-! ## Edits -/

namespace Edit

variable {P Q : ReachGraph ν → Prop} {id : GraphNodeId}

theorem fetch_steady : Triple P (fetch id) (fun n g => P g ∧ g.node? id = some n) (fun _ => P) := by
  unfold fetch
  refine .bind (R := fun g g' => g' = g ∧ P g') (.get fun g hg => ⟨rfl, hg⟩) fun g => ?_
  cases hn : g.node? id with
  | some n =>
    refine .pure ?_
    rintro g' ⟨rfl, hg⟩
    exact ⟨hg, hn⟩
  | none => exact .throw fun _ hg => hg.2

theorem fetch_triple : Triple P (fetch id) (fun n g => P g ∧ g.node? id = some n)
    (fun _ _ => True) :=
  fetch_steady.fail fun _ _ _ => trivial

theorem unlink_triple (h : ∀ g old, P g → g.node? id = some old → Q (g.cut id old)) :
    Triple P (unlink id) (fun _ => Q) (fun _ _ => True) := by
  unfold unlink
  refine .bind fetch_triple fun old => ?_
  refine .bind (R := fun _ g' => ∃ g, (P g ∧ g.node? id = some old) ∧
    (old.parentIds.filter (· ≠ id)).foldl (fun g p => g.disown id p) g' =
      (old.parentIds.filter (· ≠ id)).foldl (fun g p => g.disown id p) (g.destroy id))
    (.modify fun g hg => ⟨g, hg, rfl⟩) fun _ => ?_
  -- The parents that remain are disowned as in the whole.
  refine .bind (.forM (I := fun rest g' => ∃ g, (P g ∧ g.node? id = some old) ∧
    rest.foldl (fun g p => g.disown id p) g' =
      (old.parentIds.filter (· ≠ id)).foldl (fun g p => g.disown id p) (g.destroy id)) ?_ _)
    fun _ => .modify ?_
  · intro p rest
    refine .bind fetch_triple fun _ => .modify ?_
    rintro g' ⟨⟨g, hg, hrest⟩, -⟩
    exact ⟨g, hg, hrest⟩
  · rintro g' ⟨g, ⟨hg, hid⟩, hrest⟩
    have hcut : g'.release id old = g.cut id old := by
      rw [ReachGraph.cut, ← hrest]
      rfl
    rw [hcut]
    exact h g old hg hid

theorem accept_triple (h : ∀ g, P g → Q (g.accept id s)) :
    Triple P (accept id s) (fun _ => Q) (fun _ _ => True) := by
  unfold accept
  exact .bind fetch_triple fun _ => .modify fun g hg => h g hg.1

theorem cover_triple (h : ∀ g, P g → Q (g.cover id q s)) :
    Triple P (cover id q s) (fun _ => Q) (fun _ _ => True) := by
  unfold cover
  exact .bind fetch_triple fun _ => .modify fun g hg => h g hg.1

theorem merge_triple {successor reached merged : GraphNodeId}
    (hnew : ∀ g r, P g → g.node? reached = some r → merged ≠ reached ∧ merged ∉ r.children)
    (h : ∀ g r s, P g → g.node? reached = some r → g.node? successor = some s →
      Q (g.fuse successor reached merged s r)) :
    Triple P (merge successor reached merged) (fun _ => Q) (fun _ _ => True) := by
  unfold merge
  refine .bind fetch_triple fun r => .bind fetch_triple fun s => ?_
  refine .bind (R := fun _ g' => ∃ g, (P g ∧ g.node? reached = some r) ∧
    g.node? successor = some s ∧
    g' = g.succeed reached merged (ReachGraph.fusedLinks reached merged s r) r)
    (.modify fun g hg => ⟨g, hg.1, hg.2, rfl⟩) fun _ => ?_
  refine .bind (R := fun _ g' => Q (g'.noteMerge successor reached merged)) (unlink_triple ?_)
    fun _ => .modify fun _ hg => hg
  rintro g' old ⟨g, ⟨hg, hr⟩, hs, rfl⟩ hold
  obtain ⟨hne, hchild⟩ := hnew g r hg hr
  have hsame : old = ReachGraph.succeeded reached merged
      (ReachGraph.fusedLinks reached merged s r) r reached r := by
    have hat := (ReachGraph.at_succeed (j := reached) (P := fun n => n = old) hne hchild).1
      ⟨old, hold, rfl⟩
    exact ((ReachGraph.at_iff hr).1 hat).symm
  rw [hsame]
  exact h g r s hg hr hs

/-- Pending nodes are removed one after the other, and none of them is live. -/
theorem discardPending_triple
    (h : ∀ g i old, P g → g.node? i = some old → ¬ g.Live i → P (g.cut i old)) :
    Triple P discardPending (fun _ => P) (fun _ _ => True) := by
  unfold discardPending
  refine .bind (R := fun g g' => g' = g ∧ P g') (.get fun g hg => ⟨rfl, hg⟩) fun g => ?_
  refine .weaken (.forM (E := fun _ _ => True)
    (I := fun rest g' => P g' ∧ ∀ i ∈ rest, ¬ g'.Live i) ?_ g.pendingIds) ?_
    (fun _ _ hg => hg.1) fun _ _ _ => trivial
  · intro i rest
    refine unlink_triple ?_
    rintro g' old ⟨hg, hidle⟩ hold
    refine ⟨h g' i old hg hold (hidle i (by simp)), fun j hj hl => ?_⟩
    exact hidle j (by simp [hj]) (ReachGraph.live_cut.1 hl).1
  · rintro g' ⟨rfl, hg⟩
    exact ⟨hg, fun i hi => ReachGraph.not_live_of_mem_pendingIds hi⟩

/-- A node that waits is merged with the node of an entry into one that was just created. -/
theorem merge_records {batch : List GraphNodeId} {r : ReachedSet ν ρ θ} (hg : g.Records batch r)
    (location : Option NodeId) {S R : GraphNodeId} (hS : S ∈ batch) {k : EntryId}
    (he : r.get? k = some e) (hR : e.state.graphNode? = some R) :
    Triple (fun g' => g' = (g.create location []).2) (merge S R ⟨g.nodes.size⟩)
      (fun _ g' => ∃ s n, g.Fusible batch S R s n ∧ g' = g.merging location S R s n)
      (fun _ _ => True) := by
  -- Neither of the two nodes is the new one.
  have hRnew : R ≠ ⟨g.nodes.size⟩ := fun hne => hg.vacant_new k e he (by rw [hR, hne])
  have hSnew : S ≠ ⟨g.nodes.size⟩ := fun hne =>
    ReachGraph.not_at_size (hne ▸ (hg.batchWf.idle S hS).1)
  refine merge_triple ?_ ?_
  · rintro _ n rfl hn
    rw [ReachGraph.node?_create_of_ne hRnew] at hn
    exact ⟨hRnew.symm, fun hc =>
      ReachGraph.not_at_size (hg.batchWf.child R _ ⟨n, hn, hc⟩).2.1⟩
  · rintro _ n s rfl hn hs
    rw [ReachGraph.node?_create_of_ne hRnew] at hn
    rw [ReachGraph.node?_create_of_ne hSnew] at hs
    exact ⟨s, n, hg.fusible hS hs hn he hR, rfl⟩

end Edit

end ProgramAnalysis
