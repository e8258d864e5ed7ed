import ProgramAnalysis.Proofs.CoverLinks
/-!
Recordings in which every entry stands.

A history lets handles be taken back between the calls, and then an entry may have a node that was
merged away. A course is a history in which this does not happen: the handles only grow, and all
calls are about one program. Along a course of an analysis that goes forward, the node of every
entry is live (`Course.exact`). The reason is that handles are never used twice: a state that waits
has a handle that no recorded state has, so the reached set cannot refuse it for its handle.
-/

namespace ProgramAnalysis

variable {ν ρ ω θ : Type} {location : Option NodeId} {r : ReachedSet ν ρ θ} {s t : State ν}
  {i b q : GraphNodeId} {g : ReachGraph ν}

namespace ReachGraph

/-! ## Recorded states -/

/-- Recorded states belong to their nodes, which are live, and no two have the same handle; all
their handles were drawn before `next`. -/
structure Noted (g : ReachGraph ν) (next : Handle) : Prop where
  own : ∀ i s, g.Holds i s → s.graphNode? = some i ∧ g.Live i ∧ s.handle.serial < next.serial
  distinct : ∀ i j s t, g.Holds i s → g.Holds j t → s.handle = t.handle → i = j

variable {g g' : ReachGraph ν} {next next' : Handle}

/-- Nothing new is recorded. -/
theorem Noted.fewer (h : g.Noted next) (hle : next.serial ≤ next'.serial)
    (hholds : ∀ i s, g'.Holds i s → g.Holds i s ∧ g'.Live i) : g'.Noted next' where
  own i s hs := by
    obtain ⟨hs, hl⟩ := hholds i s hs
    obtain ⟨hi, -, hlt⟩ := h.own i s hs
    exact ⟨hi, hl, Nat.lt_of_lt_of_le hlt hle⟩
  distinct i j s t hs ht := h.distinct i j s t (hholds i s hs).1 (hholds j t ht).1

/-- A state with a handle of its own is recorded. -/
theorem Noted.record (h : g.Noted next) (hb : s.graphNode? = some b)
    (hfresh : ∀ i t, g.Holds i t → t.handle ≠ s.handle) (hlt : s.handle.serial < next'.serial)
    (hle : next.serial ≤ next'.serial)
    (hholds : ∀ i t, g'.Holds i t → (g.Holds i t ∨ i = b ∧ t = s) ∧ g'.Live i) :
    g'.Noted next' where
  own i t ht := by
    obtain ⟨ht | ⟨rfl, rfl⟩, hl⟩ := hholds i t ht
    · obtain ⟨hi, -, hlt⟩ := h.own i t ht
      exact ⟨hi, hl, Nat.lt_of_lt_of_le hlt hle⟩
    · exact ⟨hb, hl, hlt⟩
  distinct i j t u ht hu hsame := by
    obtain ⟨ht | ⟨rfl, rfl⟩, -⟩ := hholds i t ht <;> obtain ⟨hu | ⟨rfl, rfl⟩, -⟩ := hholds j u hu
    · exact h.distinct i j t u ht hu hsame
    · exact absurd hsame (hfresh i t ht)
    · exact absurd hsame.symm (hfresh j u hu)
    · rfl

theorem holds_cut {id : GraphNodeId} {old : GraphNode ν} (h : (g.cut id old).Holds i s) :
    g.Holds i s ∧ i ≠ id := by
  rw [Holds, at_cut] at h
  by_cases hi : i = id
  · obtain ⟨n, -, hn⟩ := h
    simp [hi, dead] at hn
  · exact ⟨h.mono fun n hn => by simpa [hi, severed] using hn, hi⟩

theorem holds_accept (hb : g.Known b) (h : (g.accept b s).Holds i t) :
    g.Holds i t ∨ i = b ∧ t = s := by
  obtain ⟨old, hold, -⟩ := hb
  rw [Holds, at_accept hold] at h
  by_cases hi : i = b
  · obtain ⟨n, -, hn⟩ := h
    exact .inr ⟨hi, by simpa [accepted, hi, eq_comm] using hn⟩
  · exact .inl (h.mono fun n hn => by simpa [accepted, hi] using hn)

theorem holds_cover (hb : g.Known b) (h : (g.cover b q s).Holds i t) :
    g.Holds i t ∨ i = b ∧ t = s := by
  refine holds_accept hb ?_
  obtain ⟨old, hold, -⟩ := hb
  exact (at_accept hold).2 ((at_cover hold).1 h)

theorem live_root :
    ((g.addRoot location).2.setState ⟨g.nodes.size⟩ s).Live i ↔ g.Live i ∨ i = ⟨g.nodes.size⟩ := by
  rw [Live, at_root]
  exact (live_accept known_create).trans (or_congr_left (at_create_of_not (by simp)))

theorem coveredBy_root :
    ((g.addRoot location).2.setState ⟨g.nodes.size⟩ s).CoveredBy i q ↔ g.CoveredBy i q := by
  rw [CoveredBy, at_root]
  exact (coveredBy_accept known_create).trans (at_create_of_not (by simp))

theorem holds_root (h : ((g.addRoot location).2.setState ⟨g.nodes.size⟩ s).Holds i t) :
    g.Holds i t ∨ i = ⟨g.nodes.size⟩ ∧ t = s := by
  rw [Holds, at_root] at h
  exact (holds_accept known_create h).imp_left (at_create_of_not (by simp)).1

theorem Fusible.holds {batch : List GraphNodeId} {S R : GraphNodeId} {s n : GraphNode ν}
    {u : State ν} (hf : Fusible g batch S R s n)
    (h : ((g.merging location S R s n).setState ⟨g.nodes.size⟩ t).Holds i u) :
    g.Holds i u ∧ i ≠ R ∨ i = ⟨g.nodes.size⟩ ∧ u = t := by
  by_cases hnew : i = ⟨g.nodes.size⟩
  · subst hnew
    exact .inr ⟨rfl, h.unique (holds_setState (hf.known.2 (.inr rfl)) t)⟩
  · rw [Holds, at_setState_of_ne hnew, hf.at_merging] at h
    rcases h with ⟨m, hm, hu⟩ | ⟨hi, -⟩
    · by_cases hir : i = R
      · simp [fused, hir] at hu
      · exact .inl ⟨⟨m, hm, by simpa [fused, hir] using hu⟩, hir⟩
    · exact absurd hi hnew

end ReachGraph

namespace Recorder

open ReachGraph

/-! ## Exact scenes -/

/-- The nodes of all entries are live, and the states that wait have handles of their own. -/
structure Scene.Exact (c : Scene ν ρ θ) : Prop where
  noted : c.graph.Noted c.next
  live : ∀ k e i, c.reached.get? k = some e → e.state.graphNode? = some i → c.graph.Live i
  fresh : ∀ q ∈ c.batch, q.1.handle.serial < c.next.serial ∧
    ∀ i t, c.graph.Holds i t → t.handle ≠ q.1.handle
  apart : (c.batch.map fun q => q.1.handle).Nodup

section Exact

variable {c c' : Scene ν ρ θ} {k : EntryId} {e : Entry ν ρ}

namespace Scene.Exact

variable (h : c.Exact)

include h

theorem stands (hr : c.Records) (he : c.reached.get? k = some e) :
    ∃ i, e.state.graphNode? = some i ∧ c.graph.Stands i e.state := by
  obtain ⟨i, hi, -, hn⟩ := hr.entry k e he
  exact ⟨i, hi, hn.resolve_left fun hm => hm.destroyed.not_live (h.live k e i he hi)⟩

/-- No entry has a handle that is still to come. -/
theorem handle_lt (hr : c.Records) (he : c.reached.get? k = some e) :
    e.state.handle.serial < c.next.serial := by
  obtain ⟨i, -, hs⟩ := h.stands hr he
  exact (h.noted.own i _ hs.holds).2.2

theorem handle_ne (hr : c.Records) (he : c.reached.get? k = some e) : e.state.handle ≠ c.next := by
  intro hsame
  have hlt := h.handle_lt hr he
  rw [hsame] at hlt
  exact Nat.lt_irrefl _ hlt

/-- No entry has the handle of a state that waits. -/
theorem not_contains (hr : c.Records) {q : State ν × NodeId} (hq : q ∈ c.batch) :
    c.reached.store.contains q.1 = false := by
  refine Bool.eq_false_iff.2 fun hc => ?_
  obtain ⟨k, e, he, hsame⟩ := hr.sound.store.contains_iff.1 hc
  obtain ⟨i, -, hs⟩ := h.stands hr he
  exact (h.fresh q hq).2 i _ hs.holds hsame

/-- Two entries do not share a node. -/
theorem eq_of_node (hr : c.Records) {k' : EntryId} {e' : Entry ν ρ} (he : c.reached.get? k = some e)
    (he' : c.reached.get? k' = some e') (hi : e.state.graphNode? = some i)
    (hi' : e'.state.graphNode? = some i) : k = k' := by
  obtain ⟨j, hj, hs⟩ := h.stands hr he
  obtain ⟨j', hj', hs'⟩ := h.stands hr he'
  obtain rfl : i = j := Option.some.inj (hi.symm.trans hj)
  obtain rfl : i = j' := Option.some.inj (hi'.symm.trans hj')
  exact hr.sound.store.eq_of_handle he he' (congrArg State.handle (hs.holds.unique hs'.holds))

/-- Handles are drawn, states are given up, and nodes that are not live change. -/
theorem fewer {next : Handle} {batch : Batch ν} (hle : c.next.serial ≤ next.serial)
    (hlive : ∀ i, c.graph.Live i → g.Live i) (hholds : ∀ i t, g.Holds i t → c.graph.Holds i t)
    (hsub : batch.Sublist c.batch) : (⟨g, next, batch, c.reached⟩ : Scene ν ρ θ).Exact where
  noted := h.noted.fewer hle fun i t ht =>
    ⟨hholds i t ht, hlive i (h.noted.own i t (hholds i t ht)).2.1⟩
  live k e i he hi := hlive i (h.live k e i he hi)
  fresh q hq := by
    obtain ⟨hlt, hno⟩ := h.fresh q (hsub.subset hq)
    exact ⟨Nat.lt_of_lt_of_le hlt hle, fun i t ht => hno i t (hholds i t ht)⟩
  apart := h.apart.sublist (hsub.map _)

/-- The first state that waits is recorded at its node. -/
theorem settle {l : NodeId} {rest : Batch ν} (hb : c.batch = (s, l) :: rest)
    (hnode : s.graphNode? = some b) (hlive : ∀ i, c.graph.Live i ∨ i = b → g.Live i)
    (hholds : ∀ i t, g.Holds i t → c.graph.Holds i t ∨ i = b ∧ t = s)
    (hentry : ∀ k e, r.get? k = some e → e.state = s ∨ c.reached.get? k = some e) :
    (⟨g, c.next, rest, r⟩ : Scene ν ρ θ).Exact := by
  obtain ⟨hlt, hno⟩ := h.fresh (s, l) (by simp [hb])
  have hapart := h.apart
  rw [hb, List.map_cons, List.nodup_cons] at hapart
  constructor
  · refine h.noted.record hnode hno hlt (Nat.le_refl _) fun i t ht => ⟨hholds i t ht, ?_⟩
    rcases hholds i t ht with ht | ⟨hi, -⟩
    · exact hlive i (.inl (h.noted.own i t ht).2.1)
    · exact hlive i (.inr hi)
  · intro k e i he hi
    rcases hentry k e he with hs | he
    · exact hlive i (.inr (Option.some.inj ((hs ▸ hi).symm.trans hnode)))
    · exact hlive i (.inl (h.live k e i he hi))
  · intro q hq
    obtain ⟨hqlt, hqno⟩ := h.fresh q (by simp [hb, hq])
    refine ⟨hqlt, fun i t ht => ?_⟩
    rcases hholds i t ht with ht | ⟨-, rfl⟩
    · exact hqno i t ht
    · exact fun hsame => hapart.1 (List.mem_map.2 ⟨q, hq, hsame.symm⟩)
  · exact hapart.2

/-- A state that waits gets the next handle. -/
theorem renew {before after : Batch ν} {q : State ν × NodeId}
    (hlive : ∀ i, c.graph.Live i → g.Live i) (hholds : ∀ i t, g.Holds i t → c.graph.Holds i t)
    (hbatch : (before ++ after).Sublist c.batch) (hq : q.1.handle = c.next) :
    (⟨g, c.next.next, before ++ q :: after, c.reached⟩ : Scene ν ρ θ).Exact := by
  have hold : ∀ p ∈ before ++ after, p.1.handle.serial < c.next.serial := fun p hp =>
    (h.fresh p (hbatch.subset hp)).1
  have hcases : ∀ p ∈ before ++ q :: after, p = q ∨ p ∈ before ++ after := by
    intro p hp
    rcases List.mem_append.1 hp with hp | hp
    · exact .inr (List.mem_append_left _ hp)
    · rcases List.mem_cons.1 hp with rfl | hp
      · exact .inl rfl
      · exact .inr (List.mem_append_right _ hp)
  constructor
  · refine h.noted.fewer (Nat.le_succ _) fun i t ht => ?_
    exact ⟨hholds i t ht, hlive i (h.noted.own i t (hholds i t ht)).2.1⟩
  · exact fun k e i he hi => hlive i (h.live k e i he hi)
  · intro p hp
    rcases hcases p hp with rfl | hp
    · refine ⟨by rw [hq]; exact Nat.lt_succ_self _, fun i t ht hsame => ?_⟩
      have hlt := (h.noted.own i t (hholds i t ht)).2.2
      rw [hsame, hq] at hlt
      exact Nat.lt_irrefl _ hlt
    · obtain ⟨hlt, hno⟩ := h.fresh p (hbatch.subset hp)
      exact ⟨Nat.lt_succ_of_lt hlt, fun i t ht => hno i t (hholds i t ht)⟩
  · have hapart : ((before ++ after).map fun p => p.1.handle).Nodup :=
      h.apart.sublist (hbatch.map _)
    have hnew : q.1.handle ∉ (before ++ after).map fun p => p.1.handle := by
      intro hin
      obtain ⟨p, hp, hsame⟩ := List.mem_map.1 hin
      have hlt := hold p hp
      rw [hsame, hq] at hlt
      exact Nat.lt_irrefl _ hlt
    show ((before ++ q :: after).map fun p => p.1.handle).Nodup
    rw [(List.perm_middle.map _).nodup_iff]
    exact List.nodup_cons.2 ⟨hnew, hapart⟩

end Scene.Exact

variable [LeafValue ν] [Waitlist θ ν] {a : Analysis ν ρ ω} {program : Program}

omit [Waitlist θ ν] in
theorem Fusion.live {S R : GraphNodeId} {s n : GraphNode ν} {m : State ν}
    (f : Fusion a c k e S R s n m) :
    (c.fused S R s n m).Live i ↔ c.graph.Live i ∧ i ≠ R ∨ i = c.newNode :=
  (at_setState fun _ _ => Iff.rfl).trans f.fusible.live

/-- A merge with a new handle. The entry that is replaced was the only one with its node. -/
theorem Fusion.exact {k' : EntryId} {S R : GraphNodeId} {s n : GraphNode ν} {m : State ν}
    {p : Precision ρ} (f : Fusion a c k e S R s n m) (hr : c.Records) (h : c.Exact)
    (hadd : (c.reached.remove k).2.add ⟨c.newState m, p, e.location, e.partition⟩ = .ok (k', r)) :
    (⟨c.fused S R s n m, c.next.next, c.batch, r⟩ : Scene ν ρ θ).Exact := by
  have hholds : ∀ i t, (c.fused S R s n m).Holds i t →
      c.graph.Holds i t ∧ i ≠ R ∨ i = c.newNode ∧ t = c.newState m := fun i t ht =>
    f.fusible.holds ht
  constructor
  · refine h.noted.record (s := c.newState m) (b := c.newNode) rfl (fun i t ht hsame => ?_)
      (Nat.lt_succ_self _) (Nat.le_succ _) fun i t ht => ?_
    · have hlt := (h.noted.own i t ht).2.2
      rw [hsame] at hlt
      exact Nat.lt_irrefl _ hlt
    · rcases hholds i t ht with ⟨ht, hir⟩ | hnew
      · exact ⟨.inl ht, f.live.2 (.inl ⟨(h.noted.own i t ht).2.1, hir⟩)⟩
      · exact ⟨.inr hnew, f.live.2 (.inr hnew.1)⟩
  · intro j e' i he' hi
    rcases ReachedSet.new_or_old_of_add hadd he' with ⟨-, rfl⟩ | hleft
    · exact f.live.2 (.inr (Option.some.inj hi).symm)
    · obtain ⟨hjk, hold⟩ := ReachedSet.get?_remove_eq_some.1 hleft
      refine f.live.2 (.inl ⟨h.live j e' i hold hi, ?_⟩)
      rintro rfl
      exact hjk (h.eq_of_node hr hold f.entry hi f.node)
  · intro q hq
    obtain ⟨hlt, hno⟩ := h.fresh q hq
    refine ⟨Nat.lt_succ_of_lt hlt, fun i t ht => ?_⟩
    rcases hholds i t ht with ⟨ht, -⟩ | ⟨-, rfl⟩
    · exact hno i t ht
    · intro hsame
      rw [← hsame] at hlt
      exact Nat.lt_irrefl _ hlt
  · exact h.apart

theorem Step.exact (hs : Step a program c c') (hf : a.Forward) (hr : c.Records) (h : c.Exact) :
    c'.Exact := by
  -- A node that is not live is cut.
  have hcut : ∀ {b old batch}, ¬ c.graph.Live b → batch.Sublist c.batch →
      (⟨c.graph.cut b old, c.next, batch, c.reached⟩ : Scene ν ρ θ).Exact := by
    intro b old batch hidle hsub
    exact h.fewer (Nat.le_refl _) (fun i => (live_cut_of_not_live hidle).2)
      (fun i t ht => (holds_cut ht).1) hsub
  cases hs with
  | draws hn => exact h.fewer (hn hf) (fun _ hi => hi) (fun _ _ ht => ht) (.refl _)
  | abandons hsub => exact h.fewer (Nat.le_refl _) (fun _ hi => hi) (fun _ _ ht => ht) hsub
  | sprouts =>
    refine h.renew (fun i hi => ?_) (fun i t ht => ?_) (by simp) rfl
    · exact (at_create_of_not (by simp)).2 hi
    · exact (at_create_of_not (by simp)).1 ht
  | rewraps hb _ =>
    refine h.renew (fun _ hi => hi) (fun _ _ ht => ht) ?_ rfl
    rw [hb]
    exact (List.sublist_cons_self _ _).append_left _
  | @relocates before after s l hb =>
    have hsame : (before ++ (s, s.location?.getD l) :: after).map (fun q => q.1.handle) =
        c.batch.map fun q => q.1.handle := by
      simp [hb]
    refine ⟨h.noted, h.live, fun q hq => ?_, ?_⟩
    · have hq : q.1.handle ∈ c.batch.map fun q => q.1.handle := by
        rw [← hsame]
        exact List.mem_map.2 ⟨q, hq, rfl⟩
      obtain ⟨p, hp, hpq⟩ := List.mem_map.1 hq
      rw [← hpq]
      exact h.fresh p hp
    · show ((before ++ (s, s.location?.getD l) :: after).map _).Nodup
      rw [hsame]
      exact h.apart
  | @drops before after s l b old hb hnode _ =>
    refine hcut (hr.idle (q := (s, l)) (by simp [hb]) hnode).2 ?_
    rw [hb]
    exact (List.sublist_cons_self _ _).append_left _
  | purges _ hlive _ => exact hcut hlive (.refl _)
  | merges f hadd => exact f.exact hr h hadd
  | clashes _ hj hsame _ => exact absurd hsame (h.handle_ne hr hj)
  | covers hb hnode _ _ _ _ =>
    have hknown := (hr.idle_head hb hnode).1
    exact h.settle hb hnode (fun i hi => (live_cover hknown).2 hi)
      (fun i t ht => holds_cover hknown ht) fun k e he => .inr he
  | admits hb hnode hadd =>
    have hknown := (hr.idle_head hb hnode).1
    refine h.settle hb hnode (fun i hi => (live_accept hknown).2 hi)
      (fun i t ht => holds_accept hknown ht) fun k e he => ?_
    exact (ReachedSet.new_or_old_of_add hadd he).imp_left fun hnew => congrArg Entry.state hnew.2
  | strands hb hnode _ =>
    have hknown := (hr.idle_head hb hnode).1
    exact h.settle hb hnode (fun i hi => (live_accept hknown).2 hi)
      (fun i t ht => holds_accept hknown ht) fun k e he => .inr he
  | @reschedules r hsame _ =>
    have hget : ∀ k, r.get? k = c.reached.get? k := fun k => by
      rw [ReachedSet.get?, hsame]
      rfl
    exact ⟨h.noted, fun k e i he => h.live k e i ((hget k).symm.trans he), h.fresh, h.apart⟩

omit [Waitlist θ ν] in
/-- A root is recorded with a handle that was drawn for it. -/
theorem Scene.Exact.root {h₀ n : Handle} {w : State ν} (h : c.Exact) (hbatch : c.batch = [])
    (hdrawn : c.next.serial ≤ h₀.serial ∧ h₀.serial < n.serial)
    (hentry : ∀ k e, r.get? k = some e →
      e.state = .graphed h₀ c.newNode w ∨ c.reached.get? k = some e) :
    (⟨c.rooted h₀ w, n, c.batch, r⟩ : Scene ν ρ θ).Exact := by
  have hold : ∀ i t, c.graph.Holds i t → t.handle.serial < h₀.serial := fun i t ht =>
    Nat.lt_of_lt_of_le (h.noted.own i t ht).2.2 hdrawn.1
  constructor
  · refine h.noted.record (s := .graphed h₀ c.newNode w) (b := c.newNode) rfl
      (fun i t ht hsame => ?_) hdrawn.2 (Nat.le_of_lt (Nat.lt_of_le_of_lt hdrawn.1 hdrawn.2))
      fun i t ht => ?_
    · have hlt := hold i t ht
      rw [hsame] at hlt
      exact Nat.lt_irrefl _ hlt
    · have hcases := holds_root ht
      refine ⟨hcases, live_root.2 (hcases.imp (fun ht => (h.noted.own i t ht).2.1) ?_)⟩
      exact And.left
  · intro k e i he hi
    refine live_root.2 ?_
    rcases hentry k e he with hs | he
    · rw [hs] at hi
      exact .inr (Option.some.inj hi).symm
    · exact .inl (h.live k e i he hi)
  · intro q hq
    rw [hbatch] at hq
    cases hq
  · exact h.apart

omit [LeafValue ν] [Waitlist θ ν] in
/-- Nodes without entries are removed. -/
theorem Scene.Exact.of_trimmed {g' : ReachGraph ν} {gone : List GraphNodeId} {next : Handle}
    (h : c.Exact) (hle : c.next.serial ≤ next.serial) (ht : ReachGraph.Trimmed c.graph gone g')
 (hentry : ∀ k e i, r.get? k = some e → e.state.graphNode? = some i → c.graph.Live i ∧ i ∉ gone) :
    (⟨g', next, [], r⟩ : Scene ν ρ θ).Exact where
  noted := h.noted.fewer hle fun i t hs => by
    obtain ⟨hs, hout⟩ := ht.holds_origin hs
    exact ⟨hs, ht.live.2 ⟨(h.noted.own i t hs).2.1, hout⟩⟩
  live k e i he hi := ht.live.2 (hentry k e i he hi)
  fresh q hq := absurd hq List.not_mem_nil
  apart := .nil

omit [LeafValue ν] in
/-- A refinement leaves the entry of a node that it does not prune. -/
theorem Scene.Exact.entry_left {point : GraphNodeId} {result : ReachGraph.Refinement}
    {s : ReachGraph.Recorded ν ρ θ} (h : c.Exact) (hr : c.Records)
    (hcut : ReachGraph.Refined c.graph c.reached point result s) (he : c.reached.get? k = some e)
    (hi : e.state.graphNode? = some i) (hleft : i ∉ result.pruned) :
    ∃ p, s.reached.get? k = some { e with precision := p } := by
  have hkept : k ∉ (c.graph.subtree point).filterMap (c.graph.entryOf c.reached) := by
    intro hin
    obtain ⟨j, hj, hentry⟩ := List.mem_filterMap.1 hin
    obtain ⟨t, e', ht, he', hsame⟩ := (entryOf_eq_some_iff hr.sound).1 hentry
    obtain rfl : e = e' := Option.some.inj (he.symm.trans he')
    obtain ⟨i', hi', hs⟩ := h.stands hr he
    obtain rfl : i = i' := Option.some.inj (hi.symm.trans hi')
    obtain rfl : i = j := h.noted.distinct i j e.state t hs.holds ht hsame
    exact hleft (hcut.mem_pruned.2 (.inl (mem_subtree.1 hj)))
  obtain ⟨f, -, hget⟩ := hcut.get? k
  rw [if_neg hkept, he] at hget
  exact ⟨_, hget⟩

theorem Sowing.exact {result : Except Failure EntryId} (hs : Sowing a c result c') (hf : a.Forward)
    (hbatch : c.batch = []) (h : c.Exact) : c'.Exact := by
  cases hs with
  | failed hn => exact h.fewer (hn hf) (fun _ hi => hi) (fun _ _ ht => ht) (.refl _)
  | stranded hn => exact h.root hbatch (hn hf) fun k e he => .inr he
  | sown hn hadd =>
    refine h.root hbatch (hn hf) fun k e he => ?_
    exact (ReachedSet.new_or_old_of_add hadd he).imp_left fun hnew => congrArg Entry.state hnew.2

end Exact

/-! ## Courses -/

section Course

variable [LeafValue ν] [Waitlist θ ν]

/-- What a recorded analysis goes through when all calls are about one program and no handle is
taken back. Of the calls for initial states those are made whose results `seeded` allows, and there
are refinements if `refined` holds; all of these succeed. A run may end in any way but a crash. -/
inductive Course (a : Analysis ν ρ ω) (program : Program) (seeded : Except Failure EntryId → Prop)
    (refined : Prop) : World (Memory ω ν) → ReachedSet ν ρ θ → Prop where
  | start {w : World (Memory ω ν)} (frontier : θ) :
      w.graph = .empty → Course a program seeded refined w (.ofFrontier program frontier)
  | drift {w w' : World (Memory ω ν)} {r} :
      Course a program seeded refined w r → w'.graph = w.graph →
      w.next.serial ≤ w'.next.serial → Course a program seeded refined w' r
  | seed {w w' r r'} {x : Exploration ν ρ (Memory ω ν)} {n part result} :
      Course a program seeded refined w r → x.analysis = analysis a →
      x.seed n part w r = (result, w', r') → seeded result → (∀ c, result ≠ .error (.crash c)) →
      Course a program seeded refined w' r'
  | run {w r} {x : Exploration ν ρ (Memory ω ν)} {counters targets fuel result m} :
      Course a program seeded refined w r → x.analysis = analysis a → x.program = program →
      x.run fuel ⟨⟨w, counters⟩, r, targets⟩ = some (result, m) →
      (∀ c, result ≠ .error (.crash c)) → Course a program seeded refined m.meter.world m.reached
  | refine {w w' : World (Memory ω ν)} {r} {σ : Type} {f : ReachGraph.Strengthening ρ σ}
      {point} {st st' : σ} {result s} :
      Course a program seeded refined w r → refined →
      ReachGraph.refine f point ⟨w.graph, r⟩ st = (.ok result, s, st') →
      w'.graph = s.graph → w.next.serial ≤ w'.next.serial →
      Course a program seeded refined w' s.reached

variable {a : Analysis ν ρ ω} {program : Program} {seeded : Except Failure EntryId → Prop}
  {refined : Prop} {w : World (Memory ω ν)} {r : ReachedSet ν ρ θ}

theorem Course.history (h : Course a program seeded refined w r) : History a w r := by
  induction h with
  | start frontier hempty => exact .start program frontier hempty
  | drift _ hsame _ ih => exact .drift ih hsame
  | seed _ hx hseed _ hok ih => exact .seed ih hx hseed hok
  | run _ hx _ hrun hok ih => exact .run ih hx hrun hok
  | refine _ _ hrun hsame _ ih => exact .refine ih hrun (fun c hc => by cases hc) hsame

/-- Whatever the analysis does, it fits the order in which all states are alike. -/
theorem History.coverWf_true (h : History a w r) : w.graph.CoverWf fun _ _ => True :=
  h.coverWf ⟨fun _ _ _ _ _ => trivial, fun _ _ _ _ => trivial, fun _ _ _ _ _ => trivial⟩

theorem History.prunable (h : History a w r) : w.graph.Prunable :=
  h.coverWf_true.prunable h.upheld.batchWf.toLinked

/-- What a refinement needs to know of covered nodes holds along every history. -/
theorem History.covered_sterile (h : History a w r) (hq : w.graph.CoveredBy i q) :
    w.graph.Live i ∧ ∀ c, ¬ w.graph.HasChild i c :=
  ⟨(h.upheld.batchWf.toLinked.coverer i q hq).1, fun c => h.prunable.sterile i q c hq⟩

/-- Along a course every entry stands. -/
theorem Course.exact (h : Course a program seeded refined w r) (hf : a.Forward) :
    (sceneOf w r).Exact := by
  induction h with
  | start frontier hempty =>
    rw [sceneOf_eq hempty]
    refine ⟨⟨fun i s hs => absurd hs not_at_empty,
      fun i j s t hs => absurd hs not_at_empty⟩, fun k e i he => ?_,
      fun q hq => absurd hq List.not_mem_nil, .nil⟩
    rw [ReachedSet.get?, ReachedSet.ofFrontier, Store.get?_empty] at he
    cases he
  | drift _ hsame hle ih =>
    rw [sceneOf_eq hsame]
    exact ih.fewer hle (fun _ hi => hi) (fun _ _ ht => ht) (.refl _)
  | seed _ hx hseed _ hok ih => exact (seed_sowing hx hseed hok).exact hf rfl ih
  | run h hx _ hrun hok ih =>
    exact (run_leads hx h.history.upheld hrun hok).invariant h.history.upheld
      (fun _ _ hr hc hs => hs.exact hf hr hc) ih
  | refine h _ hrun hsame hle ih =>
    have hup := h.history.upheld
    have hcut := refine_refined h.history.prunable hup.sound hrun
    rw [sceneOf_eq hsame]
    refine ih.of_trimmed hle hcut.graph fun k e i he hi => ?_
    obtain ⟨-, e₀, he₀, hstate⟩ := hcut.origin he
    obtain ⟨j, hj, hs⟩ := ih.stands hup he₀
    rw [← hstate] at hj hs
    obtain rfl : i = j := Option.some.inj (hi.symm.trans hj)
    exact ⟨hs.live, hcut.not_pruned h.history.prunable hup.sound he hs⟩

end Course

end Recorder

end ProgramAnalysis
