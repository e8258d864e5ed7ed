import ProgramAnalysis.Proofs.GraphSearch
import ProgramAnalysis.Proofs.GraphTrimming
import ProgramAnalysis.Proofs.Recording
import ProgramAnalysis.ReachGraph.Refine
/-!
What a refinement does, step by step.

A refinement gives new precisions (`Reweighed`), removes nodes and entries, and schedules entries
again. Which nodes are removed, and whose parents are scheduled, can be read off the graph as it was
before: links that are cut on the way never matter later (`removeAll_spec`). The whole is put
together in `Refined`.
-/

namespace ProgramAnalysis.ReachGraph

variable {ν ρ θ σ : Type} {g g' : ReachGraph ν} {r r₁ r₂ : ReachedSet ν ρ θ}
  {i point x : GraphNodeId} {k : EntryId} {done below : List GraphNodeId} {f : Strengthening ρ σ}
  {ks : List EntryId} {st st' : σ} {s : Recorded ν ρ θ}

/-- The links between live nodes are mutual, covered nodes have no children, and no node lists a
covered one twice. -/
structure Prunable (g : ReachGraph ν) : Prop extends Mutual g where
  sterile : ∀ i q c, g.CoveredBy i q → ¬ g.HasChild i c
  once : ∀ i n, g.node? i = some n → n.covering.Nodup

/-! ## Precisions -/

/-- The reached sets differ at most in the precisions of the entries `ks`. -/
structure Reweighed (r : ReachedSet ν ρ θ) (ks : List EntryId) (r' : ReachedSet ν ρ θ) : Prop where
  program : r'.program = r.program
  frontier : r'.frontier = r.frontier
  counted : r.store.Counted → r'.store.Counted
  find? : ∀ s, r'.store.find? s = r.store.find? s
  sound : r.Sound → r'.Sound
  entry : ∀ k, ∃ f : Precision ρ → Precision ρ, (k ∉ ks → f = id) ∧
    r'.get? k = (r.get? k).map fun e => { e with precision := f e.precision }

theorem reweighed_refl (r : ReachedSet ν ρ θ) : Reweighed r [] r :=
  ⟨rfl, rfl, id, fun _ => rfl, id, fun k => ⟨id, fun _ => rfl, by simp⟩⟩

theorem Reweighed.updatePrecision {p : Precision ρ} (h : Reweighed r ks r₁)
    (hu : r₁.updatePrecision k p = .ok r₂) : Reweighed r (ks ++ [k]) r₂ := by
  have hsound := fun hr => (h.sound hr).updatePrecision hu
  obtain ⟨-, rfl⟩ := ReachedSet.updatePrecision_eq_ok hu
  refine ⟨h.program, h.frontier, fun hr => (h.counted hr).setPrecision k p, h.find?, hsound,
    fun j => ?_⟩
  obtain ⟨f, hf, hget⟩ := h.entry j
  have hset : (r₁.store.setPrecision k p).get? j =
      if j = k then (r₁.get? j).map fun e => { e with precision := p } else r₁.get? j :=
    Store.get?_setPrecision r₁.store k j p
  show ∃ f : Precision ρ → Precision ρ, (j ∉ ks ++ [k] → f = id) ∧
    (r₁.store.setPrecision k p).get? j = _
  rw [hset, hget]
  by_cases hj : j = k
  · refine ⟨fun _ => p, fun hout => absurd (by simp [hj]) hout, ?_⟩
    rw [if_pos hj, Option.map_map]
    rfl
  · refine ⟨f, fun hout => hf fun hks => hout (by simp [hks]), ?_⟩
    rw [if_neg hj]

/-- Precisions are given; if none is refused, to the entries of the answer. -/
theorem strengthenEntries_reweighed {entries : List (GraphNodeId × EntryId)} {done : List EntryId}
    {result : Except Failure (List EntryId)} (h : Reweighed r done r₁)
    (hrun : strengthenEntries f entries r₁ done st = (result, r₂, st')) :
    ∃ ks, Reweighed r ks r₂ ∧ ∀ given, result = .ok given → given = ks := by
  induction entries generalizing r₁ done st with
  | nil =>
    cases hrun
    exact ⟨done, h, fun _ hgiven => (Except.ok.inj hgiven).symm⟩
  | cons entry rest ih =>
    unfold strengthenEntries at hrun
    split at hrun
    · exact ih h hrun
    · split at hrun
      · cases hrun
        exact ⟨done, h, nofun⟩
      · split at hrun
        · cases hrun
          exact ⟨done, h, nofun⟩
        · next hp => exact ih (h.updatePrecision hp) hrun

/-! ## Scheduling again -/

theorem entryOf_eq_some_iff (hr : r.Sound) :
    g.entryOf r i = some k ↔
      ∃ s e, g.Holds i s ∧ r.get? k = some e ∧ e.state.handle = s.handle := by
  unfold entryOf Holds At
  cases hn : g.node? i with
  | none => simp
  | some n =>
    cases hs : n.state with
    | none => simp [hs]
    | some s => simp [hs, hr.store.find?_eq_some, ReachedSet.get?]

theorem entryOf_removeAll [Frontier θ] (hr : r.Sound) :
    g.entryOf (r.removeAll ks) i = some k ↔ g.entryOf r i = some k ∧ k ∉ ks := by
  rw [entryOf_eq_some_iff (hr.removeAll ks), entryOf_eq_some_iff hr]
  simp only [ReachedSet.get?_removeAll]
  by_cases hk : k ∈ ks <;> simp [hk]

theorem entryOf_congr {r' : ReachedSet ν ρ θ}
    (hstate : (g'.node? i).bind GraphNode.state = (g.node? i).bind GraphNode.state)
    (hfind : ∀ s, r'.store.find? s = r.store.find? s) : g'.entryOf r' i = g.entryOf r i := by
  rw [entryOf, hstate, entryOf]
  exact congrArg _ (funext hfind)

section Reschedule

variable [Waitlist θ ν] {ids : List GraphNodeId}

theorem reschedule_store (g : ReachGraph ν) (ids : List GraphNodeId) (r : ReachedSet ν ρ θ)
    (done : List EntryId) : (g.reschedule ids r done).1.store = r.store := by
  induction ids generalizing r done with
  | nil => rfl
  | cons a rest ih =>
    unfold reschedule
    split
    · exact ih r done
    · split
      · exact ih r done
      · exact (ih _ _).trans (r.reschedule_store _)

theorem reschedule_program (g : ReachGraph ν) (ids : List GraphNodeId) (r : ReachedSet ν ρ θ)
    (done : List EntryId) : (g.reschedule ids r done).1.program = r.program := by
  induction ids generalizing r done with
  | nil => rfl
  | cons a rest ih =>
    unfold reschedule
    split
    · exact ih r done
    · split
      · exact ih r done
      · exact (ih _ _).trans (r.reschedule_program _)

/-- The entries that are scheduled are those of the given nodes. -/
theorem mem_reschedule {done : List EntryId} :
    k ∈ (g.reschedule ids r done).2 ↔ k ∈ done ∨ ∃ a ∈ ids, g.entryOf r a = some k := by
  induction ids generalizing r done with
  | nil => simp [reschedule]
  | cons a rest ih =>
    unfold reschedule
    split
    · next hnone => simp [ih, hnone]
    · next entry hentry =>
      have hlater : ∀ i, g.entryOf (r.reschedule entry) i = g.entryOf r i := fun i =>
        entryOf_congr rfl fun s => by rw [r.reschedule_store]
      split
      · next hdone =>
        have hdone : entry ∈ done := by simpa using hdone
        rw [ih]
        constructor
        · rintro (hk | ⟨b, hb, hk⟩)
          · exact .inl hk
          · exact .inr ⟨b, by simp [hb], hk⟩
        · rintro (hk | ⟨b, hb, hk⟩)
          · exact .inl hk
          · rcases List.mem_cons.1 hb with rfl | hb
            · rw [hentry] at hk
              cases hk
              exact .inl hdone
            · exact .inr ⟨b, hb, hk⟩
      · simp [ih, hlater, hentry, or_assoc, eq_comm]

/-- What waits then is what waited before and the entries that are scheduled. -/
theorem isWaiting_reschedule_iff [Waitlist.Exact θ ν] {done : List EntryId} (hr : r.Sound)
    (hdone : ∀ k ∈ done, r.isWaiting k = true) :
    (g.reschedule ids r done).1.isWaiting k = true ↔
      r.isWaiting k = true ∨ k ∈ (g.reschedule ids r done).2 := by
  induction ids generalizing r done with
  | nil =>
    show r.isWaiting k = true ↔ r.isWaiting k = true ∨ k ∈ done
    exact ⟨.inl, fun hk => hk.elim id (hdone k)⟩
  | cons a rest ih =>
    unfold reschedule
    split
    · exact ih hr hdone
    · next entry hentry =>
      split
      · exact ih hr hdone
      · obtain ⟨_, e, -, he, -⟩ := (entryOf_eq_some_iff hr).1 hentry
        have hpush : ∀ {j}, (r.reschedule entry).isWaiting j = true ↔
            j = entry ∨ r.isWaiting j = true := ReachedSet.isWaiting_reschedule_iff he
        have hnow : ∀ j ∈ done ++ [entry], (r.reschedule entry).isWaiting j = true := by
          intro j hj
          rcases List.mem_append.1 hj with hj | hj
          · exact hpush.2 (.inr (hdone j hj))
          · exact hpush.2 (.inl (List.mem_singleton.1 hj))
        have hlisted : entry ∈ (g.reschedule rest (r.reschedule entry) (done ++ [entry])).2 :=
          mem_reschedule.2 (.inl (by simp))
        rw [ih (hr.of_store (r.reschedule_store entry) (r.reschedule_program entry)) hnow, hpush]
        constructor
        · rintro ((rfl | hk) | hk)
          · exact .inr hlisted
          · exact .inl hk
          · exact .inr hk
        · exact fun hk => hk.imp_left .inr

end Reschedule

/-! ## Removal -/

/-- The nodes outside the cut that a node covers. -/
def coveredOutside (g : ReachGraph ν) (below : List GraphNodeId) (i : GraphNodeId) :
    List GraphNodeId :=
  (g.listed GraphNode.covering i).filter fun x => !below.contains x

/-- The nodes that are removed with those below the cut, in this order. -/
def doomed (g : ReachGraph ν) (below : List GraphNodeId) : List GraphNodeId :=
  below.flatMap (g.coveredOutside below) ++ below

theorem mem_coveredOutside : x ∈ g.coveredOutside below i ↔ g.Covers i x ∧ x ∉ below := by
  simp [coveredOutside, mem_listed, Covers]

theorem mem_outsideParents {p : GraphNodeId} :
    p ∈ g.outsideParents below i ↔ g.HasParent i p ∧ p ∉ below := by
  unfold outsideParents HasParent At
  cases g.node? i with
  | none => simp
  | some n => simp

section Trimmed

variable {gone below : List GraphNodeId} {i : GraphNodeId}

namespace Trimmed

variable (h : Trimmed g gone g') (hi : g.Live i) (hout : i ∉ gone)

include h hi hout

theorem entryOf_eq (r : ReachedSet ν ρ θ) : g'.entryOf r i = g.entryOf r i := by
  obtain ⟨n, hn, hl⟩ := hi
  refine entryOf_congr ?_ fun _ => rfl
  rw [h.kept i n hn hl hout, hn]
  rfl

/-- Removed parents make no difference if they are below the cut. -/
theorem outsideParents_eq (hparents : ∀ p ∈ gone, g.HasParent i p → p ∈ below) :
    g'.outsideParents below i = g.outsideParents below i := by
  obtain ⟨n, hn, hl⟩ := hi
  have hids : (trimmed gone n).parentIds = n.parentIds.filter (· ∉ gone) := by
    simp only [trimmed, GraphNode.parentIds, List.filter_map]
    rfl
  rw [outsideParents, h.kept i n hn hl hout, outsideParents, hn, Option.map_some, Option.map_some,
    hids, List.filter_filter, Option.getD_some, Option.getD_some]
  refine List.filter_congr fun p hp => ?_
  by_cases hgone : p ∈ gone
  · simp [hgone, hparents p hgone ⟨n, hn, hp⟩]
  · simp [hgone]

/-- Removed nodes make no difference if they were not covered by the node. -/
theorem coveredOutside_eq (hcovered : ∀ x ∈ gone, ¬ g.Covers i x) :
    g'.coveredOutside below i = g.coveredOutside below i := by
  obtain ⟨n, hn, hl⟩ := hi
  have hcovering : (trimmed gone n).covering = n.covering := by
    refine List.filter_eq_self.2 fun x hx => ?_
    simpa using fun hgone => hcovered x hgone ⟨n, hn, hx⟩
  rw [coveredOutside, listed, h.kept i n hn hl hout, coveredOutside, listed, hn, Option.map_some,
    Option.map_some, hcovering]

end Trimmed

end Trimmed

namespace Pruning

variable {below above gone : List GraphNodeId} {id : GraphNodeId} {r r' : ReachedSet ν ρ θ}

/-- An edit changes the graph only. -/
theorem edit_triple {I J : Cut ν ρ θ → Prop} {x : Edit ν Unit}
    (h : ∀ c, I c → Triple (fun g => g = c.graph) x (fun _ g => J { c with graph := g })
      fun _ _ => True) : Triple I (edit x) (fun _ => J) (fun _ _ => True) := by
  intro c hc
  have hx := h c hc c.graph rfl
  have hr : (edit x : Pruning ν ρ θ Unit).run.run c =
      ((x.run.run c.graph).1, { c with graph := (x.run.run c.graph).2 }) := rfl
  rw [hr]
  revert hx
  rcases x.run.run c.graph with ⟨e | ⟨⟩, g⟩
  · exact fun _ => trivial
  · exact fun hx => hx

/-- The nodes `gone` were removed from the graph `g`, and what is scheduled again are `above` and
the parents that these nodes had outside the cut. -/
structure Removing (g : ReachGraph ν) (below above gone : List GraphNodeId)
    (r : ReachedSet ν ρ θ) (c : Cut ν ρ θ) : Prop where
  graph : Trimmed g gone c.graph
  reached : c.reached = r
  pruned : c.pruned = gone
  again : c.again = above ++ gone.flatMap (g.outsideParents below)

theorem remove_removing (hm : g.Mutual) (hid : g.Live id) (hnew : id ∉ gone)
    (hparents : ∀ p ∈ gone, g.HasParent id p → p ∈ below) :
    Triple (Removing g below above gone r) (remove below id)
      (fun _ => Removing g below above (gone ++ [id]) r) (fun _ _ => True) := by
  have hagain : above ++ (gone ++ [id]).flatMap (g.outsideParents below) =
      above ++ gone.flatMap (g.outsideParents below) ++ g.outsideParents below id := by
    simp
  unfold remove
  refine .bind (R := fun _ c => Trimmed g gone c.graph ∧ c.reached = r ∧ c.pruned = gone ∧
    c.again = above ++ (gone ++ [id]).flatMap (g.outsideParents below)) (.modify ?_) fun _ =>
    .bind (R := fun _ c => Trimmed g (gone ++ [id]) c.graph ∧ c.reached = r ∧ c.pruned = gone ∧
      c.again = above ++ (gone ++ [id]).flatMap (g.outsideParents below)) (edit_triple ?_) fun _ =>
      .modify ?_
  · intro c hc
    refine ⟨hc.graph, hc.reached, hc.pruned, ?_⟩
    rw [hagain, ← hc.again, ← hc.graph.outsideParents_eq hid hnew hparents]
  · rintro c ⟨hgraph, hrest⟩
    unfold Edit.prune
    refine .bind (R := fun _ g' => Trimmed g (gone ++ [id]) g') (Edit.unlink_triple ?_) fun _ =>
      .modify ?_
    · rintro _ old rfl hold
      exact hgraph.cut hm hid hnew hold
    · exact fun g' hg' => ⟨⟨hg'.kept, hg'.removed, hg'.idle, hg'.roots⟩, hrest⟩
  · rintro c ⟨hgraph, hreached, hpruned, hagain⟩
    exact ⟨hgraph, hreached, by rw [hpruned], hagain⟩

section Prunable

variable (hp : g.Prunable) (hlive : ∀ i ∈ below, g.Live i) (hdistinct : below.Nodup)

include hp hlive

/-- The nodes outside the cut that are removed are live and covered. -/
theorem covered_of_mem (hdone : ∀ d ∈ done, d ∈ below)
    (hx : x ∈ done.flatMap (g.coveredOutside below)) :
    ∃ d ∈ done, g.CoveredBy x d ∧ g.Live x ∧ x ∉ below := by
  obtain ⟨d, hd, hx⟩ := List.mem_flatMap.1 hx
  obtain ⟨hcovers, hout⟩ := mem_coveredOutside.1 hx
  obtain ⟨hl, hc⟩ := hp.covered d x (hlive d (hdone d hd)) hcovers
  exact ⟨d, hd, hc, hl, hout⟩

/-- None of them is a parent. -/
theorem not_hasParent_of_mem (hdone : ∀ d ∈ done, d ∈ below)
    (hx : x ∈ done.flatMap (g.coveredOutside below)) (hi : g.Live i) : ¬ g.HasParent i x := by
  obtain ⟨d, -, hc, hl, -⟩ := covered_of_mem hp hlive hdone hx
  exact fun hlink => hp.sterile x d i hc (hp.parent i x hi hl hlink)

include hdistinct

theorem uncover_removing {rest : List GraphNodeId} (hbelow : below = done ++ id :: rest) :
    Triple (Removing g below above (done.flatMap (g.coveredOutside below)) r) (uncover below id)
      (fun _ => Removing g below above ((done ++ [id]).flatMap (g.coveredOutside below)) r)
      (fun _ _ => True) := by
  have hdone : ∀ d ∈ done, d ∈ below := fun d hd => by simp [hbelow, hd]
  have hid : g.Live id := hlive id (by simp [hbelow])
  have hidout : id ∉ done := by
    rw [hbelow, List.nodup_append] at hdistinct
    exact fun hd => hdistinct.2.2 id hd id (by simp) rfl
  -- A node has one coverer only.
  have hother : ∀ x ∈ done.flatMap (g.coveredOutside below), ¬ g.Covers id x := by
    intro x hx hcovers
    obtain ⟨d, hd, hc, -⟩ := covered_of_mem hp hlive hdone hx
    obtain rfl := hc.unique (hp.covered id x hid hcovers).2
    exact hidout hd
  have honce : (g.coveredOutside below id).Nodup := by
    obtain ⟨n, hn, -⟩ := hid
    rw [coveredOutside, listed, hn]
    exact (hp.once id n hn).filter _
  unfold uncover
  refine .bind (R := fun c₀ c => c = c₀ ∧
    Removing g below above (done.flatMap (g.coveredOutside below)) r c)
    (.get fun c hc => ⟨rfl, hc⟩) fun c₀ => ?_
  show Triple _ ((c₀.graph.coveredOutside below id).forM (remove below)) _ _
  refine .weaken (.forM (E := fun _ _ => True) (I := fun rest c => ∃ before,
    g.coveredOutside below id = before ++ rest ∧
    Removing g below above (done.flatMap (g.coveredOutside below) ++ before) r c) ?_ _) ?_ ?_
    fun _ _ hc => hc
  · intro x rest
    refine .of_run ?_ fun _ _ _ _ _ => trivial
    rintro c _ c' ⟨before, hall, hc⟩ hrun
    have hx : x ∈ g.coveredOutside below id := by simp [hall]
    obtain ⟨hcovers, hout⟩ := mem_coveredOutside.1 hx
    obtain ⟨hl, -⟩ := hp.covered id x hid hcovers
    have hgone : ∀ y ∈ done.flatMap (g.coveredOutside below) ++ before,
        y ∈ (done ++ [id]).flatMap (g.coveredOutside below) := by
      intro y hy
      rcases List.mem_append.1 hy with hy | hy
      · simp only [List.flatMap_append, List.mem_append]
        exact .inl hy
      · simp [hall, hy]
    have hsub : ∀ d ∈ done ++ [id], d ∈ below := by
      intro d hd
      rcases List.mem_append.1 hd with hd | hd
      · exact hdone d hd
      · simp [hbelow, List.mem_singleton.1 hd]
    refine ⟨before ++ [x], by simp [hall], ?_⟩
    rw [← List.append_assoc]
    refine (remove_removing hp.toMutual hl ?_ ?_).ok hc hrun
    · intro hin
      rcases List.mem_append.1 hin with hin | hin
      · exact hother x hin hcovers
      · rw [hall, List.nodup_append] at honce
        exact honce.2.2 x hin x (by simp) rfl
    · exact fun p hpg hlink => absurd hlink (not_hasParent_of_mem hp hlive hsub (hgone p hpg) hl)
  · rintro c ⟨rfl, hc⟩
    have hidgone : id ∉ done.flatMap (g.coveredOutside below) := by
      intro hin
      obtain ⟨-, -, -, -, hout⟩ := covered_of_mem hp hlive hdone hin
      exact hout (by simp [hbelow])
    refine ⟨[], ?_, by simpa using hc⟩
    rw [hc.graph.coveredOutside_eq hid hidgone hother]
    rfl
  · rintro _ c ⟨before, hall, hc⟩
    have hflat : (done ++ [id]).flatMap (g.coveredOutside below) =
        done.flatMap (g.coveredOutside below) ++ before := by
      simp [hall]
    rw [hflat]
    exact hc

variable [Waitlist θ ν]

omit hp hlive hdistinct in
/-- The entry of a node is removed if it is still there. -/
theorem removeEntry_removing (hr : r.Sound) (hid : g.Live id) (hnew : id ∉ gone) :
    Triple (Removing g below above gone (r.removeAll (done.filterMap (g.entryOf r))))
      (removeEntry id)
      (fun _ => Removing g below above gone (r.removeAll ((done ++ [id]).filterMap (g.entryOf r))))
      (fun _ _ => True) := by
  unfold removeEntry
  refine .modify fun c hc => ?_
  generalize hks : done.filterMap (g.entryOf r) = ks at hc
  have hentry : c.graph.entryOf c.reached id = g.entryOf (r.removeAll ks) id := by
    rw [hc.reached]
    exact hc.graph.entryOf_eq hid hnew _
  have hnone : (∀ k, g.entryOf r id = some k → k ∈ ks) →
      g.entryOf (r.removeAll ks) id = none := by
    intro hall
    refine Option.eq_none_iff_forall_ne_some.2 fun k hk => ?_
    obtain ⟨hk, hout⟩ := (entryOf_removeAll hr).1 hk
    exact hout (hall k hk)
  rw [List.filterMap_append, hks, hentry]
  cases hfound : g.entryOf r id with
  | none =>
    rw [hnone (by simp [hfound])]
    simpa [hfound] using hc
  | some k =>
    have hsingle : [id].filterMap (g.entryOf r) = [k] := by simp [hfound]
    rw [hsingle, ReachedSet.removeAll_append]
    by_cases hk : k ∈ ks
    · have hgone : (r.removeAll ks).get? k = none := by rw [ReachedSet.get?_removeAll, if_pos hk]
      rw [hnone (by simp [hfound, hk]), ReachedSet.remove_eq_self hgone]
      exact hc
    · rw [(entryOf_removeAll hr).2 ⟨hfound, hk⟩]
      exact ⟨hc.graph, by rw [← hc.reached], hc.pruned, hc.again⟩

theorem removeAll_removing (hr : r.Sound) :
    Triple (Removing g below above [] r) (removeAll below)
      (fun _ => Removing g below above (g.doomed below)
        (r.removeAll (below.filterMap (g.entryOf r)))) (fun _ _ => True) := by
  unfold removeAll
  refine .bind (R := fun _ => Removing g below above (below.flatMap (g.coveredOutside below)) r)
    (.weaken (.forM (E := fun _ _ => True) (I := fun rest c => ∃ done, below = done ++ rest ∧
      Removing g below above (done.flatMap (g.coveredOutside below)) r c) ?_ below) ?_ ?_
      fun _ _ hc => hc) fun _ => ?_
  · intro id rest
    refine .of_run ?_ fun _ _ _ _ _ => trivial
    rintro c _ c' ⟨done, hall, hc⟩ hrun
    exact ⟨done ++ [id], by simp [hall],
      (uncover_removing hp hlive hdistinct hall).ok hc hrun⟩
  · exact fun c hc => ⟨[], rfl, hc⟩
  · rintro _ c ⟨done, hall, hc⟩
    rw [List.append_nil] at hall
    rw [hall] at hc ⊢
    exact hc
  refine .weaken (.forM (E := fun _ _ => True) (I := fun rest c => ∃ done, below = done ++ rest ∧
    Removing g below above (below.flatMap (g.coveredOutside below) ++ done)
      (r.removeAll (done.filterMap (g.entryOf r))) c) ?_ below) ?_ ?_ fun _ _ hc => hc
  · intro id rest
    refine .of_run ?_ fun _ _ _ _ _ => trivial
    rintro c _ c' ⟨done, hall, hc⟩ hrun
    have hid : g.Live id := hlive id (by simp [hall])
    have hnew : id ∉ below.flatMap (g.coveredOutside below) ++ done := by
      intro hin
      rcases List.mem_append.1 hin with hin | hin
      · obtain ⟨-, -, -, -, hout⟩ := covered_of_mem hp hlive (fun _ hd => hd) hin
        exact hout (by simp [hall])
      · rw [hall, List.nodup_append] at hdistinct
        exact hdistinct.2.2 id hin id (by simp) rfl
    refine ⟨done ++ [id], by simp [hall], ?_⟩
    rw [← List.append_assoc]
    refine (Triple.bind (removeEntry_removing hr hid hnew) fun _ =>
      remove_removing hp.toMutual hid hnew ?_).ok hc hrun
    intro p hpg hlink
    rcases List.mem_append.1 hpg with hpg | hpg
    · exact absurd hlink (not_hasParent_of_mem hp hlive (fun _ hd => hd) hpg hid)
    · simp [hall, hpg]
  · intro c hc
    refine ⟨[], rfl, ?_⟩
    rw [List.append_nil]
    exact hc
  · rintro _ c ⟨done, hall, hc⟩
    rw [List.append_nil] at hall
    rw [← hall] at hc
    exact hc

end Prunable

end Pruning

/-! ## The whole refinement -/

theorem Below.live (hm : g.Mutual) (hpoint : g.Live point) (h : g.Below point i) : g.Live i := by
  induction h with
  | refl => exact hpoint
  | tail _ hc ih => exact (hm.child _ _ ih hc).1

/-- The nodes that a refinement at `point` schedules again, as far as they have an entry. -/
def revisited (g : ReachGraph ν) (point : GraphNodeId) : List GraphNodeId :=
  (g.ancestors point).filter (fun a => !(g.subtree point).contains a) ++
    (g.doomed (g.subtree point)).flatMap (g.outsideParents (g.subtree point))

/-- What a refinement at `point` leaves that ends with `result`. -/
structure Refined [Waitlist θ ν] (g : ReachGraph ν) (r : ReachedSet ν ρ θ) (point : GraphNodeId)
    (result : Refinement) (s : Recorded ν ρ θ) : Prop where
  live : g.Live point
  pruned : result.pruned = g.doomed (g.subtree point)
  graph : Trimmed g result.pruned s.graph
  reached : ∃ r₁ : ReachedSet ν ρ θ, Reweighed r result.strengthened r₁ ∧
    s.graph.reschedule (g.revisited point)
      (r₁.removeAll ((g.subtree point).filterMap (g.entryOf r))) [] = (s.reached, result.readded)

theorem refine_refined [Waitlist θ ν] {result : Refinement} (hp : g.Prunable) (hr : r.Sound)
    (hrun : ReachGraph.refine f point ⟨g, r⟩ st = (.ok result, s, st')) :
    Refined g r point result s := by
  unfold ReachGraph.refine at hrun
  split at hrun
  · cases hrun
  · next hpoint =>
    have hpoint : g.Live point := isLive_iff.1 (by simpa using hpoint)
    dsimp only at hrun
    split at hrun
    · cases hrun
    · next hstrength =>
      obtain ⟨ks, hweighed, hgiven⟩ := strengthenEntries_reweighed (reweighed_refl r) hstrength
      obtain rfl := hgiven _ rfl
      split at hrun
      · cases hrun
      · next cut hprune =>
        have hremoved := (Pruning.removeAll_removing hp
          (fun i hi => (mem_subtree.1 hi).live hp.toMutual hpoint) (nodup_subtree g point)
          (hweighed.sound hr)).ok ⟨trimmed_refl g, rfl, rfl, (List.append_nil _).symm⟩ hprune
        cases hrun
        refine ⟨hpoint, hremoved.pruned, ?_, _, hweighed, ?_⟩
        · rw [hremoved.pruned]
          exact hremoved.graph
        · have hentry : g.entryOf r = g.entryOf _ :=
            funext fun _ => (entryOf_congr rfl hweighed.find?).symm
          rw [hentry, ← hremoved.reached, revisited, ← hremoved.again]

section Refined

variable [Waitlist θ ν] {r : ReachedSet ν ρ θ} {point : GraphNodeId} {result : Refinement}
  {s : Recorded ν ρ θ}

section

variable (h : Refined g r point result s)

include h

theorem Refined.store : ∃ r₁ : ReachedSet ν ρ θ, Reweighed r result.strengthened r₁ ∧
    s.reached.store = (r₁.removeAll ((g.subtree point).filterMap (g.entryOf r))).store := by
  obtain ⟨r₁, hweighed, hagain⟩ := h.reached
  have hstore := reschedule_store s.graph (g.revisited point)
    (r₁.removeAll ((g.subtree point).filterMap (g.entryOf r))) []
  rw [hagain] at hstore
  exact ⟨r₁, hweighed, hstore⟩

/-- The entries of the nodes below the cut are removed; the others keep all but their precisions. -/
theorem Refined.get? (k : EntryId) :
    ∃ f : Precision ρ → Precision ρ, (k ∉ result.strengthened → f = id) ∧
      s.reached.get? k = if k ∈ (g.subtree point).filterMap (g.entryOf r) then none
        else (r.get? k).map fun e => { e with precision := f e.precision } := by
  obtain ⟨r₁, hweighed, hstore⟩ := h.store
  obtain ⟨f, hf, hget⟩ := hweighed.entry k
  refine ⟨f, hf, ?_⟩
  rw [← hget, ← ReachedSet.get?_removeAll]
  exact congrArg (Store.get? · k) hstore

theorem Refined.program : s.reached.program = r.program := by
  obtain ⟨r₁, hweighed, hagain⟩ := h.reached
  have hprogram := reschedule_program s.graph (g.revisited point)
    (r₁.removeAll ((g.subtree point).filterMap (g.entryOf r))) []
  rw [hagain, ReachedSet.removeAll_program, hweighed.program] at hprogram
  exact hprogram

theorem Refined.counted (hr : r.store.Counted) : s.reached.store.Counted := by
  obtain ⟨r₁, hweighed, hstore⟩ := h.store
  rw [hstore]
  exact ReachedSet.counted_removeAll (hweighed.counted hr) _

/-- An entry that is left was there before, with the same state. -/
theorem Refined.origin {e : Entry ν ρ} (he : s.reached.get? k = some e) :
    k ∉ (g.subtree point).filterMap (g.entryOf r) ∧ ∃ e₀, r.get? k = some e₀ ∧
      e.state = e₀.state := by
  obtain ⟨f, -, hget⟩ := h.get? k
  rw [hget] at he
  split at he
  · cases he
  · next hk =>
    obtain ⟨e₀, he₀, rfl⟩ := Option.map_eq_some_iff.1 he
    exact ⟨hk, e₀, he₀, rfl⟩

theorem Refined.mem_pruned :
    i ∈ result.pruned ↔ g.Below point i ∨ ∃ d, g.Below point d ∧ g.Covers d i := by
  rw [h.pruned, doomed, List.mem_append, List.mem_flatMap, mem_subtree]
  constructor
  · rintro (⟨d, hd, hx⟩ | hi)
    · exact .inr ⟨d, mem_subtree.1 hd, (mem_coveredOutside.1 hx).1⟩
    · exact .inl hi
  · rintro (hi | ⟨d, hd, hx⟩)
    · exact .inr hi
    · by_cases hi : g.Below point i
      · exact .inr hi
      · refine .inl ⟨d, mem_subtree.2 hd, mem_coveredOutside.2 ⟨hx, fun hin => ?_⟩⟩
        exact hi (mem_subtree.1 hin)

theorem Refined.live_of_pruned (hi : i ∈ result.pruned) : g.Live i := by
  obtain ⟨n, hn, hl, -⟩ := h.graph.removed i hi
  exact ⟨n, hn, hl⟩

/-- The node of an entry that is left is not pruned. -/
theorem Refined.not_pruned (hp : g.Prunable) (hr : r.Sound) {e : Entry ν ρ}
    (he : s.reached.get? k = some e) (hi : g.Stands i e.state) : i ∉ result.pruned := by
  obtain ⟨hk, e₀, he₀, hsame⟩ := h.origin he
  intro hin
  rcases h.mem_pruned.1 hin with hbelow | ⟨d, hd, hx⟩
  · refine hk (List.mem_filterMap.2 ⟨i, mem_subtree.2 hbelow, (entryOf_eq_some_iff hr).2 ?_⟩)
    exact ⟨e.state, e₀, hi.holds, he₀, congrArg State.handle hsame.symm⟩
  · exact hi.uncovered d (hp.covered d i (hd.live hp.toMutual h.live) hx).2

/-- If covers do not chain, a node that is left keeps its coverer. -/
theorem Refined.coverer_kept (hp : g.Prunable)
    (hflat : ∀ i q q', g.CoveredBy i q → ¬ g.CoveredBy q q') {q : GraphNodeId} (hi : g.Live i)
    (hq : g.CoveredBy i q) (hleft : i ∉ result.pruned) : q ∉ result.pruned := by
  intro hin
  rcases h.mem_pruned.1 hin with hbelow | ⟨d, hd, hx⟩
  · exact hleft (h.mem_pruned.2 (.inr ⟨q, hbelow, (hp.coverer i q hi hq).2⟩))
  · exact hflat i q d hq (hp.covered d q (hd.live hp.toMutual h.live) hx).2

end

end Refined

/-- A refinement that is refused leaves the graph as it was. -/
theorem refine_error_graph [Waitlist θ ν] {failure : Failure}
    (hrun : ReachGraph.refine f point ⟨g, r⟩ st = (.error failure, s, st'))
    (hok : ∀ c, failure ≠ .crash c) : s.graph = g := by
  unfold ReachGraph.refine at hrun
  split at hrun
  · cases hrun
    rfl
  · dsimp only at hrun
    split at hrun
    · cases hrun
      rfl
    · split at hrun
      · cases hrun
        exact absurd rfl (hok _)
      · cases hrun

end ProgramAnalysis.ReachGraph
