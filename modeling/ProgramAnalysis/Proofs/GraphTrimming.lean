import ProgramAnalysis.Proofs.GraphLinks
/-!
Graphs without some of their nodes.

`Trimmed g gone g'` says that `g'` is what is left of `g` without the live nodes `gone`: these are
destroyed, and the other live nodes lose exactly their links to them. The list of roots stays as it
is. It is enough that the links between live nodes are mutual; then nodes may be removed one after
the other (`Trimmed.cut`), and consistency is kept (`Trimmed.consistent`).
-/

namespace ProgramAnalysis.ReachGraph

variable {ν : Type} {g g' : ReachGraph ν}

/-! ## Mutual links -/

/-- The links between live nodes are noted at both ends. -/
structure Mutual (g : ReachGraph ν) : Prop where
  parent : ∀ i p, g.Live i → g.Live p → g.HasParent i p → g.HasChild p i
  child : ∀ i c, g.Live i → g.HasChild i c → g.Live c ∧ g.HasParent c i
  coverer : ∀ i q, g.Live i → g.CoveredBy i q → g.Live q ∧ g.Covers q i
  covered : ∀ i x, g.Live i → g.Covers i x → g.Live x ∧ g.CoveredBy x i

theorem Linked.toMutual (h : g.Linked) : g.Mutual where
  parent i p hi hp hlink := by
    rcases h.parent i p hi hlink with hc | hm
    · exact hc.2
    · exact absurd hp hm.destroyed.not_live
  child i c _ hc := (h.child i c hc).2
  coverer i q _ hq := (h.coverer i q hq).2
  covered i x _ hx := (h.covered i x hx).2

theorem Consistent.toMutual (h : g.Consistent) (hlive : ∀ i q, g.CoveredBy i q → g.Live i) :
    g.Mutual where
  parent _ _ hi _ hlink := (h.listed hi hlink).2
  child := h.child
  coverer := h.coverer
  covered i x hi hx := ⟨hlive x i (h.covered i x hi hx), h.covered i x hi hx⟩

/-! ## Roots -/

/-- Changes one after the other that keep the roots keep them together. -/
theorem foldl_roots {α : Type} {f : ReachGraph ν → α → ReachGraph ν}
    (h : ∀ g x, (f g x).roots = g.roots) (xs : List α) (g : ReachGraph ν) :
    (xs.foldl f g).roots = g.roots := by
  induction xs generalizing g with
  | nil => rfl
  | cons x rest ih => exact (ih (f g x)).trans (h g x)

theorem update_roots (g : ReachGraph ν) (id : GraphNodeId) (f : GraphNode ν → GraphNode ν) :
    (g.update id f).roots = g.roots := rfl

theorem updateAll_roots (g : ReachGraph ν) (ids : List GraphNodeId)
    (f : GraphNode ν → GraphNode ν) : (g.updateAll ids f).roots = g.roots :=
  foldl_roots (fun _ _ => by rfl) ids g

theorem cut_roots (g : ReachGraph ν) (id : GraphNodeId) (old : GraphNode ν) :
    (g.cut id old).roots = g.roots := by
  unfold cut release
  dsimp only
  rw [updateAll_roots, updateAll_roots, updateAll_roots]
  exact foldl_roots (fun _ _ => by rfl) _ (g.destroy id)

/-! ## Trimming -/

/-- A node without its links to the nodes `gone`. -/
def trimmed (gone : List GraphNodeId) (n : GraphNode ν) : GraphNode ν :=
  { n with
    parents := n.parents.filter fun l => l.1 ∉ gone
    children := n.children.filter (· ∉ gone)
    coveredBy := n.coveredBy.filter (· ∉ gone)
    covering := n.covering.filter (· ∉ gone) }

/-- What is left of a graph without the nodes `gone`. -/
structure Trimmed (g : ReachGraph ν) (gone : List GraphNodeId) (g' : ReachGraph ν) : Prop where
  kept : ∀ i n, g.node? i = some n → n.status = .live → i ∉ gone →
    g'.node? i = some (trimmed gone n)
  removed : ∀ i ∈ gone, ∃ n, g.node? i = some n ∧ n.status = .live ∧ g'.node? i = some (dead n)
  idle : ∀ i, ¬ g.Live i → i ∉ gone →
    ∀ P : NodeStatus → Option (State ν) → List ParentLink → Option GraphNodeId → Prop,
      g'.At i (fun n => P n.status n.state n.parents n.mergedWith) ↔
        g.At i fun n => P n.status n.state n.parents n.mergedWith
  roots : g'.roots = g.roots

theorem trimmed_refl (g : ReachGraph ν) : Trimmed g [] g where
  kept i n hn _ _ := by
    have hsame : trimmed [] n = n := by
      cases n with
      | mk _ _ _ _ _ coverer _ _ => cases coverer <;> simp [trimmed]
    rw [hsame]
    exact hn
  removed i hi := absurd hi List.not_mem_nil
  idle i _ _ P := Iff.rfl
  roots := rfl

theorem node?_cut (g : ReachGraph ν) (id j : GraphNodeId) (old : GraphNode ν) :
    (g.cut id old).node? j =
      (g.node? j).map fun n => if j = id then dead n else severed id j old n := by
  cases hn : g.node? j with
  | none =>
    cases hm : (g.cut id old).node? j with
    | none => rfl
    | some m =>
      obtain ⟨n, hn', -⟩ : g.Known j := known_cut.1 ⟨m, hm, trivial⟩
      rw [hn] at hn'
      cases hn'
  | some n =>
    obtain ⟨m, hm, rfl⟩ : (g.cut id old).At j fun m =>
        m = if j = id then dead n else severed id j old n := at_cut.2 ⟨n, hn, rfl⟩
    exact hm

/-- Links that were filtered are filtered once more where there may be one to `id`. -/
theorem filter_gone {α : Type} (gone : List GraphNodeId) {id : GraphNodeId} {l : List α}
    {f : α → GraphNodeId} {c : Prop} [Decidable c] (h : ∀ x ∈ l, f x = id → c) :
    (if c then (l.filter fun x => f x ∉ gone).filter fun x => f x ≠ id
      else l.filter fun x => f x ∉ gone) = l.filter fun x => f x ∉ gone ++ [id] := by
  split
  · simp [List.filter_filter, and_comm, not_or]
  · next hc =>
    refine List.filter_congr fun x hx => ?_
    have hne : f x ≠ id := fun he => hc (h x hx he)
    simp [hne]

section Trimmed

variable {gone : List GraphNodeId} {i id : GraphNodeId} {old : GraphNode ν}

/-- The node `id`, which is live, is removed from a trimmed graph. -/
theorem severed_trimmed {n : GraphNode ν} (hm : g.Mutual) (hi : g.node? i = some n)
    (hil : n.status = .live) (hout : i ∉ gone) (hid : g.node? id = some old)
    (hl : old.status = .live) :
    severed id i (trimmed gone old) (trimmed gone n) = trimmed (gone ++ [id]) n := by
  have hLi : g.Live i := ⟨n, hi, hil⟩
  have hLid : g.Live id := ⟨old, hid, hl⟩
  have hchild : ∀ c ∈ n.children, c = id → i ∈ (trimmed gone old).parentIds := by
    rintro c hc rfl
    have hp : i ∈ old.parentIds := (at_iff hid).1 (hm.child i c hLi ⟨n, hi, hc⟩).2
    obtain ⟨l, hl, rfl⟩ := List.mem_map.1 hp
    exact List.mem_map.2 ⟨l, List.mem_filter.2 ⟨hl, by simpa using hout⟩, rfl⟩
  have hparent : ∀ l ∈ n.parents, l.1 = id → i ∈ (trimmed gone old).children := by
    rintro l hl rfl
    have hc : i ∈ old.children :=
      (at_iff hid).1 (hm.parent i l.1 hLi hLid ⟨n, hi, List.mem_map.2 ⟨l, hl, rfl⟩⟩)
    exact List.mem_filter.2 ⟨hc, by simpa using hout⟩
  have hcovering : ∀ x ∈ n.covering, x = id → (trimmed gone old).coveredBy = some i := by
    rintro x hx rfl
    have hc : old.coveredBy = some i := (at_iff hid).1 (hm.covered i x hLi ⟨n, hi, hx⟩).2
    simp [trimmed, hc, hout]
  have hcoverer : i ∈ (trimmed gone old).covering ↔ n.coveredBy = some id := by
    simp only [trimmed, List.mem_filter, hout, not_false_eq_true, decide_true, and_true]
    constructor
    · exact fun hx => (at_iff hi).1 (hm.covered id i hLid ⟨old, hid, hx⟩).2
    · exact fun hq => (at_iff hid).1 (hm.coverer i id hLi ⟨n, hi, hq⟩).2
  have hcoveredBy : (if i ∈ (trimmed gone old).covering then none
      else n.coveredBy.filter (· ∉ gone)) = n.coveredBy.filter (· ∉ gone ++ [id]) := by
    simp only [hcoverer]
    cases n.coveredBy with
    | none => simp
    | some q =>
      by_cases hq : q = id <;> by_cases hg : q ∈ gone <;> simp [Option.filter, hq, hg]
  have hparents := filter_gone gone hparent
  have hchildren := filter_gone gone (f := fun c => c) hchild
  have hcovers := filter_gone gone (f := fun x => x) hcovering
  unfold severed
  show GraphNode.mk _ _ _ _ _ _ _ _ = GraphNode.mk _ _ _ _ _ _ _ _
  congr 1

namespace Trimmed

variable (h : Trimmed g gone g')

include h

theorem at_iff (hi : g.Live i) (hout : i ∉ gone)
    {P : GraphNode ν → Prop} : g'.At i P ↔ g.At i fun n => P (trimmed gone n) := by
  obtain ⟨n, hn, hl⟩ := hi
  rw [ReachGraph.at_iff hn, ReachGraph.at_iff (h.kept i n hn hl hout)]

theorem destroyed (hgone : i ∈ gone) : g'.Destroyed i := by
  obtain ⟨n, -, -, hdead⟩ := h.removed i hgone
  exact ⟨dead n, hdead, rfl⟩

theorem live : g'.Live i ↔ g.Live i ∧ i ∉ gone := by
  by_cases hgone : i ∈ gone
  · exact iff_of_false (h.destroyed hgone).not_live fun hl => hl.2 hgone
  · by_cases hi : g.Live i
    · rw [Live, h.at_iff hi hgone]
      simp [hgone, trimmed, Live]
    · rw [Live, h.idle i hi hgone (fun status _ _ _ => status = .live)]
      simp [hgone, Live]

theorem holds {s : State ν} (hout : i ∉ gone) : g'.Holds i s ↔ g.Holds i s := by
  by_cases hi : g.Live i
  · rw [Holds, h.at_iff hi hout]
    rfl
  · exact h.idle i hi hout fun _ state _ _ => state = some s

theorem holds_origin {s : State ν} (hs : g'.Holds i s) : g.Holds i s ∧ i ∉ gone := by
  have hout : i ∉ gone := by
    intro hgone
    obtain ⟨n, -, -, hdead⟩ := h.removed i hgone
    cases (ReachGraph.at_iff hdead).1 hs
  exact ⟨(h.holds hout).1 hs, hout⟩

theorem hasParent_origin {p : GraphNodeId} (hlink : g'.HasParent i p) : g.HasParent i p := by
  by_cases hgone : i ∈ gone
  · obtain ⟨n, -, -, hdead⟩ := h.removed i hgone
    have hp : p ∈ (dead n).parentIds := (ReachGraph.at_iff hdead).1 hlink
    cases hp
  · by_cases hi : g.Live i
    · rw [HasParent, h.at_iff hi hgone] at hlink
      refine hlink.mono fun n hn => ?_
      obtain ⟨l, hl, rfl⟩ := List.mem_map.1 hn
      exact List.mem_map.2 ⟨l, (List.mem_filter.1 hl).1, rfl⟩
    · exact (h.idle i hi hgone fun _ _ parents _ => p ∈ parents.map Prod.fst).1 hlink

theorem hasParent {p : GraphNodeId} (hi : g.Live i) (hout : i ∉ gone) :
    g'.HasParent i p ↔ g.HasParent i p ∧ p ∉ gone := by
  have hmem : ∀ n : GraphNode ν, p ∈ (trimmed gone n).parentIds ↔ p ∈ n.parentIds ∧ p ∉ gone := by
    intro n
    simp [trimmed, GraphNode.parentIds]
  rw [HasParent, h.at_iff hi hout]
  simp only [hmem, at_and, HasParent]

theorem hasChild {c : GraphNodeId} (hi : g.Live i) (hout : i ∉ gone) :
    g'.HasChild i c ↔ g.HasChild i c ∧ c ∉ gone := by
  rw [HasChild, h.at_iff hi hout]
  simp [trimmed, at_and, HasChild]

theorem covers {x : GraphNodeId} (hi : g.Live i) (hout : i ∉ gone) :
    g'.Covers i x ↔ g.Covers i x ∧ x ∉ gone := by
  rw [Covers, h.at_iff hi hout]
  simp [trimmed, at_and, Covers]

theorem coveredBy {q : GraphNodeId} (hi : g.Live i) (hout : i ∉ gone) :
    g'.CoveredBy i q ↔ g.CoveredBy i q ∧ q ∉ gone := by
  rw [CoveredBy, h.at_iff hi hout, CoveredBy, ← at_and]
  refine at_congr fun n _ => ?_
  simp [trimmed, Option.filter_eq_some_iff]

/-- One more node is removed. -/
theorem cut (hm : g.Mutual) (hid : g.Live id) (hnew : id ∉ gone)
    (hold : g'.node? id = some old) : Trimmed g (gone ++ [id]) (g'.cut id old) := by
  obtain ⟨n₀, hn₀, hl₀⟩ := hid
  obtain rfl : trimmed gone n₀ = old :=
    Option.some.inj ((h.kept id n₀ hn₀ hl₀ hnew).symm.trans hold)
  constructor
  · intro i n hn hl hout
    obtain ⟨hout, hne⟩ : i ∉ gone ∧ i ≠ id := by simpa using hout
    rw [node?_cut, h.kept i n hn hl hout, Option.map_some, if_neg hne,
      severed_trimmed hm hn hl hout hn₀ hl₀]
  · intro i hi
    rw [node?_cut]
    rcases Decidable.em (i = id) with rfl | hne
    · exact ⟨n₀, hn₀, hl₀, by simp [hold, dead, trimmed]⟩
    · obtain ⟨n, hn, hl, hdead⟩ := h.removed i (by simpa [hne] using hi)
      exact ⟨n, hn, hl, by simp [hdead, hne, severed, dead]⟩
  · intro i hi hout P
    obtain ⟨hout, hne⟩ : i ∉ gone ∧ i ≠ id := by simpa using hout
    have hchild : i ∉ (trimmed gone n₀).children := fun hc =>
      hi (hm.child id i ⟨n₀, hn₀, hl₀⟩ ⟨n₀, hn₀, (List.mem_filter.1 hc).1⟩).1
    rw [at_cut, ← h.idle i hi hout P]
    simp [hne, severed, hchild]
  · rw [cut_roots, h.roots]

/-- The links that remain are mutual too. -/
theorem toMutual (hm : g.Mutual) : g'.Mutual := by
  constructor
  · intro i p hi hp hlink
    obtain ⟨hi, hig⟩ := h.live.1 hi
    obtain ⟨hp, hpg⟩ := h.live.1 hp
    exact (h.hasChild hp hpg).2 ⟨hm.parent i p hi hp ((h.hasParent hi hig).1 hlink).1, hig⟩
  · intro i c hi hlink
    obtain ⟨hi, hig⟩ := h.live.1 hi
    obtain ⟨hlink, hcg⟩ := (h.hasChild hi hig).1 hlink
    obtain ⟨hc, hp⟩ := hm.child i c hi hlink
    exact ⟨h.live.2 ⟨hc, hcg⟩, (h.hasParent hc hcg).2 ⟨hp, hig⟩⟩
  · intro i q hi hlink
    obtain ⟨hi, hig⟩ := h.live.1 hi
    obtain ⟨hlink, hqg⟩ := (h.coveredBy hi hig).1 hlink
    obtain ⟨hq, hx⟩ := hm.coverer i q hi hlink
    exact ⟨h.live.2 ⟨hq, hqg⟩, (h.covers hq hqg).2 ⟨hx, hig⟩⟩
  · intro i x hi hlink
    obtain ⟨hi, hig⟩ := h.live.1 hi
    obtain ⟨hlink, hxg⟩ := (h.covers hi hig).1 hlink
    obtain ⟨hx, hc⟩ := hm.covered i x hi hlink
    exact ⟨h.live.2 ⟨hx, hxg⟩, (h.coveredBy hx hxg).2 ⟨hc, hig⟩⟩

theorem consistent (hm : g.Mutual) (hc : g.Consistent) : g'.Consistent := by
  have hm' := h.toMutual hm
  refine ⟨fun i p hi hlink => ?_, hm'.child, hm'.coverer, fun i x hi hx =>
    (hm'.covered i x hi hx).2⟩
  obtain ⟨hiold, hig⟩ := h.live.1 hi
  obtain ⟨hlold, hpg⟩ := (h.hasParent hiold hig).1 hlink
  have hp : g'.Live p := h.live.2 ⟨(hc.listed hiold hlold).1, hpg⟩
  exact .inl ⟨hp, hm'.parent i p hi hp hlink⟩

end Trimmed

end Trimmed

end ProgramAnalysis.ReachGraph
