import Mathlib.Algebra.BigOperators.Group.Finset.Basic
import Mathlib.Algebra.GroupWithZero.Nat
import Mathlib.Algebra.Order.BigOperators.Group.Finset
import Mathlib.Logic.Relation
import ProgramAnalysis.Proofs.GraphLinks
import ProgramAnalysis.ReachGraph.Search
/-!
What the searches in the reachability graph find.

A walk finds exactly the nodes that its links lead to, each once (`walk_walked`), and a path from a
root exists exactly if a root leads to the node through live nodes (`pathTo_isSome`). A search that
is given a number of steps ends before they are used up: each node that it finds, but the first,
takes a link of its own.
-/

namespace ProgramAnalysis.ReachGraph

variable {ν α : Type} {i : GraphNodeId} {g : ReachGraph ν} {links : GraphNode ν → List α}

/-! ## Newcomers -/

theorem mem_newcomers {seen l : List GraphNodeId} : i ∈ newcomers seen l ↔ i ∈ l ∧ i ∉ seen := by
  induction l generalizing seen with
  | nil => simp [newcomers]
  | cons n rest ih =>
    unfold newcomers
    rcases Decidable.em (i = n) with rfl | hne
    · by_cases hi : i ∈ seen <;> simp [hi, ih]
    · by_cases hn : n ∈ seen <;> simp [hn, hne, ih]

theorem nodup_newcomers (seen l : List GraphNodeId) : (newcomers seen l).Nodup := by
  induction l generalizing seen with
  | nil => exact .nil
  | cons n rest ih =>
    unfold newcomers
    split
    · exact ih seen
    · refine List.nodup_cons.2 ⟨fun hn => ?_, ih (n :: seen)⟩
      exact (mem_newcomers.1 hn).2 (by simp)

theorem length_newcomers_le (seen l : List GraphNodeId) : (newcomers seen l).length ≤ l.length := by
  induction l generalizing seen with
  | nil => exact Nat.le_refl _
  | cons n rest ih =>
    unfold newcomers
    split
    · exact Nat.le_succ_of_le (ih seen)
    · exact Nat.succ_le_succ (ih (n :: seen))

/-! ## The number of links -/

/-- What a node lists. -/
def listed (g : ReachGraph ν) (links : GraphNode ν → List α) (i : GraphNodeId) : List α :=
  ((g.node? i).map links).getD []

theorem mem_listed {x : α} : x ∈ g.listed links i ↔ g.At i fun n => x ∈ links n := by
  unfold listed At
  cases g.node? i with
  | none => simp
  | some n => simp

/-- How many links the nodes of a graph have, and one more. -/
def budget (g : ReachGraph ν) (links : GraphNode ν → List α) : Nat :=
  g.nodes.foldl (fun n node => n + (links node).length) 1

theorem budget_eq (g : ReachGraph ν) (links : GraphNode ν → List α) :
    g.budget links = 1 + ∑ k ∈ Finset.range g.nodes.size, (g.listed links ⟨k⟩).length := by
  have hfold : ∀ (l : List (GraphNode ν)) (m : Nat),
      l.foldl (fun n node => n + (links node).length) m =
        m + ∑ k ∈ Finset.range l.length, ((l[k]?.map links).getD []).length := by
    intro l
    induction l with
    | nil => simp
    | cons node rest ih =>
      intro m
      rw [List.foldl_cons, ih, List.length_cons, Finset.sum_range_succ', add_assoc]
      congr 1
      rw [add_comm]
      rfl
  obtain ⟨⟨l⟩, _⟩ := g
  simp [budget, listed, node?, hfold]

/-- Nodes that differ have no more links than all nodes together. -/
theorem sum_listed_lt {ids : List GraphNodeId} (h : ids.Nodup) :
    (ids.map fun i => (g.listed links i).length).sum < g.budget links := by
  have hindex : (ids.map GraphNodeId.index).Nodup := by
    refine h.map ?_
    rintro ⟨i⟩ ⟨j⟩ rfl
    rfl
  have hsum : (ids.map fun i => (g.listed links i).length).sum =
      ∑ k ∈ (ids.map GraphNodeId.index).toFinset, (g.listed links ⟨k⟩).length := by
    rw [List.sum_toFinset _ hindex, List.map_map]
    rfl
  rw [hsum, budget_eq, Nat.add_comm, Nat.lt_succ_iff]
  refine Finset.sum_le_sum_of_ne_zero fun k _ hk => Finset.mem_range.2 ?_
  by_contra hlt
  simp [listed, node?, Array.getElem?_eq_none (Nat.le_of_not_lt hlt)] at hk

/-! ## Walks -/

/-- How far a walk from `start` has come: the nodes of `done` were visited, and those of `queue`
were found and are visited next. -/
structure Walking (next : GraphNodeId → List GraphNodeId) (start : GraphNodeId)
    (done queue : List GraphNodeId) : Prop where
  distinct : (done ++ queue).Nodup
  first : ∃ rest, done ++ queue = start :: rest
  found : ∀ i ∈ done ++ queue, Relation.ReflTransGen (fun i j => j ∈ next i) start i
  closed : ∀ i ∈ done, ∀ j ∈ next i, j ∈ done ++ queue
  few : (done ++ queue).length ≤ 1 + (done.map fun i => (next i).length).sum

section Walking

variable {next : GraphNodeId → List GraphNodeId} {start id : GraphNodeId}
  {done queue : List GraphNodeId} {total : Nat}

theorem walking_start (next : GraphNodeId → List GraphNodeId) (start : GraphNodeId) :
    Walking next start [] [start] where
  distinct := by simp
  first := ⟨[], rfl⟩
  found i hi := by
    obtain rfl : i = start := by simpa using hi
    exact .refl
  closed i hi := absurd hi List.not_mem_nil
  few := Nat.le_refl _

/-- The next node of the queue is visited. -/
theorem Walking.step (h : Walking next start done (id :: queue)) :
    Walking next start (done ++ [id])
      (queue ++ newcomers (done ++ id :: queue) (next id)) := by
  have happend : (done ++ [id]) ++ (queue ++ newcomers (done ++ id :: queue) (next id)) =
      (done ++ id :: queue) ++ newcomers (done ++ id :: queue) (next id) := by simp
  obtain ⟨rest, hfirst⟩ := h.first
  constructor
  · rw [happend]
    refine List.nodup_append.2 ⟨h.distinct, nodup_newcomers _ _, ?_⟩
    rintro i hi j hj rfl
    exact (mem_newcomers.1 hj).2 hi
  · rw [happend, hfirst]
    exact ⟨_, rfl⟩
  · rw [happend]
    intro i hi
    rcases List.mem_append.1 hi with hi | hi
    · exact h.found i hi
    · exact (h.found id (by simp)).tail (mem_newcomers.1 hi).1
  · rw [happend]
    intro i hi j hj
    rcases List.mem_append.1 hi with hi | hi
    · exact List.mem_append_left _ (h.closed i hi j hj)
    · obtain rfl : i = id := by simpa using hi
      by_cases hold : j ∈ done ++ i :: queue
      · exact List.mem_append_left _ hold
      · exact List.mem_append_right _ (mem_newcomers.2 ⟨hj, hold⟩)
  · rw [happend, List.length_append, List.map_append, List.sum_append]
    have hfew := h.few
    have hnew := length_newcomers_le (done ++ id :: queue) (next id)
    simp only [List.map_cons, List.map_nil, List.sum_cons, List.sum_nil]
    omega

/-- A walk that has visited as many nodes as there are links has nothing left to do. -/
theorem Walking.queue_eq_nil (h : Walking next start done queue)
    (hbound : ∀ ids : List GraphNodeId, ids.Nodup →
      (ids.map fun i => (next i).length).sum < total) (hdone : total ≤ done.length) :
    queue = [] := by
  have hlt := hbound done (h.distinct.sublist (List.sublist_append_left _ _))
  have hfew := h.few
  rw [List.length_append] at hfew
  exact List.length_eq_zero_iff.1 (by omega)

/-- A walk with nothing left to do has found everything. -/
theorem Walking.mem_iff (h : Walking next start done []) :
    i ∈ done ↔ Relation.ReflTransGen (fun i j => j ∈ next i) start i := by
  obtain ⟨rest, hfirst⟩ := h.first
  rw [List.append_nil] at hfirst
  constructor
  · exact fun hi => h.found i (by simpa using hi)
  · intro hreach
    induction hreach with
    | refl => simp [hfirst]
    | tail _ hstep ih => simpa using h.closed _ ih _ hstep

/-- The list holds what can be found from `start`, each node once, `start` first. -/
structure Walked (next : GraphNodeId → List GraphNodeId) (start : GraphNodeId)
    (order : List GraphNodeId) : Prop where
  distinct : order.Nodup
  first : ∃ rest, order = start :: rest
  mem_iff : ∀ i, i ∈ order ↔ Relation.ReflTransGen (fun i j => j ∈ next i) start i

theorem Walking.walked (h : Walking next start done []) : Walked next start done where
  distinct := by simpa using h.distinct
  first := by simpa using h.first
  mem_iff _ := h.mem_iff

/-- The walk comes to its end and lists `result`, whatever number of steps it takes. -/
inductive WalkEnds (next : GraphNodeId → List GraphNodeId) :
    List GraphNodeId → List GraphNodeId → List GraphNodeId → Prop where
  | done {order} : WalkEnds next order [] order
  | visit {order queue result id} :
      WalkEnds next (order ++ newcomers order (next id)) (queue ++ newcomers order (next id))
        result → WalkEnds next order (id :: queue) result

theorem walkFrom_ends {steps : Nat}
    (hbound : ∀ ids : List GraphNodeId, ids.Nodup →
      (ids.map fun i => (next i).length).sum < total) (h : Walking next start done queue)
    (hsteps : total ≤ steps + done.length) :
    WalkEnds next (done ++ queue) queue (walkFrom next steps (done ++ queue) queue) := by
  induction steps generalizing done queue with
  | zero =>
    obtain rfl := h.queue_eq_nil hbound (by omega)
    exact .done
  | succ steps ih =>
    cases queue with
    | nil => exact .done
    | cons id queue =>
      have hlater := ih h.step (by simp; omega)
      refine .visit ?_
      simpa [walkFrom] using hlater

theorem WalkEnds.walked {order result : List GraphNodeId} (hends : WalkEnds next order queue result)
    (h : Walking next start done queue) (horder : order = done ++ queue) :
    Walked next start result := by
  induction hends generalizing done with
  | done =>
    rw [horder, List.append_nil]
    exact h.walked
  | visit _ ih =>
    subst horder
    exact ih h.step (by simp)

end Walking

section

variable (g : ReachGraph ν) (links : GraphNode ν → List GraphNodeId) (start : GraphNodeId)

theorem walk_ends : WalkEnds (g.listed links) [start] [start] (g.walk links start) :=
  walkFrom_ends (fun _ => sum_listed_lt) (walking_start _ start) (Nat.le_refl _)

theorem walk_walked : Walked (g.listed links) start (g.walk links start) :=
  (walk_ends g links start).walked (walking_start _ start) rfl

end

/-! ## Below and above a node -/

/-- The node was reached from `point`, or is `point`. -/
def Below (g : ReachGraph ν) (point i : GraphNodeId) : Prop :=
  Relation.ReflTransGen g.HasChild point i

/-- The node `point` was reached from the node, or is the node. -/
def Above (g : ReachGraph ν) (point i : GraphNodeId) : Prop :=
  Relation.ReflTransGen g.HasParent point i

section

variable {g : ReachGraph ν} {point i : GraphNodeId}

theorem mem_subtree : i ∈ g.subtree point ↔ g.Below point i := by
  rw [subtree, (walk_walked g _ point).mem_iff]
  simp only [mem_listed]
  rfl

theorem nodup_subtree (g : ReachGraph ν) (point : GraphNodeId) : (g.subtree point).Nodup :=
  (walk_walked g _ point).distinct

theorem mem_ancestors : i ∈ g.ancestors point ↔ g.Above point i ∧ i ≠ point := by
  have hw := walk_walked g GraphNode.parentIds point
  have habove : g.Above point i ↔ i ∈ g.walk GraphNode.parentIds point := by
    rw [hw.mem_iff]
    simp only [mem_listed]
    rfl
  obtain ⟨rest, hrest⟩ := hw.first
  have hdistinct := hw.distinct
  rw [hrest, List.nodup_cons] at hdistinct
  rw [habove, ancestors, hrest, List.tail_cons, List.mem_cons]
  constructor
  · intro hi
    refine ⟨.inr hi, ?_⟩
    rintro rfl
    exact hdistinct.1 hi
  · rintro ⟨rfl | hi, hne⟩
    · exact absurd rfl hne
    · exact hi

end

/-! ## Paths from a root -/

/-- The live parents of a node. -/
def liveParents (g : ReachGraph ν) (i : GraphNodeId) : List GraphNodeId :=
  ((g.listed GraphNode.parents i).map Prod.fst).filter g.isLive

theorem mem_liveParents {p : GraphNodeId} : p ∈ g.liveParents i ↔ g.HasParent i p ∧ g.Live p := by
  have hparent : p ∈ (g.listed GraphNode.parents i).map Prod.fst ↔ g.HasParent i p := by
    unfold HasParent At listed
    cases g.node? i with
    | none => simp
    | some n => simp [GraphNode.parentIds]
  rw [liveParents, List.mem_filter, hparent, isLive_iff]
  rfl

/-- The node `root` leads to `target` through live nodes. -/
def LeadsTo (g : ReachGraph ν) (root target : GraphNodeId) : Prop :=
  Relation.ReflTransGen (fun i p => g.HasParent i p ∧ g.Live p) target root

section Path

variable {g : ReachGraph ν} {target : GraphNodeId}

/-- The parents that are noted are those that were not found before. -/
theorem noteParents_spec (id : GraphNodeId) (links : List ParentLink) (queue : List GraphNodeId)
    {trail : Trail} {found : List GraphNodeId}
    (h : ∀ p, p = target ∨ trail.contains p = true ↔ p ∈ found) :
    (noteParents g target id links trail queue).2 =
        queue ++ newcomers found ((links.map Prod.fst).filter g.isLive) ∧
      ∀ p, p = target ∨ (noteParents g target id links trail queue).1.contains p = true ↔
        p ∈ found ++ newcomers found ((links.map Prod.fst).filter g.isLive) := by
  induction links generalizing trail queue found with
  | nil => simp [noteParents, newcomers, h]
  | cons link rest ih =>
    obtain ⟨p, edge⟩ := link
    have hnew : (decide (p ≠ target) && !trail.contains p && g.isLive p) = true ↔
        p ∉ found ∧ g.isLive p = true := by
      rw [← h p]
      simp
    rw [List.map_cons]
    unfold noteParents
    by_cases hl : g.isLive p = true
    · rw [List.filter_cons_of_pos hl]
      by_cases hp : p ∈ found
      · rw [if_neg fun hn => (hnew.1 hn).1 hp]
        simpa [newcomers, hp] using ih queue h
      · rw [if_pos (hnew.2 ⟨hp, hl⟩)]
        have htrail : ∀ q, q = target ∨ (trail.insert p (id, edge)).contains q = true ↔
            q ∈ p :: found := by
          intro q
          rw [List.mem_cons, ← h q, Index.contains, Index.contains, Index.get?_insert]
          by_cases hq : p = q
          · simp [hq]
          · simp [hq, Ne.symm hq]
        obtain ⟨hqueue, hfound⟩ := ih (queue ++ [p]) htrail
        refine ⟨by simpa [newcomers, hp] using hqueue, fun q => (hfound q).trans ?_⟩
        simp [newcomers, hp, or_left_comm]
    · rw [List.filter_cons_of_neg hl, if_neg fun hn => hl (hnew.1 hn).2]
      exact ih queue h

theorem sum_liveParents_lt {ids : List GraphNodeId} (h : ids.Nodup) :
    (ids.map fun i => (g.liveParents i).length).sum < g.budget GraphNode.parents := by
  refine Nat.lt_of_le_of_lt (List.sum_le_sum fun i _ => ?_) (sum_listed_lt h)
  rw [liveParents]
  exact (List.length_filter_le _ _).trans (List.length_map _).le

theorem leadsTo_iff {root : GraphNodeId} : g.LeadsTo root target ↔
    Relation.ReflTransGen (fun i p => p ∈ g.liveParents i) target root := by
  simp only [mem_liveParents]
  rfl

/-- The search goes on while no root is among the nodes visited. -/
theorem searchRoot_isSome {steps : Nat} {trail : Trail} {done queue : List GraphNodeId}
    (h : Walking g.liveParents target done queue)
    (htrail : ∀ p, p = target ∨ trail.contains p = true ↔ p ∈ done ++ queue)
    (hdone : ∀ i ∈ done, i ∉ g.roots) (hsteps : g.budget GraphNode.parents ≤ steps + done.length) :
    (searchRoot g target steps trail queue).isSome = true ↔
      ∃ root ∈ g.roots, g.LeadsTo root target := by
  have hfail : ∀ {done}, Walking g.liveParents target done [] → (∀ i ∈ done, i ∉ g.roots) →
      ¬ ∃ root ∈ g.roots, g.LeadsTo root target := by
    rintro done h hdone ⟨root, hroot, hleads⟩
    exact hdone root (h.mem_iff.2 (leadsTo_iff.1 hleads)) hroot
  induction steps generalizing trail done queue with
  | zero =>
    obtain rfl := h.queue_eq_nil (fun _ => sum_liveParents_lt) (by omega)
    simpa [searchRoot] using hfail h hdone
  | succ steps ih =>
    cases queue with
    | nil => simpa [searchRoot] using hfail h hdone
    | cons id queue =>
      unfold searchRoot
      split
      · next hroot =>
        exact iff_of_true rfl ⟨id, by simpa using hroot, leadsTo_iff.2 (h.found id (by simp))⟩
      · next hroot =>
        obtain ⟨hqueue, hfound⟩ := noteParents_spec id (g.listed GraphNode.parents id) queue htrail
        show (searchRoot g target steps
          (noteParents g target id (g.listed GraphNode.parents id) trail queue).1
          (noteParents g target id (g.listed GraphNode.parents id) trail queue).2).isSome = true ↔ _
        rw [hqueue]
        refine ih h.step (fun p => (hfound p).trans ?_) (fun i hi => ?_) ?_
        · simp
        · rcases List.mem_append.1 hi with hi | hi
          · exact hdone i hi
          · rw [List.mem_singleton.1 hi]
            simpa using hroot
        · rw [List.length_append, List.length_singleton]
          omega

/-- A live node has a path exactly if a root leads to it. -/
theorem pathTo_isSome (h : g.Live target) :
    (g.pathTo target).isSome = true ↔ ∃ root ∈ g.roots, g.LeadsTo root target := by
  rw [pathTo, if_pos (isLive_iff.2 h), Option.isSome_map]
  refine searchRoot_isSome (walking_start _ target) (fun p => ?_) (fun i hi => ?_)
    (Nat.le_refl _)
  · simp [Index.contains, Index.get?_empty]
  · cases hi

end Path

end ProgramAnalysis.ReachGraph
