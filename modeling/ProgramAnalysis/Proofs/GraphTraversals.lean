import ProgramAnalysis.Proofs.GraphHistory
/-!
What lies below and above a node.

Both traversals are the same walk, along the children or along the parents of the nodes. The walk
knows its start from the beginning, so it never finds the start again. The list of what lies above a
node leaves the start out, and so it lacks the node even where a loop of the program was merged into
a cycle of the graph.
-/

namespace ProgramAnalysis

namespace ReachGraph

variable {ν : Type} {g : ReachGraph ν} {id i : GraphNodeId}

theorem walk_parents_eq : g.walk GraphNode.parentIds id = id :: g.ancestors id := by
  obtain ⟨rest, hrest⟩ := (walk_walked g GraphNode.parentIds id).first
  rw [ancestors, hrest, List.tail_cons]

theorem nodup_ancestors : (g.ancestors id).Nodup := by
  have hwalk := (walk_walked g GraphNode.parentIds id).distinct
  rw [walk_parents_eq] at hwalk
  exact hwalk.of_cons

theorem mem_ancestors_iff_transGen :
    i ∈ g.ancestors id ↔ Relation.TransGen g.HasParent id i ∧ i ≠ id := by
  rw [mem_ancestors, Above, Relation.reflTransGen_iff_eq_or_transGen, or_and_right]
  simp

/-- For every graph and node, the two walks end. What is below a node is listed once, the node
first, and nothing else is. What is above it is listed once too, but for the node itself: the list
is exact if and only if the node lies on no cycle of parents. -/
theorem traversals_exact (g : ReachGraph ν) (id : GraphNodeId) :
    (WalkEnds (g.listed GraphNode.children) [id] [id] (g.subtree id) ∧
      (g.subtree id).Nodup ∧ (g.subtree id).head? = some id ∧
      ∀ i, i ∈ g.subtree id ↔ Relation.ReflTransGen g.HasChild id i) ∧
    (WalkEnds (g.listed GraphNode.parentIds) [id] [id] (id :: g.ancestors id) ∧
      (g.ancestors id).Nodup ∧
      ∀ i, i ∈ g.ancestors id ↔ Relation.TransGen g.HasParent id i ∧ i ≠ id) ∧
    ((∀ i, i ∈ g.ancestors id ↔ Relation.TransGen g.HasParent id i) ↔
      ¬ Relation.TransGen g.HasParent id id) := by
  have hbelow := walk_walked g GraphNode.children id
  have habove := walk_ends g GraphNode.parentIds id
  rw [walk_parents_eq] at habove
  refine ⟨⟨walk_ends g _ id, hbelow.distinct, ?_, fun i => mem_subtree⟩,
    ⟨habove, nodup_ancestors, fun i => mem_ancestors_iff_transGen⟩, ?_⟩
  · obtain ⟨rest, hrest⟩ := hbelow.first
    rw [subtree, hrest, List.head?_cons]
  · simp only [mem_ancestors_iff_transGen]
    constructor
    · exact fun hexact hcycle => ((hexact id).2 hcycle).2 rfl
    · intro hcycle i
      refine ⟨And.left, fun hi => ⟨hi, ?_⟩⟩
      rintro rfl
      exact hcycle hi

end ReachGraph

namespace Recorder

/-- In the knot the loop is merged into one node, which then is its own parent and not listed above
itself. -/
theorem knot_cycle_not_listed : ∃ m, knotFacts.exploreTo .exhausted ⟨0⟩ 10 knotWorld knotReached =
      some m ∧
    Relation.TransGen m.graph.HasParent ⟨3⟩ ⟨3⟩ ∧
    (⟨3⟩ : GraphNodeId) ∉ m.graph.ancestors ⟨3⟩ := by
  have hrun : (knotFacts.exploreTo .exhausted ⟨0⟩ 10 knotWorld knotReached).any (fun m =>
      (m.graph.node? ⟨3⟩).any (fun n => n.parentIds.contains ⟨3⟩)) = true := by
    decide +kernel
  obtain ⟨m, hm, hnode⟩ := (Option.any_eq_true _ _).1 hrun
  obtain ⟨n, hn, hparent⟩ := (Option.any_eq_true _ _).1 hnode
  refine ⟨m, hm, .single ⟨n, hn, by simpa using hparent⟩, fun hin => ?_⟩
  exact (ReachGraph.mem_ancestors.1 hin).2 rfl

end Recorder

end ProgramAnalysis
