import Mathlib.Logic.Relation
import ProgramAnalysis.Proofs.Contract
import ProgramAnalysis.Proofs.Programs
import ProgramAnalysis.Proofs.Recording
import ProgramAnalysis.ReachGraph.Recorder
/-!
The steps of a recorded exploration.

A scene is what an exploration with the recorder works on: the graph, the next handle, the
successors that wait to be admitted, and the reached set. `Step` lists what can happen to a scene,
each time with everything that is known then about the operators inside. Whatever an exploration
does is a sequence of such steps, so a property of all explorations is shown by one look at each
step. The first such property is that the graph records the reached set (`Records.step`).
-/

namespace ProgramAnalysis.Recorder

variable {ν ρ ω θ : Type}

/-! ## Scenes -/

/-- What a recorded exploration works on. -/
structure Scene (ν ρ θ : Type) where
  graph : ReachGraph ν
  next : Handle
  /-- The successors that wait to be admitted, with their locations. -/
  batch : Batch ν
  reached : ReachedSet ν ρ θ

/-- The nodes of successors that wait. -/
def nodesOf (batch : Batch ν) : List GraphNodeId :=
  batch.filterMap fun q => q.1.graphNode?

theorem nodesOf_append (batch more : Batch ν) :
    nodesOf (batch ++ more) = nodesOf batch ++ nodesOf more :=
  List.filterMap_append

theorem nodesOf_cons (q : State ν × NodeId) (batch : Batch ν) :
    nodesOf (q :: batch) = q.1.graphNode?.toList ++ nodesOf batch := by
  rw [nodesOf, List.filterMap_cons]
  cases q.1.graphNode? with
  | none => rfl
  | some i => rfl

theorem mem_nodesOf {batch : Batch ν} {i : GraphNodeId} :
    i ∈ nodesOf batch ↔ ∃ q ∈ batch, q.1.graphNode? = some i :=
  List.mem_filterMap

namespace Scene

/-- The graph records the reached set, and the nodes of the successors wait. -/
def Records (c : Scene ν ρ θ) : Prop := c.graph.Records (nodesOf c.batch) c.reached

/-- The number of the node that is created next. -/
def newNode (c : Scene ν ρ θ) : GraphNodeId := ⟨c.graph.nodes.size⟩

/-- A state with the next handle and the next node. -/
def newState (c : Scene ν ρ θ) (w : State ν) : State ν := .graphed c.next c.newNode w

end Scene

variable {b : GraphNodeId} {s : State ν} {l : NodeId} {c c' : Scene ν ρ θ}
  {after before rest : Batch ν}

theorem live_of_mayCover {g : ReachGraph ν} {q : GraphNodeId} (h : mayCover g q b = true) :
    g.Live q := by
  rw [mayCover, Bool.and_eq_true, ReachGraph.any_node?_iff] at h
  refine h.2.mono fun n hn => ?_
  rw [Bool.and_eq_true] at hn
  simpa [GraphNode.isLive] using hn.1

/-- Of the successors that wait, only the nodes count. -/
theorem Scene.Records.of_nodes {next : Handle} {batch : Batch ν} (h : c.Records)
    (hsame : nodesOf batch = nodesOf c.batch) :
    (⟨c.graph, next, batch, c.reached⟩ : Scene ν ρ θ).Records := by
  unfold Scene.Records
  rw [hsame]
  exact h

/-- A successor that waits is replaced by one with the same node. -/
theorem Scene.nodesOf_replace {t : State ν} {l' : NodeId} (hb : c.batch = before ++ (s, l) :: after)
    (h : t.graphNode? = s.graphNode?) : nodesOf (before ++ (t, l') :: after) = nodesOf c.batch := by
  rw [hb, nodesOf_append, nodesOf_append, nodesOf_cons, nodesOf_cons, h]

theorem nodesOf_of_cons (hb : s.graphNode? = some b) :
    nodesOf ((s, l) :: rest) = b :: nodesOf rest := by
  rw [nodesOf_cons, hb, Option.toList_some, List.singleton_append]

/-- The node of a successor that waits is not live. -/
theorem Scene.Records.idle (h : c.Records) {q : State ν × NodeId} (hq : q ∈ c.batch)
    (hb : q.1.graphNode? = some b) : c.graph.Known b ∧ ¬ c.graph.Live b :=
  h.batchWf.idle b (mem_nodesOf.2 ⟨q, hq, hb⟩)

theorem Scene.Records.idle_head (h : c.Records) (hb : c.batch = (s, l) :: rest)
    (hnode : s.graphNode? = some b) : c.graph.Known b ∧ ¬ c.graph.Live b :=
  h.idle (q := (s, l)) (by simp [hb]) hnode

/-- The successors that are left when one is dropped have other nodes. -/
theorem Scene.Records.ne_of_dropped (h : c.Records) {i : GraphNodeId}
    (hb : c.batch = before ++ (s, l) :: after) (hnode : s.graphNode? = some b)
    (hi : i ∈ nodesOf (before ++ after)) : i ∈ nodesOf c.batch ∧ i ≠ b := by
  have hall : nodesOf c.batch = nodesOf before ++ b :: nodesOf after := by
    rw [hb, nodesOf_append, nodesOf_of_cons hnode]
  have hdistinct := h.batchWf.distinct
  rw [hall, List.perm_middle.nodup_iff, List.nodup_cons, ← nodesOf_append] at hdistinct
  refine ⟨?_, fun hsame => hdistinct.1 (hsame ▸ hi)⟩
  rw [nodesOf_append] at hi
  rw [hall]
  exact ((List.sublist_cons_self _ _).append_left _).subset hi

variable [LeafValue ν]

/-- The graph after the nodes `S` and `R`, which were `s` and `n`, were merged into a new node for
the merged state. -/
def Scene.fused (c : Scene ν ρ θ) (S R : GraphNodeId) (s n : GraphNode ν) (m : State ν) :
    ReachGraph ν :=
  (c.graph.merging m.location? S R s n).setState c.newNode (c.newState m)

/-- The graph with a new root for the state `w` with the handle `h`. -/
def Scene.rooted (c : Scene ν ρ θ) (h : Handle) (w : State ν) : ReachGraph ν :=
  (c.graph.addRoot w.location?).2.setState c.newNode (.graphed h c.newNode w)

/-! ## Steps -/

/-- The first successor that waits, whose node is `S`, can be merged into the state of an entry,
whose node is `R`, with the result `m`. -/
structure Fusion (a : Analysis ν ρ ω) (c : Scene ν ρ θ) (k : EntryId) (e : Entry ν ρ)
    (S R : GraphNodeId) (s n : GraphNode ν) (m : State ν) : Prop where
  entry : c.reached.get? k = some e
  node : e.state.graphNode? = some R
  first : ∃ q rest, c.batch = q :: rest ∧ q.1.graphNode? = some S ∧
    ∃ p, Answers (a.merger.merge (unwrapped q.1) (unwrapped e.state) p) m
  fusible : c.graph.Fusible (nodesOf c.batch) S R s n

/-- The analysis can adjust the state `w` to `w'`, directly or after a backend failure. -/
def Adjusts (a : Analysis ν ρ ω) (store : Store ν ρ) (w w' : State ν) : Prop :=
  ∃ b : Adjustment ν ρ, b.state = w' ∧
    ((∃ p whole, Answers (a.adjuster.adjust w p ⟨store, unwrapped, whole⟩) (some b)) ∨
      ∃ p err, Answers (a.adjuster.fallback w p err) (some b))

/-- What can happen during the exploration of a program. -/
inductive Step [Waitlist θ ν] (a : Analysis ν ρ ω) (program : Program) :
    Scene ν ρ θ → Scene ν ρ θ → Prop where
  /-- An operator draws handles. -/
  | draws (c : Scene ν ρ θ) {n : Handle} :
      (a.Forward → c.next.serial ≤ n.serial) → Step a program c { c with next := n }
  /-- Successors are given up. -/
  | abandons (c : Scene ν ρ θ) {batch : Batch ν} :
      batch.Sublist c.batch → Step a program c { c with batch := batch }
  /-- A successor of an entry gets a node. -/
  | sprouts (c : Scene ν ρ θ) {k : EntryId} {e : Entry ν ρ} {i : GraphNodeId} {p : Precision ρ}
      {edge : ProgramEdge} {next : List (State ν)} {w : State ν} :
      c.reached.get? k = some e → e.state.graphNode? = some i →
      edge ∈ program.leaving e.location →
      Answers (a.transfer.successors (unwrapped e.state) [] p edge) next → w ∈ next →
      Step a program c
        ⟨(c.graph.create w.location? [(i, some edge.id)]).2, c.next.next,
          c.batch ++ [(c.newState w, w.location?.getD edge.target)], c.reached⟩
  /-- A successor is adjusted. -/
  | rewraps (c : Scene ν ρ θ) {before after : Batch ν} {h : Handle}
      {i : GraphNodeId} {w w' : State ν} {l : NodeId} :
      c.batch = before ++ (.graphed h i w, l) :: after → Adjusts a c.reached.store w w' →
      Step a program c
        ⟨c.graph, c.next.next, before ++ (.graphed c.next i w', l) :: after, c.reached⟩
  /-- An adjusted successor gets its location. -/
  | relocates (c : Scene ν ρ θ) {before after : Batch ν} {s : State ν}
      {l : NodeId} :
      c.batch = before ++ (s, l) :: after →
      Step a program c { c with batch := before ++ (s, s.location?.getD l) :: after }
  /-- A successor is dropped together with its node. -/
  | drops (c : Scene ν ρ θ) {before after : Batch ν} {s : State ν} {l : NodeId}
      {b : GraphNodeId} {old : GraphNode ν} :
      c.batch = before ++ (s, l) :: after → s.graphNode? = some b → c.graph.node? b = some old →
      Step a program c ⟨c.graph.cut b old, c.next, before ++ after, c.reached⟩
  /-- A node that was left over is dropped. If the edges come in ascending order, this happens only
  while no successor waits. -/
  | purges (c : Scene ν ρ θ) {b : GraphNodeId} {old : GraphNode ν} :
      c.graph.node? b = some old → ¬ c.graph.Live b → (program.Ascending → c.batch = []) →
      Step a program c { c with graph := c.graph.cut b old }
  /-- A merged state takes the place of an entry. -/
  | merges (c : Scene ν ρ θ) {k k' : EntryId} {e : Entry ν ρ} {S R : GraphNodeId}
      {s n : GraphNode ν} {m : State ν} {p : Precision ρ} {r : ReachedSet ν ρ θ} :
      Fusion a c k e S R s n m →
      (c.reached.remove k).2.add ⟨c.newState m, p, e.location, e.partition⟩ = .ok (k', r) →
      Step a program c ⟨c.fused S R s n m, c.next.next, c.batch, r⟩
  /-- A merged state gets a handle that an entry has already, and is not added. -/
  | clashes (c : Scene ν ρ θ) {k j : EntryId} {e f : Entry ν ρ} {S R : GraphNodeId}
      {s n : GraphNode ν} {m : State ν} {r : ReachedSet ν ρ θ} :
      Fusion a c k e S R s n m → c.reached.get? j = some f → f.state.handle = c.next →
      r = c.reached ∨ r = (c.reached.remove k).2 →
      Step a program c ⟨c.fused S R s n m, c.next.next, c.batch, r⟩
  /-- A successor is covered by an entry. -/
  | covers (c : Scene ν ρ θ) {s : State ν} {l : NodeId} {rest : Batch ν}
      {b q : GraphNodeId} {k : EntryId} {e : Entry ν ρ} {p : Precision ρ} :
      c.batch = (s, l) :: rest → s.graphNode? = some b →
      c.reached.get? k = some e → e.state.graphNode? = some q → mayCover c.graph q b = true →
      Answers (a.stopper.stop (unwrapped s) [unwrapped e.state] p) true →
      Step a program c ⟨c.graph.cover b q s, c.next, rest, c.reached⟩
  /-- A successor is added to the reached set. -/
  | admits (c : Scene ν ρ θ) {s : State ν} {l : NodeId} {rest : Batch ν}
      {b : GraphNodeId} {p : Precision ρ} {part : Partition} {k : EntryId}
      {r : ReachedSet ν ρ θ} :
      c.batch = (s, l) :: rest → s.graphNode? = some b →
      c.reached.add ⟨s, p, l, part⟩ = .ok (k, r) →
      Step a program c ⟨c.graph.accept b s, c.next, rest, r⟩
  /-- A successor is accepted, but cannot be added. -/
  | strands (c : Scene ν ρ θ) {s : State ν} {l : NodeId} {rest : Batch ν}
      {b : GraphNodeId} :
      c.batch = (s, l) :: rest → s.graphNode? = some b →
      c.reached.store.contains s = true ∨ c.reached.program.contains l = false →
      Step a program c ⟨c.graph.accept b s, c.next, rest, c.reached⟩
  /-- Only the frontier changes. -/
  | reschedules (c : Scene ν ρ θ) {r : ReachedSet ν ρ θ} :
      r.store = c.reached.store → r.program = c.reached.program →
      Step a program c { c with reached := r }

/-- After a merge the new node stands for the merged state. -/
theorem Fusion.fused_records {a : Analysis ν ρ ω} {k : EntryId} {e : Entry ν ρ} {S R : GraphNodeId}
    {s n : GraphNode ν} {m : State ν} (f : Fusion a c k e S R s n m) (h : c.Records) :
    (c.fused S R s n m).Records (nodesOf c.batch) c.reached ∧
      (c.fused S R s n m).Stands c.newNode (c.newState m) :=
  ⟨(ReachGraph.Records.merging h f.fusible).setState h.vacant_new, h.stands_merging f.fusible _⟩

section Records

variable [Waitlist θ ν] {a : Analysis ν ρ ω} {program : Program}

/-- Every step leaves a graph that records the reached set. -/
theorem Scene.Records.step (h : c.Records) (hs : Step a program c c') : c'.Records := by
  cases hs with
  | draws => exact h
  | abandons hsub => exact ReachGraph.Records.sublist h (hsub.filterMap _)
  | @sprouts _ e i _ edge _ w hk hi _ _ _ =>
    have hnew : (c.graph.create w.location? [(i, some edge.id)]).2.Records
        (nodesOf c.batch ++ [c.newNode]) c.reached := by
      refine ReachGraph.Records.create h fun p hp => ?_
      obtain rfl : p = i := by simpa using hp
      exact ReachGraph.Records.parent h hk hi
    rw [Scene.Records, nodesOf_append]
    exact hnew
  | rewraps hb _ => exact h.of_nodes (Scene.nodesOf_replace hb rfl)
  | relocates hb => exact h.of_nodes (Scene.nodesOf_replace hb rfl)
  | @drops before after s l b old hb hnode hold =>
    have hidle := (h.idle (q := (s, l)) (by simp [hb]) hnode).2
    have hcut := ReachGraph.Records.cut h hold fun hl => absurd hl hidle
    refine hcut.sublist (List.Sublist.filterMap _ ?_)
    rw [hb]
    exact (List.sublist_cons_self _ _).append_left _
  | purges hold hlive _ => exact ReachGraph.Records.cut h hold fun hl => absurd hl hlive
  | merges f hadd =>
    obtain ⟨hrec, hstands⟩ := f.fused_records h
    exact (hrec.remove _).add hadd rfl hstands
  | clashes f _ _ hr =>
    obtain ⟨hrec, -⟩ := f.fused_records h
    rcases hr with rfl | rfl
    · exact hrec
    · exact hrec.remove _
  | covers hb hnode _ _ hmay _ =>
    rw [Scene.Records, hb, nodesOf_of_cons hnode] at h
    exact h.cover (live_of_mayCover hmay)
  | admits hb hnode hadd =>
    rw [Scene.Records, hb, nodesOf_of_cons hnode] at h
    exact h.accept.add hadd hnode h.stands_accept
  | strands hb hnode _ =>
    rw [Scene.Records, hb, nodesOf_of_cons hnode] at h
    exact h.accept
  | reschedules hs hp => exact ReachGraph.Records.of_store h hs hp

end Records

/-! ## Sequences of steps -/

/-- The scene comes from `c₀` by steps, and its graph records the reached set. -/
structure Leads [Waitlist θ ν] (a : Analysis ν ρ ω) (program : Program) (c₀ c : Scene ν ρ θ) :
    Prop where
  records : c.Records
  steps : Relation.ReflTransGen (Step a program) c₀ c

section Leads

variable [Waitlist θ ν] {a : Analysis ν ρ ω} {program : Program} {c₀ c c' : Scene ν ρ θ}

theorem Leads.refl (h : c.Records) : Leads a program c c := ⟨h, .refl⟩

theorem Leads.step (h : Leads a program c₀ c) (hs : Step a program c c') : Leads a program c₀ c' :=
  ⟨h.records.step hs, h.steps.tail hs⟩

/-- What every step keeps holds at the end. -/
theorem Leads.invariant {I : Scene ν ρ θ → Prop} (h : Leads a program c₀ c) (h₀ : c₀.Records)
    (step : ∀ c c', c.Records → I c → Step a program c c' → I c') (hI : I c₀) : I c := by
  have hboth : c.Records ∧ I c := by
    obtain ⟨-, hsteps⟩ := h
    induction hsteps with
    | refl => exact ⟨h₀, hI⟩
    | tail _ hs ih => exact ⟨ih.1.step hs, step _ _ ih.1 ih.2 hs⟩
  exact hboth.2

end Leads

end ProgramAnalysis.Recorder
