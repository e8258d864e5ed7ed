import ProgramAnalysis.Proofs.BrokenRuns
import ProgramAnalysis.Proofs.PendingNodes
/-!
What is pending when an adjustment has ended a run.

A recording analysis has to drop its pending nodes by itself, on each of the ways in which an
adjustment can end a run. It does so on three of them; when the fallback halts, the node of the
successor at hand stays pending (`pending_cleared_unless_fallback_halts`). Until then the nodes of
all successors that wait for their adjustment are pending (`Outstanding`).
-/

namespace ProgramAnalysis

variable {ν ρ ω θ α : Type}

/-! ## Pending nodes -/

namespace ReachGraph

variable {g : ReachGraph ν} {i j : GraphNodeId}

theorem mem_pendingIds : i ∈ g.pendingIds ↔ g.Pending i := by
  constructor
  · intro h
    obtain ⟨⟨j, n⟩, hn, rfl⟩ := List.mem_map.1 h
    rw [List.mem_filter, mem_numbered] at hn
    exact ⟨n, hn.1, by simpa using hn.2⟩
  · rintro ⟨n, hn, hpending⟩
    have hn : (i, n) ∈ g.numbered.filter fun p => p.2.status = .pending :=
      List.mem_filter.2 ⟨mem_numbered.2 hn, by simpa using hpending⟩
    exact List.mem_map.2 ⟨(i, n), hn, rfl⟩

theorem pendingCount_eq_zero_iff : g.pendingCount = 0 ↔ ∀ i, ¬ g.Pending i := by
  rw [pendingCount, List.length_eq_zero_iff, List.eq_nil_iff_forall_not_mem]
  exact forall_congr' fun _ => not_congr mem_pendingIds

theorem pending_cut {old : GraphNode ν} : (g.cut i old).Pending j ↔ g.Pending j ∧ j ≠ i := by
  rw [Pending, at_cut]
  by_cases hj : j = i
  · simp [hj, dead, At]
  · simp [hj, severed, Pending]

theorem pending_create {location : Option NodeId} {links : List ParentLink} :
    (g.create location links).2.Pending j ↔ g.Pending j ∨ j = ⟨g.nodes.size⟩ := by
  rw [Pending, at_create]
  simp [Pending]

end ReachGraph

/-- When all pending nodes were dropped, none is left. -/
theorem Edit.discardPending_clears :
    Triple (fun _ : ReachGraph ν => True) discardPending (fun _ g => g.pendingCount = 0)
      (fun _ _ => True) := by
  unfold discardPending
  refine .bind (R := fun g g' => g' = g) (.get fun _ _ => rfl) fun g => ?_
  -- What is pending is still to be dropped.
  refine .weaken (.forM (E := fun _ _ => True) (I := fun rest g' => ∀ i, g'.Pending i → i ∈ rest)
    ?_ g.pendingIds) ?_ ?_ fun _ _ _ => trivial
  · intro i rest
    refine unlink_triple fun g' old hg _ j hj => ?_
    obtain ⟨hj, hne⟩ := ReachGraph.pending_cut.1 hj
    exact (List.mem_cons.1 (hg j hj)).resolve_left hne
  · rintro g' rfl i hi
    exact ReachGraph.mem_pendingIds.2 hi
  · intro _ g' hg
    exact ReachGraph.pendingCount_eq_zero_iff.2 fun i hi => List.not_mem_nil (hg i hi)

namespace Recorder

/-! ## Successors that wait for their adjustment -/

/-- The successors are recorded states. If the edges of the program ascend, the nodes of the
successors are distinct and pending. -/
structure Outstanding (program : Program) (raw : Batch ν) (g : ReachGraph ν) :
    Prop where
  recorded : ∀ q ∈ raw, ∃ h i inner, q.1 = .graphed h i inner
  distinct : program.Ascending → (nodesOf raw).Nodup
  pending : program.Ascending → ∀ i ∈ nodesOf raw, g.Pending i

namespace Outstanding

variable {program : Program} {raw rest : Batch ν} {g : ReachGraph ν} {s : State ν}
  {l : NodeId} {i : GraphNodeId}

theorem nil (g : ReachGraph ν) : Outstanding program [] g :=
  ⟨by simp, fun _ => List.nodup_nil, by simp [nodesOf]⟩

/-- Where nothing waits, the graph does not matter. -/
theorem of_empty (h : Outstanding program raw g) (hraw : program.Ascending → raw = [])
    (g' : ReachGraph ν) : Outstanding program raw g' where
  recorded := h.recorded
  distinct := h.distinct
  pending hasc i hi := by
    rw [hraw hasc] at hi
    cases hi

theorem tail (h : Outstanding program ((s, l) :: rest) g) : Outstanding program rest g where
  recorded q hq := h.recorded q (List.mem_cons_of_mem _ hq)
  distinct hasc := by
    have hdistinct := h.distinct hasc
    rw [nodesOf_cons] at hdistinct
    exact (List.nodup_append.1 hdistinct).2.1
  pending hasc i hi := h.pending hasc i (by
    rw [nodesOf_cons]
    exact List.mem_append_right _ hi)

/-- The node of a successor that is dropped is no other one's. -/
theorem cut (h : Outstanding program ((s, l) :: rest) g) (hs : s.graphNode? = some i)
    {old : GraphNode ν} : Outstanding program rest (g.cut i old) where
  recorded := h.tail.recorded
  distinct := h.tail.distinct
  pending hasc j hj := by
    have hdistinct := h.distinct hasc
    rw [nodesOf_of_cons hs, List.nodup_cons] at hdistinct
    refine ReachGraph.pending_cut.2 ⟨h.tail.pending hasc j hj, ?_⟩
    rintro rfl
    exact hdistinct.1 hj

/-- A successor with a new node is added. -/
theorem create (h : Outstanding program raw g) (n : Handle) (inner : State ν) (l : NodeId)
    {location : Option NodeId} {links : List ParentLink} :
    Outstanding program (raw ++ [(.graphed n ⟨g.nodes.size⟩ inner, l)])
      (g.create location links).2 := by
  have hnodes : nodesOf (raw ++ [(.graphed n ⟨g.nodes.size⟩ inner, l)]) =
      nodesOf raw ++ [⟨g.nodes.size⟩] := nodesOf_append raw _
  refine ⟨fun q hq => ?_, fun hasc => ?_, fun hasc i hi => ?_⟩
  · rcases List.mem_append.1 hq with hq | hq
    · exact h.recorded q hq
    · rw [List.mem_singleton.1 hq]
      exact ⟨n, _, inner, rfl⟩
  · rw [hnodes, List.nodup_append]
    refine ⟨h.distinct hasc, List.nodup_singleton _, fun i hi j hj => ?_⟩
    rintro rfl
    rw [List.mem_singleton.1 hj] at hi
    exact ReachGraph.not_at_size (h.pending hasc _ hi)
  · rw [hnodes, List.mem_append, List.mem_singleton] at hi
    exact ReachGraph.pending_create.2 (hi.imp_left (h.pending hasc i))

/-- While a successor waits, something is pending. -/
theorem pendingCount_ne_zero (h : Outstanding program ((s, l) :: rest) g)
    (hasc : program.Ascending) : g.pendingCount ≠ 0 := by
  obtain ⟨n, i, inner, rfl⟩ := h.recorded (s, l) List.mem_cons_self
  intro hzero
  refine ReachGraph.pendingCount_eq_zero_iff.1 hzero i (h.pending hasc i ?_)
  rw [nodesOf_of_cons rfl]
  exact List.mem_cons_self

end Outstanding

section Operators

variable [LeafValue ν] {program : Program} {raw rest : Batch ν} {s : State ν}
  {l : NodeId} {p : Precision ρ} {ad : Adjuster ν ρ ω}

omit [LeafValue ν] in
theorem graph_rewrap {current : Graphed ν} {b : Adjustment ν ρ} {w : World (Memory ω ν)} :
    ((rewrap s current b).run w).2.graph = w.graph := by
  unfold rewrap
  split <;> rfl

/-- What an adjustment of the successor at the head makes of the graph. -/
def Handled (program : Program) (rest : Batch ν) :
    Option (Adjustment ν ρ) → ReachGraph ν → Prop
  | none, g => Outstanding program rest g
  | some b, g => if b.signal = .halt then g.pendingCount = 0 else Outstanding program rest g

/-- What an error leaves: the fallback still comes when a backend has failed. -/
def AfterError (program : Program) (raw : Batch ν) :
    Failure → ReachGraph ν → Prop
  | .error err, g => if err.isBackend then Outstanding program raw g else g.pendingCount = 0
  | .crash _, _ => True

theorem adjust_outstanding {around : Surroundings ν ρ} :
    Triple (fun w => Outstanding program ((s, l) :: rest) w.graph)
      ((adjuster ad).adjust s p around) (fun o w => Handled program rest o w.graph)
      (fun f w => AfterError program ((s, l) :: rest) f w.graph) := by
  refine .bind (R := fun current w => (∃ h, s = .graphed h current.node current.wrapped) ∧
    Outstanding program ((s, l) :: rest) w.graph) ?_ fun current => .assume ?_
  · -- A successor that waits is a recorded state.
    intro w hw
    obtain ⟨n, i, inner, rfl⟩ := hw.recorded (s, l) List.mem_cons_self
    exact ⟨⟨n, rfl⟩, hw⟩
  rintro ⟨n, hs⟩
  have hnode : s.graphNode? = some current.node := by rw [hs, State.graphNode?]
  have hclears : Triple (fun w : World (Memory ω ν) =>
      Outstanding program ((s, l) :: rest) w.graph) (change Edit.discardPending)
      (fun _ w => w.graph.pendingCount = 0)
      (fun f w => AfterError program ((s, l) :: rest) f w.graph) :=
    change_triple (fun _ => .pre Edit.discardPending_clears fun _ _ => trivial) fun _ _ => trivial
  refine .bind (R := fun _ w => Outstanding program ((s, l) :: rest) w.graph) ?_
    fun answer => ?_
  · have hinner := focus_recording
      (I := fun rec : Recording ν => Outstanding program ((s, l) :: rest) rec.graph)
      (x := ad.adjust current.wrapped p
        { around with view := fun r => unwrapped (around.view r) })
    exact ofAttempt_triple (Action.attempt_triple (fun _ _ _ hw hx => hinner.of_run hw hx)
      (fun _ _ _ hw hx => hinner.of_run hw hx) fun _ _ _ _ _ => trivial) fun _ _ => trivial
  rcases answer with err | _ | b
  · dsimp only
    split
    · next hb =>
      refine .bind hclears fun _ => .throw fun w hw => ?_
      rw [AfterError, if_neg (by simpa using hb)]
      exact hw
    · next hb =>
      refine .throw fun w hw => ?_
      rw [AfterError, if_pos (by simpa using hb)]
      exact hw
  · refine .bind (R := fun _ w => Outstanding program rest w.graph)
      (change_triple (fun w => Edit.unlink_triple ?_) fun _ _ => trivial) fun _ =>
      .pure fun w hw => ?_
    · exact fun g old hg _ => Outstanding.cut hg hnode
    · exact hw
  · dsimp only
    split
    · next hhalt =>
      refine .bind hclears fun _ w hw => ?_
      show Handled program rest (some ((rewrap s current b).run w).1)
        ((rewrap s current b).run w).2.graph
      rw [Handled, signal_rewrap, if_pos hhalt, graph_rewrap]
      exact hw
    · next hgo =>
      intro w hw
      show Handled program rest (some ((rewrap s current b).run w).1)
        ((rewrap s current b).run w).2.graph
      rw [Handled, signal_rewrap, if_neg hgo, graph_rewrap]
      exact hw.tail

/-- A fallback that answers leaves the graph alone, whether it halts or not. -/
theorem fallback_outstanding {n : Handle} {i : GraphNodeId} {inner : State ν} {err : Error} :
    Triple (fun w => Outstanding program raw w.graph)
      ((adjuster ad).fallback (.graphed n i inner) p err)
      (fun o w => if o.isSome then Outstanding program raw w.graph else w.graph.pendingCount = 0)
      (fun _ _ => True) := by
  refine .bind (R := fun _ w => Outstanding program raw w.graph) ?_ fun answer => ?_
  · exact .fail (focus_recording (I := fun rec => Outstanding program raw rec.graph))
      fun _ _ _ => trivial
  cases answer with
  | none =>
    refine .bind (R := fun _ w => w.graph.pendingCount = 0)
      (edit_triple fun _ => .pre Edit.discardPending_clears fun _ _ => trivial) fun _ => ?_
    exact .pure fun _ hw => hw
  | some b =>
    intro w hw
    show Outstanding program raw ((rewrap _ _ b).run w).2.graph
    rw [graph_rewrap]
    exact hw

end Operators

/-! ## Runs -/

section Runs

variable [LeafValue ν] {a : Analysis ν ρ ω} {x : Exploration ν ρ (Memory ω ν)}
  (hx : x.analysis = analysis a) {raw : Batch ν}

include hx

/-- When all successors of an entry are there, they wait for their adjustment. -/
theorem outstanding_of_gather {e : Entry ν ρ} {m m' : Meter (Memory ω ν)}
    (h : (x.gather e (x.program.leaving e.location)).run.run m = (.ok raw, m')) :
    Outstanding x.program raw m'.world.graph := by
  have hsprouting : Sprouting a x.program e fun raw w =>
      Outstanding x.program raw w.graph :=
    { inner := fun raw _ _ _ _ _ _ hw hrun =>
        (focus_recording (I := fun rec => Outstanding x.program raw rec.graph)).of_run hw hrun
      note := fun _ _ _ _ hw => hw
      purge := fun _ _ g hraw hw _ => hw.of_empty hraw g
      new := fun _ _ _ _ _ s w _ _ _ _ hw => hw.create w.next s _ }
  have gathering := hsprouting.gathering hx (E := fun _ _ => True) (fun _ _ _ _ => trivial)
    fun _ _ => trivial
  exact ((gathering.triple _ [] [] rfl).ok ⟨.nil _, .inl rfl⟩ h).1

/-- Nothing is pending, unless the fallback of an adjustment has halted. -/
def Settled (program : Program) (cause : Exploration.Cause) (g : ReachGraph ν) : Prop :=
  (cause ≠ .fallbackHalted → g.pendingCount = 0) ∧
    (program.Ascending → cause = .fallbackHalted → g.pendingCount ≠ 0)

variable {store : Store ν ρ} {p : Precision ρ} {s : State ν} {l : NodeId}
  {rest : Batch ν} {w w' : World (Memory ω ν)} {cause : Exploration.Cause}

theorem settled_of_stops (h : x.Stops store p s w cause w')
    (hw : Outstanding x.program ((s, l) :: rest) w.graph) :
    Settled x.program cause w'.graph := by
  obtain ⟨program, _, isTarget, options, token⟩ := x
  cases hx
  obtain ⟨n, i, inner, rfl⟩ := hw.recorded (s, l) List.mem_cons_self
  cases h with
  | halted h ha =>
    have hzero := adjust_outstanding.ok hw h
    rw [Handled, if_pos ha] at hzero
    exact ⟨fun _ => hzero, nofun⟩
  | fallbackHalted h hf ha =>
    have hkept := fallback_outstanding.ok (adjust_outstanding.error hw h) hf
    exact ⟨fun hne => absurd rfl hne, fun hasc _ => Outstanding.pendingCount_ne_zero hkept hasc⟩
  | unaided h hf =>
    have hzero := fallback_outstanding.ok (adjust_outstanding.error hw h) hf
    exact ⟨fun _ => hzero, nofun⟩
  | raised h hb =>
    have hzero := adjust_outstanding.error hw h
    rw [AfterError, if_neg (by simp [hb])] at hzero
    exact ⟨fun _ => hzero, nofun⟩

/-- An adjustment that lets the expansion go on keeps the nodes of the other successors. -/
theorem outstanding_of_answers {o : Option (Adjustment ν ρ)}
    (h : Exploration.Answers x store p s w o w') (ho : ∀ b, o = some b → b.signal ≠ .halt)
    (hw : Outstanding x.program ((s, l) :: rest) w.graph) :
    Outstanding x.program rest w'.graph := by
  obtain ⟨program, _, isTarget, options, token⟩ := x
  cases hx
  obtain ⟨n, i, inner, rfl⟩ := hw.recorded (s, l) List.mem_cons_self
  cases h with
  | directly h =>
    have hhandled := adjust_outstanding.ok hw h
    cases o with
    | none => exact hhandled
    | some b =>
      rw [Handled, if_neg (ho b rfl)] at hhandled
      exact hhandled
  | byFallback h hf =>
    have hkept : Outstanding program ((.graphed n i inner, l) :: rest) w'.graph :=
      fallback_outstanding.ok (adjust_outstanding.error hw h) hf
    exact hkept.tail

theorem settled_of_breaksOff (h : x.BreaksOff store p raw w cause w')
    (hw : Outstanding x.program raw w.graph) :
    Settled x.program cause w'.graph := by
  induction h with
  | here h => exact settled_of_stops hx h hw
  | later h ho _ ih => exact ih (outstanding_of_answers hx h ho hw)

variable [Waitlist θ ν] {m₀ m : Machine ν ρ (Memory ω ν) θ}

theorem settled_of_abandons (h : x.Abandons m cause w') :
    Settled x.program cause w'.graph := by
  obtain ⟨-, -, -, -, -, hgather, hbreaks⟩ := h
  exact settled_of_breaksOff hx hbreaks (outstanding_of_gather hx hgather)

/-- A run in which an adjustment ends an iteration ends with it. Then no node is pending, unless it
was a fallback that halted: in a program whose edges ascend, its successor stays pending. -/
theorem pending_cleared_unless_fallback_halts
    (hv : x.Visits m₀ m) (h : x.Abandons m cause w') :
    x.Ends m₀ fun result m' => result = cause.result ∧
      (cause ≠ .fallbackHalted → m'.graph.pendingCount = 0) ∧
      (x.program.Ascending → cause = .fallbackHalted → m'.graph.pendingCount ≠ 0) := by
  have hsettled := settled_of_abandons hx h
  obtain ⟨m', hstep, rfl⟩ := h.step
  exact hv.ends (.ended hstep ⟨rfl, hsettled⟩)

end Runs

/-! ## A backend that fails -/

/-- A program with one edge. -/
def lane : Program := .ofPairs 0 [(0, 1)]

/-- The recorded facts of a program. The backend fails in the adjustment with the given number. -/
def failingBackend (program : Program) (call : Nat) (fallback : Option Facts.Response) :
    Exploration FactValue Level (Memory Facts.Notes FactValue) :=
  { knotFacts with
    program := program
    analysis := analysis (Facts.analysis
      { adjust := some [⟨[.callIn [call]], { failure := some ⟨.backend, "timeout"⟩ }⟩]
        fallback := fallback }) }

/-- The exploration after its initial state was added. -/
def seeded (x : Exploration FactValue Level (Memory Facts.Notes FactValue)) :
    Machine FactValue Level (Memory Facts.Notes FactValue) SimpleWaitlist :=
  let start := x.seed ⟨0⟩ .whole knotWorld (.ofFrontier x.program (.ofOrder .breadthFirst))
  ⟨⟨start.2.1, {}⟩, start.2.2, []⟩

theorem sound_seeded (x : Exploration FactValue Level (Memory Facts.Notes FactValue)) :
    (seeded x).reached.Sound := by
  have hempty := ReachedSet.sound_ofFrontier (ν := FactValue) (ρ := Level) x.program
    (SimpleWaitlist.ofOrder .breadthFirst)
  unfold seeded Exploration.seed
  dsimp only
  split
  · exact hempty
  · split
    · exact hempty
    · next hadd => exact hempty.add hadd

/-- Both successors of the fork have nodes when the backend fails for the second one. There is no
fallback, and no node is left pending. -/
theorem unaided_fork_pending_cleared : ∃ cause m',
    (failingBackend fork 2 none).Abandons (seeded (failingBackend fork 2 none)) cause
      m'.meter.world ∧ cause ≠ .fallbackHalted ∧
    (failingBackend fork 2 none).run 1 (seeded (failingBackend fork 2 none)) =
      some (.ok (.broken (.backendFailure "backend failure in script: timeout")), m') ∧
    m'.graph.nodes.size = 3 ∧
    m'.graph.pendingCount = 0 := by
  obtain ⟨m', hstep, hsize⟩ := Exploration.Next.exists_of_endsWith
    ((failingBackend fork 2 none).step (seeded (failingBackend fork 2 none)))
    (.broken (.backendFailure "backend failure in script: timeout"))
    (fun m => m.graph.nodes.size = 3) (by decide +kernel)
  obtain ⟨cause, hcause, habandons⟩ := Exploration.abandons_of_broken (sound_seeded _) hstep nofun
  have hne : cause ≠ .fallbackHalted := by
    rintro rfl
    cases hcause
  have hrun : (failingBackend fork 2 none).run 1 (seeded (failingBackend fork 2 none)) =
      some (.ok (.broken (.backendFailure "backend failure in script: timeout")), m') := by
    simp only [Exploration.run, hstep]
  have hends := (pending_cleared_unless_fallback_halts rfl .start habandons).of_run hrun
  exact ⟨cause, m', habandons, hne, hrun, of_decide_eq_true hsize, hends.2.1 hne⟩

/-- When the fallback halts instead, the successor stays pending. -/
theorem halted_fallback_leaves_pending : ∃ m',
    (failingBackend lane 1 (some { halts := true })).Abandons
      (seeded (failingBackend lane 1 (some { halts := true }))) .fallbackHalted m'.meter.world ∧
    (failingBackend lane 1 (some { halts := true })).run 1
      (seeded (failingBackend lane 1 (some { halts := true }))) =
        some (.ok (.broken .adjustment), m') ∧
    m'.graph.pendingCount = 1 := by
  obtain ⟨m', hstep, hcount⟩ := Exploration.Next.exists_of_endsWith
    ((failingBackend lane 1 (some { halts := true })).step
      (seeded (failingBackend lane 1 (some { halts := true })))) (.broken .adjustment)
    (fun m => m.graph.pendingCount = 1) (by decide +kernel)
  have hcount : m'.graph.pendingCount = 1 := of_decide_eq_true hcount
  obtain ⟨cause, hcause, habandons⟩ := Exploration.abandons_of_broken (sound_seeded _) hstep nofun
  -- On every other way nothing would be pending.
  obtain rfl : cause = .fallbackHalted := by
    by_contra hne
    cases hcount.symm.trans ((settled_of_abandons rfl habandons).1 hne)
  exact ⟨m', habandons, by simp only [Exploration.run, hstep], hcount⟩

end Recorder

end ProgramAnalysis
