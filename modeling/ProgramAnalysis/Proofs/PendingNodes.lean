import ProgramAnalysis.Proofs.Aborts
import ProgramAnalysis.Proofs.GraphVisibility
import ProgramAnalysis.Proofs.Mirroring
import ProgramAnalysis.Proofs.Moments
/-!
Pending nodes of recorded explorations.

The nodes of successors are created before any of them is admitted. At no moment of a run is such a
node linked to by another one, and when an expansion is broken off before it admits anything, the
live nodes are what they were (`pending_nodes_invisible`). What transfer and adjustment may do to
the graph is said once (`Provisional`), for both statements.
-/

namespace ProgramAnalysis

variable {ν ρ ω θ α : Type} {p : Precision ρ} {s : State ν} {st : Stop ν ρ ω}

namespace Recorder

/-! ## The recording while operators run -/

section Recordings

variable {G R : ReachGraph ν → Prop} {Q : α → ReachGraph ν → Prop}

theorem edit_graph {x : Edit ν α} (h : Triple G x Q fun _ => R) :
    Triple (fun w : World (Memory ω ν) => G w.graph) (edit x)
      (fun a w => Q a w.graph) (fun _ w => R w.graph) :=
  edit_triple fun _ => h

theorem change_graph {x : Edit ν α} (h : Triple G x Q fun _ => R) :
    Triple (fun w : World (Memory ω ν) => G w.graph) (change x)
      (fun a w => Q a w.graph) (fun _ w => R w.graph) :=
  ofAttempt_rule (edit_graph h)

theorem attempt_steady {P : World ω → Prop} {x : Action ω α} (h : Steady P x) :
    Steady P (Action.ofAttempt x.attempt) :=
  ofAttempt_rule (Action.attempt_triple (fun _ _ _ hw hx => h.of_run hw hx)
    (fun _ _ _ hw hx => h.of_run hw hx) fun _ _ _ hw hx => h.of_run hw hx)

/-- An operator inside cannot reach the recording. -/
theorem focus_recording {ε : Type} {I : Recording ν → Prop} {x : ExceptT ε (Effect ω) α} :
    Steady (fun w : World (Memory ω ν) => I w.memory.2)
      (ExceptT.mk (Effect.focus .fst x.run)) := by
  refine Triple.of_run (fun w a w' hw hx => ?_) fun w e w' hw hx => ?_
  · rwa [(inner_run hx).1]
  · rwa [(inner_run hx).1]

end Recordings

/-! ## Transfer and adjustment -/

/-- What transfer and adjustment keep: a new node may be created, and the nodes in `N` dropped,
among which are the new ones and all that are pending. -/
structure Provisional (G : ReachGraph ν → Prop) (N : GraphNodeId → Prop) : Prop where
  create : ∀ g location parents, G g → G (g.create location parents).2
  new : ∀ g, G g → N ⟨g.nodes.size⟩
  pending : ∀ g, G g → ∀ i ∈ g.pendingIds, N i
  discard : ∀ i, N i → Steady G (Edit.discard i)

theorem provisional_linksDecided :
    Provisional (fun g : ReachGraph ν => g.LinksDecided []) fun _ => True where
  create _ _ _ hg := hg.create
  new _ _ := trivial
  pending _ _ _ _ := trivial
  discard _ _ := Edit.unlink_linksDecided

theorem provisional_unaltered {g₀ : ReachGraph ν} (hlinked : g₀.Linked) :
    Provisional (fun g => g₀.Unaltered g) fun i => ¬ g₀.Live i where
  create _ _ _ hg := hg.create
  new _ hg := hg.not_live_new
  pending _ hg _ hi hl := ReachGraph.not_live_of_mem_pendingIds hi (hg.live_iff.2 hl)
  discard _ hi := Edit.unlink_unaltered hlinked hi

/-- The node of the state, if it has one, is in `N`. -/
def Within (N : GraphNodeId → Prop) (s : State ν) : Prop := ∀ i, s.graphNode? = some i → N i

section Provisional

variable {G : ReachGraph ν → Prop} {N : GraphNodeId → Prop} (h : Provisional G N)

include h

theorem Provisional.discardPending : Steady G Edit.discardPending := by
  unfold Edit.discardPending
  refine .bind (R := fun g g' => (∀ i ∈ g.pendingIds, N i) ∧ G g')
    (.get fun g hg => ⟨h.pending g hg, hg⟩) fun g => .assume fun hall => ?_
  refine .weaken (.forM (E := fun _ => G) (I := fun rest g' => (∀ i ∈ rest, N i) ∧ G g') ?_
    g.pendingIds) (fun g' hg => ⟨hall, hg⟩) (fun _ _ hg => hg.2) fun _ _ hg => hg
  intro i rest
  refine .assume fun hrest => ?_
  refine .post (h.discard i (hrest i (by simp))) ?_
  exact fun _ _ hg => ⟨fun j hj => hrest j (by simp [hj]), hg⟩

theorem Provisional.startTransfer (node : GraphNodeId) (edge : EdgeId) :
    Steady (fun w : World (Memory ω ν) => G w.graph) (startTransfer node edge) := by
  unfold Recorder.startTransfer
  refine .bind peek_triple fun recording => ?_
  refine .bind (R := fun _ w => G w.graph) (remember_triple fun w hw => hw.2) fun _ => ?_
  split
  · exact .pure fun _ hw => hw
  · exact change_graph h.discardPending

variable [LeafValue ν] {ad : Adjuster ν ρ ω}

theorem Provisional.sprout (node : GraphNodeId) (edge : EdgeId) (ws : List (State ν))
    (w : World (Memory ω ν)) (hw : G w.graph) :
    (∀ s ∈ ((sprout node edge ws).run w).1, Within N s) ∧
      G ((sprout node edge ws).run w).2.graph := by
  induction ws generalizing w with
  | nil => exact ⟨fun _ hs => (by cases hs), hw⟩
  | cons s ws ih =>
    have hrest := ih { w with
      next := w.next.next
      memory := (w.memory.1, { w.memory.2 with
        graph := (w.graph.create s.location? [(node, some edge)]).2 }) }
      (h.create _ _ _ hw)
    refine ⟨fun t ht => ?_, hrest.2⟩
    rcases List.mem_cons.1 ht with rfl | ht
    · rintro i ⟨⟩
      exact h.new _ hw
    · exact hrest.1 t ht

theorem Provisional.transfer {t : Transfer ν ρ ω} {siblings : List (State ν)} {e : ProgramEdge} :
    Triple (fun w => G w.graph) ((transfer t).successors s siblings p e)
      (fun next w => (∀ u ∈ next, Within N u) ∧ G w.graph)
      (fun _ w => G w.graph) := by
  refine .bind asGraphed_steady fun current => .assume fun _ => ?_
  refine .bind (focus_recording (I := fun rec => G rec.graph)) fun next => ?_
  refine .bind (h.startTransfer current.node e.id) fun _ => ?_
  exact fun w hw => h.sprout current.node e.id next w hw

omit h [LeafValue ν] in
/-- What is rewrapped keeps its node, and the graph is left alone. -/
theorem rewrap_within {current : Graphed ν} (hs : Within N s) {n : Handle}
    (hcurrent : s = .graphed n current.node current.wrapped) (b : Adjustment ν ρ)
    (w : World (Memory ω ν)) (hw : G w.graph) :
    (∀ c, some ((rewrap s current b).run w).1 = some c → Within N c.state) ∧
      G ((rewrap s current b).run w).2.graph := by
  unfold rewrap
  split
  · refine ⟨?_, hw⟩
    rintro _ ⟨⟩
    exact hs
  · refine ⟨?_, hw⟩
    rintro _ ⟨⟩ i ⟨⟩
    exact hs _ (by rw [hcurrent, State.graphNode?])

theorem Provisional.adjust {around : Surroundings ν ρ} (hs : Within N s) :
    Triple (fun w => G w.graph) ((adjuster ad).adjust s p around)
      (fun o w => (∀ b, o = some b → Within N b.state) ∧ G w.graph)
      (fun _ w => G w.graph) := by
  refine .bind asGraphed_steady fun current => .assume ?_
  rintro ⟨n, hcurrent⟩
  have hnode : N current.node := hs _ (by rw [hcurrent, State.graphNode?])
  refine .bind (attempt_steady (focus_recording (I := fun rec => G rec.graph))) fun answer => ?_
  rcases answer with e | _ | b
  · dsimp only
    split
    · exact .bind (change_graph h.discardPending) fun _ => .throw fun _ hw => hw
    · exact .throw fun _ hw => hw
  · refine .bind (change_graph (h.discard current.node hnode)) fun _ => .pure fun _ hw => ⟨?_, hw⟩
    exact fun b hb => by cases hb
  · dsimp only
    split
    · exact .bind (change_graph h.discardPending) fun _ w hw => rewrap_within hs hcurrent b w hw
    · exact fun w hw => rewrap_within hs hcurrent b w hw

theorem Provisional.fallback {err : Error} (hs : Within N s) :
    Triple (fun w => G w.graph) ((adjuster ad).fallback s p err)
      (fun o w => (∀ b, o = some b → Within N b.state) ∧ G w.graph)
      (fun _ w => G w.graph) := by
  cases s with
  | graphed n node inner =>
    refine .bind (focus_recording (I := fun rec => G rec.graph)) fun answer => ?_
    cases answer with
    | none =>
      refine .bind (edit_graph h.discardPending) fun _ => .pure fun _ hw => ⟨?_, hw⟩
      exact fun b hb => by cases hb
    | some b => exact fun w hw => rewrap_within hs rfl b w hw
  | _ => exact .pure fun _ hw => ⟨fun b hb => (by cases hb), hw⟩

end Provisional

/-! ## Merging and coverage -/

section Coverage

variable [LeafValue ν] {rs : List (State ν)}

theorem merge_linksDecided {m : Merge ν ρ ω} {r : State ν} :
    Steady (fun w => w.graph.LinksDecided []) ((merger m).merge s r p) := by
  refine .bind asGraphed_steady fun x => .assume fun _ => ?_
  refine .bind asGraphed_steady fun y => .assume fun _ => ?_
  refine .bind (focus_recording (I := fun rec => rec.graph.LinksDecided [])) fun merged => ?_
  dsimp only
  split
  · exact .pure fun _ hw => hw
  refine .bind (R := fun i w => w.graph.LinksDecided [] ∧ w.graph.Known i)
    (fun w hw => ⟨hw.create, ReachGraph.known_create⟩) fun i => ?_
  refine .bind (change_graph Edit.merge_linksDecided) fun _ => ?_
  refine .bind (R := fun _ (w : World (Memory ω ν)) => w.graph.LinksDecided [])
    (fun _ hw => hw) fun n => ?_
  have hstate : Steady (fun g : ReachGraph ν => g.LinksDecided [])
      (modify fun g => g.setState i (.graphed n i merged) : Edit ν Unit) :=
    .modify fun g hg => hg.update (fun _ hn => hn) fun _ _ hj => .inl hj
  exact .bind (change_graph hstate) fun _ => .pure fun _ hw => hw

theorem stop_linksDecided :
    Steady (fun w => w.graph.LinksDecided []) ((stopper st).stop s rs p) := by
  refine stop_rule (F := fun _ i w => w.graph.LinksDecided [i]) (fun _ _ hw => hw)
    fun n x _ => ⟨fun _ => focus_recording (I := fun rec => rec.graph.LinksDecided []), ?_,
      fun i => ?_, fun _ hw => hw, change_graph Edit.accept_linksDecided,
      change_graph Edit.unlink_linksDecided⟩
  · -- A node that is found to cover another one is live.
    intro h i t recording _ hmay
    have hlive : recording.graph.Decided i := (live_of_mayCover hmay).mono fun n hn => by simp [hn]
    refine .weaken (focus_recording (I := fun rec => rec.graph.LinksDecided [i])) ?_
      (fun covered _ hw => ?_) fun _ _ hw => hw.subset (by simp)
    · rintro w ⟨rfl, hw⟩
      exact hw.cons hlive
    · split
      · exact hw
      · exact hw.subset (by simp)
  · exact .weaken (change_graph (Edit.cover_linksDecided (List.mem_singleton_self i)))
      (fun _ hw => hw) (fun _ _ hw => hw.subset (by simp)) fun _ _ hw => hw.subset (by simp)

/-- No operator of a recording analysis ever links a pending node. -/
theorem sustains_linksDecided (a : Analysis ν ρ ω) :
    (analysis a).Sustains fun w => w.graph.LinksDecided [] where
  transfer _ _ _ := .post provisional_linksDecided.transfer fun _ _ hw => hw.2
  adjust _ _ _ := .post (provisional_linksDecided.adjust fun _ _ => trivial) fun _ _ hw => hw.2
  fallback _ _ _ := .post (provisional_linksDecided.fallback fun _ _ => trivial) fun _ _ hw => hw.2
  merge _ _ _ := merge_linksDecided
  stop _ _ _ := stop_linksDecided

end Coverage

/-! ## Runs -/

section Runs

variable [LeafValue ν] {a : Analysis ν ρ ω} {x : Exploration ν ρ (Memory ω ν)}
  (hx : x.analysis = analysis a)

include hx

/-- What transfer and adjustment keep is left when they break an expansion off. -/
theorem Provisional.successors {G : ReachGraph ν → Prop} {N : GraphNodeId → Prop}
    (h : Provisional G N) (store : Store ν ρ) (e : Entry ν ρ) :
    Triple (fun m => G m.world.graph) (x.successors store e) (fun _ _ => True)
      (fun ending m => (∀ c, ending ≠ .crashed c) → G m.world.graph) := by
  have gathering : x.Gathering e (x.program.leaving e.location)
      (fun _ raw w => (∀ q ∈ raw, Within N q.1) ∧ G w.graph)
      (fun ending w => (∀ c, ending ≠ .crashed c) → G w.graph) := by
    refine ⟨?_, ?_, ?_, fun _ _ _ hw _ _ => hw.2, fun _ _ _ _ _ c _ _ _ _ hc =>
      absurd rfl (hc c)⟩
    · intro done edge rest raw w next w' _ hw hrun
      rw [Exploration.transfer, hx] at hrun
      obtain ⟨hnext, hw'⟩ := h.transfer.ok hw.2 hrun
      refine ⟨fun q hq => ?_, hw'⟩
      rcases List.mem_append.1 hq with hq | hq
      · exact hw.1 q hq
      · obtain ⟨s, hs, rfl⟩ := List.mem_map.1 hq
        exact hnext s hs
    · intro done edge rest raw w err w' _ hw hrun _
      rw [Exploration.transfer, hx] at hrun
      exact ⟨hw.1, h.transfer.error hw.2 hrun⟩
    · intro done edge rest raw w err w' _ hw hrun _ _
      rw [Exploration.transfer, hx] at hrun
      exact h.transfer.error hw.2 hrun
  -- An adjustment may drop the node of its state, so the states that wait for one stay in `N`.
  let U (todo : Batch ν) (w : World (Memory ω ν)) : Prop :=
    (∀ q ∈ todo, Within N q.1) ∧ G w.graph
  refine .weaken (Exploration.successors_triple (U := fun todo _ => U todo) gathering
    (fun _ _ hw => hw) fun s l todo out => ?_) (fun _ hm => ⟨by simp, hm⟩) (fun _ _ _ => trivial)
    fun _ _ hm => hm
  have hs : ∀ w, U ((s, l) :: todo) w → Within N s := fun w hw => hw.1 (s, l) (by simp)
  have hrest : ∀ w w', U ((s, l) :: todo) w → G w'.graph → U todo w' :=
    fun w w' hw hw' => ⟨fun q hq => hw.1 q (by simp [hq]), hw'⟩
  refine .post (Exploration.adjust_triple (P := U ((s, l) :: todo)) (Q := fun _ => U todo)
    (E := fun ending w => (∀ c, ending ≠ .crashed c) → G w.graph) ?_ ?_ ?_ ?_
    (fun _ c _ _ _ hc => absurd rfl (hc c)) fun _ _ _ _ c _ _ _ _ hc => absurd rfl (hc c)) ?_
  · intro w o w' hw hrun
    rw [Exploration.adjustment, hx] at hrun
    exact hrest w w' hw ((h.adjust (hs w hw)).ok hw.2 hrun).2
  · intro w component reason w₁ b w' hw hrun hfall
    rw [Exploration.adjustment, hx] at hrun
    rw [hx] at hfall
    have hw₁ := (h.adjust (hs w hw)).error hw.2 hrun
    exact hrest w w' hw ((h.fallback (hs w hw)).ok hw₁ hfall).2
  · intro w component reason w₁ w' hw hrun hfall _
    rw [Exploration.adjustment, hx] at hrun
    rw [hx] at hfall
    have hw₁ := (h.adjust (hs w hw)).error hw.2 hrun
    exact ((h.fallback (hs w hw)).ok hw₁ hfall).2
  · intro w err w' hw _ hrun _
    rw [Exploration.adjustment, hx] at hrun
    exact (h.adjust (hs w hw)).error hw.2 hrun
  · intro o m hm
    cases o with
    | none => exact hm
    | some b =>
      dsimp only
      split
      · exact fun _ => hm.2
      · exact hm

variable [Waitlist θ ν] {m : Machine ν ρ (Memory ω ν) θ}

/-- An iteration that is broken off before it admits anything leaves the live nodes alone. -/
theorem unaltered_of_aborted {m' : Machine ν ρ (Memory ω ν) θ} {result : Except Failure Status}
    (hlinked : m.graph.Linked) (hsound : m.reached.Sound)
    (haborted : x.Aborted m result) (hstep : x.step m = .ended result m') :
    m.graph.Unaltered m'.graph := by
  rcases Exploration.step_of_aborted hsound (.inl haborted) hstep with
    rfl | ⟨k, r, e, ending, -, -, hrun, hcrash, -, -⟩
  · exact hlinked.unaltered
  · exact ((provisional_unaltered hlinked).successors hx r.store e).error
      (s := (Exploration.popped m r).meter) hlinked.unaltered hrun hcrash

theorem visits_records {m₀ : Machine ν ρ (Memory ω ν) θ}
    (h₀ : m₀.graph.Records [] m₀.reached) (hv : x.Visits m₀ m) :
    m.graph.Records [] m.reached := by
  have htraced : Traced a x.program (sceneOf m₀.meter.world m₀.reached) [] m.reached
      m.meter.world := by
    refine hv.invariant (I := fun m => Traced a x.program (sceneOf m₀.meter.world m₀.reached) []
      m.reached m.meter.world) (fun _ _ hm => step_traced hx hm) ?_
    exact Leads.refl h₀
  exact htraced.records

/-- At no moment of a run is a pending node linked to by another node, and an iteration that is
broken off before it admits anything leaves the live nodes, with all their links and states, and the
roots as they were. -/
theorem pending_nodes_invisible {w : World (Memory ω ν)} {r : ReachedSet ν ρ θ}
    (h : History a w r) (counters : Counters) (targets : List (State ν)) :
    (∀ w', x.Moment ⟨⟨w, counters⟩, r, targets⟩ w' → ∀ i j, w'.graph.Pending j →
      ¬ w'.graph.HasChild i j ∧ ¬ w'.graph.Covers i j ∧ ¬ w'.graph.CoveredBy i j) ∧
    ∀ m m' result, x.Visits ⟨⟨w, counters⟩, r, targets⟩ m → x.Aborted m result →
      x.step m = .ended result m' →
      m'.graph.liveNodes = m.graph.liveNodes ∧ m'.graph.roots = m.graph.roots := by
  constructor
  · intro w' hw' i j hj
    have hlinks : w'.graph.LinksDecided [] :=
      hw'.sustained (by rw [hx]; exact sustains_linksDecided a)
        h.upheld.batchWf.toLinked.linksDecided
    have hnot : ¬ w'.graph.At i fun n => n.Names j := by
      intro hij
      obtain ⟨n, hn, hpending⟩ := hj
      exact (ReachGraph.at_iff hn).1 (hlinks.links i j hij) hpending
    exact ⟨fun hc => hnot (hc.mono fun _ hn => .inl hn),
      fun hc => hnot (hc.mono fun _ hn => .inr (.inl hn)),
      fun hc => hnot (hc.mono fun _ hn => .inr (.inr hn))⟩
  · intro m m' result hv haborted hstep
    have hrecords := visits_records hx h.upheld hv
    have hsame := unaltered_of_aborted hx hrecords.batchWf.toLinked hrecords.sound haborted hstep
    exact ⟨hsame.liveNodes, hsame.roots⟩

end Runs

/-! ## An expansion that is halted -/

/-- The recorded facts of the fork, where the adjustment of the second successor halts the
exploration. -/
def haltedFork : Exploration FactValue Level (Memory Facts.Notes FactValue) :=
  { forkFacts with analysis := analysis Exploration.haltingFork.analysis }

/-- The fork after its initial state was added. -/
def haltedStart : Machine FactValue Level (Memory Facts.Notes FactValue) SimpleWaitlist :=
  let seeded := haltedFork.seed ⟨0⟩ .whole knotWorld forkReached
  ⟨⟨seeded.2.1, {}⟩, seeded.2.2, []⟩

theorem history_haltedStart : History Exploration.haltingFork.analysis haltedStart.meter.world
    haltedStart.reached := by
  have hstart : History Exploration.haltingFork.analysis knotWorld forkReached := .start fork _ rfl
  have hseed : haltedFork.seed ⟨0⟩ .whole knotWorld forkReached =
      (.ok ⟨0⟩, haltedStart.meter.world, haltedStart.reached) := rfl
  exact .seed hstart rfl hseed fun c hc => by cases hc

/-- The meter after both transfers of the entry. -/
def haltedGathered (e : Entry FactValue Level) : Meter (Memory Facts.Notes FactValue) :=
  ((haltedFork.gather e (haltedFork.program.leaving e.location)).run.run
    (Exploration.popped haltedStart haltedStart.reached.pop.2).meter).2

theorem haltedStart_pending : ∃ w, haltedFork.Moment haltedStart w ∧
    w.graph.pendingIds = [⟨1⟩, ⟨2⟩] := by
  have hpop : haltedStart.reached.pop = (some ⟨0⟩, haltedStart.reached.pop.2) :=
    Prod.ext (by decide +kernel) rfl
  have hgathered : (haltedStart.reached.pop.2.get? ⟨0⟩).any (fun e =>
      decide ((haltedGathered e).world.graph.pendingIds = [⟨1⟩, ⟨2⟩])) = true := by
    decide +kernel
  obtain ⟨e, he, hpending⟩ := (Option.any_eq_true _ _).1 hgathered
  exact ⟨(haltedGathered e).world, .gathering .start hpop he (List.append_nil _).symm rfl,
    of_decide_eq_true hpending⟩

theorem haltedStart_aborted : ∃ m', haltedFork.step haltedStart =
    .ended (.ok (.broken .adjustment)) m' ∧ m'.graph.nodes.size = 3 := by
  obtain ⟨m', hstep, hsize⟩ := Exploration.Next.exists_of_endsWith (haltedFork.step haltedStart)
    (.broken .adjustment) (fun m => m.graph.nodes.size = 3) (by decide +kernel)
  exact ⟨m', hstep, of_decide_eq_true hsize⟩

/-- Both successors of the fork have pending nodes when the second one is adjusted. The root does
not know them, and is the only live node before and after. -/
theorem halted_fork_pending_invisible :
    History Exploration.haltingFork.analysis haltedStart.meter.world haltedStart.reached ∧
    (∃ w, haltedFork.Moment haltedStart w ∧ w.graph.pendingIds = [⟨1⟩, ⟨2⟩] ∧
      ∀ i j, w.graph.Pending j → ¬ w.graph.HasChild i j ∧
        ¬ w.graph.Covers i j ∧ ¬ w.graph.CoveredBy i j) ∧
    ∃ m', haltedFork.step haltedStart = .ended (.ok (.broken .adjustment)) m' ∧
      m'.graph.nodes.size = 3 ∧
      m'.graph.liveNodes = haltedStart.graph.liveNodes ∧
      m'.graph.roots = haltedStart.graph.roots := by
  obtain ⟨w, hw, hpending⟩ := haltedStart_pending
  obtain ⟨m', hstep, hsize⟩ := haltedStart_aborted
  have hboth := pending_nodes_invisible (x := haltedFork) rfl history_haltedStart {} []
  exact ⟨history_haltedStart, ⟨w, hw, hpending, hboth.1 w hw⟩, m', hstep, hsize,
    hboth.2 haltedStart m' _ .start .halted hstep⟩

end Recorder

end ProgramAnalysis
