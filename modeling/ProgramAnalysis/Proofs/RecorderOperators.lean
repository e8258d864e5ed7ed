import ProgramAnalysis.Proofs.Expansion
import ProgramAnalysis.Proofs.RecorderSteps
/-!
What the operators of the recording analysis do to a scene.

An operator inside cannot reach the graph, so all that it does to the scene is to draw handles. What
the recorder does around it is described by steps, for every analysis inside. A merge and a refusal
to stop are only half a step: the exploration still has to change the reached set (`Merged`,
`Accepted`).
-/

namespace ProgramAnalysis

variable {ν ρ ω θ α : Type}

/-- What a failure leaves; nothing is known after a crash. -/
def Spared (P : World ω → Prop) : Failure → World ω → Prop
  | .error _, w => P w
  | .crash _, _ => True

/-- The graph that the machine has recorded. -/
abbrev Machine.graph (m : Machine ν ρ (Recorder.Memory ω ν) θ) : ReachGraph ν :=
  m.meter.world.graph

namespace Recorder

/-! ## Actions -/

section Actions

variable {P : World (Memory ω ν) → Prop} {E : Failure → World (Memory ω ν) → Prop}

/-- The world with another graph. -/
def withGraph (w : World (Memory ω ν)) (g : ReachGraph ν) : World (Memory ω ν) :=
  { w with memory := (w.memory.1, { w.memory.2 with graph := g }) }

@[simp] theorem withGraph_next (w : World (Memory ω ν)) (g : ReachGraph ν) :
    (withGraph w g).next = w.next := rfl

@[simp] theorem withGraph_graph (w : World (Memory ω ν)) (g : ReachGraph ν) :
    (withGraph w g).graph = g := rfl

theorem asGraphed_rule {s : State ν} [LeafValue ν] (unfit : ∀ e w, P w → E (.error e) w) :
    Triple P (Action.ofExcept s.asGraphed)
      (fun c w => (∃ h, s = .graphed h c.node c.wrapped) ∧ P w) E := by
  cases s with
  | graphed h n w => exact .pure fun _ hw => ⟨⟨h, rfl⟩, hw⟩
  | _ => exact .throw fun _ => unfit _ _

theorem asGraphed_steady {s : State ν} [LeafValue ν] :
    Triple P (Action.ofExcept s.asGraphed)
      (fun c w => (∃ h, s = .graphed h c.node c.wrapped) ∧ P w) (fun _ => P) :=
  asGraphed_rule fun _ _ hw => hw

theorem asGraphed_triple {s : State ν} [LeafValue ν] :
    Triple P (Action.ofExcept s.asGraphed)
      (fun c w => (∃ h, s = .graphed h c.node c.wrapped) ∧ P w) (Spared P) :=
  asGraphed_rule fun _ _ hw => hw

theorem peek_triple : Triple P (Action.peek record) (fun rec w => w.memory.2 = rec ∧ P w) E :=
  fun _ hw => ⟨rfl, hw⟩

theorem remember_triple {Q : World (Memory ω ν) → Prop} {f : Recording ν → Recording ν}
    (h : ∀ w, P w → Q { w with memory := (w.memory.1, f w.memory.2) }) :
    Triple P (Action.remember record f) (fun _ => Q) E :=
  fun w hw => h w hw

theorem run_edit (x : Edit ν α) (w : World (Memory ω ν)) :
    (edit x).run.run w = ((x.run.run w.graph).1, withGraph w (x.run.run w.graph).2) := rfl

theorem edit_triple {Q : α → World (Memory ω ν) → Prop}
    {E : Crash → World (Memory ω ν) → Prop} {x : Edit ν α}
    (h : ∀ w, Triple (fun g => P (withGraph w g)) x (fun a g => Q a (withGraph w g))
      fun c g => E c (withGraph w g)) : Triple P (edit x) Q E := by
  intro w hw
  have hx := h w w.graph hw
  rw [run_edit]
  revert hx
  rcases x.run.run w.graph with ⟨c | a, g⟩
  · exact fun hx => hx
  · exact fun hx => hx

theorem ofAttempt_rule {P : World ω → Prop} {Q : α → World ω → Prop} {E : Failure → World ω → Prop}
    {x : Attempt ω α} (h : Triple P x Q fun c => E (.crash c)) :
    Triple P (Action.ofAttempt x) Q E := by
  intro w hw
  have hx := h w hw
  rw [Action.run_ofAttempt]
  revert hx
  rcases x.run.run w with ⟨c | a, w'⟩
  · exact fun hx => hx
  · exact fun hx => hx

theorem ofAttempt_triple {P : World ω → Prop} {Q : α → World ω → Prop}
    {E : Failure → World ω → Prop} {x : Attempt ω α} (h : Triple P x Q fun _ _ => True)
    (crash : ∀ c w, E (.crash c) w) : Triple P (Action.ofAttempt x) Q E :=
  ofAttempt_rule (h.fail fun c w _ => crash c w)

theorem change_triple {Q : α → World (Memory ω ν) → Prop} {x : Edit ν α}
    (h : ∀ w, Triple (fun g => P (withGraph w g)) x (fun a g => Q a (withGraph w g))
      fun _ _ => True) (crash : ∀ c w, E (.crash c) w) : Triple P (change x) Q E :=
  ofAttempt_triple (edit_triple h) crash

/-- An operator inside may draw handles, and leaves the recording alone. -/
theorem inner_run {ε : Type} {x : ExceptT ε (Effect ω) α} {w w' : World (Memory ω ν)}
    {answer : Except ε α} (hrun : (ExceptT.mk (Effect.focus .fst x.run)).run.run w = (answer, w')) :
    w'.memory.2 = w.memory.2 ∧
      (Keeps (fun _ => True) x → w.next.serial ≤ w'.next.serial) ∧
      ∀ v, answer = .ok v → Answers x v := by
  rw [run_focus] at hrun
  cases hrun
  exact ⟨rfl, fun hx => (hx (w.withMemory w.memory.1) trivial).2,
    fun v hv => ⟨_, _, Prod.ext hv rfl⟩⟩

end Actions

/-! ## The rule for coverage -/

/-- Premises about the coverage of the state `s` with the node and the inner state of `x`: `F i`
holds when the node `i` was found to cover its node. -/
structure Covering (st : Stop ν ρ ω) (s : State ν) (x : Graphed ν) (rs : List (State ν))
    (p : Precision ρ) (P : World (Memory ω ν) → Prop)
    (F : GraphNodeId → World (Memory ω ν) → Prop)
    (Q : Bool → World (Memory ω ν) → Prop) (E : Failure → World (Memory ω ν) → Prop) :
    Prop where
  stop : ∀ t, Triple P ((st.stop x.wrapped [t] p).focus .fst) (fun _ => P) E
  find : ∀ h i t recording, .graphed h i t ∈ rs → mayCover recording.graph i x.node = true →
    Triple (fun w => w.memory.2 = recording ∧ P w) ((st.stop x.wrapped [t] p).focus .fst)
      (fun covered w => if covered = true then F i w else P w) E
  cover : ∀ i, Triple (F i) (change (Edit.cover x.node i s)) (fun _ => Q true) E
  count : ∀ w, Q true w →
    Q true { w with memory := (w.memory.1, { w.memory.2 with covers := w.memory.2.covers + 1 }) }
  accept : Triple P (change (Edit.accept x.node s)) (fun _ => Q false) E
  discard : Triple P (change (Edit.discard x.node)) (fun _ => Q true) E

section Covering

variable [LeafValue ν] {st : Stop ν ρ ω} {s : State ν} {x : Graphed ν} {rs : List (State ν)}
  {p : Precision ρ} {P : World (Memory ω ν) → Prop}
  {F : GraphNodeId → World (Memory ω ν) → Prop} {Q : Bool → World (Memory ω ν) → Prop}
  {E : Failure → World (Memory ω ν) → Prop} (unfit : ∀ e w, P w → E (.error e) w)

include unfit

theorem Covering.asked (h : Covering st s x rs p P F Q E) {target : GraphNodeId} :
    Triple P (coveredByMerged st x.wrapped p target rs) (fun _ => P) E := by
  have hstop := h.stop
  clear h
  induction rs with
  | nil => exact .pure fun _ hw => hw
  | cons r rs ih =>
    refine .bind (asGraphed_rule unfit) fun y => .assume fun _ => ?_
    dsimp only
    split
    · refine .bind (hstop y.wrapped) fun covered => ?_
      split
      · exact .pure fun _ hw => hw
      · exact ih
    · exact ih

theorem Covering.found (h : Covering st s x rs p P F Q E) :
    Triple P (findCoverer st x.wrapped p x.node rs) (fun o w => o.elim (P w) fun i => F i w) E := by
  have hfind := h.find
  clear h
  induction rs with
  | nil => exact .pure fun _ hw => hw
  | cons r rs ih =>
    have ih := ih fun h i t recording ht => hfind h i t recording (List.mem_cons_of_mem r ht)
    refine .bind (asGraphed_rule unfit) fun y => .assume ?_
    rintro ⟨h, rfl⟩
    refine .bind peek_triple fun recording => ?_
    dsimp only
    split
    · next hmay =>
      refine .bind (hfind h y.node y.wrapped recording List.mem_cons_self hmay) fun covered => ?_
      cases covered with
      | true => exact .pure fun _ hw => hw
      | false => exact ih
    · exact .pre ih fun _ hw => hw.2

theorem stop_rule {F : Graphed ν → GraphNodeId → World (Memory ω ν) → Prop}
    (h : ∀ n x, s = .graphed n x.node x.wrapped → Covering st s x rs p P (F x) Q E) :
    Triple P ((stopper st).stop s rs p) Q E := by
  refine .bind (asGraphed_rule unfit) fun x => .assume ?_
  rintro ⟨n, hs⟩
  have h := h n x hs
  have hrest : Triple P (coverOrAccept st s x rs p) Q E := by
    refine .bind (h.found unfit) fun coverer => ?_
    cases coverer with
    | some i =>
      refine .bind (h.cover i) fun _ => ?_
      exact .bind (R := fun _ => Q true) (remember_triple h.count) fun _ => .pure fun _ hw => hw
    | none => exact .bind h.accept fun _ => .pure fun _ hw => hw
  refine .bind (R := fun _ => P) (fun _ hw => hw) fun recording => ?_
  dsimp only
  split
  · refine .bind (h.asked unfit) fun covered => ?_
    split
    · exact .bind h.discard fun _ => .pure fun _ hw => hw
    · exact hrest
  · exact hrest

end Covering

/-! ## Scenes in the world -/

variable [LeafValue ν] [Waitlist θ ν] {a : Analysis ν ρ ω} {program : Program} {c₀ : Scene ν ρ θ}
  {batch rest after before : Batch ν} {r r' : ReachedSet ν ρ θ}
  {w : World (Memory ω ν)} {p : Precision ρ} {q : State ν × NodeId} {s : State ν}
  {e : Entry ν ρ} {k : EntryId} {current : Graphed ν} {b : Adjustment ν ρ} {part : Partition}
  {l : NodeId}

/-- The scene of the world comes from `c₀` by steps. -/
def Traced (a : Analysis ν ρ ω) (program : Program) (c₀ : Scene ν ρ θ)
    (batch : Batch ν) (r : ReachedSet ν ρ θ) (w : World (Memory ω ν)) : Prop :=
  Leads a program c₀ ⟨w.graph, w.next, batch, r⟩

theorem Traced.records (h : Traced a program c₀ batch r w) :
    w.graph.Records (nodesOf batch) r :=
  Leads.records h

theorem Traced.abandon (h : Traced a program c₀ batch r w) : Traced a program c₀ [] r w :=
  h.step (.abandons _ (List.nil_sublist batch))

/-- An operator inside only draws handles. -/
theorem traced_of_inner {ε : Type} {x : ExceptT ε (Effect ω) α} {w' : World (Memory ω ν)}
    {answer : Except ε α} (hx : a.Forward → Keeps (fun _ => True) x)
    (hw : Traced a program c₀ batch r w)
    (hrun : (ExceptT.mk (Effect.focus .fst x.run)).run.run w = (answer, w')) :
    Traced a program c₀ batch r w' := by
  obtain ⟨hmemory, hkeeps, -⟩ := inner_run hrun
  rw [Traced, World.graph, hmemory]
  exact hw.step (.draws _ fun forward => hkeeps (hx forward))

theorem focus_triple {x : Action ω α} (hx : a.Forward → Keeps (fun _ => True) x) :
    Triple (Traced a program c₀ batch r) (x.focus .fst)
      (fun v w => Answers x v ∧ Traced a program c₀ batch r w)
      (Spared (Traced a program c₀ batch r)) := by
  refine .of_run (fun w v w' hw hrun =>
    ⟨(inner_run hrun).2.2 v rfl, traced_of_inner hx hw hrun⟩) fun w e w' hw hrun => ?_
  cases e with
  | error _ => exact traced_of_inner hx hw hrun
  | crash _ => trivial

theorem purge_triple (hbatch : program.Ascending → batch = []) :
    Triple (fun g => Traced a program c₀ batch r (withGraph w g)) Edit.discardPending
      (fun _ g => Traced a program c₀ batch r (withGraph w g)) (fun _ _ => True) :=
  Edit.discardPending_triple fun _ _ _ hg hold hlive => hg.step (.purges _ hold hlive hbatch)

/-- Everything that is pending is given up. -/
theorem discardPending_triple {E : Failure → World (Memory ω ν) → Prop}
    (crash : ∀ c w, E (.crash c) w) :
    Triple (Traced a program c₀ batch r) (change Edit.discardPending)
      (fun _ => Traced a program c₀ [] r) E :=
  change_triple (fun _ => .pre (purge_triple fun _ => rfl) fun _ hg => hg.abandon) crash

/-! ## Transfer -/

section Sprouts

omit [Waitlist θ ν]

/-- The recorded state of the next successor. -/
def sprouted (s : State ν) (w : World (Memory ω ν)) : State ν :=
  .graphed w.next ⟨w.graph.nodes.size⟩ s

/-- The world with the node of the next successor. -/
def sprouting (node : GraphNodeId) (edge : EdgeId) (s : State ν) (w : World (Memory ω ν)) :
    World (Memory ω ν) :=
  { w with
    next := w.next.next
    memory := (w.memory.1, { w.memory.2 with
      graph := (w.graph.create s.location? [(node, some edge)]).2 }) }

/-- What each new node keeps holds after all of them. -/
theorem sprout_rule {P : Batch ν → World (Memory ω ν) → Prop}
    {node : GraphNodeId} {edge : EdgeId} {target : NodeId} (ws : List (State ν))
    (new : ∀ s ∈ ws, ∀ raw w, P raw w →
      P (raw ++ [(sprouted s w, (sprouted s w).location?.getD target)]) (sprouting node edge s w))
    (raw : Batch ν) (w : World (Memory ω ν)) (h : P raw w) :
    P (raw ++ ((sprout node edge ws).run w).1.map fun s => (s, s.location?.getD target))
      ((sprout node edge ws).run w).2 := by
  induction ws generalizing raw w with
  | nil =>
    show P (raw ++ []) w
    rw [List.append_nil]
    exact h
  | cons s ws ih =>
    have hrest := ih (fun t ht => new t (List.mem_cons_of_mem _ ht)) _ _
      (new s List.mem_cons_self raw w h)
    rw [List.append_assoc] at hrest
    exact hrest

omit [LeafValue ν]

/-- The world after a transfer was noted. -/
def noted (node : GraphNodeId) (edge : EdgeId) (w : World (Memory ω ν)) :
    World (Memory ω ν) :=
  { w with memory := (w.memory.1, { w.memory.2 with last := some (node, edge) }) }

/-- A transfer purges the graph unless it goes on with an expansion. -/
theorem startTransfer_rule {node : GraphNodeId} {edge : EdgeId}
    {P Q R : World (Memory ω ν) → Prop}
    (goes : ∀ w, P w → w.memory.2.continues node edge = true → Q (noted node edge w))
    (purges : ∀ w g, P w → ¬ w.memory.2.continues node edge = true →
      Edit.discardPending.run.run w.graph = (.ok (), g) →
      Q (withGraph (noted node edge w) g)) :
    Triple P (startTransfer node edge) (fun _ => Q) (Spared R) := by
  unfold startTransfer
  refine .bind peek_triple fun recording => ?_
  refine .bind (R := fun _ w' => ∃ w, P w ∧ w.memory.2 = recording ∧ w' = noted node edge w)
    (remember_triple fun w hw => ⟨w, hw.2, hw.1, rfl⟩) fun _ => ?_
  split
  · next hgoes =>
    refine .pure ?_
    rintro _ ⟨w, hw, rfl, rfl⟩
    exact goes w hw hgoes
  · next hnew =>
    refine ofAttempt_triple (.of_run ?_ fun _ _ _ _ _ => trivial) fun _ _ => trivial
    rintro _ _ w' ⟨w, hw, rfl, rfl⟩ hrun
    obtain ⟨hanswer, rfl⟩ := Prod.mk.inj ((run_edit _ _).symm.trans hrun)
    exact purges w _ hw hnew (Prod.ext hanswer rfl)

/-- If successors along the edges `done` wait, the last transfer was along one of these edges. -/
def Underway (e : Entry ν ρ) (done : List ProgramEdge) (raw : Batch ν)
    (rec : Recording ν) : Prop :=
  raw = [] ∨ ∃ i, e.state.graphNode? = some i ∧ ∃ f ∈ done, rec.last = some (i, f.id)

variable {done rest : List ProgramEdge} {edge : ProgramEdge} {raw : Batch ν}
  {rec : Recording ν}

theorem Underway.snoc (h : Underway e done raw rec) : Underway e (done ++ [edge]) raw rec := by
  refine h.imp_right ?_
  rintro ⟨i, hi, f, hf, hlast⟩
  exact ⟨i, hi, f, by simp [hf], hlast⟩

/-- The next transfer goes on with the expansion: an edge that is still to come has a larger number
than those that are done. -/
theorem Underway.continues (h : Underway e done raw rec)
    (hall : program.leaving e.location = done ++ edge :: rest) (hasc : program.Ascending) :
    raw = [] ∨ ∀ i, e.state.graphNode? = some i → rec.continues i edge.id = true := by
  refine h.imp_right ?_
  rintro ⟨i, hi, f, hf, hlast⟩ j hj
  obtain rfl : i = j := Option.some.inj (hi.symm.trans hj)
  have hlt : f.id.index < edge.id.index := by
    have hpair := hasc e.location
    rw [hall] at hpair
    exact (List.pairwise_append.1 hpair).2.2 f hf edge (by simp)
  simp [Recording.continues, hlast, hlt]

/-- Premises about the transfers out of an entry: `T` holds of the successors that wait. The
operator inside does not matter to it, what is pending goes only if nothing waits, and a new node
comes with one more successor. -/
structure Sprouting (a : Analysis ν ρ ω) (program : Program) (e : Entry ν ρ)
    (T : Batch ν → World (Memory ω ν) → Prop) : Prop where
  inner : ∀ raw s p edge w answer w', T raw w →
    ((a.transfer.successors s [] p edge).focus .fst).run.run w = (answer, w') → T raw w'
  note : ∀ raw node edge w, T raw w → T raw (noted node edge w)
  purge : ∀ raw w g, (program.Ascending → raw = []) → T raw w →
    Edit.discardPending.run.run w.graph = (.ok (), g) → T raw (withGraph w g)
  new : ∀ raw i p edge next s w, edge ∈ program.leaving e.location → e.state.graphNode? = some i →
    Answers (a.transfer.successors (unwrapped e.state) [] p edge) next → s ∈ next → T raw w →
    T (raw ++ [(sprouted s w, (sprouted s w).location?.getD edge.target)])
      (sprouting i edge.id s w)

section Sprouting

variable [LeafValue ν] {T : Batch ν → World (Memory ω ν) → Prop}

/-- A transfer adds the successors along its edge to those that wait. -/
theorem Sprouting.transfer (h : Sprouting a program e T)
    (hall : program.leaving e.location = done ++ edge :: rest) :
    Triple (fun w => T raw w ∧ Underway e done raw w.memory.2)
      ((transfer a.transfer).successors e.state [] p edge)
      (fun next w => T (raw ++ next.map fun s => (s, s.location?.getD edge.target)) w ∧
        ∃ i, e.state.graphNode? = some i ∧ w.memory.2.last = some (i, edge.id))
      (Spared fun w => T raw w ∧ Underway e done raw w.memory.2) := by
  refine .bind asGraphed_triple fun current => .assume ?_
  rintro ⟨n, hs⟩
  have hi : e.state.graphNode? = some current.node := by rw [hs, State.graphNode?]
  have hwrapped : unwrapped e.state = current.wrapped := by rw [hs, unwrapped]
  refine .bind (R := fun next w =>
    Answers (a.transfer.successors (unwrapped e.state) [] p edge) next ∧
      T raw w ∧ Underway e done raw w.memory.2) (.of_run ?_ ?_) fun next => .assume fun hnext => ?_
  · rintro w next w' ⟨hT, hunder⟩ hrun
    obtain ⟨hmemory, -, hanswers⟩ := inner_run hrun
    exact ⟨hwrapped ▸ hanswers next rfl, h.inner _ _ _ _ _ _ _ hT hrun, hmemory ▸ hunder⟩
  · rintro w (err | c) w' ⟨hT, hunder⟩ hrun
    · exact ⟨h.inner _ _ _ _ _ _ _ hT hrun, (inner_run hrun).1 ▸ hunder⟩
    · trivial
  refine .bind (R := fun _ w => T raw w ∧ w.memory.2.last = some (current.node, edge.id))
    (startTransfer_rule ?_ ?_) fun _ => ?_
  · rintro w ⟨hT, -⟩ -
    exact ⟨h.note _ _ _ _ hT, rfl⟩
  · rintro w g ⟨hT, hunder⟩ hnew hrun
    refine ⟨h.purge _ _ _ (fun hasc => ?_) (h.note _ _ _ _ hT) hrun, rfl⟩
    exact (hunder.continues hall hasc).resolve_right fun hgoes => hnew (hgoes _ hi)
  · rintro w ⟨hT, hlast⟩
    have hedge : edge ∈ program.leaving e.location := by simp [hall]
    have hsprout := sprout_rule (P := fun raw w' => T raw w' ∧ w'.memory.2.last = w.memory.2.last)
      next (fun s hs raw w' hw' => ⟨h.new raw _ p edge next s w' hedge hi hnext hs hw'.1, hw'.2⟩)
      raw w ⟨hT, rfl⟩
    exact ⟨hsprout.1, current.node, hi, hsprout.2.trans hlast⟩

/-- The transfers along all edges, where `E` is what is left when they break off. -/
theorem Sprouting.gathering {x : Exploration ν ρ (Memory ω ν)}
    {E : Ending → World (Memory ω ν) → Prop} (h : Sprouting a x.program e T)
    (hx : x.analysis = analysis a) (left : ∀ raw w ending, T raw w → E ending w)
    (crash : ∀ c w, E (.crashed c) w) :
    x.Gathering e (x.program.leaving e.location)
      (fun done raw w => T raw w ∧ Underway e done raw w.memory.2) E := by
  refine ⟨?_, ?_, ?_, fun _ _ _ hw _ => left _ _ _ hw.1, fun _ _ _ _ _ _ _ _ _ _ => crash _ _⟩
  · intro done edge rest raw w next w' hall hw hrun
    rw [Exploration.transfer, hx] at hrun
    obtain ⟨hw', i, hi, hlast⟩ := (h.transfer hall).ok hw hrun
    exact ⟨hw', .inr ⟨i, hi, edge, by simp, hlast⟩⟩
  · intro done edge rest raw w err w' hall hw hrun _
    rw [Exploration.transfer, hx] at hrun
    obtain ⟨hw', hunder⟩ := (h.transfer hall).error hw hrun
    exact ⟨hw', hunder.snoc⟩
  · intro done edge rest raw w err w' hall hw hrun _
    rw [Exploration.transfer, hx] at hrun
    obtain ⟨hw', -⟩ := (h.transfer hall).error hw hrun
    exact left _ _ _ hw'

end Sprouting

end Sprouts

/-- A transfer adds a node that waits for each successor of an entry. -/
theorem sprouting_traced (he : r.get? k = some e) :
    Sprouting a program e fun batch w => Traced a program c₀ batch r w where
  inner _ _ _ _ _ _ _ hw hrun :=
    traced_of_inner (fun forward => forward.transfer _ _ _) hw hrun
  note _ _ _ _ hw := hw
  purge _ _ _ hbatch hw hrun := (purge_triple hbatch).ok hw hrun
  new _ _ _ _ _ _ _ hedge hi hnext hs hw := hw.step (.sprouts _ he hi hedge hnext hs)

/-! ## Adjustment -/

theorem traced_rewrap {h : Handle} (hs : s = .graphed h current.node current.wrapped)
    (hb : Adjusts a r.store current.wrapped b.state)
    (hw : Traced a program c₀ (before ++ (s, l) :: after) r w) :
    Traced a program c₀ (before ++ (((rewrap s current b).run w).1.state, l) :: after) r
      ((rewrap s current b).run w).2 := by
  unfold rewrap
  split
  · exact hw
  · exact hw.step (.rewraps _ (by rw [hs]) hb)

theorem traced_rewrap_other (hw : Traced a program c₀ batch r w) :
    Traced a program c₀ batch r ((rewrap s current b).run w).2 := by
  unfold rewrap
  split
  · exact hw
  · exact hw.step (.draws _ fun _ => Nat.le_succ _)

omit [LeafValue ν] in
theorem signal_rewrap : ((rewrap s current b).run w).1.signal = b.signal := by
  unfold rewrap
  split <;> rfl

/-- An error gives the successors up, unless a backend has failed. -/
def Refused (a : Analysis ν ρ ω) (program : Program) (c₀ : Scene ν ρ θ)
    (batch : Batch ν) (r : ReachedSet ν ρ θ) :
    Failure → World (Memory ω ν) → Prop
  | .error e, w => Traced a program c₀ [] r w ∧
    (e.isBackend = true → Traced a program c₀ batch r w)
  | .crash _, _ => True

/-- What an adjustment of the successor `s` makes of the ones that wait. -/
def Adjusted (a : Analysis ν ρ ω) (program : Program) (c₀ : Scene ν ρ θ)
    (before after : Batch ν) (l : NodeId) (r : ReachedSet ν ρ θ) :
    Option (Adjustment ν ρ) → World (Memory ω ν) → Prop
  | none, w => Traced a program c₀ (before ++ after) r w
  | some b, w =>
    if b.signal = .halt then Traced a program c₀ [] r w
    else Traced a program c₀ (before ++ (b.state, l) :: after) r w

/-- An adjustment keeps the node of the state, unless it drops the state. -/
theorem adjust_triple :
    Triple (Traced a program c₀ (before ++ (s, l) :: after) r)
      ((adjuster a.adjuster).adjust s p ⟨r.store, id, s⟩)
      (Adjusted a program c₀ before after l r)
      (Refused a program c₀ (before ++ (s, l) :: after) r) := by
  refine .bind (.fail asGraphed_triple ?_) fun current =>
    .assume ?_
  · rintro (e | c) w hw
    · exact ⟨Traced.abandon hw, fun _ => hw⟩
    · trivial
  rintro ⟨h, hcurrent⟩
  have hnode : s.graphNode? = some current.node := by rw [hcurrent, State.graphNode?]
  let inner := a.adjuster.adjust current.wrapped p ⟨r.store, unwrapped, s⟩
  refine .bind (R := fun answer w => Traced a program c₀ (before ++ (s, l) :: after) r w ∧
    ∀ o, answer = .ok o → Answers inner o) (ofAttempt_triple
    (Action.attempt_triple (fun w o w' hw hx => ?_) (fun w e w' hw hx => ?_)
      fun _ _ _ _ _ => trivial) fun _ _ => trivial) fun answer => ?_
  · obtain ⟨ho, hw'⟩ := (focus_triple fun forward => forward.adjust current.wrapped p _).ok hw hx
    refine ⟨hw', ?_⟩
    rintro _ ⟨⟩
    exact ho
  · have hw' : Traced a program c₀ (before ++ (s, l) :: after) r w' :=
      (focus_triple fun forward => forward.adjust current.wrapped p _).error hw hx
    exact ⟨hw', fun o ho => by cases ho⟩
  rcases answer with e | _ | b
  · dsimp only
    split
    · next hb =>
      refine .bind (.pre (discardPending_triple fun _ _ => trivial) fun _ hw => hw.1) fun _ =>
        .throw fun w hw => ⟨hw, fun hback => ?_⟩
      simp [hback] at hb
    · exact .throw fun w hw => ⟨hw.1.abandon, fun _ => hw.1⟩
  · refine .bind (R := fun _ => Traced a program c₀ (before ++ after) r)
      (change_triple (fun w => Edit.unlink_triple ?_) fun _ _ => trivial) fun _ =>
      .pure fun _ hw => hw
    exact fun g old hg hold => hg.1.step (.drops _ rfl hnode hold)
  · have hadjusts : Answers inner (some b) → Adjusts a r.store current.wrapped b.state :=
      fun hb => ⟨b, rfl, .inl ⟨p, s, hb⟩⟩
    dsimp only
    split
    · next hhalt =>
      refine .bind (.pre (discardPending_triple fun _ _ => trivial) fun _ hw => hw.1) fun _ => ?_
      intro w hw
      show Adjusted a program c₀ before after l r (some ((rewrap s current b).run w).1)
        ((rewrap s current b).run w).2
      rw [Adjusted, signal_rewrap, if_pos hhalt]
      exact traced_rewrap_other hw
    · next hgo =>
      intro w hw
      show Adjusted a program c₀ before after l r (some ((rewrap s current b).run w).1)
        ((rewrap s current b).run w).2
      rw [Adjusted, signal_rewrap, if_neg hgo]
      exact traced_rewrap hcurrent (hadjusts (hw.2 _ rfl)) hw.1

/-- The fallback keeps the node of the state, or everything is given up. -/
theorem fallback_triple {err : Error} :
    Triple (Traced a program c₀ (before ++ (s, l) :: after) r)
      ((adjuster a.adjuster).fallback s p err)
      (fun o w => Traced a program c₀ [] r w ∧
        ∀ b, o = some b → Traced a program c₀ (before ++ (b.state, l) :: after) r w)
      (fun _ _ => True) := by
  cases s with
  | graphed h node inner =>
    refine .bind (R := fun answer w => Answers (a.adjuster.fallback inner p err) answer ∧
      Traced a program c₀ (before ++ (.graphed h node inner, l) :: after) r w)
      (.of_run (fun _ answer _ hw hrun => ⟨(inner_run hrun).2.2 answer rfl,
        traced_of_inner (fun forward => forward.fallback inner p err) hw hrun⟩)
        fun _ _ _ _ _ => trivial) fun answer => .assume fun hanswer => ?_
    cases answer with
    | none =>
      refine .bind (R := fun _ => Traced a program c₀ [] r) (edit_triple fun w => ?_) fun _ =>
        .pure fun _ hw => ⟨hw, fun b hb => by cases hb⟩
      exact .pre (purge_triple fun _ => rfl) fun _ hg => hg.abandon
    | some b =>
      intro w hw
      have hnew : Traced a program c₀
          (before ++ (((rewrap (.graphed h node inner) ⟨node, inner⟩ b).run w).1.state, l) :: after)
          r ((rewrap (.graphed h node inner) ⟨node, inner⟩ b).run w).2 :=
        traced_rewrap rfl ⟨b, rfl, .inr ⟨p, err, hanswer⟩⟩ hw
      refine ⟨hnew.abandon, ?_⟩
      rintro _ ⟨⟩
      exact hnew
  | _ => exact .pure fun _ hw => ⟨hw.abandon, fun b hb => by cases hb⟩

/-! ## Merging -/

/-- The graph has been changed by a merge with the result `t`, and the reached set not yet. -/
def Merged (a : Analysis ν ρ ω) (program : Program) (c₀ : Scene ν ρ θ)
    (batch : Batch ν) (r : ReachedSet ν ρ θ) (k : EntryId) (e : Entry ν ρ)
    (t : State ν) (w : World (Memory ω ν)) : Prop :=
  ∃ c S R s n m, Leads a program c₀ c ∧ c.batch = batch ∧ c.reached = r ∧
    Fusion a c k e S R s n m ∧ t = c.newState m ∧ w.graph = c.fused S R s n m ∧
    w.next = c.next.next

theorem Merged.replace {k' : EntryId} {t : State ν} (h : Merged a program c₀ batch r k e t w)
    (hadd : (r.remove k).2.add ⟨t, p, e.location, e.partition⟩ = .ok (k', r')) :
    Traced a program c₀ batch r' w := by
  obtain ⟨c, S, R, s, n, m, hc, rfl, rfl, hf, rfl, hg, hnext⟩ := h
  unfold Traced
  rw [hg, hnext]
  exact hc.step (.merges c hf hadd)

theorem Merged.clash {j : EntryId} {f : Entry ν ρ} {t : State ν}
    (h : Merged a program c₀ batch r k e t w) (hj : r.get? j = some f)
    (hheld : f.state.handle = t.handle) (hr : r' = r ∨ r' = (r.remove k).2) :
    Traced a program c₀ batch r' w := by
  obtain ⟨c, S, R, s, n, m, hc, rfl, rfl, hf, rfl, hg, hnext⟩ := h
  unfold Traced
  rw [hg, hnext]
  exact hc.step (.clashes c hf hj hheld hr)

/-- A merge gives the reached state back, or a state with a new node. -/
theorem merge_triple (he : r.get? k = some e) :
    Triple (Traced a program c₀ (q :: rest) r) ((merger a.merger).merge q.1 e.state p)
      (fun t w => t = e.state ∧ Traced a program c₀ (q :: rest) r w ∨
        Merged a program c₀ (q :: rest) r k e t w)
      (Spared (Traced a program c₀ (q :: rest) r)) := by
  refine .bind asGraphed_triple fun x => .assume ?_
  rintro ⟨_, hx⟩
  refine .bind asGraphed_triple fun y => .assume ?_
  rintro ⟨_, hy⟩
  have hS : q.1.graphNode? = some x.node := by rw [hx, State.graphNode?]
  have hR : e.state.graphNode? = some y.node := by rw [hy, State.graphNode?]
  have hwaits : x.node ∈ nodesOf (q :: rest) := mem_nodesOf.2 ⟨q, by simp, hS⟩
  refine .bind (focus_triple fun forward => forward.merge x.wrapped y.wrapped p) fun m =>
    .assume fun hm => ?_
  have hm : Answers (a.merger.merge (unwrapped q.1) (unwrapped e.state) p) m := by
    rw [hx, hy, unwrapped, unwrapped]
    exact hm
  dsimp only
  split
  · exact .pure fun _ hw => .inl ⟨rfl, hw⟩
  -- The scene before the merge is kept while its node is created, merged and given its state.
  refine .bind (R := fun i w => ∃ c, Leads a program c₀ c ∧ c.batch = q :: rest ∧ c.reached = r ∧
    i = c.newNode ∧ w.graph = (c.graph.create m.location? []).2 ∧ w.next = c.next)
    (fun w hw => ⟨⟨w.graph, w.next, q :: rest, r⟩, hw, rfl, rfl, rfl, rfl, rfl⟩)
    fun i => ?_
  let Fused (h : Handle) (g : ReachGraph ν) : Prop := ∃ c s n, Leads a program c₀ c ∧
    c.batch = q :: rest ∧ c.reached = r ∧ i = c.newNode ∧
    c.graph.Fusible (nodesOf c.batch) x.node y.node s n ∧
    g = c.graph.merging m.location? x.node y.node s n ∧ h = c.next
  refine .bind (R := fun _ w => Fused w.next w.graph)
    (change_triple (fun w => ?_) fun _ _ => trivial) fun _ => ?_
  · rintro g ⟨c, hc, hb, rfl, rfl, hg, hnext⟩
    have hrec : c.graph.Records (nodesOf c.batch) c.reached := hc.records
    have hmerge := Edit.merge_records hrec m.location? (by rw [hb]; exact hwaits) he hR
    refine hmerge.weaken (fun _ hg => hg) ?_ (fun _ _ _ => trivial) g hg
    rintro _ _ ⟨s, n, hf, hg⟩
    exact ⟨c, s, n, hc, hb, rfl, rfl, hf, hg, hnext⟩
  refine .bind (R := fun h w => Fused h w.graph ∧ w.next = h.next)
    (fun w hw => ⟨hw, rfl⟩) fun h => ?_
  refine .bind (R := fun _ w => Merged a program c₀ (q :: rest) r k e (.graphed h i m) w)
    (change_triple (fun w => .modify ?_) fun _ _ => trivial) fun _ => .pure fun _ hw => .inr hw
  rintro _ ⟨⟨c, s, n, hc, hb, hr, rfl, hf, rfl, rfl⟩, hnext⟩
  rw [withGraph_next] at hnext
  exact ⟨c, x.node, y.node, s, n, m, hc, hb, hr,
    ⟨by rw [hr]; exact he, hR, ⟨q, rest, hb, hS, p, hm⟩, hf⟩, rfl, withGraph_graph w _,
    (withGraph_next w _).trans hnext⟩

/-! ## Coverage -/

/-- The node of an entry may cover the node `b`, and its state covers `inner`. -/
def Coverer (a : Analysis ν ρ ω) (g : ReachGraph ν) (r : ReachedSet ν ρ θ) (inner : State ν)
    (b q : GraphNodeId) : Prop :=
  mayCover g q b = true ∧ ∃ k e p, r.get? k = some e ∧ e.state.graphNode? = some q ∧
    Answers (a.stopper.stop inner [unwrapped e.state] p) true

/-- The graph has accepted the node of the first successor, and the reached set has not changed
yet. -/
def Accepted (a : Analysis ν ρ ω) (program : Program) (c₀ : Scene ν ρ θ) (q : State ν × NodeId)
    (rest : Batch ν) (r : ReachedSet ν ρ θ) (w : World (Memory ω ν)) : Prop :=
  ∃ g b, Leads a program c₀ ⟨g, w.next, q :: rest, r⟩ ∧ q.1.graphNode? = some b ∧
    w.graph = g.accept b q.1

theorem Accepted.added (h : Accepted a program c₀ q rest r w)
    (hadd : r.add ⟨q.1, p, q.2, part⟩ = .ok (k, r')) : Traced a program c₀ rest r' w := by
  obtain ⟨g, b, hg, hb, hgraph⟩ := h
  unfold Traced
  rw [hgraph]
  exact hg.step (.admits _ rfl hb hadd)

theorem Accepted.strand (h : Accepted a program c₀ q rest r w)
    (hno : r.store.contains q.1 = true ∨ r.program.contains q.2 = false) :
    Traced a program c₀ rest r w := by
  obtain ⟨g, b, hg, hb, hgraph⟩ := h
  unfold Traced
  rw [hgraph]
  exact hg.step (.strands _ rfl hb hno)

/-- The stop operator takes the first successor off the ones that wait, or it has accepted its
node. -/
theorem stop_triple {rs : List (State ν)} (hrs : ∀ s ∈ rs, ∃ k e, r.get? k = some e ∧ e.state = s) :
    Triple (Traced a program c₀ (q :: rest) r) ((stopper a.stopper).stop q.1 rs p)
      (fun covered w => if covered then Traced a program c₀ rest r w
        else Accepted a program c₀ q rest r w)
      (Spared (Traced a program c₀ (q :: rest) r)) := by
  refine stop_rule (F := fun x i w => Traced a program c₀ (q :: rest) r w ∧
    Coverer a w.graph r x.wrapped x.node i) (fun _ _ hw => hw) fun h x hx => ?_
  have hnode : q.1.graphNode? = some x.node := by rw [hx, State.graphNode?]
  have hinner : unwrapped q.1 = x.wrapped := by rw [hx, unwrapped]
  refine ⟨fun t => .weaken (focus_triple fun forward => forward.stop x.wrapped [t] p)
    (fun _ hw => hw) (fun _ _ hw => hw.2) fun _ _ hw => hw, fun n i t recording ht hmay => ?_,
    fun i => change_triple (fun w => Edit.cover_triple ?_) fun _ _ => trivial, fun _ hw => hw,
    change_triple (fun w => Edit.accept_triple ?_) fun _ _ => trivial,
    change_triple (fun w => Edit.unlink_triple ?_) fun _ _ => trivial⟩
  · obtain ⟨k, e, he, hes⟩ := hrs _ ht
    have hkept : ∀ {w w' : World (Memory ω ν)} {answer}, Traced a program c₀ (q :: rest) r w →
        ((a.stopper.stop x.wrapped [t] p).focus .fst).run.run w = (answer, w') →
        Traced a program c₀ (q :: rest) r w' :=
      traced_of_inner fun forward => forward.stop x.wrapped [t] p
    refine .of_run ?_ ?_
    · rintro w covered w' ⟨rfl, hw⟩ hrun
      obtain ⟨hmemory, -, hanswers⟩ := inner_run hrun
      split
      · next hyes =>
        subst hyes
        refine ⟨hkept hw hrun, by rwa [World.graph, hmemory], k, e, p, he, ?_, ?_⟩
        · rw [hes, State.graphNode?]
        · rw [hes, unwrapped]
          exact hanswers true rfl
      · exact hkept hw hrun
    · rintro w (e | c) w' ⟨-, hw⟩ hrun
      · exact hkept hw hrun
      · trivial
  · rintro g ⟨hg, hmay, k, e, p', he, hi, hstop⟩
    exact hg.step (.covers _ rfl hnode he hi hmay (hinner ▸ hstop))
  · exact fun g hg => ⟨g, x.node, hg, hnode, rfl⟩
  · intro g old hg hold
    have hdrop : Step a program ⟨g, w.next, q :: rest, r⟩
        ⟨g.cut x.node old, w.next, [] ++ rest, r⟩ := .drops _ rfl hnode hold
    exact hg.step hdrop

/-! ## Initial states -/

/-- Since the scene nothing has happened but that handles were drawn. -/
def Unrooted (a : Analysis ν ρ ω) (c : Scene ν ρ θ) (w : World (Memory ω ν)) : Prop :=
  w.graph = c.graph ∧ (a.Forward → c.next.serial ≤ w.next.serial)

/-- Since the scene a root was added for the state, which has a new handle. -/
def Rooted (a : Analysis ν ρ ω) (c : Scene ν ρ θ) (s : State ν) (w : World (Memory ω ν)) :
    Prop :=
  ∃ h inner, s = .graphed h c.newNode inner ∧ w.graph = c.rooted h inner ∧
    (a.Forward → c.next.serial ≤ h.serial ∧ h.serial < w.next.serial)

omit [Waitlist θ ν] in
theorem initialState_triple {c : Scene ν ρ θ} {n : NodeId} :
    Triple (Unrooted a c) ((analysis a).initialState n part) (Rooted a c)
      (Spared (Unrooted a c)) := by
  have hinner : ∀ (w w' : World (Memory ω ν)) answer,
      ((a.initialState n part).focus .fst).run.run w = (answer, w') →
      Unrooted a c w → Unrooted a c w' := by
    rintro w w' answer hrun ⟨hg, hh⟩
    obtain ⟨hmemory, hkeeps, -⟩ := inner_run hrun
    refine ⟨(congrArg Recording.graph hmemory).trans hg, fun forward =>
      Nat.le_trans (hh forward) ?_⟩
    exact hkeeps (forward.initialState n part)
  refine .bind (R := fun _ => Unrooted a c)
    (.of_run (fun w _ w' hw hrun => hinner w w' _ hrun hw) ?_) fun inner => ?_
  · rintro w (e | _) w' hw hrun
    · exact hinner w w' _ hrun hw
    · trivial
  refine .bind peek_triple fun recording => ?_
  rintro w ⟨rfl, hg, hh⟩
  refine ⟨w.next, inner, ?_, ?_, fun forward => ⟨hh forward, Nat.lt_succ_self _⟩⟩
  · rw [Scene.newNode, ← hg]
  · rw [Scene.rooted, Scene.newNode, ← hg]
    rfl

omit [LeafValue ν] [Waitlist θ ν] in
theorem initialPrecision_triple [LeafValue ν] {c : Scene ν ρ θ} {n : NodeId} :
    Triple (Rooted a c s) ((analysis a).initialPrecision n part) (fun _ => Rooted a c s)
      (Spared (Rooted a c s)) := by
  have hinner : ∀ (w w' : World (Memory ω ν)) answer,
      ((a.initialPrecision n part).focus .fst).run.run w = (answer, w') →
      Rooted a c s w → Rooted a c s w' := by
    rintro w w' answer hrun ⟨h, inner, rfl, hg, hh⟩
    obtain ⟨hmemory, hkeeps, -⟩ := inner_run hrun
    refine ⟨h, inner, rfl, (congrArg Recording.graph hmemory).trans hg,
      fun forward => ⟨(hh forward).1, ?_⟩⟩
    exact Nat.lt_of_lt_of_le (hh forward).2 (hkeeps (forward.initialPrecision n part))
  refine .of_run (fun w _ w' hw hrun => hinner w w' _ hrun hw) ?_
  rintro w (e | _) w' hw hrun
  · exact hinner w w' _ hrun hw
  · trivial

end Recorder

end ProgramAnalysis
