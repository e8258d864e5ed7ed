import ProgramAnalysis.Proofs.Histories
/-!
A merge loses nothing of the reached state.

A leaf that joins asks its order whether the join lies above the reached state, and refuses the join
if not; so the answer of a merge is above the reached state whatever the join does. A product and a
wrapper either give the reached state back or put together answers from inside, so the same holds of
every nesting. The one exception would be a memo that replays an answer which it was given in
another call. Whatever has happened to the analysis before (`Assembly.Lived`: calls of operators of
any component, failed ones included, and what can be changed from outside), its table holds only
answers that lie above the reached state with the handle in the key.
-/

namespace ProgramAnalysis

variable {ν ρ ω ℓ : Type}

/-- The second state lies above the first one, if that has the given shape. -/
def Domain.Covers (d : Domain ν) (shape : State ν → Prop) (r m : State ν) : Prop :=
  shape r → d.Le r m

/-! ## Merges of leaves -/

/-- The merges that any domain can use, and such a merge after an effect of the leaf's own. -/
inductive Merge.Standard [LeafValue ν] (d : Domain ν) : Merge ν ρ ω → Prop where
  | sep : Standard d .sep
  | join : Standard d (.join d)
  | hybrid (mode : Slot ω MergeMode) (tactics : List (Merge.Tactic ν)) :
    Standard d (.hybrid mode d tactics)
  | noted {m} (note : Effect ω Nat) (hm : Standard d m) :
    Standard d ⟨fun s r p => do let _ ← Action.ofEffect note; m.merge s r p, m.isSep⟩

/-- The join is checked, so it need not be an upper bound. -/
theorem Merge.Standard.merge_gives [LeafValue ν] {d : Domain ν} {shape : State ν → Prop}
    {m : Merge ν ρ ω} (hm : Standard d m) (hd : d.Orders shape) (s r : State ν) (p : Precision ρ) :
    Gives (m.merge s r p) (d.Covers shape r) := by
  have hinto : Gives (d.joinInto s r) (d.Covers shape r) := by
    refine .of_run (fun h j h' _ run => ?_) fun _ _ _ _ _ => trivial
    rcases Domain.joinInto_eq_ok run with hsame | hjoined
    · rw [hsame.2.1]
      exact hd.refl r
    · exact fun _ => hjoined.2.1
  induction hm with
  | sep => exact .pure (hd.refl r)
  | join => exact .ofAlloc hinto
  | hybrid mode tactics =>
    refine .bind (.any _) fun _ _ => .bind (.any _) fun chosen _ => .bind (.any _) fun _ _ => ?_
    cases chosen with
    | sep => exact .pure (hd.refl r)
    | join => exact .ofAlloc hinto
  | noted note _ ih => exact .bind (.any _) fun _ _ => ih

theorem Facts.standard_merger {spec : Spec}
    (h : spec.merge = .sep ∨ spec.merge = .join ∨ spec.merge = .hybrid) :
    (merger spec).Standard (domain spec) := by
  refine .noted tallyMerge ?_
  unfold chosenMerge
  rcases h with h | h | h
  · rw [h]
    exact .sep
  · rw [h]
    exact .join
  · rw [h]
    exact .hybrid mode _

/-! ## Products and wrappers -/

theorem Product.leqComponents_of_merged {ds : List (Domain ν)} {shapes : List (State ν → Prop)}
    {rs ms : List (State ν)} (hd : List.Forall₂ (fun d shape => d.Orders shape) ds shapes)
    (hr : List.Forall₂ (fun shape r => shape r) shapes rs)
    (h : Merged (List.zipWith Domain.Covers ds shapes) rs ms) :
    leqComponents ds rs ms = .ok true ∧ ms.length = ds.length := by
  induction hd generalizing rs ms with
  | nil =>
    cases h
    exact ⟨rfl, rfl⟩
  | cons hhead _ ih =>
    cases hr with | cons hr hrs =>
    cases h with | cons hmerged htail =>
    obtain ⟨hle, hlen⟩ := ih hrs htail
    refine ⟨leqComponents_cons.2 ⟨?_, hle⟩, congrArg (· + 1) hlen⟩
    rcases hmerged with rfl | hcovers
    · exact hhead.refl _ hr
    · exact hcovers hr

section

variable [LeafValue ν] {d : Domain ν} {shape : State ν → Prop} {r m : State ν}

theorem Monitor.covers_of_lifted (hd : d.Orders shape) (h : Lifted (d.Covers shape) r m) :
    (domain d).Covers (State.MonitoredOf shape) r m := by
  intro hr
  rcases h with rfl | ⟨k, w, len, k', w', len', rfl, rfl, hle⟩
  · exact (orders hd).refl m hr
  · obtain ⟨_, _, _, _, heq, hw⟩ := hr
    cases heq
    exact le_iff.2 ⟨rfl, hle hw⟩

theorem Recorder.covers_of_lifted (hd : d.Orders shape) (h : Lifted (d.Covers shape) r m) :
    (domain d).Covers (State.GraphedOf shape) r m := by
  intro hr
  rcases h with rfl | ⟨k, n, w, k', n', w', rfl, rfl, hle⟩
  · exact (orders hd).refl m hr
  · obtain ⟨_, _, _, heq, hw⟩ := hr
    cases heq
    exact hle hw

theorem Product.covers_of_lifted {ds : List (Domain ν)} {shapes : List (State ν → Prop)}
    {index : Option Nat} (hd : List.Forall₂ (fun d shape => d.Orders shape) ds shapes)
    (h : Lifted (List.zipWith Domain.Covers ds shapes) r m) :
    (domain index ds).Covers (State.TupleOf shapes) r m := by
  intro hr
  rcases h with rfl | ⟨k, rs, x, k', ms, y, rfl, rfl, hmerged⟩
  · exact (orders hd).refl m hr
  · obtain ⟨_, _, _, heq, hrs⟩ := hr
    cases heq
    obtain ⟨hle, hlen⟩ := leqComponents_of_merged hd hrs hmerged
    exact (leq_tuple (hrs.length_eq.symm.trans hd.length_eq.symm) hlen).trans hle

end

/-! ## Plans -/

namespace Plan

section

variable [LeafValue ν] [LeafPrecision ρ] (program : Program) {leaves : ℓ → Assembly ν ρ}
  {leafShape : ℓ → State ν → Prop} {known : State ν → Prop}

mutual

/-- The induction on the plan: there is an invariant of the memory that makes every merge of the
root cover the reached state. -/
theorem exists_upheld (horders : ∀ label, (leaves label).analysis.domain.Orders (leafShape label))
    (hmergers : ∀ label,
      (leaves label).analysis.merger.Standard (leaves label).analysis.domain)
    (hk : Identified known) : (p : Plan ν ρ ℓ) → (first : Handle) →
    ∃ I, (p.assemble program leaves first).1.Upheld known I
      ((p.domain fun label => (leaves label).analysis.domain).Covers (p.shape leafShape))
  | .location, _ => ⟨_, Assembly.upheld_of_gives fun _ r _ _ => .pure (Location.orders.refl r)⟩
  | .leaf label, _ =>
    ⟨_, Assembly.upheld_of_gives fun s r p _ => (hmergers label).merge_gives (horders label) s r p⟩
  | .product options parts, first => by
    obtain ⟨I, hI⟩ := Assembly.exists_product
      (all_exists_upheld horders hmergers hk parts first) hk.toInherited options
    exact ⟨I, hI.weaken fun _ _ h => Product.covers_of_lifted (all_orders horders parts) h⟩
  | .recorded inner, first => by
    obtain ⟨I, hI⟩ := exists_upheld horders hmergers hk inner first
    exact ⟨_, (hI.recorded hk.toInherited).weaken fun _ _ h =>
      Recorder.covers_of_lifted (orders horders inner) h⟩
  | .memo inner, first => by
    obtain ⟨I, hI⟩ := exists_upheld horders hmergers hk inner first
    exact ⟨_, hI.memo (hk.respectsHandles _)⟩
  | .monitored limits inner, first => by
    obtain ⟨I, hI⟩ := exists_upheld horders hmergers hk inner first
    exact ⟨_, (hI.monitored hk.toInherited limits).weaken fun _ _ h =>
      Monitor.covers_of_lifted (orders horders inner) h⟩
  | .checked checker inner, first => by
    obtain ⟨I, hI⟩ := exists_upheld horders hmergers hk inner first
    exact ⟨_, hI.checked checker⟩

theorem all_exists_upheld
    (horders : ∀ label, (leaves label).analysis.domain.Orders (leafShape label))
    (hmergers : ∀ label,
      (leaves label).analysis.merger.Standard (leaves label).analysis.domain)
    (hk : Identified known) : (ps : List (Plan ν ρ ℓ)) → (first : Handle) →
    List.Forall₂ (fun a R => ∃ I, a.Upheld known I R) (assembleAll program leaves ps first).1
      (List.zipWith Domain.Covers (domains (fun label => (leaves label).analysis.domain) ps)
        (shapes leafShape ps))
  | [], _ => .nil
  | p :: ps, first =>
    .cons (exists_upheld horders hmergers hk p first) (all_exists_upheld horders hmergers hk ps _)

end

/-- In every nesting of leaves with a preorder and a standard merge, whatever has happened to the
analysis before, a merge that succeeds lies above the reached state. -/
theorem merge_covers_reached
    (horders : ∀ label, (leaves label).analysis.domain.Orders (leafShape label))
    (hmergers : ∀ label,
      (leaves label).analysis.merger.Standard (leaves label).analysis.domain)
    (hk : Identified known) (plan : Plan ν ρ ℓ) (first : Handle)
    {w w' : World (plan.assemble program leaves first).1.Memory}
    (hw : (plan.assemble program leaves first).1.Lived known w) {s r m : State ν}
    {p : Precision ρ} (hknown : known r) (hr : plan.shape leafShape r)
    (run : ((plan.assemble program leaves first).1.analysis.merger.merge s r p).run.run w =
      (.ok m, w')) :
    (plan.assemble program leaves first).1.analysis.domain.leq r m = .ok true := by
  obtain ⟨I, hI⟩ := exists_upheld program horders hmergers hk plan first
  rw [domain_assemble]
  exact (Triple.ok (hI.tree.root.merge s r p hknown) (hI.lived hw) run).1 hr

end

/-! ## A replayed merge -/

/-- Facts that are merged as the given tactics vote. -/
def votingLeaves (tactics : List Facts.TacticChoice) : Assembly FactValue Level :=
  Facts.Leaf.assemble ⟨"facts", "facts", { join := .copy, merge := .hybrid, tactics := tactics }⟩

/-- A nesting of every kind, with the memo around the recorder. -/
def replayPlan : Plan FactValue Level (List Facts.TacticChoice) :=
  .memo (.recorded (.checked (fun _ => .ok true) (.monitored {}
    (.product { merge := .hybrid, locationIndex := some 0 }
      [.location, .leaf [.successorHas 1]]))))

def replayAssembly : Assembly FactValue Level :=
  (replayPlan.assemble Exploration.fork votingLeaves ⟨0⟩).1

/-- A state of the nesting and all states inside it. -/
def replayStates (h : Nat) (node : GraphNodeId) (facts : List Nat) : List (State FactValue) :=
  let location := State.location ⟨0⟩ ⟨0⟩
  let leaf := State.leaf ⟨h + 3⟩ (.make .empty (FactSet.empty.insertAll facts) none)
  let pair := State.tuple ⟨h + 2⟩ [location, leaf] (some ⟨0⟩)
  let monitored := State.monitored ⟨h + 1⟩ pair 1 none
  [.graphed ⟨h⟩ node monitored, monitored, pair, location, leaf]

def replayState (h : Nat) (node : GraphNodeId) (facts : List Nat) : State FactValue :=
  (replayStates h node facts).head (List.cons_ne_nil _ _)

def replayPrecision : Precision Level := .tuple ⟨30⟩ [.plain ⟨31⟩, .plain ⟨32⟩]

theorem identified_replayStates : Identified fun t => t ∈ replayStates 10 ⟨0⟩ [0] where
  eq_of_handle s t hs ht h := List.inj_on_of_nodup_map (by decide) hs ht h
  component s c hs hc := by
    simp only [replayStates, List.mem_cons, List.not_mem_nil, or_false] at hs ⊢
    rcases hs with rfl | rfl | rfl | rfl | rfl <;> simp_all [State.components]
  wrapped s t hs ht := by
    simp only [replayStates, List.mem_cons, List.not_mem_nil, or_false] at hs ⊢
    rcases hs with rfl | rfl | rfl | rfl | rfl <;> simp_all [State.wrapped?]

/-- Two roots were made, and the second was merged into the first. -/
def replayWorld : World replayAssembly.Memory :=
  let start : World replayAssembly.Memory := ⟨⟨50⟩, .empty, ⟨0⟩, ⟨0⟩, replayAssembly.initial⟩
  let first := replayAssembly.analysis.after start (.initialState ⟨0⟩ default)
  let second := replayAssembly.analysis.after first (.initialState ⟨0⟩ default)
  replayAssembly.analysis.after second
    (.merge (replayState 20 ⟨1⟩ [1]) (replayState 10 ⟨0⟩ [0]) replayPrecision)

theorem replay_covers_reached : ∃ m w',
    (replayAssembly.analysis.merger.merge (replayState 20 ⟨1⟩ [1]) (replayState 10 ⟨0⟩ [0])
      replayPrecision).run.run replayWorld = (.ok m, w') ∧ m.handle ≠ ⟨10⟩ ∧
    replayAssembly.analysis.domain.leq (replayState 10 ⟨0⟩ [0]) m = .ok true := by
  obtain ⟨m, w', run, hm⟩ := exists_ok_of_any
    ((replayAssembly.analysis.merger.merge (replayState 20 ⟨1⟩ [1]) (replayState 10 ⟨0⟩ [0])
      replayPrecision).run.run replayWorld) (fun m => m.handle ≠ ⟨10⟩) (by decide +kernel)
  have hroot : replayAssembly.tree.value ∈ replayAssembly.tree.values := List.mem_cons_self
  have hlived : replayAssembly.Lived (fun t => t ∈ replayStates 10 ⟨0⟩ [0]) replayWorld := by
    refine .call (.call (.call (.start rfl) hroot (.initialState ⟨0⟩ default) fun r hr => ?_) hroot
      (.initialState ⟨0⟩ default) fun r hr => ?_) hroot (.merge _ _ _) fun r hr => ?_
    · cases hr
    · cases hr
    · cases hr
      exact List.mem_cons_self
  refine ⟨m, w', run, of_decide_eq_true hm, ?_⟩
  have horders : ∀ tactics, (votingLeaves tactics).analysis.domain.Orders Facts.IsLeaf :=
    fun _ => Facts.orders rfl
  refine merge_covers_reached Exploration.fork horders
    (fun _ => Facts.standard_merger (.inr (.inr rfl))) identified_replayStates replayPlan ⟨0⟩
    hlived List.mem_cons_self ?_ run
  exact ⟨_, _, _, rfl, _, _, _, _, rfl, _, _, _, rfl,
    .cons ⟨_, _, rfl⟩ (.cons ⟨_, _, rfl⟩ .nil)⟩

end Plan

end ProgramAnalysis
