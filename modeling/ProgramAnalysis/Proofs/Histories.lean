import ProgramAnalysis.Proofs.NestedOrder
import ProgramAnalysis.Proofs.Upkeep
/-!
What can happen to a nested analysis.

Each component of the tree of an assembly can be used on its own, and some can be changed from
outside: a mode is set, remembered answers are forgotten, the graph of a recording is refined. An
invariant of the memory that no component breaks (`Assembly.Upheld`) holds in every world that the
assembly can come to (`Assembly.Lived`). The assemblies of products and of wrappers have such
invariants if the assemblies inside do.
-/

namespace ProgramAnalysis

variable {ν ρ ω κ : Type}

/-! ## Components -/

namespace Tree

variable {α β : Type}

mutual

theorem map_snd_levels (depth depth' : Nat) : (t : Tree α) →
    (t.levels depth).map Prod.snd = (t.levels depth').map Prod.snd
  | .node a ts => congrArg (a :: ·) (map_snd_levelsAll (depth + 1) (depth' + 1) ts)

theorem map_snd_levelsAll (depth depth' : Nat) : (ts : List (Tree α)) →
    (levelsAll depth ts).map Prod.snd = (levelsAll depth' ts).map Prod.snd
  | [] => rfl
  | t :: ts => by
    unfold levelsAll
    rw [List.map_append, List.map_append, map_snd_levels depth depth' t,
      map_snd_levelsAll depth depth' ts]

end

theorem values_node (a : α) (ts : List (Tree α)) :
    (node a ts).values = a :: ts.flatMap values := by
  -- `values` starts each subtree at depth 0 and `levels` at depth 1; the values do not depend on it.
  have hall : ∀ l : List (Tree α), (levelsAll 1 l).map Prod.snd = l.flatMap values := by
    intro l
    induction l with
    | nil => rfl
    | cons t rest ih =>
      unfold levelsAll
      rw [List.map_append, ih, map_snd_levels 1 0 t]
      rfl
  exact congrArg (a :: ·) (hall ts)

mutual

theorem values_map (f : α → β) : (t : Tree α) → (t.map f).values = t.values.map f
  | .node a ts => by
    unfold map
    rw [values_node, values_node, flatMap_values_mapAll f ts]
    rfl

theorem flatMap_values_mapAll (f : α → β) : (ts : List (Tree α)) →
    (mapAll f ts).flatMap values = (ts.flatMap values).map f
  | [] => rfl
  | t :: ts => by
    unfold mapAll
    rw [List.flatMap_cons, List.flatMap_cons, List.map_append, values_map f t,
      flatMap_values_mapAll f ts]

end

end Tree

/-- What can happen to the memory of a component without a call of an operator: a mode is set, the
remembered answers are forgotten, the graph is refined. -/
def Role.Touches : Role ν ρ ω → ω → ω → Prop
  | counted _ _ (some mode), m, m' => ∃ x, m' = mode.set x m
  | product _ _ mode, m, m' => ∃ x, m' = mode.set x m
  | memo tables, m, m' => m' = tables.set (tables.get m).clear m
  | recorder recording, m, m' => ∃ r, m' = recording.set r m
  | _, m, m' => m' = m

/-- On a larger memory, a component is touched on its own part only. -/
theorem Role.touches_focus {slot : Slot ω κ} (hstill : ∀ m, slot.set (slot.get m) m = m)
    {role : Role ν ρ κ} {m m' : ω} (h : (role.focus slot).Touches m m') :
    ∃ n, role.Touches (slot.get m) n ∧ m' = slot.set n m := by
  have huntouched : m' = m → ∃ n, n = slot.get m ∧ m' = slot.set n m := by
    intro heq
    rw [heq]
    exact ⟨_, rfl, (hstill m).symm⟩
  cases role with
  | counted label calls mode =>
    cases mode with
    | none => exact huntouched h
    | some mode =>
      obtain ⟨x, hx⟩ := h
      exact ⟨_, ⟨x, rfl⟩, hx⟩
  | product arity merge mode =>
    obtain ⟨x, hx⟩ := h
    exact ⟨_, ⟨x, rfl⟩, hx⟩
  | memo tables => exact ⟨_, rfl, h⟩
  | recorder recording =>
    obtain ⟨x, hx⟩ := h
    exact ⟨_, ⟨x, rfl⟩, hx⟩
  | plain => exact huntouched h
  | monitor limits counts => exact huntouched h
  | property checker => exact huntouched h

/-- Neither the operators of the component nor what can happen to it besides break `I`. -/
structure Component.Keeps (c : Component ν ρ ω) (known : State ν → Prop) (I : ω → Prop) :
    Prop where
  operators : c.analysis.Upholds known I fun _ _ => True
  touch : ∀ m m', c.role.Touches m m' → I m → I m'

theorem Component.Keeps.focus {c : Component ν ρ ω} {known : State ν → Prop} {I : ω → Prop}
    {J : κ → Prop} (h : c.Keeps known I) {slot : Slot κ ω} (hslot : slot.Carries I J) :
    (c.focus slot).Keeps known J where
  operators := h.operators.focus hslot
  touch m m' htouch hm := by
    obtain ⟨n, hn, rfl⟩ := Role.touches_focus hslot.still htouch
    exact hslot.set m n hm (h.touch _ _ hn (hslot.get m hm))

/-- No component breaks `I`, and the merges of the root have `R`. -/
structure ComponentTree.Upheld (t : ComponentTree ν ρ ω) (known : State ν → Prop) (I : ω → Prop)
    (R : StateRel ν) : Prop where
  component : ∀ c ∈ t.values, c.Keeps known I
  root : t.value.analysis.Upholds known I R

namespace ComponentTree.Upheld

variable {t : ComponentTree ν ρ ω} {known : State ν → Prop} {I : ω → Prop} {J : κ → Prop}
  {R : StateRel ν}

theorem focus (h : Upheld t known I R) {slot : Slot κ ω} (hslot : slot.Carries I J) :
    Upheld (t.map (Component.focus slot)) known J R where
  component c hc := by
    rw [Tree.values_map] at hc
    obtain ⟨c', hc', rfl⟩ := List.mem_map.1 hc
    exact (h.component c' hc').focus hslot
  root := by
    rw [Tree.value_map]
    exact h.root.focus hslot

theorem node {c : Component ν ρ ω} {ts : List (ComponentTree ν ρ ω)}
    (hroot : c.analysis.Upholds known I R) (htouch : ∀ m m', c.role.Touches m m' → I m → I m')
    (hbelow : ∀ t ∈ ts, ∃ R', Upheld t known I R') : Upheld (.node c ts) known I R where
  component c' hc' := by
    rw [Tree.values_node] at hc'
    rcases List.mem_cons.1 hc' with rfl | hc'
    · exact ⟨hroot.weaken fun _ _ _ => trivial, htouch⟩
    · obtain ⟨t, ht, hmem⟩ := List.mem_flatMap.1 hc'
      obtain ⟨R', ht⟩ := hbelow t ht
      exact ht.component c' hmem
  root := hroot

end ComponentTree.Upheld

/-! ## Assemblies -/

namespace Assembly

variable {known : State ν → Prop} {R R' : StateRel ν}

/-- The memory starts with `I`, no component breaks it, and the merges of the root have `R`. -/
structure Upheld (a : Assembly ν ρ) (known : State ν → Prop) (I : a.Memory → Prop)
    (R : StateRel ν) : Prop where
  initial : I a.initial
  tree : ComponentTree.Upheld a.tree known I R

variable {a : Assembly ν ρ} {I : a.Memory → Prop}

/-- Without an invariant, only the merges of the root matter. -/
theorem upheld_of_gives
    (h : ∀ s r p, known r → Gives (a.analysis.merger.merge s r p) (R r)) :
    a.Upheld known (fun _ => True) R where
  initial := trivial
  tree :=
    { component := fun _ _ => ⟨.of_gives fun _ _ _ _ => .any _, fun _ _ _ _ => trivial⟩
      root := .of_gives h }

namespace Upheld

variable (h : a.Upheld known I R)

include h

theorem weaken (hR : ∀ r m, R r m → R' r m) : a.Upheld known I R' :=
  ⟨h.initial, h.tree.component, h.tree.root.weaken hR⟩

theorem wrap {J : κ → Prop} {name : String} {start : κ}
    {analysis : Analysis ν ρ (a.Memory × κ)} {role : Role ν ρ (a.Memory × κ)} (hstart : J start)
    (hroot : analysis.Upholds known (Both I J) R')
    (htouch : ∀ m m', role.Touches m m' → Both I J m → Both I J m') :
    (a.wrap name start analysis role).Upheld known (Both I J) R' where
  initial := ⟨h.initial, hstart⟩
  tree := .node hroot htouch fun _ ht => by
    rw [List.mem_singleton.1 ht]
    exact ⟨R, h.tree.focus .fst⟩

theorem checked (checker : Checker ν ρ) :
    (a.checked checker).Upheld known I R where
  initial := h.initial
  tree := .node h.tree.root (fun _ _ htouch hm => htouch ▸ hm) fun _ ht => by
    rw [List.mem_singleton.1 ht]
    exact ⟨R, h.tree⟩

theorem memo (hR : RespectsHandles known R) :
    a.memo.Upheld known (Both I (Memo.Honest known R)) R := by
  refine h.wrap Memo.honest_empty (Memo.upholds h.tree.root hR) fun m m' htouch hm => ?_
  cases htouch
  exact ⟨hm.1, Memo.honest_clear m.2⟩

variable [LeafValue ν]

theorem monitored (hk : Inherited known) (limits : Monitor.Limits) :
    (a.monitored limits).Upheld known (Both I fun _ => True) (Monitor.Lifted R) := by
  refine h.wrap trivial (Monitor.upholds h.tree.root hk limits) fun m m' htouch hm => ?_
  cases htouch
  exact hm

theorem recorded (hk : Inherited known) :
    a.recorded.Upheld known (Both I fun _ => True) (Recorder.Lifted R) := by
  refine h.wrap trivial (Recorder.upholds h.tree.root hk) fun m m' htouch hm => ?_
  obtain ⟨x, rfl⟩ := htouch
  exact hm

end Upheld

end Assembly

/-- The memory of analyses side by side starts with `I`, no component breaks it, and the merges of
the roots have the relations. -/
structure Gathering.Upheld (g : Gathering ν ρ) (known : State ν → Prop) (I : g.Memory → Prop)
    (Rs : List (StateRel ν)) : Prop where
  initial : I g.initial
  trees : List.Forall₂ (fun t R => ComponentTree.Upheld t known I R) g.trees Rs

namespace Assembly

variable {known : State ν → Prop} {as : List (Assembly ν ρ)} {Rs : List (StateRel ν)}

theorem gathered_nil : (gather [] : Gathering ν ρ).Upheld known (fun _ => True) [] :=
  ⟨trivial, .nil⟩

/-- The first analysis owns the first half of the memory, the others own the second half. -/
theorem gathered_cons {a : Assembly ν ρ} {I : a.Memory → Prop} {J : (gather as).Memory → Prop}
    {R : StateRel ν} (ha : a.Upheld known I R)
    (has : (gather as).Upheld known J Rs) :
    (gather (a :: as)).Upheld known (Both I J) (R :: Rs) where
  initial := ⟨ha.initial, has.initial⟩
  trees := .cons (ha.tree.focus .fst)
    (List.forall₂_map_left_iff.2 (has.trees.imp fun _ _ ht => ht.focus .snd))

theorem exists_gathered (h : List.Forall₂ (fun a R => ∃ I, a.Upheld known I R) as Rs) :
    ∃ I, (gather as).Upheld known I Rs := by
  induction h with
  | nil => exact ⟨_, gathered_nil⟩
  | cons hhead _ ih =>
    obtain ⟨I, hI⟩ := hhead
    obtain ⟨J, hJ⟩ := ih
    exact ⟨_, gathered_cons hI hJ⟩

variable [LeafValue ν] [LeafPrecision ρ]

theorem product_upheld {I : (gather as).Memory → Prop} (h : (gather as).Upheld known I Rs)
    (hk : Inherited known) (options : ProductOptions) :
    (product options as).Upheld known (Both I fun _ => True) (Product.Lifted Rs) := by
  have hroots : List.Forall₂ (fun a R => a.Upholds known I R)
      ((gather as).trees.map fun t => t.value.analysis) Rs :=
    List.forall₂_map_left_iff.2 (h.trees.imp fun t R ht => ht.root)
  refine ⟨⟨h.initial, trivial⟩,
    .node (Product.upholds hroots hk options) (fun m m' htouch hm => ?_) fun t ht => ?_⟩
  · obtain ⟨x, rfl⟩ := htouch
    exact hm
  · obtain ⟨t', ht', rfl⟩ := List.mem_map.1 ht
    obtain ⟨R, hR⟩ := exists_of_forall₂ h.trees ht'
    exact ⟨R, hR.focus .fst⟩

theorem exists_product (h : List.Forall₂ (fun a R => ∃ I, a.Upheld known I R) as Rs)
    (hk : Inherited known) (options : ProductOptions) :
    ∃ I, (product options as).Upheld known I (Product.Lifted Rs) := by
  obtain ⟨I, hI⟩ := exists_gathered h
  exact ⟨_, product_upheld hI hk options⟩

end Assembly

/-! ## Histories -/

/-- A call of an operator. -/
inductive Analysis.Call (ν ρ : Type) where
  | successors (s : State ν) (siblings : List (State ν)) (p : Precision ρ) (e : ProgramEdge)
  | strengthen (s : State ν) (siblings : List (State ν)) (e : ProgramEdge) (p : Precision ρ)
  | merge (s r : State ν) (p : Precision ρ)
  | stop (s : State ν) (rs : List (State ν)) (p : Precision ρ)
  | adjust (s : State ν) (p : Precision ρ) (around : Surroundings ν ρ)
  | fallback (s : State ν) (p : Precision ρ) (e : Error)
  | initialState (n : NodeId) (part : Partition)
  | initialPrecision (n : NodeId) (part : Partition)

namespace Analysis

/-- The reached state that the call merges into, if it is a merge. -/
def Call.reached? : Call ν ρ → Option (State ν)
  | merge _ r _ => some r
  | _ => none

/-- The world after a call, whether the call answers, fails or crashes. -/
def after (a : Analysis ν ρ ω) (w : World ω) : Call ν ρ → World ω
  | .successors s siblings p e => ((a.transfer.successors s siblings p e).run.run w).2
  | .strengthen s siblings e p => ((a.transfer.strengthen s siblings e p).run.run w).2
  | .merge s r p => ((a.merger.merge s r p).run.run w).2
  | .stop s rs p => ((a.stopper.stop s rs p).run.run w).2
  | .adjust s p around => ((a.adjuster.adjust s p around).run.run w).2
  | .fallback s p e => ((a.adjuster.fallback s p e).run.run w).2
  | .initialState n part => ((a.initialState n part).run.run w).2
  | .initialPrecision n part => ((a.initialPrecision n part).run.run w).2

theorem Upholds.after {a : Analysis ν ρ ω} {known : State ν → Prop} {I : ω → Prop}
    {R : StateRel ν} (h : a.Upholds known I R) {w : World ω} (hw : I w.memory)
    (c : Call ν ρ) (hc : ∀ r, c.reached? = some r → known r) : I (a.after w c).memory := by
  cases c with
  | successors s siblings p e => exact (h.successors s siblings p e).run hw
  | strengthen s siblings e p => exact (h.strengthen s siblings e p).run hw
  | merge s r p => exact (h.merge s r p (hc r rfl)).run hw
  | stop s rs p => exact (h.stop s rs p).run hw
  | adjust s p around => exact (h.adjust s p around).run hw
  | fallback s p e => exact (h.fallback s p e).run hw
  | initialState n part => exact (h.initialState n part).run hw
  | initialPrecision n part => exact (h.initialPrecision n part).run hw

end Analysis

namespace Assembly

/-- The worlds that an assembly can come to: operators of its components are called, its components
are touched, and the rest of the world changes. All states that were merged into are known. -/
inductive Lived (a : Assembly ν ρ) (known : State ν → Prop) : World a.Memory → Prop where
  | start {w : World a.Memory} (hw : w.memory = a.initial) : Lived a known w
  | call {w} (hw : Lived a known w) {c : Component ν ρ a.Memory}
      (hc : c ∈ a.tree.values) (call : Analysis.Call ν ρ)
      (hcall : ∀ r, call.reached? = some r → known r) : Lived a known (c.analysis.after w call)
  | touch {w} (hw : Lived a known w) {c : Component ν ρ a.Memory}
      (hc : c ∈ a.tree.values) {m : a.Memory} (hm : c.role.Touches w.memory m) :
      Lived a known { w with memory := m }
  | elsewhere {w w' : World a.Memory} (hw : Lived a known w) (hm : w'.memory = w.memory) :
      Lived a known w'

theorem Upheld.lived {a : Assembly ν ρ} {known : State ν → Prop} {I : a.Memory → Prop}
    {R : StateRel ν} (h : a.Upheld known I R) {w : World a.Memory}
    (hw : a.Lived known w) : I w.memory := by
  induction hw with
  | start hw =>
    rw [hw]
    exact h.initial
  | call _ hc call hcall ih => exact (h.tree.component _ hc).operators.after ih call hcall
  | touch _ hc hm ih => exact (h.tree.component _ hc).touch _ _ hm ih
  | elsewhere _ hm ih =>
    rw [hm]
    exact ih

end Assembly

end ProgramAnalysis
