import ProgramAnalysis.Proofs.MergeAbove
/-!
Merges that keep states apart.

An analysis can say of itself that its merges give the reached state back. A product says so if all
its components do, a wrapper if the analysis inside does. That this is true of every nesting is
shown here: such a merge has the handle of the reached state and changes no recorded graph, also
when a memo replays an answer from an earlier call. So the pass over the states at a place, which an
exploration leaves out for such an analysis, would change nothing.
-/

namespace ProgramAnalysis

variable {ν ρ ω κ ℓ γ δ : Type} {I : ω → Prop} {f : ω → γ}

/-! ## Recordings of a nesting -/

namespace ComponentTree

/-- The graphs that the components record, depth first. -/
def recordings (t : ComponentTree ν ρ ω) (m : ω) : List (Recorder.Recording ν) :=
  t.values.filterMap fun c => c.role.recorder?.map fun slot => slot.get m

theorem recordings_node (c : Component ν ρ ω) (ts : List (ComponentTree ν ρ ω)) (m : ω) :
    recordings (.node c ts) m =
      (c.role.recorder?.map fun slot => slot.get m).toList ++
        ts.flatMap fun t => t.recordings m := by
  unfold recordings
  rw [Tree.values_node, List.filterMap_cons, List.filterMap_flatMap]
  cases c.role.recorder?.map fun slot => slot.get m <;> rfl

theorem recordings_focus (t : ComponentTree ν ρ ω) (slot : Slot κ ω) (m : κ) :
    recordings (t.map (Component.focus slot)) m = t.recordings (slot.get m) := by
  unfold recordings
  rw [Tree.values_map, List.filterMap_map]
  refine List.filterMap_congr fun c _ => ?_
  obtain ⟨name, kind, analysis, role⟩ := c
  cases role <;> rfl

end ComponentTree

/-! ## Separating operators -/

namespace Yields

variable {ε α : Type} {I J : ω → Prop} {x : ExceptT ε (Effect ω) α} {Q : α → Prop}

theorem congr (h : Yields I x Q) (hI : ∀ m, J m ↔ I m) : Yields J x Q := by
  have heq : J = I := funext fun m => propext (hI m)
  rw [heq]
  exact h

/-- What is kept of every memory may be left out. -/
theorem of_kept (h : ∀ m₀, Yields (fun m => I m ∧ f m = f m₀) x Q) : Yields I x Q := by
  intro w hw
  have hx := h w.memory w ⟨hw, rfl⟩
  revert hx
  rcases x.run.run w with ⟨e | a, w'⟩
  · exact fun hx => hx.1
  · exact fun hx => ⟨hx.1, hx.2.1⟩

end Yields

/-- If the operator says that it keeps states apart, its answers have the handle of the reached
state. With the invariant `I`, it also keeps `f` of the memory. -/
def Merge.Apart (m : Merge ν ρ ω) (I : ω → Prop) (f : ω → γ) : Prop :=
  m.isSep = true → ∀ m₀ s r p,
    Yields (fun n => I n ∧ f n = f m₀) (m.merge s r p) fun t => t.handle = r.handle

theorem Merge.Apart.yields {m : Merge ν ρ ω} (h : m.Apart I f) (hsep : m.isSep = true)
    (s r : State ν) (p : Precision ρ) : Yields I (m.merge s r p) fun t => t.handle = r.handle :=
  .of_kept fun m₀ => h hsep m₀ s r p

theorem Analysis.apart_focus {a : Analysis ν ρ ω} {J : κ → Prop} {g : κ → δ} {slot : Slot κ ω}
    (h : a.merger.Apart I f) (hslot : slot.Carries I J)
    (hg : ∀ m n, f n = f (slot.get m) → g (slot.set n m) = g m) :
    (a.focus slot).merger.Apart J g := by
  intro hsep m₀ s r p w hw
  have hx := h hsep (slot.get w.memory) s r p (w.withMemory (slot.get w.memory))
    ⟨hslot.get _ hw.1, rfl⟩
  have hrun : (((a.focus slot).merger.merge s r p).run.run w) =
      (((a.merger.merge s r p).run.run (w.withMemory (slot.get w.memory))).1,
        ((a.merger.merge s r p).run.run (w.withMemory (slot.get w.memory))).2.withMemory
          (slot.set ((a.merger.merge s r p).run.run
            (w.withMemory (slot.get w.memory))).2.memory w.memory)) := rfl
  rw [hrun]
  revert hx
  rcases (a.merger.merge s r p).run.run (w.withMemory (slot.get w.memory)) with ⟨e | t, w'⟩
  · exact fun hx => ⟨hslot.set _ _ hw.1 hx.1, (hg _ _ hx.2).trans hw.2⟩
  · exact fun hx => ⟨hx.1, hslot.set _ _ hw.1 hx.2.1, (hg _ _ hx.2.2).trans hw.2⟩

theorem ComponentTree.apart_focus {t : ComponentTree ν ρ ω} {J : κ → Prop} {g : κ → δ}
    {slot : Slot κ ω} (h : t.value.analysis.merger.Apart I f) (hslot : slot.Carries I J)
    (hg : ∀ m n, f n = f (slot.get m) → g (slot.set n m) = g m) :
    (t.map (Component.focus slot)).value.analysis.merger.Apart J g := by
  rw [Tree.value_map]
  exact Analysis.apart_focus h hslot hg

/-! ## Products and wrappers -/

section

variable {a : Analysis ν ρ ω} {I : ω → Prop} {f : ω → γ}

/-- A replayed answer has the handle of the reached state, because it was given to a state with that
handle. -/
theorem Memo.apart (h : a.merger.Apart I f) :
    (analysis a).merger.Apart
      (Both I (Honest (fun _ => True) fun r t => a.merger.isSep = true → t.handle = r.handle))
      fun m => f m.1 := by
  intro hsep m₀ s r p
  have hinner := Analysis.apart_focus (g := fun m : ω × Tables ν ρ => f m.1) h
    (.fst (J := Honest (fun _ => True) fun r t => a.merger.isSep = true → t.handle = r.handle))
    (fun _ _ hn => hn) hsep m₀ s r p
  refine remembered_yields (fun m hm => ⟨⟨hm.1.1, ?_⟩, hm.2⟩) (fun m t hm ht => ?_) hinner
    fun m t hm ht => ⟨⟨hm.1.1, ?_⟩, hm.2⟩
  · intro k t hmem
    refine hm.1.2 k t ?_
    rw [← pairs_get m.2.merges (p.handle, s.handle, r.handle)]
    exact hmem
  · exact hm.1.2 _ t ht r trivial rfl hsep
  · refine hm.1.2.insert (r := r) ?_ trivial rfl fun _ => ht
    intro r r' t _ _ hhandle hsame hsep
    rw [hhandle]
    exact hsame hsep

variable [LeafValue ν] {as : List (Analysis ν ρ ω)}

theorem Monitor.apart (h : a.merger.Apart I f) (limits : Limits) :
    (analysis limits a).merger.Apart (Both I fun _ => True) fun m => f m.1 := by
  intro hsep m₀ s r p
  refine .bind (.ofExcept _) fun x _ => .bind (.ofExcept _) fun y _ => ?_
  split
  · exact .pure rfl
  have hinner := Analysis.apart_focus (g := fun m : ω × Counts => f m.1) h
    (.fst (J := fun _ => True)) (fun _ _ hn => hn) hsep m₀ x.wrapped y.wrapped p
  refine .bind hinner fun merged hmerged => ?_
  rw [if_pos hmerged]
  exact .pure rfl

/-- The graph is only changed for a merge that gives a new state. -/
theorem Recorder.apart {f : ω → List (Recording ν)} (h : a.merger.Apart I f) :
    (analysis a).merger.Apart (Both I fun _ => True) fun m => m.2 :: f m.1 := by
  intro hsep m₀ s r p
  refine .bind (.ofExcept _) fun x _ => .bind (.ofExcept _) fun y _ => ?_
  have hinner := Analysis.apart_focus (g := fun m : ω × Recording ν => m.2 :: f m.1) h
    (.fst (J := fun _ => True)) (fun m _ hn => congrArg (m.2 :: ·) hn) hsep m₀ x.wrapped y.wrapped p
  refine .bind hinner fun merged hmerged => ?_
  rw [if_pos hmerged]
  exact .pure rfl

/-- Whatever the kind of the merge, no component is changed. -/
theorem Product.mergeComponents_apart (kind : MergeKind) (hsep : ∀ a ∈ as, a.merger.isSep = true)
    (h : ∀ a ∈ as, a.merger.Apart I f) (m₀ : ω) (ss rs : List (State ν)) (ps : List (Precision ρ)) :
    Yields (fun m => I m ∧ f m = f m₀) (mergeComponents kind as ss rs ps) fun answer =>
      ∀ a ∈ answer, a.2 = false := by
  have hend : ∀ a ∈ some (([] : List (State ν)), false), a.2 = false := by
    intro a ha
    cases ha
    rfl
  induction as generalizing ss rs ps with
  | nil => exact .pure hend
  | cons a as ih =>
    cases ss with
    | nil => exact .pure hend
    | cons s ss =>
    cases rs with
    | nil => exact .pure hend
    | cons r rs =>
    cases ps with
    | nil => exact .pure hend
    | cons p ps =>
    have hrest := ih (fun b hb => hsep b (by simp [hb])) (fun b hb => h b (by simp [hb])) ss rs ps
    unfold mergeComponents
    split
    · split
      · exact hrest.mapSome fun _ hsame => hsame
      · exact .pure fun _ ha => by cases ha
    · refine .bind (h a (by simp) (hsep a (by simp)) m₀ s r p) fun merged hmerged => ?_
      refine .bind (.ofExcept _) fun accepted _ => ?_
      split
      · exact hrest.mapSome fun _ hsame => by simp [hmerged, hsame]
      · exact .pure fun _ ha => by cases ha

variable [LeafPrecision ρ]

theorem Product.apart (h : ∀ a ∈ as, a.merger.Apart I f) (o : ProductOptions) :
    (analysis o as).merger.Apart (Both I fun _ => True) fun m => f m.1 := by
  intro hsep m₀ s r p
  have hall : ∀ a ∈ as, a.merger.isSep = true := List.all_eq_true.1 hsep
  refine Yields.congr (I := Both (fun m => I m ∧ f m = f m₀.1) fun _ => True) ?_
    fun m => ⟨fun hm => ⟨⟨hm.1.1, hm.2⟩, trivial⟩, fun hm => ⟨⟨hm.1.1, trivial⟩, hm.1.2⟩⟩
  refine .bind (.ofOwn fun _ => rfl) fun _ _ => ?_
  refine .bind (.ofExcept _) fun parts _ => .bind (.ofExcept _) fun rs _ => ?_
  split
  · exact .pure rfl
  have hcomponents := mergeComponents_apart o.merge hall h m₀.1 parts.1 rs parts.2
  refine .bind hcomponents.fst fun answer hanswer => ?_
  split
  · next ms => cases hanswer _ rfl
  · exact .pure rfl

end

/-! ## Assemblies -/

theorem inherited_all : Inherited fun _ : State ν => True :=
  ⟨fun _ _ _ _ => trivial, fun _ _ _ _ => trivial⟩

/-- A wrapper adds at most one graph of its own. -/
theorem Assembly.recordings_wrap (a : Assembly ν ρ) (name : String) (start : κ)
    (analysis : Analysis ν ρ (a.Memory × κ)) (role : Role ν ρ (a.Memory × κ)) :
    (a.wrap name start analysis role).tree.recordings = fun m =>
      (role.recorder?.map fun slot => slot.get m).toList ++ a.tree.recordings m.1 := by
  funext m
  refine (ComponentTree.recordings_node _ [a.below κ] m).trans ?_
  rw [List.flatMap_singleton]
  exact congrArg _ (ComponentTree.recordings_focus a.tree .fst m)

/-- A leaf that tells the truth when it says that it keeps states apart, and records no graph. -/
structure Assembly.KeepsApart (a : Assembly ν ρ) : Prop where
  merge : a.analysis.merger.isSep = true → ∀ s r p,
    Gives (a.analysis.merger.merge s r p) fun t => t.handle = r.handle
  unrecorded : ∀ c ∈ a.tree.values, c.role.recorder? = none

namespace Assembly

/-- No component breaks `I`, and with `I` the merges of the root keep states apart if it says so. -/
structure Separates (a : Assembly ν ρ) (I : a.Memory → Prop) : Prop where
  upheld : a.Upheld (fun _ => True) I fun _ _ => True
  apart : a.analysis.merger.Apart I a.tree.recordings

variable {a : Assembly ν ρ} {I : a.Memory → Prop}

theorem KeepsApart.separates (h : a.KeepsApart) : a.Separates fun _ => True where
  upheld := upheld_of_gives fun _ _ _ _ => .any _
  apart := by
    intro hsep m₀ s r p
    have hnone : ∀ m, a.tree.recordings m = [] := by
      intro m
      refine List.filterMap_eq_nil_iff.2 fun c hc => ?_
      rw [h.unrecorded c hc]
      rfl
    refine Triple.weaken (h.merge hsep s r p) (fun _ _ => trivial) (fun _ _ ht => ⟨ht, trivial, ?_⟩)
      fun _ _ _ => ⟨trivial, ?_⟩
    · rw [hnone, hnone]
    · rw [hnone, hnone]

theorem location_separates [LeafValue ν] [LeafPrecision ρ] (program : Program) (first : Handle) :
    (location program first : Assembly ν ρ).Separates fun _ => True := by
  refine KeepsApart.separates ⟨fun _ s r p => .pure rfl, fun c hc => ?_⟩
  rw [List.mem_singleton.1 hc]
  rfl

namespace Separates

theorem checked (h : a.Separates I) (checker : Checker ν ρ) : (a.checked checker).Separates I where
  upheld := h.upheld.checked checker
  apart := by
    have hrecordings : (a.checked checker).tree.recordings = a.tree.recordings := by
      funext m
      refine (ComponentTree.recordings_node _ [a.tree] m).trans ?_
      rw [List.flatMap_singleton]
      rfl
    rw [hrecordings]
    exact h.apart

theorem memo (h : a.Separates I) :
    a.memo.Separates (Both I (Memo.Honest (fun _ => True) fun r t =>
      a.analysis.merger.isSep = true → t.handle = r.handle)) where
  upheld := by
    have hsame : a.Upheld (fun _ => True) I fun r t =>
        a.analysis.merger.isSep = true → t.handle = r.handle := by
      refine ⟨h.upheld.initial, h.upheld.tree.component, { h.upheld.tree.root with merge := ?_ }⟩
      intro s r p hr
      by_cases hsep : a.analysis.merger.isSep = true
      · exact (h.apart.yields hsep s r p).weaken fun t ht _ => ht
      · exact (h.upheld.tree.root.merge s r p hr).weaken fun t _ hsep' => absurd hsep' hsep
    refine (hsame.memo ?_).weaken fun _ _ _ => trivial
    intro r r' t _ _ hhandle ht hsep
    rw [hhandle]
    exact ht hsep
  apart := by
    have hrecordings : a.memo.tree.recordings = fun m => a.tree.recordings m.1 :=
      recordings_wrap a _ _ _ _
    rw [hrecordings]
    exact Memo.apart h.apart

variable [LeafValue ν]

theorem monitored (h : a.Separates I) (limits : Monitor.Limits) :
    (a.monitored limits).Separates (Both I fun _ => True) where
  upheld := (h.upheld.monitored inherited_all limits).weaken fun _ _ _ => trivial
  apart := by
    have hrecordings : (a.monitored limits).tree.recordings = fun m => a.tree.recordings m.1 :=
      recordings_wrap a _ _ _ _
    rw [hrecordings]
    exact Monitor.apart h.apart limits

theorem recorded (h : a.Separates I) : a.recorded.Separates (Both I fun _ => True) where
  upheld := (h.upheld.recorded inherited_all).weaken fun _ _ _ => trivial
  apart := by
    have hrecordings : a.recorded.tree.recordings = fun m => m.2 :: a.tree.recordings m.1 :=
      recordings_wrap a _ _ _ _
    rw [hrecordings]
    exact Recorder.apart h.apart

end Separates

end Assembly

/-- The graphs that analyses side by side record. -/
def Gathering.recordings (g : Gathering ν ρ) (m : g.Memory) : List (Recorder.Recording ν) :=
  g.trees.flatMap fun t => t.recordings m

/-- No component breaks `I`, and with `I` the merges of each root keep states apart if they say
so. -/
structure Gathering.Separates (g : Gathering ν ρ) (I : g.Memory → Prop) : Prop where
  upheld : ∃ Rs, g.Upheld (fun _ => True) I Rs
  apart : ∀ t ∈ g.trees, t.value.analysis.merger.Apart I g.recordings

namespace Assembly

variable {as : List (Assembly ν ρ)}

theorem flatMap_recordings_focus (ts : List (ComponentTree ν ρ ω)) (slot : Slot κ ω) (m : κ) :
    ((ts.map fun t => t.map (Component.focus slot)).flatMap fun t =>
      ComponentTree.recordings t m) = ts.flatMap fun t => t.recordings (slot.get m) := by
  rw [List.flatMap_map]
  refine List.flatMap_congr fun t _ => ?_
  exact ComponentTree.recordings_focus t slot m

theorem recordings_gather_cons (a : Assembly ν ρ) (m : (gather (a :: as)).Memory) :
    (gather (a :: as)).recordings m = a.tree.recordings m.1 ++ (gather as).recordings m.2 := by
  refine (List.flatMap_cons ..).trans ?_
  exact congrArg₂ _ (ComponentTree.recordings_focus a.tree .fst m)
    (flatMap_recordings_focus (gather as).trees .snd m)

theorem gathered_separates {a : Assembly ν ρ} {I : a.Memory → Prop} {J : (gather as).Memory → Prop}
    (ha : a.Separates I) (has : (gather as).Separates J) :
    (gather (a :: as)).Separates (Both I J) where
  upheld := by
    obtain ⟨Rs, hRs⟩ := has.upheld
    exact ⟨_, gathered_cons ha.upheld hRs⟩
  apart := by
    intro t ht
    obtain rfl | ht := List.mem_cons.1 ht
    · refine ComponentTree.apart_focus ha.apart .fst fun m n hn => ?_
      rw [recordings_gather_cons, recordings_gather_cons]
      exact congrArg (· ++ _) hn
    · obtain ⟨t', ht', rfl⟩ := List.mem_map.1 ht
      refine ComponentTree.apart_focus (has.apart t' ht') .snd fun m n hn => ?_
      rw [recordings_gather_cons, recordings_gather_cons]
      exact congrArg (_ ++ ·) hn

theorem exists_gathered_separates (h : ∀ a ∈ as, ∃ I, a.Separates I) :
    ∃ I, (gather as).Separates I := by
  induction as with
  | nil => exact ⟨fun _ => True, ⟨_, gathered_nil⟩, fun t ht => by cases ht⟩
  | cons a as ih =>
    obtain ⟨I, hI⟩ := h a List.mem_cons_self
    obtain ⟨J, hJ⟩ := ih fun b hb => h b (List.mem_cons_of_mem a hb)
    exact ⟨_, gathered_separates hI hJ⟩

variable [LeafValue ν] [LeafPrecision ρ]

theorem product_separates {I : (gather as).Memory → Prop} (h : (gather as).Separates I)
    (options : ProductOptions) : (product options as).Separates (Both I fun _ => True) where
  upheld := by
    obtain ⟨Rs, hRs⟩ := h.upheld
    exact (product_upheld hRs inherited_all options).weaken fun _ _ _ => trivial
  apart := by
    have hrecordings :
        (product options as).tree.recordings = fun m => (gather as).recordings m.1 := by
      funext m
      refine (ComponentTree.recordings_node _ _ m).trans ?_
      exact flatMap_recordings_focus (gather as).trees .fst m
    rw [hrecordings]
    refine Product.apart (fun a ha => ?_) options
    obtain ⟨t, ht, rfl⟩ := List.mem_map.1 ha
    exact h.apart t ht

end Assembly

/-! ## The pass over the states at a place -/

namespace Stage

variable {θ α : Type} {I : ω → Prop} {Q : α → Prop}

/-- The invariant of the memory, and the reached set as it was. -/
def Unmoved (I : ω → Prop) (r₀ : ReachedSet ν ρ θ) : View ν ρ ω θ :=
  fun w r _ => I w.memory ∧ r = r₀

theorem timed_unmoved {x : Action ω α} (h : Yields I x Q) (watch : Watch) (r₀ : ReachedSet ν ρ θ) :
    Triple (Machine.Meets (Unmoved I r₀)) (Stage.timed watch x)
      (fun a m => Q a ∧ Machine.Meets (Unmoved I r₀) m)
      fun _ => Machine.Meets (Unmoved I r₀) := by
  unfold Stage.timed
  refine .bind (ofPhase_triple
    (Q := fun o w r t => (∀ a, o = .ok a → Q a) ∧ Unmoved I r₀ w r t) fun r t =>
    Phase.timed_triple (P := fun w => Unmoved I r₀ w r t)
      (Q := fun o w => (∀ a, o = .ok a → Q a) ∧ Unmoved I r₀ w r t)
      (E := fun _ w => Unmoved I r₀ w r t) ?_ ?_ ?_) fun o => ?_
  · intro w a w' hw hx
    obtain ⟨ha, hw'⟩ := Triple.ok h hw.1 hx
    refine ⟨fun b hb => ?_, hw', hw.2⟩
    cases hb
    exact ha
  · intro w e w' hw hx
    exact ⟨fun a ha => (by cases ha), Triple.error h hw.1 hx, hw.2⟩
  · intro w c w' hw hx
    exact ⟨Triple.error h hw.1 hx, hw.2⟩
  · cases o with
    | ok a => exact .pure fun _ hm => ⟨hm.1 a rfl, hm.2⟩
    | error e => exact .throw fun _ hm => hm.2

end Stage

namespace Exploration

variable {θ : Type} [LeafValue ν] [Waitlist θ ν] {x : Exploration ν ρ ω} {I : ω → Prop}

theorem mergeEach_unmoved
    (h : ∀ s r p, ProgramAnalysis.Yields I (x.analysis.merger.merge s r p)
      fun t => t.handle = r.handle) (s : State ν) (p : Precision ρ) (place : Place)
    (ids : List EntryId) (r₀ : ReachedSet ν ρ θ) :
    Triple (Machine.Meets (Stage.Unmoved I r₀)) (x.mergeEach s p place ids)
      (fun _ => Machine.Meets (Stage.Unmoved I r₀))
      (fun _ => Machine.Meets (Stage.Unmoved I r₀)) := by
  induction ids with
  | nil => exact .pure fun _ hm => hm
  | cons id rest ih =>
    unfold mergeEach
    refine .bind Stage.reached_triple fun r₁ => ?_
    cases hget : r₁.get? id with
    | none => exact .pre ih fun _ hm => ⟨hm.2.1, hm.1.trans hm.2.2⟩
    | some e =>
      refine .bind (.pre (Stage.timed_unmoved (h s e.state p) .merge r₀)
        fun _ hm => ⟨hm.2.1, hm.1.trans hm.2.2⟩) fun merged => .assume fun hmerged => ?_
      rw [if_pos hmerged]
      exact ih

end Exploration

/-! ## Plans -/

theorem Facts.keepsApart (leaf : Leaf) : leaf.assemble.KeepsApart where
  merge := by
    intro hsep s r p
    have hchosen : (chosenMerge leaf.spec).isSep = true := hsep
    refine .bind (.any _) fun _ _ => ?_
    unfold chosenMerge at hchosen ⊢
    cases hkind : leaf.spec.merge with
    | sep => exact .pure rfl
    | _ =>
      rw [hkind] at hchosen
      cases hchosen
  unrecorded := by
    intro c hc
    rw [List.mem_singleton.1 hc]
    rfl

namespace Plan

section

variable [LeafValue ν] [LeafPrecision ρ] (program : Program) {leaves : ℓ → Assembly ν ρ}

mutual

theorem exists_separates (hleaves : ∀ label, (leaves label).KeepsApart) :
    (p : Plan ν ρ ℓ) → (first : Handle) → ∃ I, (p.assemble program leaves first).1.Separates I
  | .location, first => ⟨_, Assembly.location_separates program first⟩
  | .leaf label, _ => ⟨_, (hleaves label).separates⟩
  | .product options parts, first => by
    obtain ⟨I, hI⟩ := Assembly.exists_gathered_separates
      (all_exists_separates hleaves parts first)
    exact ⟨_, Assembly.product_separates hI options⟩
  | .recorded inner, first => by
    obtain ⟨I, hI⟩ := exists_separates hleaves inner first
    exact ⟨_, hI.recorded⟩
  | .memo inner, first => by
    obtain ⟨I, hI⟩ := exists_separates hleaves inner first
    exact ⟨_, hI.memo⟩
  | .monitored limits inner, first => by
    obtain ⟨I, hI⟩ := exists_separates hleaves inner first
    exact ⟨_, hI.monitored limits⟩
  | .checked checker inner, first => by
    obtain ⟨I, hI⟩ := exists_separates hleaves inner first
    exact ⟨_, hI.checked checker⟩

theorem all_exists_separates (hleaves : ∀ label, (leaves label).KeepsApart) :
    (ps : List (Plan ν ρ ℓ)) → (first : Handle) →
    ∀ a ∈ (assembleAll program leaves ps first).1, ∃ I, a.Separates I
  | [], _ => by
    intro a ha
    cases ha
  | p :: ps, first => by
    intro a ha
    obtain rfl | ha := List.mem_cons.1 ha
    · exact exists_separates hleaves p first
    · exact all_exists_separates hleaves ps _ a ha

end

/-- In every nesting of leaves that keep states apart if they say so, whatever has happened to the
analysis before: if the whole says that it keeps states apart, a merge gives the reached state back
and leaves every recorded graph as it is. So merging a state into any entries neither adds nor
removes one. -/
theorem separating_pass_idle {θ : Type} [Waitlist θ ν]
    (hleaves : ∀ label, (leaves label).KeepsApart) {plan : Plan ν ρ ℓ} {first : Handle}
    {a : Assembly ν ρ} (ha : (plan.assemble program leaves first).1 = a)
    (hsep : a.analysis.merger.isSep = true) :
    (∀ w s r p, a.Lived (fun _ => True) w →
      a.tree.recordings ((a.analysis.merger.merge s r p).run.run w).2.memory =
        a.tree.recordings w.memory ∧
      ∀ m, ((a.analysis.merger.merge s r p).run.run w).1 = .ok m → m.handle = r.handle) ∧
    ∀ (x : Exploration ν ρ a.Memory) (m : Machine ν ρ a.Memory θ) s p place ids,
      x.analysis = a.analysis → a.Lived (fun _ => True) m.meter.world →
      ((x.mergeEach s p place ids).run.run m).2.reached = m.reached ∧
      a.tree.recordings ((x.mergeEach s p place ids).run.run m).2.meter.world.memory =
        a.tree.recordings m.meter.world.memory := by
  have hseparates := exists_separates program hleaves plan first
  rw [ha] at hseparates
  obtain ⟨I, hI⟩ := hseparates
  constructor
  · intro w s r p hw
    have hmerge := hI.apart hsep w.memory s r p
    have hkept := hmerge.run ⟨hI.upheld.lived hw, rfl⟩
    refine ⟨hkept.2, fun m hm => ?_⟩
    exact (Triple.ok hmerge ⟨hI.upheld.lived hw, rfl⟩ (Prod.ext hm rfl)).1
  · intro x m s p place ids hx hm
    have hmerge := hI.apart hsep m.meter.world.memory
    rw [← hx] at hmerge
    have hpass := Exploration.mergeEach_unmoved hmerge s p place ids m.reached m
      ⟨⟨hI.upheld.lived hm, rfl⟩, rfl⟩
    revert hpass
    rcases (x.mergeEach s p place ids).run.run m with ⟨e | _, m'⟩
    · exact fun hpass => ⟨hpass.2, hpass.1.2⟩
    · exact fun hpass => ⟨hpass.2, hpass.1.2⟩

end

/-! ## A replayed merge -/

/-- A nesting of every kind whose leaves keep states apart. -/
def separatePlan : Plan FactValue Level Facts.Leaf :=
  .memo (.recorded (.checked (fun _ => .ok true) (.monitored {}
    (.product { merge := .hybrid, locationIndex := some 0 }
      [.location, .leaf ⟨"facts", "facts", { merge := .sep }⟩]))))

def separateAssembly : Assembly FactValue Level :=
  (separatePlan.assemble Exploration.fork Facts.Leaf.assemble ⟨0⟩).1

/-- Two roots were made, and the second was merged into the first. -/
def separateWorld : World separateAssembly.Memory :=
  let start : World separateAssembly.Memory := ⟨⟨50⟩, .empty, ⟨0⟩, ⟨0⟩, separateAssembly.initial⟩
  let first := separateAssembly.analysis.after start (.initialState ⟨0⟩ default)
  let second := separateAssembly.analysis.after first (.initialState ⟨0⟩ default)
  separateAssembly.analysis.after second
    (.merge (replayState 20 ⟨1⟩ [1]) (replayState 10 ⟨0⟩ [0]) replayPrecision)

theorem separate_pass_idle : ∃ m w',
    (separateAssembly.analysis.merger.merge (replayState 20 ⟨1⟩ [1]) (replayState 10 ⟨0⟩ [0])
      replayPrecision).run.run separateWorld = (.ok m, w') ∧ m.handle = ⟨10⟩ ∧
    separateAssembly.tree.recordings w'.memory =
      separateAssembly.tree.recordings separateWorld.memory := by
  obtain ⟨m, w', run, -⟩ := exists_ok_of_any
    ((separateAssembly.analysis.merger.merge (replayState 20 ⟨1⟩ [1]) (replayState 10 ⟨0⟩ [0])
      replayPrecision).run.run separateWorld) (fun _ => true) (by decide +kernel)
  have hroot : separateAssembly.tree.value ∈ separateAssembly.tree.values := List.mem_cons_self
  have hlived : separateAssembly.Lived (fun _ => True) separateWorld :=
    .call (.call (.call (.start rfl) hroot (.initialState ⟨0⟩ default) fun _ _ => trivial) hroot
      (.initialState ⟨0⟩ default) fun _ _ => trivial) hroot (.merge _ _ _) fun _ _ => trivial
  have hsep : separateAssembly.analysis.merger.isSep = true := by decide +kernel
  have hassemble : (separatePlan.assemble Exploration.fork Facts.Leaf.assemble ⟨0⟩).1 =
      separateAssembly := rfl
  have hidle := separating_pass_idle (θ := SimpleWaitlist) Exploration.fork Facts.keepsApart
    hassemble hsep
  have hmerge := hidle.1 separateWorld (replayState 20 ⟨1⟩ [1]) (replayState 10 ⟨0⟩ [0])
    replayPrecision hlived
  rw [run] at hmerge
  exact ⟨m, w', run, hmerge.2 m rfl, hmerge.1⟩

end Plan

end ProgramAnalysis
