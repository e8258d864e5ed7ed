import ProgramAnalysis.Proofs.PathBudget
import ProgramAnalysis.Proofs.ProductSoundness
import ProgramAnalysis.Proofs.RecorderOperators
/-!
What operators do to the memory of a nested analysis.

An invariant of the memory of an analysis (`Analysis.Upholds`) is one that no operator breaks,
whether it answers, fails or crashes. Each way to nest analyses turns an invariant of the parts into
one of the whole: what is inside works on its own part of the memory, and what is around it only
changes what it remembers itself.

A merge may be promised to have a relation between the reached state and the answer. Products and
wrappers carry such a promise from the states inside to their own (`Lifted`). A memo keeps it only
because its table holds no answer that breaks it (`Memo.Honest`): a replayed answer was given to a
reached state that has the handle in the key. That is enough if the relation sees no more of the
reached state than its handle (`RespectsHandles`), as any relation does if handles tell the known
states apart (`Identified`).
-/

namespace ProgramAnalysis

variable {ν ρ ω κ ε α β : Type} {x : ExceptT ε (Effect ω) α} {as : List (Analysis ν ρ ω)}
  {Rs : List (StateRel ν)} {known : State ν → Prop}

theorem exists_of_forall₂ {S : α → β → Prop} {as : List α} {bs : List β} {a : α}
    (h : List.Forall₂ S as bs) (ha : a ∈ as) : ∃ b, S a b := by
  induction h with
  | nil => cases ha
  | cons hhead _ ih =>
    rcases List.mem_cons.1 ha with rfl | ha
    · exact ⟨_, hhead⟩
    · exact ih ha

/-! ## Computations that keep an invariant of the memory -/

/-- Started on a memory with `I`, the computation leaves one with `I`, and its answer has `Q`. -/
def Yields (I : ω → Prop) (x : ExceptT ε (Effect ω) α) (Q : α → Prop) : Prop :=
  Triple (fun w => I w.memory) x (fun a w => Q a ∧ I w.memory) fun _ w => I w.memory

/-- The computation breaks `I` neither when it answers nor when it fails. -/
abbrev Preserves (I : ω → Prop) (x : ExceptT ε (Effect ω) α) : Prop := Yields I x fun _ => True

/-- An invariant of each part of a memory. -/
def Both (I : ω → Prop) (J : κ → Prop) (m : ω × κ) : Prop := I m.1 ∧ J m.2

/-- The invariant `J` of a memory asks `I` of the part in the slot, and of that part nothing
else. -/
structure Slot.Carries (slot : Slot κ ω) (I : ω → Prop) (J : κ → Prop) : Prop where
  get : ∀ m, J m → I (slot.get m)
  set : ∀ m n, J m → I n → J (slot.set n m)
  still : ∀ m, slot.set (slot.get m) m = m

theorem Slot.Carries.fst {I : ω → Prop} {J : κ → Prop} : Slot.fst.Carries I (Both I J) where
  get _ hm := hm.1
  set _ _ hm hn := ⟨hn, hm.2⟩
  still _ := rfl

theorem Slot.Carries.snd {I : ω → Prop} {J : κ → Prop} : Slot.snd.Carries J (Both I J) where
  get _ hm := hm.2
  set _ _ hm hn := ⟨hm.1, hn⟩
  still _ := rfl

namespace Yields

variable {I : ω → Prop} {J : κ → Prop} {Q : α → Prop}

theorem run (h : Yields I x Q) {w : World ω} (hw : I w.memory) : I (x.run.run w).2.memory := by
  rcases hx : x.run.run w with ⟨e | a, w'⟩
  · exact Triple.error h hw hx
  · exact (Triple.ok h hw hx).2

theorem steady (h : Yields I x Q) : Steady (fun w => I w.memory) x :=
  Triple.post h fun _ _ hw => hw.2

theorem of_steady (h : Steady (fun w => I w.memory) x) : Preserves I x :=
  Triple.post h fun _ _ hw => ⟨trivial, hw⟩

theorem of_memory (h : ∀ w, I w.memory → I (x.run.run w).2.memory) : Preserves I x := by
  intro w hw
  have hx := h w hw
  revert hx
  rcases x.run.run w with ⟨e | a, w'⟩
  · exact id
  · exact fun hx => ⟨trivial, hx⟩

theorem weaken {Q' : α → Prop} (h : Yields I x Q) (hQ : ∀ a, Q a → Q' a) : Yields I x Q' :=
  Triple.post h fun a _ hw => ⟨hQ a hw.1, hw.2⟩

theorem pure {a : α} (h : Q a) : Yields I (pure a : ExceptT ε (Effect ω) α) Q :=
  Triple.pure fun _ hw => ⟨h, hw⟩

theorem throw {e : ε} : Yields I (throw e : ExceptT ε (Effect ω) α) Q :=
  Triple.throw fun _ hw => hw

theorem bind {f : α → ExceptT ε (Effect ω) β} {Q' : β → Prop} (hx : Yields I x Q)
    (hf : ∀ a, Q a → Yields I (f a) Q') : Yields I (x >>= f) Q' :=
  Triple.bind hx fun a w hw => hf a hw.1 w hw.2

theorem mapSome {x : ExceptT ε (Effect ω) (Option α)} {P : α → Prop} {Q' : β → Prop} {g : α → β}
    (hx : Yields I x fun answer => ∀ a ∈ answer, P a) (hg : ∀ a, P a → Q' (g a)) :
    Yields I (x >>= fun answer => Pure.pure (answer.map g)) fun answer => ∀ b ∈ answer, Q' b := by
  refine hx.bind fun answer hanswer => .pure fun b hb => ?_
  obtain ⟨a, ha, rfl⟩ := Option.mem_map.1 hb
  exact hg a (hanswer a ha)

/-- A computation that cannot fail. -/
theorem ofEffect {e : Effect ω α} (h : ∀ w, I w.memory → I (e.run w).2.memory) :
    Preserves I (ExceptT.mk do return .ok (← e) : ExceptT ε (Effect ω) α) :=
  fun w hw => ⟨trivial, h w hw⟩

theorem ofExcept (r : Except Error α) :
    Yields I (Action.ofExcept r : Action ω α) fun a => r = .ok a := by
  intro w hw
  cases r with
  | ok a => exact ⟨rfl, hw⟩
  | error e => exact hw

/-- To draw handles changes no memory. -/
theorem ofAlloc {x : Alloc α} (h : Gives x Q) : Yields I (Action.ofAlloc x : Action ω α) Q := by
  intro w hw
  have hx := Gives.ofAlloc h w trivial
  have hmemory : ((Action.ofAlloc x : Action ω α).run.run w).2.memory = w.memory := rfl
  revert hx hmemory
  rcases (Action.ofAlloc x : Action ω α).run.run w with ⟨e | a, w'⟩
  · intro _ hmemory
    dsimp only at hmemory ⊢
    rw [hmemory]
    exact hw
  · intro hx hmemory
    dsimp only at hmemory ⊢
    rw [hmemory]
    exact ⟨hx, hw⟩

theorem fresh : Preserves I (Action.fresh : Action ω Handle) := ofEffect fun _ hw => hw

theorem ofAttempt {x : Attempt ω α} (h : Yields I x Q) : Yields I (Action.ofAttempt x) Q :=
  Recorder.ofAttempt_rule h

theorem attempt {x : Action ω α} (h : Preserves I x) : Preserves I x.attempt :=
  Action.attempt_triple (fun _ _ _ hw hx => ⟨trivial, (Triple.ok h hw hx).2⟩)
    (fun _ _ _ hw hx => ⟨trivial, Triple.error h hw hx⟩) fun _ _ _ hw hx => Triple.error h hw hx

/-! ### Parts of a memory -/

theorem focus {slot : Slot κ ω} (h : Yields I x Q) (hslot : slot.Carries I J) :
    Yields J (ExceptT.mk (Effect.focus slot x.run) : ExceptT ε (Effect κ) α) Q := by
  intro w hw
  have hx := h (w.withMemory (slot.get w.memory)) (hslot.get _ hw)
  rw [run_focus]
  revert hx
  rcases x.run.run (w.withMemory (slot.get w.memory)) with ⟨e | a, w'⟩
  · exact fun hx => hslot.set _ _ hw hx
  · exact fun hx => ⟨hx.1, hslot.set _ _ hw hx.2⟩

theorem fst (h : Yields I x Q) : Yields (Both I J) (ExceptT.mk (Effect.focus .fst x.run)) Q :=
  h.focus .fst

/-- What a wrapper remembers itself does not matter to what is inside. -/
theorem ofOwn {e : Effect (ω × κ) α} (h : ∀ w, (e.run w).2.memory.1 = w.memory.1) :
    Preserves (Both I fun _ => True)
      (ExceptT.mk do return .ok (← e) : ExceptT ε (Effect (ω × κ)) α) :=
  ofEffect fun w hw => ⟨(h w).symm ▸ hw.1, trivial⟩

end Yields

/-! ## Analyses -/

/-- The operators keep `I` of the memory. If the reached state is known, the answer of a merge
stands in the relation `R` to it. -/
structure Analysis.Upholds (a : Analysis ν ρ ω) (known : State ν → Prop) (I : ω → Prop)
    (R : StateRel ν) : Prop where
  successors : ∀ s siblings p e, Preserves I (a.transfer.successors s siblings p e)
  strengthen : ∀ s siblings e p, Preserves I (a.transfer.strengthen s siblings e p)
  merge : ∀ s r p, known r → Yields I (a.merger.merge s r p) (R r)
  stop : ∀ s rs p, Preserves I (a.stopper.stop s rs p)
  adjust : ∀ s p around, Preserves I (a.adjuster.adjust s p around)
  fallback : ∀ s p e, Preserves I (a.adjuster.fallback s p e)
  initialState : ∀ n part, Preserves I (a.initialState n part)
  initialPrecision : ∀ n part, Preserves I (a.initialPrecision n part)

/-- The states inside a known state are known. -/
structure Inherited (known : State ν → Prop) : Prop where
  component : ∀ s c, known s → c ∈ s.components → known c
  wrapped : ∀ s t, known s → s.wrapped? = some t → known t

/-- Handles tell the states apart, and so they do with the states inside them. -/
structure Identified (known : State ν → Prop) : Prop extends Inherited known where
  eq_of_handle : ∀ s t, known s → known t → s.handle = t.handle → s = t

/-- The relation sees no more of a known state than its handle. -/
def RespectsHandles (known : State ν → Prop) (R : StateRel ν) : Prop :=
  ∀ r r' m, known r → known r' → r'.handle = r.handle → R r m → R r' m

theorem Identified.respectsHandles (h : Identified known) (R : StateRel ν) :
    RespectsHandles known R := by
  intro r r' m hr hr' hhandle hm
  rw [h.eq_of_handle r' r hr' hr hhandle]
  exact hm

namespace Analysis.Upholds

variable {a : Analysis ν ρ ω} {known : State ν → Prop} {I : ω → Prop} {J : κ → Prop}
  {R : StateRel ν}

theorem weaken (h : a.Upholds known I R) {R' : StateRel ν}
    (hR : ∀ r m, R r m → R' r m) : a.Upholds known I R' :=
  { h with merge := fun s r p hr => (h.merge s r p hr).weaken (hR r) }

theorem focus (h : a.Upholds known I R) {slot : Slot κ ω} (hslot : slot.Carries I J) :
    (a.focus slot).Upholds known J R where
  successors s siblings p e := (h.successors s siblings p e).focus hslot
  strengthen s siblings e p := (h.strengthen s siblings e p).focus hslot
  merge s r p hr := (h.merge s r p hr).focus hslot
  stop s rs p := (h.stop s rs p).focus hslot
  adjust s p around := (h.adjust s p around).focus hslot
  fallback s p e := (h.fallback s p e).focus hslot
  initialState n part := (h.initialState n part).focus hslot
  initialPrecision n part := (h.initialPrecision n part).focus hslot

/-- Without an invariant there is nothing to break. -/
theorem of_gives (h : ∀ s r p, known r → Gives (a.merger.merge s r p) (R r)) :
    a.Upholds known (fun _ => True) R := by
  have hany : ∀ {ε α : Type} (x : ExceptT ε (Effect ω) α), Preserves (fun _ => True) x :=
    fun x => .of_memory fun _ _ => trivial
  refine ⟨fun _ _ _ _ => hany _, fun _ _ _ _ => hany _, fun s r p hr => ?_, fun _ _ _ => hany _,
    fun _ _ _ => hany _, fun _ _ _ => hany _, fun _ _ => hany _, fun _ _ => hany _⟩
  exact Triple.weaken (h s r p hr) (fun _ _ => trivial) (fun _ _ hw => ⟨hw, trivial⟩)
    fun _ _ _ => trivial

end Analysis.Upholds

/-! ## Remembered answers -/

namespace Memo

variable {a : Analysis ν ρ ω} {known : State ν → Prop} {I : ω → Prop} {R : StateRel ν}

/-- Each remembered merge stands in the relation `R` to the known state with the handle in its
key. -/
def Honest (known : State ν → Prop) (R : StateRel ν) (t : Tables ν ρ) : Prop :=
  ∀ (k : MergeKey) (m : State ν), (k, m) ∈ t.merges.pairs →
    ∀ r, known r → r.handle = k.2.2 → R r m

theorem honest_empty : Honest known R (Tables.empty : Tables ν ρ) := by
  intro k m hmem
  cases hmem

theorem honest_clear (t : Tables ν ρ) : Honest known R t.clear := by
  intro k m hmem
  cases hmem

theorem Honest.insert {t : Tables ν ρ} {k : MergeKey} {r m : State ν} (ht : Honest known R t)
    (hR : RespectsHandles known R) (hr : known r) (hkey : k.2.2 = r.handle) (hm : R r m) :
    Honest known R { t with merges := t.merges.insert k m } := by
  intro k' m' hmem r' hr' hhandle
  rcases List.mem_cons.1 hmem with heq | hold
  · cases heq
    exact hR r r' m hr hr' (hhandle.trans hkey) hm
  · exact ht k' m' (List.mem_filter.1 hold).1 r' hr' hhandle

/-- A look-up changes only the counts. -/
theorem pairs_get [DecidableEq κ] (c : Cache κ β) (k : κ) : (c.get k).2.pairs = c.pairs := by
  unfold Cache.get
  split <;> rfl

theorem mem_of_get [DecidableEq κ] {c : Cache κ β} {k : κ} {b : β} (h : (c.get k).1 = some b) :
    (k, b) ∈ c.pairs := by
  have hfind : c.find? k = some b := by
    unfold Cache.get at h
    split at h
    · next hfound =>
      cases h
      exact hfound
    · cases h
  obtain ⟨pair, hpair, rfl⟩ := Option.map_eq_some_iff.1 hfind
  have hkey : pair.1 = k := by simpa using List.find?_some hpair
  rw [← hkey]
  exact List.mem_of_find?_eq_some hpair

/-- The rule for an operator whose answers are remembered. -/
theorem remembered_yields [DecidableEq κ] {J : ω → Prop} {Q : β → Prop} {slot : Slot ω (Cache κ β)}
    {k : κ} {compute : Action ω β} (hlookup : ∀ m, J m → J (slot.set ((slot.get m).get k).2 m))
    (hfound : ∀ m b, J m → (k, b) ∈ (slot.get m).pairs → Q b) (hcompute : Yields J compute Q)
    (hinsert : ∀ m b, J m → Q b → J (slot.set ((slot.get m).insert k b) m)) :
    Yields J (remembered slot k compute) Q := by
  have hlook : Yields J (Action.ofEffect (lookup slot k)) fun found =>
      ∀ b, found = some b → Q b :=
    fun w hw => ⟨fun b hb => hfound w.memory b hw (mem_of_get hb), hlookup w.memory hw⟩
  unfold remembered
  refine .bind hlook fun found hanswer => ?_
  split
  · next b => exact .pure (hanswer b rfl)
  · refine .bind hcompute fun b hb => ?_
    have hremember : Preserves J (Action.remember slot fun c => c.insert k b) :=
      .ofEffect fun w hw => hinsert w.memory b hw hb
    exact .bind hremember fun _ _ => .pure hb

theorem upholds (h : a.Upholds known I R) (hR : RespectsHandles known R) :
    (analysis a).Upholds known (Both I (Honest known R)) R :=
  { h.focus .fst with
    merge := fun s r p hr => by
      refine remembered_yields (fun m hm => ⟨hm.1, ?_⟩) (fun m b hm hb => ?_)
        (h.merge s r p hr).fst fun m b hm hb => ⟨hm.1, hm.2.insert hR hr rfl hb⟩
      · intro k b hmem
        refine hm.2 k b ?_
        rw [← pairs_get m.2.merges (p.handle, s.handle, r.handle)]
        exact hmem
      · exact hm.2 _ b hb r hr rfl
    adjust := fun s p around => remembered_yields (fun m hm => hm) (fun _ _ _ _ => trivial)
      (h.adjust s p around).fst fun m b hm _ => hm
    fallback := fun s p e => (h.fallback s p e).fst }

end Memo

/-! ## Budgets -/

namespace Monitor

variable {a : Analysis ν ρ ω} {known : State ν → Prop} {I : ω → Prop} {R : StateRel ν}

/-- Only live states are merged, and the relation holds inside. -/
def Lifted (R : StateRel ν) (r m : State ν) : Prop :=
  m = r ∨ ∃ h w len h' w' len', r = .monitored h w len none ∧ m = .monitored h' w' len' none ∧
    R w w'

theorem run_rewrap_memory (s : State ν) (current : Monitored ν) (b : Adjustment ν ρ) (w : World ω) :
    ((rewrap s current b).run w).2.memory = w.memory := by
  unfold rewrap
  split <;> rfl

variable [LeafValue ν]

theorem upholds (h : a.Upholds known I R) (hk : Inherited known) (limits : Limits) :
    (analysis limits a).Upholds known (Both I fun _ => True) (Lifted R) where
  successors s siblings p e := by
    refine .bind (.ofExcept _) fun current _ => ?_
    dsimp only
    split
    · exact .pure trivial
    refine .bind (.ofEffect fun _ hw => hw) fun start _ => ?_
    refine .bind (h.successors current.wrapped siblings p e).fst fun next _ => ?_
    refine .bind (.ofEffect fun _ hw => hw) fun stop _ => ?_
    exact .bind (.ofOwn fun _ => rfl) fun _ _ => .ofAlloc (.any _)
  strengthen s siblings e p := by
    refine .bind (.ofExcept _) fun current _ => ?_
    refine .bind (h.strengthen current.wrapped siblings e p).fst fun answer _ => ?_
    split
    · exact .pure trivial
    · exact .bind (.ofAlloc (.any _)) fun _ _ => .pure trivial
  merge s r p hr := by
    refine .bind (.ofExcept _) fun x _ => .bind (.ofExcept _) fun y hy => ?_
    obtain ⟨k, rfl⟩ := eq_of_asMonitored hy
    split
    · exact .pure (.inl rfl)
    next hlive =>
    have hinner := h.merge x.wrapped y.wrapped p (hk.wrapped _ _ hr rfl)
    refine .bind hinner.fst fun merged hmerged => ?_
    split
    · exact .pure (.inl rfl)
    · refine (Yields.ofAlloc (wrap_gives merged _ none)).weaken ?_
      rintro _ ⟨k', rfl⟩
      have hnone : y.exhaustion = none := by simp_all
      exact .inr ⟨k, y.wrapped, y.pathLength, k', merged, _, by rw [hnone], rfl, hmerged⟩
  stop s rs p := by
    refine .bind (.ofExcept _) fun x _ => .bind (.ofExcept _) fun inner _ => ?_
    exact (h.stop x.wrapped inner p).fst
  adjust s p around := by
    refine .bind (.ofExcept _) fun current _ => .bind (h.adjust _ p _).fst fun answer _ => ?_
    split
    · exact .pure trivial
    · refine .bind (.ofOwn fun w => ?_) fun _ _ => .pure trivial
      rw [run_rewrap_memory]
  fallback s p e := by
    cases s with
    | monitored k w len x =>
      refine .bind (h.fallback w p e).fst fun answer _ => ?_
      split
      · exact .pure trivial
      · refine .bind (.ofOwn fun w => ?_) fun _ _ => .pure trivial
        rw [run_rewrap_memory]
    | _ => exact .pure trivial
  initialState n part :=
    .bind (h.initialState n part).fst fun _ _ => .ofAlloc (.any _)
  initialPrecision n part := (h.initialPrecision n part).fst

end Monitor

/-! ## Recordings -/

namespace Recorder

variable {a : Analysis ν ρ ω} {known : State ν → Prop} {I : ω → Prop} {R : StateRel ν}

/-- The relation holds inside. -/
def Lifted (R : StateRel ν) (r m : State ν) : Prop :=
  m = r ∨ ∃ h n w h' n' w', r = .graphed h n w ∧ m = .graphed h' n' w' ∧ R w w'

theorem run_rewrap_memory (s : State ν) (current : Graphed ν) (b : Adjustment ν ρ) (w : World ω) :
    ((rewrap s current b).run w).2.memory = w.memory := by
  unfold rewrap
  split <;> rfl

theorem edit_preserves (x : Edit ν α) :
    Preserves (Both I fun _ => True) (edit x : Attempt (Memory ω ν) α) :=
  .of_memory fun _ hw => hw

theorem change_preserves (x : Edit ν α) :
    Preserves (Both I fun _ => True) (change x : Action (Memory ω ν) α) :=
  .ofAttempt (edit_preserves x)

variable [LeafValue ν]

theorem run_sprout_memory (node : GraphNodeId) (edge : EdgeId) (states : List (State ν))
    (w : World (Memory ω ν)) : ((sprout node edge states).run w).2.memory.1 = w.memory.1 := by
  induction states generalizing w with
  | nil => rfl
  | cons s rest ih => exact ih _

theorem eq_of_asGraphed {s : State ν} {x : Graphed ν} (h : s.asGraphed = .ok x) :
    ∃ k, s = .graphed k x.node x.wrapped := by
  cases s with
  | graphed k n w =>
    cases h
    exact ⟨k, rfl⟩
  | _ => cases h

theorem upholds (h : a.Upholds known I R) (hk : Inherited known) :
    (analysis a).Upholds known (Both I fun _ => True) (Lifted R) where
  successors s siblings p e := by
    refine .bind (.ofExcept _) fun current _ => ?_
    refine .bind (h.successors current.wrapped siblings p e).fst fun next _ => ?_
    have hstart : Preserves (Both I fun _ => True)
        (startTransfer current.node e.id : Action (Memory ω ν) Unit) := by
      refine .bind (.ofEffect fun _ hw => hw) fun r _ => .bind (.ofOwn fun _ => rfl) fun _ _ => ?_
      split
      · exact .pure trivial
      · exact change_preserves _
    exact .bind hstart fun _ _ => .ofOwn (run_sprout_memory current.node e.id next)
  strengthen s siblings e p := .pure trivial
  merge s r p hr := by
    refine .bind (.ofExcept _) fun x _ => .bind (.ofExcept _) fun y hy => ?_
    obtain ⟨k, rfl⟩ := eq_of_asGraphed hy
    have hinner := h.merge x.wrapped y.wrapped p (hk.wrapped _ _ hr rfl)
    refine .bind hinner.fst fun merged hmerged => ?_
    split
    · exact .pure (.inl rfl)
    refine .bind (.ofOwn fun _ => rfl) fun id _ => .bind (change_preserves _) fun _ _ => ?_
    refine .bind .fresh fun k' _ => .bind (change_preserves _) fun _ _ => .pure ?_
    exact .inr ⟨k, y.node, y.wrapped, k', id, merged, rfl, rfl, hmerged⟩
  stop s rs p := by
    refine .of_steady (stop_rule (F := fun _ _ w => Both I (fun _ => True) w.memory)
      (fun _ _ hw => hw) fun _ x _ => ⟨fun t => (h.stop x.wrapped [t] p).fst.steady,
        fun _ _ t _ _ _ => ?_, fun _ => (change_preserves _).steady, fun _ hw => hw,
        (change_preserves _).steady, (change_preserves _).steady⟩)
    refine .weaken (h.stop x.wrapped [t] p).fst.steady (fun _ hw => hw.2) (fun _ _ hw => ?_)
      fun _ _ hw => hw
    split
    · exact hw
    · exact hw
  adjust s p around := by
    refine .bind (.ofExcept _) fun current _ => ?_
    refine .bind (.ofAttempt (.attempt (h.adjust _ p _).fst)) fun answer _ => ?_
    split
    · have hrewrap : ∀ b : Adjustment ν ρ, Preserves (Both I fun _ => True)
          (do return some (← Action.ofEffect (rewrap s current b)) :
            Action (Memory ω ν) (Option (Adjustment ν ρ))) := fun b =>
        .bind (.ofOwn fun w => by rw [run_rewrap_memory]) fun _ _ => .pure trivial
      split
      · exact .bind (change_preserves _) fun _ _ => hrewrap _
      · exact hrewrap _
    · exact .bind (change_preserves _) fun _ _ => .pure trivial
    · split
      · exact .bind (change_preserves _) fun _ _ => .throw
      · exact .throw
  fallback s p e := by
    cases s with
    | graphed k node w =>
      refine .bind (h.fallback w p e).fst fun answer _ => ?_
      split
      · exact .bind (edit_preserves _) fun _ _ => .pure trivial
      · refine .bind (.ofOwn fun w => ?_) fun _ _ => .pure trivial
        rw [run_rewrap_memory]
    | _ => exact .pure trivial
  initialState n part := by
    refine .bind (h.initialState n part).fst fun w _ => .bind (.ofEffect fun _ hw => hw) fun r _ => ?_
    exact .bind .fresh fun k _ => .bind (.ofOwn fun _ => rfl) fun _ _ => .pure trivial
  initialPrecision n part := (h.initialPrecision n part).fst

end Recorder

/-! ## Products -/

namespace Product

variable {known : State ν → Prop} {I : ω → Prop}

/-- The components are the reached ones or stand in the relations to them, one by one. -/
inductive Merged : List (StateRel ν) → List (State ν) → List (State ν) → Prop where
  | nil : Merged [] [] []
  | cons {R : StateRel ν} {Rs : List (StateRel ν)} {r m rs ms}
      (head : m = r ∨ R r m) (tail : Merged Rs rs ms) :
      Merged (R :: Rs) (r :: rs) (m :: ms)

/-- The relations hold in the components. -/
def Lifted (Rs : List (StateRel ν)) (r m : State ν) : Prop :=
  m = r ∨ ∃ h rs x h' ms y, r = .tuple h rs x ∧ m = .tuple h' ms y ∧ Merged Rs rs ms

theorem collect_preserves {xs : List (Action ω α)} (h : ∀ x ∈ xs, Preserves I x) :
    Preserves I (collect xs) := by
  induction xs with
  | nil => exact .pure trivial
  | cons x rest ih =>
    refine .bind (h x (by simp)) fun a _ => ?_
    exact .bind (ih fun y hy => h y (by simp [hy])) fun _ _ => .pure trivial

/-! ### Transfer -/

theorem concatEach_preserves {f : α → Action ω (List β)} (h : ∀ a, Preserves I (f a)) (l : List α) :
    Preserves I (concatEach f l) := by
  induction l with
  | nil => exact .pure trivial
  | cons a rest ih => exact .bind (h a) fun _ _ => .bind ih fun _ _ => .pure trivial

section

variable {ts : List (Transfer ν ρ ω)}

theorem alternatives_preserves
    (h : ∀ t ∈ ts, ∀ s siblings p e, Preserves I (t.successors s siblings p e)) (e : ProgramEdge)
    (siblings ss : List (State ν)) (ps : List (Precision ρ)) :
    Preserves I (alternatives e siblings ts ss ps) := by
  induction ts generalizing ss ps with
  | nil => exact .pure trivial
  | cons t ts ih =>
    cases ss with
    | nil => exact .pure trivial
    | cons s ss =>
    cases ps with
    | nil => exact .pure trivial
    | cons p ps =>
    refine .bind (h t (by simp) s siblings p e) fun next _ => ?_
    split
    · exact .pure trivial
    · exact .bind (ih (fun t' ht => h t' (by simp [ht])) ss ps) fun _ _ => .pure trivial

variable [LeafValue ν]

theorem strengthenEach_preserves {t : Transfer ν ρ ω}
    (h : ∀ s siblings e p, Preserves I (t.strengthen s siblings e p)) (e : ProgramEdge)
    (p : Precision ρ) (i : Nat) (tuples : List (List (State ν))) :
    Preserves I (strengthenEach e t p i tuples) := by
  have hone : ∀ cs, Preserves I (strengthenOne e t p i cs) := by
    intro cs
    unfold strengthenOne
    split
    · exact .pure trivial
    · refine .bind (h _ cs e p) fun answer _ => ?_
      split
      · exact .pure trivial
      · exact .pure trivial
  induction tuples with
  | nil => exact .pure trivial
  | cons cs rest ih => exact .bind (hone cs) fun _ _ => .bind ih fun _ _ => .pure trivial

theorem strengthenPass_preserves
    (h : ∀ t ∈ ts, ∀ s siblings e p, Preserves I (t.strengthen s siblings e p)) (e : ProgramEdge)
    (ps : List (Precision ρ)) (i : Nat) (tuples : List (List (State ν))) :
    Preserves I (strengthenPass e ts ps i tuples) := by
  induction ts generalizing ps i tuples with
  | nil => exact .pure trivial
  | cons t ts ih =>
    cases ps with
    | nil => exact .pure trivial
    | cons p ps =>
    refine .bind (strengthenEach_preserves (h t (by simp)) e p i tuples) fun here _ => ?_
    exact .bind (ih (fun t' ht => h t' (by simp [ht])) ps (i + 1) here.tuples) fun _ _ =>
      .pure trivial

theorem settle_preserves (h : ∀ t ∈ ts, ∀ s siblings e p, Preserves I (t.strengthen s siblings e p))
    (e : ProgramEdge) (ps : List (Precision ρ)) (bound rounds : Nat) (cs : List (State ν)) :
    Preserves I (settle e ts ps bound rounds cs) := by
  induction rounds generalizing cs with
  | zero => exact .throw
  | succ rounds ih =>
    refine .bind (strengthenPass_preserves h e ps 0 [cs]) fun pass _ => ?_
    split
    · exact concatEach_preserves ih _
    · exact .bind (concatEach_preserves ih _) fun _ _ => .pure trivial

theorem tuples_preserves (index : Option Nat) (tuples : List (List (State ν))) :
    Preserves I (Product.tuples index tuples : Action ω (List (State ν))) := by
  induction tuples with
  | nil => exact .pure trivial
  | cons cs rest ih => exact .bind (.ofAlloc (.any _)) fun _ _ => .bind ih fun _ _ => .pure trivial

end

/-! ### Adjustment -/

theorem adjustOne_preserves {ad : Adjuster ν ρ ω}
    (hadjust : ∀ s p around, Preserves I (ad.adjust s p around))
    (hfallback : ∀ s p e, Preserves I (ad.fallback s p e)) (s : State ν) (p : Precision ρ)
    (around : Surroundings ν ρ) : Preserves I (adjustOne ad s p around) := by
  refine .bind (.ofAttempt (.attempt (hadjust s p around))) fun answer _ => ?_
  split
  · exact .pure trivial
  · split
    · refine .bind (.ofAttempt (hfallback s p _)) fun saved _ => ?_
      split
      · exact .pure trivial
      · exact .throw
    · exact .throw

section

variable [LeafValue ν] [LeafPrecision ρ] {ads : List (Adjuster ν ρ ω)}

theorem adjustRound_preserves
    (hadjust : ∀ ad ∈ ads, ∀ s p around, Preserves I (ad.adjust s p around))
    (hfallback : ∀ ad ∈ ads, ∀ s p e, Preserves I (ad.fallback s p e)) (around : Surroundings ν ρ)
    (i : Nat) (ss : List (State ν)) (ps : List (Precision ρ)) :
    Preserves I (adjustRound around ads i ss ps) := by
  induction ads generalizing i ss ps with
  | nil => exact .pure trivial
  | cons ad ads ih =>
    cases ss with
    | nil => exact .pure trivial
    | cons s ss =>
    cases ps with
    | nil => exact .pure trivial
    | cons p ps =>
    have hone := adjustOne_preserves (hadjust ad (by simp)) (hfallback ad (by simp)) s p
      { around with view := viewOf i around.view }
    refine .bind hone fun answer _ => ?_
    split
    · exact .pure trivial
    · refine .bind (ih (fun b hb => hadjust b (by simp [hb]))
        (fun b hb => hfallback b (by simp [hb])) (i + 1) ss ps) fun _ _ => .pure trivial

theorem adjustRounds_preserves
    (hadjust : ∀ ad ∈ ads, ∀ s p around, Preserves I (ad.adjust s p around))
    (hfallback : ∀ ad ∈ ads, ∀ s p e, Preserves I (ad.fallback s p e)) (around : Surroundings ν ρ)
    (rounds : Nat) (ss : List (State ν)) (ps : List (Precision ρ)) (modified : Bool) :
    Preserves I (adjustRounds around ads rounds ss ps modified) := by
  induction rounds generalizing ss ps modified with
  | zero => exact .pure trivial
  | succ rounds ih =>
    refine .bind (adjustRound_preserves hadjust hfallback around 0 ss ps) fun answer _ => ?_
    split
    · exact .pure trivial
    · split
      · exact ih _ _ _
      · exact .pure trivial

end

/-! ### Covering and merging -/

theorem coveredComponents_preserves (h : ∀ a ∈ as, ∀ s rs p, Preserves I (a.stopper.stop s rs p))
    (ss rs : List (State ν)) (ps : List (Precision ρ)) :
    Preserves I (coveredComponents as ss rs ps) := by
  induction as generalizing ss rs ps with
  | nil => exact .pure trivial
  | cons a as ih =>
    cases ss with
    | nil => exact .pure trivial
    | cons s ss =>
    cases rs with
    | nil => exact .pure trivial
    | cons r rs =>
    cases ps with
    | nil => exact .pure trivial
    | cons p ps =>
    refine .bind (h a (by simp) s [r] p) fun covered _ => ?_
    split
    · exact ih (fun b hb => h b (by simp [hb])) ss rs ps
    · exact .pure trivial

variable [LeafValue ν]

theorem mergeComponents_yields (kind : MergeKind)
    (h : List.Forall₂ (fun a R => a.Upholds known I R) as Rs) {ss rs : List (State ν)}
    {ps : List (Precision ρ)} (hss : ss.length = as.length) (hrs : rs.length = as.length)
    (hps : ps.length = as.length) (hknown : ∀ r ∈ rs, known r) :
    Yields I (mergeComponents kind as ss rs ps) fun answer =>
      ∀ a ∈ answer, Merged Rs rs a.1 := by
  induction h generalizing ss rs ps with
  | nil =>
    cases List.length_eq_zero_iff.1 hrs
    refine .pure fun a ha => ?_
    cases ha
    exact .nil
  | cons hhead _ ih =>
    cases ss with
    | nil => cases hss
    | cons s ss =>
    cases rs with
    | nil => cases hrs
    | cons r rs =>
    cases ps with
    | nil => cases hps
    | cons p ps =>
    have hrest := ih (Nat.succ.inj hss) (Nat.succ.inj hrs) (Nat.succ.inj hps)
      fun t ht => hknown t (by simp [ht])
    unfold mergeComponents
    split
    · -- A component that is never merged keeps the reached state.
      split
      · exact hrest.mapSome fun _ hmerged => .cons (.inl rfl) hmerged
      · exact .pure fun _ ha => by cases ha
    · refine .bind (hhead.merge s r p (hknown r (by simp))) fun m hm => ?_
      refine .bind (.ofExcept _) fun accepted _ => ?_
      split
      · exact hrest.mapSome fun _ hmerged => .cons (.inr hm) hmerged
      · exact .pure fun _ ha => by cases ha

variable [LeafPrecision ρ]

theorem coveredBySome_preserves (h : ∀ a ∈ as, ∀ s rs p, Preserves I (a.stopper.stop s rs p))
    (o : ProductOptions) (s : State ν) (p : Precision ρ) (rs : List (State ν)) :
    Preserves I (coveredBySome o as s p rs) := by
  have hone : ∀ r, Preserves I (coveredBy o as s p r) := by
    intro r
    refine .bind (.ofExcept _) fun parts _ => .bind (.ofExcept _) fun rs _ => ?_
    split
    · exact .pure trivial
    · exact coveredComponents_preserves h parts.1 rs parts.2
  induction rs with
  | nil => exact .pure trivial
  | cons r rest ih =>
    refine .bind (hone r) fun covered _ => ?_
    split
    · exact .pure trivial
    · exact ih

theorem eq_of_stateOf {arity : Nat} {s : State ν} {cs : List (State ν)}
    (h : stateOf arity s = .ok cs) : ∃ k x, s = .tuple k cs x ∧ cs.length = arity := by
  cases s with
  | tuple k ds x =>
    have hlen : (if ds.length = arity then Except.ok ds else _) = Except.ok cs := h
    split at hlen
    · next heq =>
      cases hlen
      exact ⟨k, x, rfl, heq⟩
    · cases hlen
  | _ => cases h

theorem merge_yields (h : List.Forall₂ (fun a R => a.Upholds known I R) as Rs)
    (hk : Inherited known) (o : ProductOptions) (s r : State ν) (p : Precision ρ) (hr : known r) :
    Yields (Both I fun _ => True) ((merger o as).merge s r p) (Lifted Rs r) := by
  refine .bind (.ofOwn fun _ => rfl) fun _ _ => ?_
  refine .bind (.ofExcept _) fun parts hparts => .bind (.ofExcept _) fun rs hrs => ?_
  obtain ⟨-, hss, hps⟩ := split_eq_ok hparts
  obtain ⟨k, x, rfl, hlen⟩ := eq_of_stateOf hrs
  split
  · exact .pure (.inl rfl)
  have hcomponents := mergeComponents_yields o.merge h hss hlen hps
    fun c hc => hk.component _ c hr hc
  refine .bind hcomponents.fst fun answer hmerged => ?_
  split
  · next ms =>
    refine .bind (.ofOwn fun _ => rfl) fun _ _ => ?_
    have htuple : Gives (tuple o.locationIndex ms) fun t =>
        ∃ k', t = .tuple k' ms (anchor o.locationIndex ms) :=
      .bind (.any _) fun k' _ => .pure ⟨k', rfl⟩
    refine (Yields.ofAlloc htuple).weaken ?_
    rintro _ ⟨k', rfl⟩
    exact .inr ⟨k, rs, x, k', ms, _, rfl, rfl, hmerged _ rfl⟩
  · exact .pure (.inl rfl)

theorem upholds (h : List.Forall₂ (fun a R => a.Upholds known I R) as Rs) (hk : Inherited known)
    (o : ProductOptions) : (analysis o as).Upholds known (Both I fun _ => True) (Lifted Rs) := by
  have hlifted : ∀ a ∈ as.map (Analysis.focus (Slot.fst : Slot (ω × MergeMode) ω)),
      a.Upholds known (Both I fun _ => True) fun _ _ => True := by
    intro b hb
    obtain ⟨a, ha, rfl⟩ := List.mem_map.1 hb
    obtain ⟨R, hR⟩ := exists_of_forall₂ h ha
    exact (hR.focus .fst).weaken fun _ _ _ => trivial
  exact
    { successors := fun s siblings p e => by
        refine .bind (.ofExcept _) fun parts _ => ?_
        refine .bind (alternatives_preserves
          (List.forall_mem_map.2 fun a ha => (hlifted a ha).successors) e _ _ _) fun answer _ => ?_
        split
        · exact .pure trivial
        · refine concatEach_preserves (fun candidate => ?_) _
          refine .bind (settle_preserves
            (List.forall_mem_map.2 fun a ha => (hlifted a ha).strengthen) e _ _ _ candidate) ?_
          exact fun settled _ => tuples_preserves _ settled
      strengthen := fun s siblings e p => .pure trivial
      merge := fun s r p hr => merge_yields h hk o s r p hr
      stop := fun s rs p => coveredBySome_preserves (fun a ha => (hlifted a ha).stop) o s p rs
      adjust := fun s p around => by
        refine .bind (.ofExcept _) fun parts _ => ?_
        refine .bind (adjustRounds_preserves
          (List.forall_mem_map.2 fun a ha => (hlifted a ha).adjust)
          (List.forall_mem_map.2 fun a ha => (hlifted a ha).fallback) around _ _ _ _)
          fun answer _ => ?_
        split
        · exact .pure trivial
        · split
          · exact .bind (.ofAlloc (.any _)) fun _ _ => .bind .fresh fun _ _ => .pure trivial
          · exact .pure trivial
      fallback := fun s p e => .pure trivial
      initialState := fun n part => by
        have hstates := List.forall_mem_map.2 fun a ha => (hlifted a ha).initialState n part
        exact .bind (collect_preserves hstates) fun _ _ => .ofAlloc (.any _)
      initialPrecision := fun n part => by
        have hprecisions := List.forall_mem_map.2 fun a ha =>
          (hlifted a ha).initialPrecision n part
        refine .bind (collect_preserves hprecisions) fun _ _ => ?_
        exact .bind .fresh fun _ _ => .pure trivial }

end Product

end ProgramAnalysis
