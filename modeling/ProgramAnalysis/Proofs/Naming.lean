import Mathlib.Data.List.Forall2
import Mathlib.Data.List.Nodup
import ProgramAnalysis.Proofs.Contract
/-!
States up to the names of their handles.

Two explorations of the same program draw different handles for what otherwise is the same state. A
`Naming` says which handle of the one stands for which handle of the other. Two states match under
it when they are alike and their handles, inner ones included, stand for each other one by one.

An analysis is pure (`Analysis.Pure`) if its operators take matching arguments to matching answers,
in any two worlds, and draw the handles that are new in them. What an operator does to its memory,
to the clock and to the tokens is left open. Some handles may be interned: they were drawn before
and stand for themselves on both sides.
-/

namespace ProgramAnalysis

variable {ν ρ ω ε α β : Type} {interned : Handle → Prop} {T : Naming}

/-- Which handle of one side stands for which handle of the other. -/
abbrev Naming := Handle → Handle → Prop

/-! ## Matching states and precisions -/

namespace State

mutual

/-- The handles of a state and of the states inside it. -/
def handles : State ν → List Handle
  | .location h _ => [h]
  | .leaf h _ => [h]
  | .tuple h cs _ => h :: handlesAll cs
  | .monitored h w _ _ => h :: handles w
  | .graphed h _ w => h :: handles w

def handlesAll : List (State ν) → List Handle
  | [] => []
  | s :: rest => handles s ++ handlesAll rest

end

theorem exists_handles (s : State ν) : ∃ inner, s.handles = s.handle :: inner := by
  cases s <;> exact ⟨_, rfl⟩

mutual

theorem describe_bare [LeafValue ν] : (s : State ν) → s.bare.describe = s.describe
  | .location _ _ => rfl
  | .leaf _ _ => rfl
  | .tuple _ cs anchor => congrArg (fun text => "CompositeState \x7b components: [" ++ text ++
      "], location: " ++ anchorText anchor ++ " \x7d") (describeAll_bareAll cs)
  | .monitored _ w len x => congrArg (fun text => "MonitorState \x7b wrapped: " ++ text ++
      ", path_length: " ++ Nat.repr len ++ ", exhausted: " ++ exhaustionText x ++ " \x7d")
      (describe_bare w)
  | .graphed _ n w => congrArg (fun text => "ArgState \x7b node: ArgNodeId(" ++ Nat.repr n.index ++
      "), wrapped: " ++ text ++ " \x7d") (describe_bare w)

theorem describeAll_bareAll [LeafValue ν] : (cs : List (State ν)) →
    describeAll (bareAll cs) = describeAll cs
  | [] => rfl
  | [s] => describe_bare s
  | s :: s' :: rest => congrArg₂ (fun text texts => text ++ ", " ++ texts) (describe_bare s)
      (describeAll_bareAll (s' :: rest))

end

/-- The text of a state does not show its handles. -/
theorem Alike.describe [LeafValue ν] {s t : State ν} (h : s.Alike t) : s.describe = t.describe := by
  rw [← describe_bare s, ← describe_bare t, h]

/-- The states differ in their handles only, and these stand for each other. -/
def Matches (T : Naming) (s t : State ν) : Prop :=
  s.Alike t ∧ List.Forall₂ T s.handles t.handles

variable {T U : Naming} {s t : State ν}

theorem Matches.handle (h : s.Matches T t) : T s.handle t.handle := by
  obtain ⟨inner, hs⟩ := s.exists_handles
  obtain ⟨inner', ht⟩ := t.exists_handles
  have hall := h.2
  rw [hs, ht] at hall
  exact (List.forall₂_cons.1 hall).1

theorem Matches.mono (h : s.Matches T t) (hT : ∀ h k, T h k → U h k) : s.Matches U t :=
  ⟨h.1, h.2.imp hT⟩

end State

namespace Precision

mutual

/-- The precision with all its handles erased. -/
def bare : Precision ρ → Precision ρ
  | .plain _ => .plain ⟨0⟩
  | .leaf _ v => .leaf ⟨0⟩ v
  | .tuple _ ps => .tuple ⟨0⟩ (bareAll ps)

def bareAll : List (Precision ρ) → List (Precision ρ)
  | [] => []
  | p :: rest => bare p :: bareAll rest

end

mutual

/-- The handles of a precision and of the precisions inside it. -/
def handles : Precision ρ → List Handle
  | .plain h => [h]
  | .leaf h _ => [h]
  | .tuple h ps => h :: handlesAll ps

def handlesAll : List (Precision ρ) → List Handle
  | [] => []
  | p :: rest => handles p ++ handlesAll rest

end

mutual

theorem describe_bare [LeafPrecision ρ] : (p : Precision ρ) → p.bare.describe = p.describe
  | .plain _ => rfl
  | .leaf _ _ => rfl
  | .tuple _ ps =>
    congrArg (fun text => "CompositePrecision \x7b components: [" ++ text ++ "] \x7d")
      (describeAll_bareAll ps)

theorem describeAll_bareAll [LeafPrecision ρ] : (ps : List (Precision ρ)) →
    describeAll (bareAll ps) = describeAll ps
  | [] => rfl
  | [p] => describe_bare p
  | p :: p' :: rest => congrArg₂ (fun text texts => text ++ ", " ++ texts) (describe_bare p)
      (describeAll_bareAll (p' :: rest))

end

/-- The precisions differ in their handles only, and these stand for each other. -/
def Matches (T : Naming) (p q : Precision ρ) : Prop :=
  p.bare = q.bare ∧ List.Forall₂ T p.handles q.handles

theorem Matches.mono {U : Naming} {p q : Precision ρ} (h : p.Matches T q)
    (hT : ∀ h k, T h k → U h k) : p.Matches U q :=
  ⟨h.1, h.2.imp hT⟩

end Precision

/-- The adjustments match: states, precisions and signals do. -/
structure Adjustment.Matches (T : Naming) (a b : Adjustment ν ρ) : Prop where
  state : a.state.Matches T b.state
  precision : a.precision.Matches T b.precision
  signal : a.signal = b.signal

/-- The entries match, and they are at the same place. -/
structure Entry.Matches (T : Naming) (e f : Entry ν ρ) : Prop where
  state : e.state.Matches T f.state
  precision : e.precision.Matches T f.precision
  location : e.location = f.location
  partition : e.partition = f.partition

theorem Entry.Matches.place {e f : Entry ν ρ} (h : e.Matches T f) : e.place = f.place := by
  unfold Entry.place
  rw [h.location, h.partition]

theorem Entry.Matches.mono {U : Naming} {e f : Entry ν ρ} (h : e.Matches T f)
    (hT : ∀ h k, T h k → U h k) : e.Matches U f :=
  ⟨h.state.mono hT, h.precision.mono hT, h.location, h.partition⟩

/-! ## Namings that fit two worlds -/

namespace Naming

/-- No handle stands for two. -/
structure OneToOne (T : Naming) : Prop where
  left : ∀ {h k k'}, T h k → T h k' → k = k'
  right : ∀ {h h' k}, T h k → T h' k → h = h'

variable {T : Naming} {w w' w₁ w₁' : World ω}

theorem OneToOne.eq_iff (hT : T.OneToOne) {h h' k k' : Handle} (hk : T h k) (hk' : T h' k') :
    h = h' ↔ k = k' := by
  constructor
  · rintro rfl
    exact hT.left hk hk'
  · rintro rfl
    exact hT.right hk hk'

/-- A naming between the handles that were drawn in two worlds, with the interned ones in it. -/
structure Spans (interned : Handle → Prop) (T : Naming) (w w' : World ω) : Prop extends
    T.OneToOne where
  interned : ∀ h, interned h → T h h
  below : ∀ {h k}, T h k → h.serial < w.next.serial ∧ k.serial < w'.next.serial

theorem Spans.later (h : T.Spans interned w w') (hw : w.next.serial ≤ w₁.next.serial)
    (hw' : w'.next.serial ≤ w₁'.next.serial) : T.Spans interned w₁ w₁' :=
  { h with below := fun hT =>
      ⟨Nat.lt_of_lt_of_le (h.below hT).1 hw, Nat.lt_of_lt_of_le (h.below hT).2 hw'⟩ }

/-- The naming of nothing but the interned handles. -/
def ofInterned (interned : Handle → Prop) : Naming := fun h k => interned h ∧ h = k

theorem spans_ofInterned (hw : ∀ h, interned h → h.serial < w.next.serial)
    (hw' : ∀ h, interned h → h.serial < w'.next.serial) :
    (ofInterned interned).Spans interned w w' where
  left hk hk' := hk.2.symm.trans hk'.2
  right hk hk' := hk.2.trans hk'.2.symm
  interned h hh := ⟨hh, rfl⟩
  below := by
    rintro h k ⟨hh, rfl⟩
    exact ⟨hw h hh, hw' h hh⟩

/-- What was added to a naming was drawn between the worlds, on both sides. -/
structure Grows (T U : Naming) (w w₁ w' w₁' : World ω) : Prop where
  old : ∀ h k, T h k → U h k
  new : ∀ h k, U h k → T h k ∨ w.Drew w₁ h ∧ w'.Drew w₁' k

theorem Grows.refl (T : Naming) (w w₁ w' w₁' : World ω) : T.Grows T w w₁ w' w₁' :=
  ⟨fun _ _ h => h, fun _ _ h => .inl h⟩

/-- The naming with more pairs. -/
def join (T : Naming) (pairs : List (Handle × Handle)) : Naming := fun h k => T h k ∨ (h, k) ∈ pairs

/-- Different handles were drawn on either side and are paired. -/
theorem Spans.join {pairs : List (Handle × Handle)} (h : T.Spans interned w w')
    (hw : w.next.serial ≤ w₁.next.serial) (hw' : w'.next.serial ≤ w₁'.next.serial)
    (hfst : (pairs.map Prod.fst).Nodup) (hsnd : (pairs.map Prod.snd).Nodup)
    (hdrew : ∀ p ∈ pairs, w.Drew w₁ p.1 ∧ w'.Drew w₁' p.2) :
    (T.join pairs).Spans interned w₁ w₁' := by
  have hnew : ∀ {a b}, (a, b) ∈ pairs → ∀ b', ¬T a b' := by
    intro a b hab b' hT
    have hlow : w.next.serial ≤ a.serial := (hdrew _ hab).1.1
    have hhigh := (h.below hT).1
    omega
  have hnew' : ∀ {a b}, (a, b) ∈ pairs → ∀ a', ¬T a' b := by
    intro a b hab a' hT
    have hlow : w'.next.serial ≤ b.serial := (hdrew _ hab).2.1
    have hhigh := (h.below hT).2
    omega
  refine { left := ?_, right := ?_, interned := fun k hk => .inl (h.interned k hk), below := ?_ }
  · intro a b b' hb hb'
    rcases hb with hb | hb <;> rcases hb' with hb' | hb'
    · exact h.left hb hb'
    · exact absurd hb (hnew hb' b)
    · exact absurd hb' (hnew hb b')
    · exact congrArg Prod.snd (List.inj_on_of_nodup_map hfst hb hb' rfl)
  · intro a a' b ha ha'
    rcases ha with ha | ha <;> rcases ha' with ha' | ha'
    · exact h.right ha ha'
    · exact absurd ha (hnew' ha' a)
    · exact absurd ha' (hnew' ha a')
    · exact congrArg Prod.fst (List.inj_on_of_nodup_map hsnd ha ha' rfl)
  · intro a b hab
    rcases hab with hab | hab
    · have hbelow := h.below hab
      exact ⟨by omega, by omega⟩
    · exact ⟨(hdrew _ hab).1.2, (hdrew _ hab).2.2⟩

/-- The naming with the handles that are drawn next, so many of them on either side, in this
order. -/
def drawn (T : Naming) (w w' : World ω) (n : Nat) : Naming :=
  T.join ((List.range n).map fun i => (⟨w.next.serial + i⟩, ⟨w'.next.serial + i⟩))

theorem drawn_of_lt {n i : Nat} (hi : i < n) :
    T.drawn w w' n ⟨w.next.serial + i⟩ ⟨w'.next.serial + i⟩ :=
  .inr (List.mem_map.2 ⟨i, List.mem_range.2 hi, rfl⟩)

theorem Spans.drawn {n : Nat} (h : T.Spans interned w w') (hw : w₁.next = ⟨w.next.serial + n⟩)
    (hw' : w₁'.next = ⟨w'.next.serial + n⟩) :
    (T.drawn w w' n).Spans interned w₁ w₁' ∧ T.Grows (T.drawn w w' n) w w₁ w' w₁' := by
  have hserial : w₁.next.serial = w.next.serial + n := congrArg Handle.serial hw
  have hserial' : w₁'.next.serial = w'.next.serial + n := congrArg Handle.serial hw'
  have hdrew : ∀ p ∈ (List.range n).map fun i =>
      ((⟨w.next.serial + i⟩, ⟨w'.next.serial + i⟩) : Handle × Handle),
      w.Drew w₁ p.1 ∧ w'.Drew w₁' p.2 := by
    intro p hp
    obtain ⟨i, hi, rfl⟩ := List.mem_map.1 hp
    have hi := List.mem_range.1 hi
    unfold World.Drew
    dsimp only
    omega
  refine ⟨h.join (by omega) (by omega) ?_ ?_ hdrew, fun _ _ => .inl,
    fun a b => Or.imp_right (hdrew (a, b))⟩
  · rw [List.map_map]
    exact List.nodup_range.map fun i j hij => Nat.add_left_cancel (Handle.mk.inj hij)
  · rw [List.map_map]
    exact List.nodup_range.map fun i j hij => Nat.add_left_cancel (Handle.mk.inj hij)

end Naming

/-! ## Pure analyses -/

/-- In any two worlds that the naming spans, the two computations give the same error, or answers
that `Q` relates under a naming with what they have drawn. -/
def Likewise (interned : Handle → Prop) (T : Naming) (x : ExceptT ε (Effect ω) α)
    (y : ExceptT ε (Effect ω) β) (Q : Naming → α → β → Prop) : Prop :=
  ∀ w w', T.Spans interned w w' → match x.run.run w, y.run.run w' with
    | (.ok a, w₁), (.ok b, w₁') =>
      ∃ U : Naming, T.Grows U w w₁ w' w₁' ∧ U.Spans interned w₁ w₁' ∧ Q U a b
    | (.error e, _), (.error e', _) => e = e'
    | _, _ => False

variable {Q : Naming → α → β → Prop} {x : ExceptT ε (Effect ω) α} {y : ExceptT ε (Effect ω) β}

/-- No handle is drawn, and the outcomes do not depend on the world. -/
theorem Likewise.still {a : α} {b : β} (hQ : Q T a b)
    (hx : ∀ w, ∃ w₁, x.run.run w = (.ok a, w₁) ∧ w₁.next = w.next)
    (hy : ∀ w, ∃ w₁, y.run.run w = (.ok b, w₁) ∧ w₁.next = w.next) : Likewise interned T x y Q := by
  intro w w' hw
  obtain ⟨w₁, hrun, hnext⟩ := hx w
  obtain ⟨w₁', hrun', hnext'⟩ := hy w'
  rw [hrun, hrun']
  refine ⟨T, .refl T w w₁ w' w₁', hw.later ?_ ?_, hQ⟩
  · exact Nat.le_of_eq (congrArg Handle.serial hnext.symm)
  · exact Nat.le_of_eq (congrArg Handle.serial hnext'.symm)

/-- So many handles are drawn on either side, and the answers are made from them. -/
theorem Likewise.draws (n : Nat) {f : Handle → α} {g : Handle → β}
    (hQ : ∀ (U : Naming) (h k : Handle), (∀ a b, T a b → U a b) →
      (∀ i < n, U ⟨h.serial + i⟩ ⟨k.serial + i⟩) → Q U (f h) (g k))
    (hx : ∀ w, ∃ w₁, x.run.run w = (.ok (f w.next), w₁) ∧ w₁.next = ⟨w.next.serial + n⟩)
    (hy : ∀ w, ∃ w₁, y.run.run w = (.ok (g w.next), w₁) ∧ w₁.next = ⟨w.next.serial + n⟩) :
    Likewise interned T x y Q := by
  intro w w' hw
  obtain ⟨w₁, hrun, hnext⟩ := hx w
  obtain ⟨w₁', hrun', hnext'⟩ := hy w'
  rw [hrun, hrun']
  obtain ⟨hspans, hgrows⟩ := hw.drawn hnext hnext'
  exact ⟨_, hgrows, hspans, hQ _ _ _ hgrows.old fun _ => Naming.drawn_of_lt⟩

/-- Both sides fail alike, whatever the worlds. -/
theorem Likewise.refused {e : ε} (hx : ∀ w, ∃ w₁, x.run.run w = (.error e, w₁))
    (hy : ∀ w, ∃ w₁, y.run.run w = (.error e, w₁)) : Likewise interned T x y Q := by
  intro w w' _
  obtain ⟨w₁, hrun⟩ := hx w
  obtain ⟨w₁', hrun'⟩ := hy w'
  rw [hrun, hrun']

theorem Likewise.ok_of_run {w w' w₁ : World ω} (h : Likewise interned T x y Q)
    (hw : T.Spans interned w w') {a : α} (run : x.run.run w = (.ok a, w₁)) :
    ∃ b w₁' U, y.run.run w' = (.ok b, w₁') ∧ Naming.Spans interned U w₁ w₁' ∧ Q U a b := by
  have hboth := h w w' hw
  rw [run] at hboth
  rcases hrun : y.run.run w' with ⟨e | b, w₁'⟩
  · rw [hrun] at hboth
    cases hboth
  · rw [hrun] at hboth
    obtain ⟨U, -, hU, hQ⟩ := hboth
    exact ⟨b, w₁', U, rfl, hU, hQ⟩

theorem Likewise.error_of_run {w w' w₁ : World ω} (h : Likewise interned T x y Q)
    (hw : T.Spans interned w w') {e : ε} (run : x.run.run w = (.error e, w₁)) :
    ∃ w₁', y.run.run w' = (.error e, w₁') := by
  have hboth := h w w' hw
  rw [run] at hboth
  rcases hrun : y.run.run w' with ⟨e' | b, w₁'⟩
  · rw [hrun] at hboth
    cases hboth
    exact ⟨w₁', rfl⟩
  · rw [hrun] at hboth
    cases hboth

/-- The operators do not look at the names of handles: they take matching arguments to matching
answers. Of two stores that an adjustment is shown, `sees` says when they count as the same. -/
structure Analysis.Pure (a : Analysis ν ρ ω) (interned : Handle → Prop)
    (sees : Naming → Store ν ρ → Store ν ρ → Prop) : Prop where
  forward : a.Forward
  transfer : ∀ {T s t p q} (e : ProgramEdge), s.Matches T t → p.Matches T q →
    Likewise interned T (a.transfer.successors s [] p e) (a.transfer.successors t [] q e)
      fun U => List.Forall₂ (State.Matches U)
  adjust : ∀ {T s t p q store store'}, s.Matches T t → p.Matches T q → sees T store store' →
    Likewise interned T (a.adjuster.adjust s p ⟨store, id, s⟩)
      (a.adjuster.adjust t q ⟨store', id, t⟩) fun U => Option.Rel (Adjustment.Matches U)
  fallback : ∀ {T s t p q} (err : Error), s.Matches T t → p.Matches T q →
    Likewise interned T (a.adjuster.fallback s p err) (a.adjuster.fallback t q err)
      fun U => Option.Rel (Adjustment.Matches U)
  merge : ∀ {T s t r r' p q}, s.Matches T t → r.Matches T r' → p.Matches T q →
    Likewise interned T (a.merger.merge s r p) (a.merger.merge t r' q) fun U => State.Matches U
  stop : ∀ {T s t rs rs' p q}, s.Matches T t → List.Forall₂ (State.Matches T) rs rs' →
    p.Matches T q →
    Likewise interned T (a.stopper.stop s rs p) (a.stopper.stop t rs' q) fun _ b c => b = c
  initialState : ∀ (T : Naming) (n : NodeId) (part : Partition),
    Likewise interned T (a.initialState n part) (a.initialState n part) fun U => State.Matches U
  initialPrecision : ∀ (T : Naming) (n : NodeId) (part : Partition),
    Likewise interned T (a.initialPrecision n part) (a.initialPrecision n part)
      fun U => Precision.Matches U

end ProgramAnalysis
