import ProgramAnalysis.Proofs.NestedOrder
/-!
Coverage by the join of the reached states.

A state that a single reached state covers is covered by the join of all of them, wherever the one
stands among them (`Stop.join_covers_of_sep`). The join is made from left to right and need not be
the least upper bound, nor does it matter in which order or how often states are joined: whatever
lies below one of the states that were joined so far also lies below the next join, by one step of
transitivity (`Domain.Directed.joinAll_above`).
-/

namespace ProgramAnalysis

variable {ν ρ ω : Type}

namespace Domain

/-- Among the states in `D`, which may depend on the next handle, the order is transitive, and every
two states have a join in `D` that lies above both. No state leaves `D` when handles are drawn. -/
structure Directed (d : Domain ν) (D : Handle → State ν → Prop) : Prop where
  trans : ∀ h a b c, D h a → D h b → D h c → d.Le a b → d.Le b c → d.Le a c
  join : ∀ h a b, D h a → D h b → ∃ j h', (d.join a b).run.run h = (.ok j, h') ∧
    D h' j ∧ d.Le a j ∧ d.Le b j ∧ ∀ s, D h s → D h' s

variable {d : Domain ν} {D : Handle → State ν → Prop}

/-- The join of a list is made, and all that lies below the first state or below a state of the list
lies below the join. -/
theorem Directed.joinAll_above (hd : d.Directed D) (rs : List (State ν)) {acc : State ν}
    {h : Handle} (hacc : D h acc) (hrs : ∀ r ∈ rs, D h r) :
    ∃ j h', (d.joinAll acc rs).run.run h = (.ok j, h') ∧
      ∀ s t, D h s → t = acc ∨ t ∈ rs → d.Le s t → d.Le s j := by
  induction rs generalizing acc h with
  | nil =>
    refine ⟨acc, h, rfl, fun s t _ ht hle => ?_⟩
    obtain rfl : t = acc := by simpa using ht
    exact hle
  | cons r rest ih =>
    obtain ⟨hr, hrest⟩ := List.forall_mem_cons.1 hrs
    obtain ⟨j₁, h₁, hjoin, hj₁, hleft, hright, hkeep⟩ := hd.join h acc r hacc hr
    obtain ⟨j, h', hall, habove⟩ := ih hj₁ fun t ht => hkeep t (hrest t ht)
    refine ⟨j, h', ?_, fun s t hs ht hle => ?_⟩
    · rw [joinAll, run_bind_of_ok hjoin]
      exact hall
    -- Below the accumulator or the first state means below their join, and from there on it is
    -- the join that is carried along.
    have hfirst : ∀ u, D h u → d.Le u j₁ → d.Le s u → d.Le s j := fun u hu huj hsu =>
      habove s j₁ (hkeep s hs) (.inl rfl)
        (hd.trans h₁ s u j₁ (hkeep s hs) (hkeep u hu) hj₁ hsu huj)
    rcases ht with rfl | ht
    · exact hfirst t hacc hleft hle
    rcases List.mem_cons.1 ht with rfl | ht
    · exact hfirst t hr hright hle
    · exact habove s t (hkeep s hs) (.inr ht) hle

end Domain

/-- What a single reached state covers, the join of all reached states covers too. -/
theorem Stop.join_covers_of_sep {d : Domain ν} {D : Handle → State ν → Prop} (hd : d.Directed D)
    {s : State ν} {rs : List (State ν)} (p : Precision ρ) {w : World ω} (hs : D w.next s)
    (hrs : ∀ r ∈ rs, D w.next r)
    (hsep : (((Stop.sep d).stop s rs p).run.run w).1 = .ok true) :
    ∃ h, ((Stop.join d).stop s rs p).run.run w = (.ok true, { w with next := h }) := by
  have hcovered : d.coveredBySome s rs = .ok true := by
    have hrun : (((Stop.sep d).stop s rs p).run.run w).1 =
        ((Action.ofExcept (d.coveredBySome s rs) : Action ω Bool).run.run w).1 := rfl
    rw [hrun] at hsep
    cases hc : d.coveredBySome s rs with
    | error e =>
      rw [hc] at hsep
      cases hsep
    | ok b =>
      rw [hc] at hsep
      exact congrArg Except.ok (Except.ok.inj hsep)
  obtain ⟨t, ht, hle⟩ := Domain.exists_le_of_coveredBySome hcovered
  cases rs with
  | nil => cases ht
  | cons r rest =>
    obtain ⟨hr, hrest⟩ := List.forall_mem_cons.1 hrs
    obtain ⟨j, h, hall, habove⟩ := hd.joinAll_above rest hr hrest
    have hsj : d.leq s j = .ok true := habove s t hs (List.mem_cons.1 ht) hle
    have hjoined : (Action.ofAlloc (d.joinAll r rest) : Action ω (State ν)).run.run w =
        (.ok j, { w with next := h }) := by
      have hrun : (Action.ofAlloc (d.joinAll r rest) : Action ω (State ν)).run.run w =
          (((d.joinAll r rest).run.run w.next).1.mapError .error,
            { w with next := ((d.joinAll r rest).run.run w.next).2 }) := rfl
      rw [hrun, hall]
      rfl
    refine ⟨h, ?_⟩
    show (Action.ofAlloc (d.joinAll r rest) >>= fun joined =>
      Action.ofExcept (d.leq s joined)).run.run w = _
    rw [run_bind_of_ok hjoined, hsj]
    rfl

/-! ## Facts -/

namespace Facts

/-- The state is a set of facts at the given location, or at none. -/
def IsAnchored (anchor : Option NodeId) (s : State FactValue) : Prop :=
  ∃ h v, s = .leaf h v ∧ v.anchor = anchor

variable {spec : Spec}

/-- Sets of facts at one location have a join. -/
theorem exists_join (hjoin : spec.join = .union) {anchor : Option NodeId} {a b : State FactValue}
    (ha : IsAnchored anchor a) (hb : IsAnchored anchor b) (h : Handle) :
    ∃ j h', (join spec a b).run.run h = (.ok j, h') ∧ IsAnchored anchor j := by
  obtain ⟨k, v, rfl, hv⟩ := ha
  obtain ⟨l, w, rfl, hw⟩ := hb
  have hrun : (join spec (.leaf k v) (.leaf l w)).run.run h =
      if v.facts.visible.subset w.facts.visible then (.ok (.leaf l w), h)
      else (.ok (make spec h (v.facts.union w.facts) v.anchor), h.next) := by
    unfold join
    simp only [State.asLeaf, Alloc.ofExcept, pure_bind]
    rw [hjoin, if_neg (by simp [hv, hw]), if_neg (by decide)]
    by_cases hsub : v.facts.visible.subset w.facts.visible = true
    · rw [if_pos (by simp [hsub]), if_pos hsub]
      rfl
    · rw [if_neg (by simp [hsub]), if_neg hsub]
      rfl
  rw [hrun]
  split
  · exact ⟨_, _, rfl, l, w, rfl, hw⟩
  · exact ⟨_, _, rfl, h, _, rfl, hv⟩

theorem directed (horder : spec.order = .subset) (hjoin : spec.join = .union)
    (anchor : Option NodeId) : (domain spec).Directed fun _ => IsAnchored anchor where
  trans _ _ _ _ _ _ _ hab hbc := le_trans horder hab hbc
  join h a b ha hb := by
    obtain ⟨j, h', hrun, hj⟩ := exists_join hjoin ha hb h
    refine ⟨j, h', hrun, hj, (bounding horder hjoin).upper a b j h h' hrun, ?_, fun _ hs => hs⟩
    obtain ⟨v, w, -, hw, hanchor, ⟨rfl, -⟩ | ⟨rfl, -⟩⟩ := join_eq_ok hjoin hrun
    · exact (le_iff horder).2 ⟨w, w, hw, hw, rfl, fun _ hk => hk⟩
    · exact (le_iff horder).2 ⟨w, _, hw, rfl, included_union_right hanchor spec.targets⟩

/-- A set of facts that was made under the handle `h`. -/
def reachedFacts (h : Nat) (facts : List Nat) : State FactValue :=
  make {} ⟨h⟩ (.ofList facts) none

def coverageWorld : World Unit := ⟨⟨10⟩, .empty, ⟨0⟩, ⟨0⟩, ()⟩

/-- The second of three reached states covers the new one, so their join does. Two facts that no
reached state has together are covered by the join only. -/
theorem join_covers_middle :
    (((Stop.sep (domain {})).stop (reachedFacts 1 [1])
      [reachedFacts 2 [2], reachedFacts 3 [1, 3], reachedFacts 4 [4]]
      (.plain ⟨0⟩ : Precision Level)).run.run coverageWorld).1 = .ok true ∧
    (∃ h, ((Stop.join (domain {})).stop (reachedFacts 1 [1])
      [reachedFacts 2 [2], reachedFacts 3 [1, 3], reachedFacts 4 [4]]
      (.plain ⟨0⟩ : Precision Level)).run.run coverageWorld =
        (.ok true, { coverageWorld with next := h })) ∧
    (((Stop.sep (domain {})).stop (reachedFacts 1 [2, 4])
      [reachedFacts 2 [2], reachedFacts 3 [1, 3], reachedFacts 4 [4]]
      (.plain ⟨0⟩ : Precision Level)).run.run coverageWorld).1 = .ok false ∧
    (((Stop.join (domain {})).stop (reachedFacts 1 [2, 4])
      [reachedFacts 2 [2], reachedFacts 3 [1, 3], reachedFacts 4 [4]]
      (.plain ⟨0⟩ : Precision Level)).run.run coverageWorld).1 = .ok true := by
  have hanchored : ∀ h facts, IsAnchored none (reachedFacts h facts) :=
    fun h facts => ⟨_, _, rfl, rfl⟩
  have hsep : (((Stop.sep (domain {})).stop (reachedFacts 1 [1])
      [reachedFacts 2 [2], reachedFacts 3 [1, 3], reachedFacts 4 [4]]
      (.plain ⟨0⟩ : Precision Level)).run.run coverageWorld).1 = .ok true := by decide +kernel
  refine ⟨hsep, Stop.join_covers_of_sep (directed rfl rfl none) _ (hanchored _ _) ?_ hsep,
    by decide +kernel, by decide +kernel⟩
  intro r hr
  simp only [List.mem_cons, List.not_mem_nil, or_false] at hr
  rcases hr with rfl | rfl | rfl <;> exact hanchored _ _

end Facts

end ProgramAnalysis
