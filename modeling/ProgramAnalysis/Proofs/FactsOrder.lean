import Mathlib.Data.Finset.Card
import ProgramAnalysis.Proofs.Joining
/-!
The order of sets of facts.

Sets of visible facts at the same location are ordered by inclusion, and their join is the union, the
least set above both. Only the facts below a thousand are visible, so a chain of growing sets comes
to an end.
-/

namespace ProgramAnalysis

/-! ## Members -/

namespace FactSet

variable {k : Nat} {s : FactSet}

theorem mem_insertAll {ns : List Nat} : k ∈ (s.insertAll ns).members ↔ k ∈ s.members ∨ k ∈ ns := by
  induction ns generalizing s with
  | nil => simp [insertAll]
  | cons n rest ih =>
    have hstep : s.insertAll (n :: rest) = (s.insert n).insertAll rest := rfl
    rw [hstep, ih]
    simp [insert, mem_place, or_assoc, or_left_comm]

theorem mem_union {t : FactSet} : k ∈ (s.union t).members ↔ k ∈ s.members ∨ k ∈ t.members :=
  mem_insertAll

theorem mem_visible : k ∈ s.visible.members ↔ k ∈ s.members ∧ k < 1000 := by
  simp [visible, filter]

end FactSet

namespace Facts

variable {spec : Spec} {s r t m : State FactValue} {v w : FactValue} {h h' : Handle}

/-! ## The order -/

theorem le_trans (horder : spec.order = .subset) (hst : (domain spec).Le s t)
    (htr : (domain spec).Le t r) : (domain spec).Le s r := by
  obtain ⟨v, w, hs, ht, hvw⟩ := (le_iff horder).1 hst
  obtain ⟨w', u, ht', hr, hwu⟩ := (le_iff horder).1 htr
  cases ht.symm.trans ht'
  exact (le_iff horder).2 ⟨v, u, hs, hr, hvw.trans hwu⟩

/-! ## The join -/

theorem join_eq_ok (hjoin : spec.join = .union) (hrun : (join spec s r).run.run h = (.ok m, h')) :
    ∃ v w, s.leaf? = some v ∧ r.leaf? = some w ∧ v.anchor = w.anchor ∧
      (m = r ∧ Included v w ∨
        m = make spec h (v.facts.union w.facts) v.anchor ∧ h' = h.next) := by
  unfold join at hrun
  cases hs : s.asLeaf with
  | error e =>
    rw [hs] at hrun
    cases hrun
  | ok v =>
    cases hr : r.asLeaf with
    | error e =>
      rw [hs, hr] at hrun
      cases hrun
    | ok w =>
      refine ⟨v, w, leaf?_of_asLeaf hs, leaf?_of_asLeaf hr, ?_⟩
      rw [hs, hr, hjoin] at hrun
      simp only [Alloc.ofExcept, pure_bind] at hrun
      by_cases hanchor : v.anchor = w.anchor
      · refine ⟨hanchor, ?_⟩
        rw [if_neg (by simp [hanchor]), if_neg (by decide)] at hrun
        by_cases hsub : v.facts.visible.subset w.facts.visible = true
        · rw [if_pos (by simp [hsub])] at hrun
          cases hrun
          exact .inl ⟨rfl, hanchor, FactSet.subset_iff.1 hsub⟩
        · rw [if_neg (by simp [hsub])] at hrun
          cases hrun
          exact .inr ⟨rfl, rfl⟩
      · rw [if_pos (by simp [hanchor])] at hrun
        cases hrun

theorem included_union_left (v w : FactValue) (targets : FactSet) :
    Included v (.make targets (v.facts.union w.facts) v.anchor) := by
  refine ⟨rfl, fun k hk => ?_⟩
  obtain ⟨hmem, hlt⟩ := FactSet.mem_visible.1 hk
  exact FactSet.mem_visible.2 ⟨FactSet.mem_union.2 (.inl hmem), hlt⟩

/-- The join is the least state above both. -/
theorem join_least (horder : spec.order = .subset) (hjoin : spec.join = .union)
    (hrun : (join spec s r).run.run h = (.ok m, h')) (hst : (domain spec).Le s t)
    (hrt : (domain spec).Le r t) : (domain spec).Le m t := by
  obtain ⟨v, w, hs, hr, hanchor, ⟨rfl, -⟩ | ⟨rfl, -⟩⟩ := join_eq_ok hjoin hrun
  · exact hrt
  · obtain ⟨v', u, hs', ht, hvu⟩ := (le_iff horder).1 hst
    obtain ⟨w', u', hr', ht', hwu⟩ := (le_iff horder).1 hrt
    cases hs.symm.trans hs'
    cases hr.symm.trans hr'
    cases ht.symm.trans ht'
    refine (le_iff horder).2 ⟨_, u, rfl, ht, hvu.1, fun k hk => ?_⟩
    obtain ⟨hmem, hlt⟩ := FactSet.mem_visible.1 hk
    rcases FactSet.mem_union.1 hmem with hmem | hmem
    · exact hvu.2 k (FactSet.mem_visible.2 ⟨hmem, hlt⟩)
    · exact hwu.2 k (FactSet.mem_visible.2 ⟨hmem, hlt⟩)

theorem bounding (horder : spec.order = .subset) (hjoin : spec.join = .union) :
    (domain spec).Bounding where
  trans _ _ _ hab hbc := le_trans horder hab hbc
  upper s r m h h' hrun := by
    obtain ⟨v, w, hs, hr, -, ⟨rfl, hvw⟩ | ⟨rfl, -⟩⟩ := join_eq_ok hjoin hrun
    · exact (le_iff horder).2 ⟨v, w, hs, hr, hvw⟩
    · exact (le_iff horder).2 ⟨v, _, hs, rfl, included_union_left v w spec.targets⟩
  fresh s r m h h' hrun := by
    obtain ⟨v, w, -, -, -, ⟨rfl, -⟩ | ⟨rfl, rfl⟩⟩ := join_eq_ok hjoin hrun
    · exact .inl rfl
    · exact .inr ⟨Nat.le_refl _, Nat.lt_succ_self _⟩

/-! ## Chains -/

/-- The number of visible facts. -/
def breadth (s : State FactValue) : Nat :=
  (s.leaf?.elim ∅ fun v => v.facts.visible.members.toFinset).card

theorem breadth_le (s : State FactValue) : breadth s ≤ 1000 := by
  cases hs : s.leaf? with
  | none => simp [breadth, hs]
  | some v =>
    have hsub : v.facts.visible.members.toFinset ⊆ Finset.range 1000 := by
      intro k hk
      exact Finset.mem_range.2 (FactSet.mem_visible.1 (List.mem_toFinset.1 hk)).2
    have hcard := Finset.card_le_card hsub
    rw [Finset.card_range] at hcard
    unfold breadth
    rw [hs]
    exact hcard

theorem breadth_lt (horder : spec.order = .subset) (h : (domain spec).Above t s) :
    breadth s < breadth t := by
  obtain ⟨v, w, hs, ht, hvw⟩ := (le_iff horder).1 h.1
  have hnot : ¬ w.facts.visible.members.toFinset ⊆ v.facts.visible.members.toFinset := by
    intro hsub
    refine h.2 ((le_iff horder).2 ⟨w, v, ht, hs, hvw.1.symm, fun k hk => ?_⟩)
    exact List.mem_toFinset.1 (hsub (List.mem_toFinset.2 hk))
  unfold breadth
  rw [hs, ht]
  refine Finset.card_lt_card ⟨fun k hk => ?_, hnot⟩
  exact List.mem_toFinset.2 (hvw.2 k (List.mem_toFinset.1 hk))

/-- A chain of growing sets of facts comes to an end. -/
theorem no_chain (horder : spec.order = .subset) (f : Nat → State FactValue) :
    ¬ ∀ n, (domain spec).Above (f (n + 1)) (f n) := by
  intro hchain
  have hgrow : ∀ n, n ≤ breadth (f n) := by
    intro n
    induction n with
    | zero => exact Nat.zero_le _
    | succ n ih =>
      have hlt := breadth_lt horder (hchain n)
      omega
  have hlow := hgrow 1001
  have hhigh := breadth_le (f 1001)
  omega

end Facts

end ProgramAnalysis
