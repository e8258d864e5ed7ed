import ProgramAnalysis.Facts.Analysis
import ProgramAnalysis.Proofs.Contract
import ProgramAnalysis.Proofs.Triple
/-!
Fact analyses that join, and that have no rules, follow the rules for operators.

The order is inclusion of the visible facts at the same location. Whatever upper bound the domain
computes, the merge has it checked against the reached state before it is used.
-/

namespace ProgramAnalysis

theorem FactSet.subset_iff {s t : FactSet} :
    s.subset t = true ↔ ∀ k ∈ s.members, k ∈ t.members := by
  simp [subset, contains]

namespace Facts

/-! ## Inclusion -/

/-- The facts of the first value are facts of the second, at the same location. -/
def Included (v w : FactValue) : Prop :=
  v.anchor = w.anchor ∧ ∀ n ∈ v.facts.visible.members, n ∈ w.facts.visible.members

variable {s t : State FactValue} {v w : FactValue}

theorem Included.trans {u : FactValue} (h₁ : Included v w) (h₂ : Included w u) : Included v u :=
  ⟨h₁.1.trans h₂.1, fun k hk => h₂.2 k (h₁.2 k hk)⟩

theorem alike_leaf (h : s.Alike t) (hs : s.leaf? = some v) : t.leaf? = some v := by
  cases s <;> cases t <;> simp_all [State.Alike, State.bare, State.leaf?]

/-- Inclusion of facts; states of other kinds only lie below states that are alike. -/
def inclusion : StateOrder FactValue where
  le s t := s.Alike t ∨ ∃ v w, s.leaf? = some v ∧ t.leaf? = some w ∧ Included v w
  of_alike h := .inl h
  trans := by
    rintro s t u (hst | ⟨v, w, hv, hw, hvw⟩) (htu | ⟨w', z, hw', hz, hwz⟩)
    · exact .inl (hst.trans htu)
    · exact .inr ⟨w', z, alike_leaf hst.symm hw', hz, hwz⟩
    · exact .inr ⟨v, w, hv, alike_leaf htu hw, hvw⟩
    · obtain rfl : w = w' := Option.some.inj (hw.symm.trans hw')
      exact .inr ⟨v, z, hv, hz, hvw.trans hwz⟩

theorem leaf?_of_asLeaf (h : s.asLeaf = .ok v) : s.leaf? = some v := by
  cases s <;> simp_all [State.asLeaf, State.leaf?]

theorem asLeaf_of_leaf? (hs : s.leaf? = some v) : s.asLeaf = .ok v := by
  cases s with
  | leaf _ u =>
    cases hs
    rfl
  | _ => cases hs

variable {spec : Spec} {p : Precision Level}

theorem le_iff (horder : spec.order = .subset) :
    (domain spec).Le s t ↔ ∃ v w, s.leaf? = some v ∧ t.leaf? = some w ∧ Included v w := by
  constructor
  · intro hle
    have hle : leq spec s t = .ok true := hle
    unfold leq at hle
    rw [horder] at hle
    cases hs : s.asLeaf with
    | error e =>
      rw [hs] at hle
      cases hle
    | ok v =>
      cases ht : t.asLeaf with
      | error e =>
        rw [hs, ht] at hle
        cases hle
      | ok w =>
        rw [hs, ht] at hle
        have hvw := Except.ok.inj hle
        rw [Bool.and_eq_true, decide_eq_true_eq, FactSet.subset_iff] at hvw
        exact ⟨v, w, leaf?_of_asLeaf hs, leaf?_of_asLeaf ht, hvw⟩
  · rintro ⟨v, w, hs, ht, hanchor, hsub⟩
    show leq spec s t = .ok true
    unfold leq
    rw [horder, asLeaf_of_leaf? hs, asLeaf_of_leaf? ht]
    show Except.ok (decide (v.anchor = w.anchor) && v.facts.visible.subset w.facts.visible) = _
    rw [FactSet.subset_iff.2 hsub, decide_eq_true hanchor]
    rfl

theorem inclusion_of_le (horder : spec.order = .subset) (h : (domain spec).Le s t) :
    inclusion.le s t :=
  .inr ((le_iff horder).1 h)

/-! ## The operators -/

/-- The world after a call was counted. -/
def tallied (count : CallCounts → CallCounts) (w : World Notes) : World Notes :=
  { w with memory := (count w.memory.1, w.memory.2) }

/-- The world after a transfer was counted. -/
def afterTransfer (w : World Notes) : World Notes :=
  tallied (fun c => { c with transfer := c.transfer + 1 }) w

theorem run_successors (h : spec.transfer = []) (s : State FactValue) (p : Precision Level)
    (e : ProgramEdge) (w : World Notes) :
    (successors spec s [] p e).run.run w =
      match s.asLeaf, p.level with
      | .ok v, .ok _ =>
        (.ok [make spec w.next ((v.facts.eraseAll []).insertAll [e.id.index])
          (spec.tracking.map (Tracking.successor e))],
          { afterTransfer w with next := w.next.next })
      | .ok _, .error err => (.error (.error err), afterTransfer w)
      | .error err, _ => (.error (.error err), afterTransfer w) := by
  unfold successors
  rw [h]
  cases s.asLeaf with
  | error err => rfl
  | ok v =>
    cases p.level with
    | error err => rfl
    | ok l => rfl

theorem run_merge (h : spec.merge = .join) (s r : State FactValue) (p : Precision Level)
    (w : World Notes) :
    ((merger spec).merge s r p).run.run w =
      ((((domain spec).joinInto s r).run.run w.next).1.mapError .error,
        { tallied (fun c => { c with merge := c.merge + 1 }) w with
          next := (((domain spec).joinInto s r).run.run w.next).2 }) := by
  unfold merger chosenMerge
  rw [h]
  rfl

theorem run_stop (h : spec.stop = .sep) (s : State FactValue) (rs : List (State FactValue))
    (p : Precision Level) (w : World Notes) :
    ((stopper spec).stop s rs p).run.run w =
      (((domain spec).coveredBySome s rs).mapError .error,
        tallied (fun c => { c with stop := c.stop + 1 }) w) := by
  unfold stopper chosenStop
  rw [h]
  cases h : (domain spec).coveredBySome s rs with
  | error e =>
    simp only [Stop.sep, h]
    rfl
  | ok b =>
    simp only [Stop.sep, h]
    rfl

theorem ofExcept_triple {α : Type} {P : Handle → Prop} (r : Except Error α) :
    Triple P (Alloc.ofExcept r) (fun a n => r = .ok a ∧ P n) (fun _ => P) := by
  intro n hn
  cases r with
  | ok a => exact ⟨rfl, hn⟩
  | error e => exact hn

/-- The new state is the given one, or it has a handle drawn since. -/
def Renewed (h : Handle) (r m : State FactValue) (n : Handle) : Prop :=
  h.serial ≤ n.serial ∧
    (m.handle = r.handle ∨ h.serial ≤ m.handle.serial ∧ m.handle.serial < n.serial)

theorem join_triple (s r : State FactValue) (h : Handle) :
    Triple (fun n => n = h) (join spec s r) (Renewed h r) (fun _ n => h.serial ≤ n.serial) := by
  have hmake : ∀ facts anchor, Triple (fun n => n = h)
      (do return make spec (← Alloc.fresh) facts anchor : Alloc (State FactValue)) (Renewed h r)
      (fun _ n => h.serial ≤ n.serial) := by
    rintro facts anchor n rfl
    exact ⟨Nat.le_succ _, .inr ⟨Nat.le_refl _, Nat.lt_succ_self _⟩⟩
  have hread : ∀ t : State FactValue, Triple (fun n => n = h) (Alloc.ofExcept t.asLeaf)
      (fun _ n => n = h) (fun _ n => h.serial ≤ n.serial) := fun t =>
    (ofExcept_triple _).weaken (fun _ hn => hn) (fun _ _ hn => hn.2)
      fun _ _ hn => hn ▸ Nat.le_refl _
  unfold join
  refine .bind (hread s) fun v => .bind (hread r) fun w => ?_
  dsimp only
  split
  · exact .bind (R := fun _ _ => False) (.throw fun _ hn => hn ▸ Nat.le_refl _)
      fun _ _ => False.elim
  · split
    · exact hmake v.facts v.anchor
    · split
      · exact .pure fun _ hn => ⟨hn ▸ Nat.le_refl _, .inl rfl⟩
      · exact hmake (v.facts.union w.facts) v.anchor

theorem joinInto_triple (horder : spec.order = .subset) (s r : State FactValue) (h : Handle) :
    Triple (fun n => n = h) ((domain spec).joinInto s r)
      (fun m n => Renewed h r m n ∧ inclusion.le r m) (fun _ n => h.serial ≤ n.serial) := by
  unfold Domain.joinInto
  refine .bind (.fail (ofExcept_triple _) fun _ _ hn => hn ▸ Nat.le_refl _) fun covers => ?_
  split
  · refine .pure fun n hn => ⟨⟨hn.2 ▸ Nat.le_refl _, .inl rfl⟩, inclusion.refl r⟩
  refine .bind (.pre (join_triple s r h) fun n hn => hn.2) fun m => ?_
  refine .bind (.fail (ofExcept_triple _) fun _ _ hn => hn.1) fun above => ?_
  split
  · next ha =>
    subst ha
    exact .pure fun n hn => ⟨hn.2, inclusion_of_le horder hn.1⟩
  · exact .throw fun _ hn => hn.2.1

/-! ## The contract -/

theorem adjuster_static (hadjust : spec.adjust = none) : (analysis spec).adjuster = .static := by
  simp only [analysis, adjuster, hadjust]

theorem location?_of_inclusion (h : inclusion.le s t) : s.location? = t.location? := by
  rcases h with h | ⟨v, w, hv, hw, hvw, -⟩
  · exact h.location?
  · cases s <;> cases t <;> simp_all [State.leaf?, State.location?, LeafValue.location]

variable (htransfer : spec.transfer = []) (hadjust : spec.adjust = none)
  (horder : spec.order = .subset) (hmerge : spec.merge = .join) (hstop : spec.stop = .sep)

section

include htransfer

theorem successors_next (s : State FactValue) (p : Precision Level) (e : ProgramEdge)
    (w : World Notes) :
    w.next.serial ≤ ((successors spec s [] p e).run.run w).2.next.serial := by
  rw [run_successors htransfer]
  split
  · exact Nat.le_succ _
  · exact Nat.le_refl _
  · exact Nat.le_refl _

theorem successors_pure (s : State FactValue) (p : Precision Level) (e : ProgramEdge)
    (w w' : World Notes) :
    ((successors spec s [] p e).run.run w).1.map (List.map State.bare) =
      ((successors spec s [] p e).run.run w').1.map (List.map State.bare) := by
  rw [run_successors htransfer, run_successors htransfer]
  cases s.asLeaf with
  | error err => rfl
  | ok v =>
    cases p.level with
    | error err => rfl
    | ok l => rfl

theorem successors_fresh {e : ProgramEdge} {w w' : World Notes} {next : List (State FactValue)}
    (h : (successors spec s [] p e).run.run w = (.ok next, w')) :
    (next.map State.handle).Nodup ∧ ∀ t ∈ next, w.Drew w' t.handle := by
  rw [run_successors htransfer] at h
  split at h
  · cases h
    refine ⟨by simp, fun t ht => ?_⟩
    obtain rfl := List.mem_singleton.1 ht
    exact ⟨Nat.le_refl _, Nat.lt_succ_self _⟩
  · cases h
  · cases h

end

include horder hmerge

theorem merge_next (s r : State FactValue) (p : Precision Level) (w : World Notes) :
    w.next.serial ≤ (((merger spec).merge s r p).run.run w).2.next.serial := by
  rw [run_merge hmerge]
  have hj := joinInto_triple horder s r w.next w.next rfl
  show w.next.serial ≤ (((domain spec).joinInto s r).run.run w.next).2.serial
  revert hj
  rcases ((domain spec).joinInto s r).run.run w.next with ⟨e | m, n⟩
  · exact id
  · exact fun hj => hj.1.1

theorem merge_renewed {r m : State FactValue} {w w' : World Notes}
    (h : ((merger spec).merge s r p).run.run w = (.ok m, w')) :
    Renewed w.next r m w'.next ∧ inclusion.le r m := by
  rw [run_merge hmerge] at h
  have hj := joinInto_triple horder s r w.next w.next rfl
  rcases hr : ((domain spec).joinInto s r).run.run w.next with ⟨e | m', n⟩
  · rw [hr] at h
    cases h
  · rw [hr] at h hj
    cases h
    exact hj

include htransfer hadjust

/-- An analysis that joins, has no rules and tracks no locations makes states of every program. -/
theorem located (htracking : spec.tracking = none) (program : Program) :
    (analysis spec).Located program := by
  constructor
  · rintro s p n next e - hs ⟨w, w', hrun⟩ t ht l hl
    have hrun : (successors spec s [] p e).run.run w = (.ok next, w') := hrun
    rw [run_successors htransfer, htracking] at hrun
    split at hrun
    · cases hrun
      obtain rfl := List.mem_singleton.1 ht
      cases hl
    · cases hrun
    · cases hrun
  · rintro s r p m - hr ⟨w, w', hrun⟩ l hl
    refine hr l ?_
    rw [location?_of_inclusion (merge_renewed horder hmerge hrun).2]
    exact hl
  · rintro s p around b hs - ⟨w, w', hrun⟩
    rw [adjuster_static hadjust] at hrun
    cases hrun
    exact hs
  · rintro s p err b hs ⟨w, w', hrun⟩
    rw [adjuster_static hadjust] at hrun
    cases hrun

include hstop

/-- A fact analysis that joins and has no rules is lawful in every world. -/
theorem lawful : (analysis spec).Lawful inclusion (fun _ => True) := by
  have hadj := adjuster_static hadjust
  exact
    { transfer_keeps := fun s p g w _ => ⟨trivial, successors_next htransfer s p g w⟩
      transfer_pure := fun s p g w₁ w₂ _ _ => successors_pure htransfer s p g w₁ w₂
      transfer_fresh := fun _ _ _ _ _ _ _ hx => successors_fresh htransfer hx
      adjust_keeps := fun s p store w _ => by
        rw [hadj]
        exact ⟨trivial, Nat.le_refl _⟩
      adjust_pure := fun s₁ s₂ p store₁ store₂ w₁ w₂ hs _ _ => by
        rw [hadj]
        show Except.ok (some (s₁.bare, Signal.proceed)) = Except.ok (some (s₂.bare, Signal.proceed))
        rw [hs]
      adjust_fresh := fun s p store w b w' _ hx => by
        rw [hadj] at hx
        cases hx
        exact .inl rfl
      fallback_keeps := fun s p err w _ => by
        rw [hadj]
        exact ⟨trivial, Nat.le_refl _⟩
      fallback_pure := fun s₁ s₂ p err w₁ w₂ _ _ _ => by
        rw [hadj]
        rfl
      fallback_fresh := fun s p err w b w' _ hx => by
        rw [hadj] at hx
        cases hx
      merge_keeps := fun s r p w _ => ⟨trivial, merge_next horder hmerge s r p w⟩
      merge_fresh := fun s r p w m w' _ hx => (merge_renewed horder hmerge hx).1.2
      merge_above := fun s r p w m w' _ hx => (merge_renewed horder hmerge hx).2
      stop_keeps := fun s rs p w _ => by
        show True ∧ w.next.serial ≤ (((stopper spec).stop s rs p).run.run w).2.next.serial
        rw [run_stop hstop]
        exact ⟨trivial, Nat.le_refl _⟩
      stop_below := fun s rs p w w' _ hx => by
        have hx : ((stopper spec).stop s rs p).run.run w = (.ok true, w') := hx
        rw [run_stop hstop] at hx
        cases hc : (domain spec).coveredBySome s rs with
        | error e => rw [hc] at hx; cases hx
        | ok b =>
          rw [hc] at hx
          cases hx
          obtain ⟨r, hr, hle⟩ := Domain.exists_le_of_coveredBySome hc
          exact ⟨r, hr, inclusion_of_le horder hle⟩ }

/-- Such an analysis takes no handle back. -/
theorem forward : (analysis spec).Forward := by
  have hlawful := lawful htransfer hadjust horder hmerge hstop
  have hadj := adjuster_static hadjust
  refine ⟨hlawful.transfer_keeps, hlawful.merge_keeps, hlawful.stop_keeps, fun s p around w _ => ?_,
    hlawful.fallback_keeps, fun n part w _ => ⟨trivial, ?_⟩, fun n part w _ => ⟨trivial, ?_⟩⟩
  · rw [hadj]
    exact ⟨trivial, Nat.le_refl _⟩
  · show w.next.serial ≤ ((initialState spec n part).run.run w).2.next.serial
    unfold initialState
    cases spec.initialFailure with
    | none => exact Nat.le_succ _
    | some kind => exact Nat.le_refl _
  · show w.next.serial ≤ ((initialPrecision spec part).run.run w).2.next.serial
    unfold initialPrecision
    cases spec.precisionFailure with
    | some kind => exact Nat.le_refl _
    | none =>
      cases spec.level with
      | some level => exact Nat.le_succ _
      | none => exact Nat.le_succ _

end Facts

end ProgramAnalysis
