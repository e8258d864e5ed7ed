import ProgramAnalysis.Proofs.Closure
import ProgramAnalysis.Proofs.Targets
/-!
Analyses that join.

Such an analysis joins each new state into the reached ones and stops it when a single reached state
lies above it. A call of the merge is then one of two things (`Analysis.Joining.merged`): the
reached state lies above the new one and is given back, or it does not and a join with a new handle
takes its place. After the pass over a place, all entries there lie above the new state. So an entry
grows, a state is covered by an entry at its place, or it is added at a place that was empty; these
are the premises of the rule for an expansion (`Joins.intake`).
-/

namespace ProgramAnalysis

variable {ν ρ ω θ : Type}

/-! ## Domains -/

namespace Domain

/-- The first state lies above the second, and not the other way round. -/
def Above (d : Domain ν) (a b : State ν) : Prop := d.Le b a ∧ ¬ d.Le a b

/-- The order is transitive, and a join lies above the new state. It is the reached state or has a
handle drawn since. -/
structure Bounding (d : Domain ν) : Prop where
  trans : ∀ a b c, d.Le a b → d.Le b c → d.Le a c
  upper : ∀ s r m h h', (d.join s r).run.run h = (.ok m, h') → d.Le s m
  fresh : ∀ s r m h h', (d.join s r).run.run h = (.ok m, h') →
    m = r ∨ h.serial ≤ m.handle.serial ∧ m.handle.serial < h'.serial

variable {d : Domain ν} {s r m : State ν} {h h' : Handle} {rs : List (State ν)}

theorem joinInto_eq_ok [LeafValue ν] (hrun : (d.joinInto s r).run.run h = (.ok m, h')) :
    d.Le s r ∧ m = r ∧ h' = h ∨
      ¬ d.Le s r ∧ d.Le r m ∧ (d.join s r).run.run h = (.ok m, h') := by
  have hjoin : Triple (fun n => n = h) (d.joinInto s r)
      (fun m n => d.Le s r ∧ m = r ∧ n = h ∨
        ¬ d.Le s r ∧ d.Le r m ∧ (d.join s r).run.run h = (.ok m, n)) (fun _ _ => True) := by
    unfold joinInto
    refine .bind (.fail (Facts.ofExcept_triple _) fun _ _ _ => trivial) fun covers => ?_
    split
    · next hc =>
      refine .pure fun n hn => .inl ⟨?_, rfl, hn.2⟩
      rw [Le, hn.1, hc]
    next hc =>
    refine .bind (R := fun m n => ¬ d.Le s r ∧ (d.join s r).run.run h = (.ok m, n))
      (.of_run ?_ fun _ _ _ _ _ => trivial) fun joined => ?_
    · intro n m n' hn hx
      rw [hn.2] at hx
      refine ⟨fun hle => hc ?_, hx⟩
      rw [Le, hn.1, Except.ok.injEq] at hle
      exact hle
    refine .bind (.fail (Facts.ofExcept_triple _) fun _ _ _ => trivial) fun above => ?_
    split
    · next ha =>
      refine .pure fun n hn => .inr ⟨hn.2.1, ?_, hn.2.2⟩
      rw [Le, hn.1, ha]
    · exact .throw fun _ _ => trivial
  exact hjoin.ok rfl hrun

/-- A state below all of the reached ones is covered, unless there is none. -/
theorem coveredBySome_of_le (hne : rs ≠ []) (hle : ∀ t ∈ rs, d.Le s t) :
    d.coveredBySome s rs = .ok true := by
  cases rs with
  | nil => exact absurd rfl hne
  | cons t rest =>
    have ht : d.leq s t = .ok true := hle t (by simp)
    unfold coveredBySome
    rw [ht]
    rfl

end Domain

/-! ## Operators -/

/-- The analysis merges and stops by its domain: what it answers is what the domain computes, and it
draws the handles that the domain draws. It may keep a memory besides. -/
structure Analysis.Joining [LeafValue ν] (a : Analysis ν ρ ω) : Prop where
  isSep : a.merger.isSep = false
  merge : ∀ s r p w, ((a.merger.merge s r p).run.run w).1 =
      ((a.domain.joinInto s r).run.run w.next).1.mapError .error ∧
    ((a.merger.merge s r p).run.run w).2.next = ((a.domain.joinInto s r).run.run w.next).2
  stop : ∀ s rs p w, ((a.stopper.stop s rs p).run.run w).1 =
      (a.domain.coveredBySome s rs).mapError .error ∧
    ((a.stopper.stop s rs p).run.run w).2.next = w.next

theorem Facts.joining {spec : Spec} (hmerge : spec.merge = .join) (hstop : spec.stop = .sep) :
    (analysis spec).Joining where
  isSep := by
    show (chosenMerge spec).isSep = false
    unfold chosenMerge
    rw [hmerge]
    rfl
  merge s r p w := by
    have hrun : ((analysis spec).merger.merge s r p).run.run w = _ := run_merge hmerge s r p w
    rw [hrun]
    exact ⟨rfl, rfl⟩
  stop s rs p w := by
    have hrun : ((analysis spec).stopper.stop s rs p).run.run w = _ := run_stop hstop s rs p w
    rw [hrun]
    exact ⟨rfl, rfl⟩

namespace Analysis.Joining

variable [LeafValue ν] {a : Analysis ν ρ ω} {s r m : State ν} {p : Precision ρ} {w w' : World ω}

theorem joined (h : a.Joining) (hrun : (a.merger.merge s r p).run.run w = (.ok m, w')) :
    (a.domain.joinInto s r).run.run w.next = (.ok m, w'.next) := by
  obtain ⟨hanswer, hnext⟩ := h.merge s r p w
  rw [hrun] at hanswer hnext
  rcases hj : (a.domain.joinInto s r).run.run w.next with ⟨e | m', n⟩
  · rw [hj] at hanswer
    cases hanswer
  · rw [hj] at hanswer hnext
    cases hanswer
    rw [hnext]

theorem merged (h : a.Joining) (hd : a.domain.Bounding)
    (hrun : (a.merger.merge s r p).run.run w = (.ok m, w')) :
    a.domain.Le s r ∧ m = r ∧ w'.next = w.next ∨
      ¬ a.domain.Le s r ∧ a.domain.Le r m ∧ a.domain.Le s m ∧ w.Drew w' m.handle ∧
        (a.domain.join s r).run.run w.next = (.ok m, w'.next) := by
  rcases Domain.joinInto_eq_ok (h.joined hrun) with hsame | ⟨hnot, hle, hx⟩
  · exact .inl hsame
  · have hupper := hd.upper s r m _ _ hx
    refine .inr ⟨hnot, hle, hupper, ?_, hx⟩
    rcases hd.fresh s r m _ _ hx with hm | hm
    · rw [hm] at hupper
      exact absurd hupper hnot
    · exact hm

theorem stopped {rs : List (State ν)} {b : Bool} (h : a.Joining)
    (hrun : (a.stopper.stop s rs p).run.run w = (.ok b, w')) :
    a.domain.coveredBySome s rs = .ok b ∧ w'.next = w.next := by
  obtain ⟨hanswer, hnext⟩ := h.stop s rs p w
  rw [hrun] at hanswer hnext
  cases hc : a.domain.coveredBySome s rs with
  | error e =>
    rw [hc] at hanswer
    cases hanswer
  | ok b' =>
    rw [hc] at hanswer
    cases hanswer
    exact ⟨rfl, hnext⟩

end Analysis.Joining

/-! ## One expansion -/

namespace Exploration

variable [LeafValue ν] [Waitlist θ ν]

/-- The premises about `admitAll` under an analysis that joins: `P todo` holds when `todo` has to be
admitted yet. -/
structure Joins (x : Exploration ν ρ ω) (part : Partition)
    (P : Successors ν ρ → World ω → ReachedSet ν ρ θ → Prop) : Prop where
  sound : ∀ todo w r, P todo w r → r.Sound
  below : ∀ todo w r, P todo w r → Below r w
  later : ∀ todo w w' r, P todo w r → w.next.serial ≤ w'.next.serial → P todo w' r
  grown : ∀ a l todo w r id e merged w' i r', P ((a, l) :: todo) w r → r.get? id = some e →
    e.place = ⟨l, part⟩ → ¬ x.analysis.domain.Le a.state e.state →
    x.analysis.domain.Le e.state merged → x.analysis.domain.Le a.state merged →
    w.Drew w' merged.handle →
    (x.analysis.domain.join a.state e.state).run.run w.next = (.ok merged, w'.next) →
    (r.remove id).2.add ⟨merged, a.precision, l, part⟩ = .ok (i, r') → P ((a, l) :: todo) w' r'
  covered : ∀ a l todo w r id e, P ((a, l) :: todo) w r → r.get? id = some e →
    e.place = ⟨l, part⟩ → x.analysis.domain.Le a.state e.state → P todo w r
  known : ∀ a l todo w r, P ((a, l) :: todo) w r → r.store.contains a.state = true → P todo w r
  added : ∀ a l todo w r id r', P ((a, l) :: todo) w r →
    (∀ j e, r.get? j = some e → e.place ≠ ⟨l, part⟩) →
    r.add ⟨a.state, a.precision, l, part⟩ = .ok (id, r') → P todo w r'

/-- Of the entries at the place, all but the given ones lie above the state. -/
def Passed (d : Domain ν) (s : State ν) (place : Place) (ids : List EntryId)
    (r : ReachedSet ν ρ θ) : Prop :=
  ∀ id e, r.get? id = some e → e.place = place → id ∈ ids ∨ d.Le s e.state

variable {x : Exploration ν ρ ω} {part : Partition}
  {P : Successors ν ρ → World ω → ReachedSet ν ρ θ → Prop}

theorem Joins.pass (h : Joins x part P) (hj : x.analysis.Joining) (hd : x.analysis.domain.Bounding)
    (a : Adjustment ν ρ) (l : NodeId) (todo : Successors ν ρ) :
    MergePass x a.state a.precision ⟨l, part⟩
      (fun ids w r _ => P ((a, l) :: todo) w r ∧
        Passed x.analysis.domain a.state ⟨l, part⟩ ids r)
      (fun ending _ _ _ => Inexhausted ending) where
  sound ids w r t hP := h.sound _ w r hP.1
  gone id ids w r t hP hnone := by
    refine ⟨hP.1, fun j f hf hplace => ?_⟩
    rcases hP.2 j f hf hplace with hj | hle
    · rcases List.mem_cons.1 hj with rfl | hj
      · rw [hnone] at hf
        cases hf
      · exact .inl hj
    · exact .inr hle
  same id ids w r t e merged w' hP he hplace hrun hsame := by
    rcases hj.merged hd hrun with ⟨hle, -, hnext⟩ | ⟨-, -, -, hdrew, -⟩
    · refine ⟨h.later _ w w' r hP.1 (Nat.le_of_eq (by rw [hnext])), fun j f hf hfp => ?_⟩
      rcases hP.2 j f hf hfp with hmem | hle'
      · rcases List.mem_cons.1 hmem with rfl | hmem
        · rw [he] at hf
          cases hf
          exact .inr hle
        · exact .inl hmem
      · exact .inr hle'
    · -- A handle that was just drawn is not the one of an entry.
      have hlt := h.below _ w r hP.1 id e he
      have hge := hdrew.1
      rw [hsame] at hge
      omega
  replaced id ids w r t e merged w' i r' hP he hplace hrun hne hadd := by
    rcases hj.merged hd hrun with ⟨-, hm, -⟩ | ⟨hnot, hle, hupper, hdrew, hjoin⟩
    · exact absurd (congrArg State.handle hm) hne
    · refine ⟨h.grown a l todo w r id e merged w' i r' hP.1 he hplace hnot hle hupper hdrew hjoin
        hadd, fun j f hf hfp => ?_⟩
      rcases ReachedSet.new_or_old_of_add hadd hf with ⟨-, rfl⟩ | hf
      · exact .inr hupper
      · obtain ⟨hjid, hf⟩ := ReachedSet.get?_remove_eq_some.1 hf
        rcases hP.2 j f hf hfp with hmem | hle'
        · exact .inl ((List.mem_cons.1 hmem).resolve_left hjid)
        · exact .inr hle'
  vanished id ids w r t e merged w' hP he hplace hrun hne hc := by
    rcases hj.merged hd hrun with ⟨-, hm, -⟩ | ⟨-, -, -, hdrew, -⟩
    · exact absurd (congrArg State.handle hm) hne
    · obtain ⟨j, g, hg, hgh⟩ := ((h.sound _ w r hP.1).remove id).store.contains_iff.1 hc
      have hlt := h.below _ w r hP.1 j g (ReachedSet.get?_remove_eq_some.1 hg).2
      have hge := hdrew.1
      rw [← hgh] at hge
      omega
  failed _ _ _ _ _ _ _ _ _ _ _ _ := by simp [Inexhausted]
  crashed _ _ _ _ := by simp [Inexhausted]

omit [LeafValue ν] [Waitlist θ ν] in
/-- A state that is not covered after the pass is at a place without entries. -/
theorem Passed.vacant {d : Domain ν} {s : State ν} {place : Place} {r : ReachedSet ν ρ θ}
    (h : Passed d s place [] r) (hs : r.Sound)
    (hc : d.coveredBySome s (r.store.statesAt place) = .ok false) :
    ∀ j e, r.get? j = some e → e.place ≠ place := by
  intro j e he hplace
  have hne : r.store.statesAt place ≠ [] :=
    List.ne_nil_of_mem (hs.store.mem_statesAt.2 ⟨j, e, he, hplace, rfl⟩)
  have htrue : d.coveredBySome s (r.store.statesAt place) = .ok true := by
    refine Domain.coveredBySome_of_le hne fun t ht => ?_
    obtain ⟨k, f, hf, hfp, rfl⟩ := hs.store.mem_statesAt.1 ht
    rcases h k f hf hfp with hk | hle
    · cases hk
    · exact hle
  rw [hc] at htrue
  cases htrue

theorem Joins.intake (h : Joins x part P) (hj : x.analysis.Joining)
    (hd : x.analysis.domain.Bounding) :
    Intake x part (fun todo w r _ => P todo w r)
      (fun a l todo ids w r _ => P ((a, l) :: todo) w r ∧
        Passed x.analysis.domain a.state ⟨l, part⟩ ids r)
      (fun ending _ _ _ => Inexhausted ending) where
  apart a l todo hsep := by
    rw [hj.isSep] at hsep
    cases hsep
  start a l todo _ w r t hP := by
    refine ⟨hP, fun id e he hplace => .inl ?_⟩
    exact ((h.sound _ w r hP).store.places ⟨l, part⟩ id).2 ⟨e, he, hplace⟩
  pass a l todo _ := h.pass hj hd a l todo
  covered a l todo w r t w' hM hrun := by
    obtain ⟨hc, hnext⟩ := hj.stopped hrun
    obtain ⟨s, hs, hle⟩ := Domain.exists_le_of_coveredBySome hc
    obtain ⟨id, e, he, hplace, rfl⟩ := (h.sound _ w r hM.1).store.mem_statesAt.1 hs
    exact h.later _ w w' r (h.covered a l todo w r id e hM.1 he hplace hle) (Nat.le_of_eq (by rw [hnext]))
  known a l todo w r t w' hM hrun hc := by
    obtain ⟨-, hnext⟩ := hj.stopped hrun
    exact h.later _ w w' r (h.known a l todo w r hM.1 hc) (Nat.le_of_eq (by rw [hnext]))
  added a l todo w r t w' id r' hM hrun hadd _ := by
    obtain ⟨hc, hnext⟩ := hj.stopped hrun
    have hvacant := hM.2.vacant (h.sound _ w r hM.1) hc
    exact h.later _ w w' r' (h.added a l todo w r id r' hM.1 hvacant hadd) (Nat.le_of_eq (by rw [hnext]))
  found a l todo w r t w' id r' hM hrun hadd _ := by
    obtain ⟨hc, hnext⟩ := hj.stopped hrun
    have hvacant := hM.2.vacant (h.sound _ w r hM.1) hc
    refine ⟨?_, by simp [Inexhausted]⟩
    exact h.later _ w w' r' (h.added a l todo w r id r' hM.1 hvacant hadd) (Nat.le_of_eq (by rw [hnext]))
  refused _ _ _ _ _ _ _ _ _ _ _ := by simp [Inexhausted]
  failed _ _ _ _ _ _ _ _ _ _ := by simp [Inexhausted]
  crashed _ _ _ _ _ _ _ _ _ _ := by simp [Inexhausted]

end Exploration

end ProgramAnalysis
