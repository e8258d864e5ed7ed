import ProgramAnalysis.Proofs.TupleCoverage
/-!
What a merge of tuples can give.

The components are merged one after the other (`MergedEach`), each by its own operator and in the
world that the one before it has left. Either nothing comes of it and the reached tuple itself is
given back, or there is a new tuple, and it is put together from what the components have answered
(`MergedTuple`). Which of the two it was can be read off the mode of the operator, whatever it was
before the call. Under `hybrid` the new tuple covers the one that was merged into it, so that a
product without a designated component stops there.
-/

namespace ProgramAnalysis

variable {ν ρ ω κ α : Type}

/-- A computation on the first part of a memory leaves the rest of it alone. -/
theorem Triple.focus_fst {x : Action ω α} {w : World (ω × κ)} {Q : α → World ω → Prop}
    (h : Triple (· = w.withMemory w.memory.1) x Q fun _ _ => True) :
    Triple (· = w) (x.focus .fst)
      (fun a w' => Q a (w'.withMemory w'.memory.1) ∧ w'.memory.2 = w.memory.2)
      fun _ _ => True := by
  rintro w rfl
  have hx := h _ rfl
  have hrun : (x.focus .fst).run.run w = ((x.run.run (w.withMemory w.memory.1)).1,
      (x.run.run (w.withMemory w.memory.1)).2.withMemory
        ((x.run.run (w.withMemory w.memory.1)).2.memory, w.memory.2)) := rfl
  rw [hrun]
  revert hx
  rcases x.run.run (w.withMemory w.memory.1) with ⟨e | a, w'⟩
  · exact fun _ => trivial
  · exact fun hx => ⟨hx, rfl⟩

namespace Product

/-! ## Components -/

/-- The components are merged one after the other, from the world `w` on, and give `ms`. Under
`agree`, a component that keeps states apart is not asked and gives the reached state. -/
inductive MergedEach (kind : MergeKind) : List (Analysis ν ρ ω) → List (State ν) →
    List (State ν) → List (Precision ρ) → World ω → List (State ν) → World ω → Prop where
  | nil {w} : MergedEach kind [] [] [] [] w [] w
  | kept {a : Analysis ν ρ ω} {as s r ss rs ms p ps w w'} :
      kind = .agree → a.merger.isSep = true → MergedEach kind as ss rs ps w ms w' →
      MergedEach kind (a :: as) (s :: ss) (r :: rs) (p :: ps) w (r :: ms) w'
  | merged {a : Analysis ν ρ ω} {as s r m ss rs ms p ps w w₁ w'} :
      ¬(kind = .agree ∧ a.merger.isSep = true) →
      (a.merger.merge s r p).run.run w = (.ok m, w₁) → MergedEach kind as ss rs ps w₁ ms w' →
      MergedEach kind (a :: as) (s :: ss) (r :: rs) (p :: ps) w (m :: ms) w'

variable {kind : MergeKind} {as : List (Analysis ν ρ ω)} {ss rs ms : List (State ν)}
  {ps : List (Precision ρ)}

theorem MergedEach.length_eq {w w' : World ω} (h : MergedEach kind as ss rs ps w ms w') :
    ms.length = as.length := by
  induction h with
  | nil => rfl
  | kept _ _ _ ih => exact congrArg (· + 1) ih
  | merged _ _ _ ih => exact congrArg (· + 1) ih

theorem MergedEach.forward {w w' : World ω} (h : MergedEach kind as ss rs ps w ms w')
    (hforward : ∀ a ∈ as, ∀ s r p, Keeps (fun _ => True) (a.merger.merge s r p)) :
    w.next.serial ≤ w'.next.serial := by
  induction h with
  | nil => exact Nat.le_refl _
  | kept _ _ _ ih => exact ih fun a ha => hforward a (List.mem_cons_of_mem _ ha)
  | merged _ hrun _ ih =>
    have hhead := ((hforward _ List.mem_cons_self _ _ _).of_run trivial hrun).2
    exact Nat.le_trans hhead (ih fun a ha => hforward a (List.mem_cons_of_mem _ ha))

/-- Some component of the one list has another handle than that of the other. -/
def Differ (ms rs : List (State ν)) : Prop :=
  ∃ (i : Nat) (m r : State ν), ms[i]? = some m ∧ rs[i]? = some r ∧ m.handle ≠ r.handle

theorem Differ.cons {m r : State ν} (h : Differ ms rs) : Differ (m :: ms) (r :: rs) := by
  obtain ⟨i, m', r', hm, hr, hne⟩ := h
  exact ⟨i + 1, m', r', hm, hr, hne⟩

variable [LeafValue ν]

/-- Under `agree`, the components that keep states apart have equal states. -/
def Agree (as : List (Analysis ν ρ ω)) (ss rs : List (State ν)) : Prop :=
  ∀ (i : Nat) (a : Analysis ν ρ ω) (s r : State ν), as[i]? = some a → a.merger.isSep = true →
    ss[i]? = some s → rs[i]? = some r → s.agrees r = true

theorem Agree.cons {a : Analysis ν ρ ω} {s r : State ν} (h : Agree as ss rs)
    (hsep : a.merger.isSep = true → s.agrees r = true) : Agree (a :: as) (s :: ss) (r :: rs) := by
  intro i b t u hb hsepb ht hu
  cases i with
  | zero =>
    cases hb
    cases ht
    cases hu
    exact hsep hsepb
  | succ i => exact h i b t u hb hsepb ht hu

/-- What is known of merged components that were not refused. -/
structure Accepted (kind : MergeKind) (as : List (Analysis ν ρ ω)) (ss rs : List (State ν))
    (ps : List (Precision ρ)) (w : World ω) (ms : List (State ν)) (w' : World ω) : Prop where
  each : MergedEach kind as ss rs ps w ms w'
  agree : kind = .agree → Agree as ss rs
  covers : kind = .hybrid → leqComponents (as.map Analysis.domain) ss ms = .ok true

theorem mergeComponents_accepted (hss : ss.length = as.length) (hrs : rs.length = as.length)
    (hps : ps.length = as.length) (w : World ω) :
    Triple (· = w) (mergeComponents kind as ss rs ps)
      (fun answer w' => ∀ ms changed, answer = some (ms, changed) →
        Accepted kind as ss rs ps w ms w' ∧ (changed = true → Differ ms rs))
      fun _ _ => True := by
  induction as generalizing ss rs ps w with
  | nil =>
    cases List.length_eq_zero_iff.1 hss
    cases List.length_eq_zero_iff.1 hrs
    cases List.length_eq_zero_iff.1 hps
    refine .pure ?_
    rintro _ rfl ms changed ⟨⟩
    refine ⟨⟨.nil, fun _ i a s r ha => ?_, fun _ => rfl⟩, fun h => ?_⟩
    · cases ha
    · cases h
  | cons a as ih =>
    obtain ⟨s, ss, rfl⟩ := List.exists_cons_of_length_eq_add_one hss
    obtain ⟨r, rs, rfl⟩ := List.exists_cons_of_length_eq_add_one hrs
    obtain ⟨p, ps, rfl⟩ := List.exists_cons_of_length_eq_add_one hps
    have hrest : ∀ w, Triple (· = w) (mergeComponents kind as ss rs ps) _ _ :=
      ih (Nat.succ.inj hss) (Nat.succ.inj hrs) (Nat.succ.inj hps)
    unfold mergeComponents
    split
    · next hpassed =>
      obtain ⟨hkind, hsep⟩ : kind = .agree ∧ a.merger.isSep = true := by simpa using hpassed
      split
      · next hagrees =>
        refine .bind (hrest w) fun answer => .pure ?_
        rintro w' hanswer ms changed heq
        obtain ⟨⟨ms', changed'⟩, rfl, heq⟩ := Option.map_eq_some_iff.1 heq
        cases heq
        obtain ⟨haccepted, hdiffer⟩ := hanswer ms' _ rfl
        refine ⟨⟨.kept hkind hsep haccepted.each, fun h => ?_, fun h => ?_⟩,
          fun h => (hdiffer h).cons⟩
        · exact (haccepted.agree h).cons fun _ => hagrees
        · rw [hkind] at h
          cases h
      · exact .pure fun _ _ ms changed heq => by cases heq
    · next hasked =>
      have hasked : ¬(kind = .agree ∧ a.merger.isSep = true) := by simpa using hasked
      refine .bind (R := fun m w₁ => (a.merger.merge s r p).run.run w = (.ok m, w₁))
        (.of_run ?_ fun _ _ _ _ _ => trivial) fun m w₁ hrun => ?_
      · rintro _ m w₁ rfl hrun
        exact hrun
      have hjudged := Triple.ofExcept (P := (· = w₁)) (acceptable kind a.domain s m)
      refine Triple.bind hjudged (fun accepted => .assume fun hacceptable => ?_) w₁ rfl
      split
      · next haccepted =>
        refine .bind (hrest w₁) fun answer => .pure ?_
        rintro w' hanswer ms changed heq
        obtain ⟨⟨ms', changed'⟩, rfl, heq⟩ := Option.map_eq_some_iff.1 heq
        cases heq
        obtain ⟨htail, hdiffer⟩ := hanswer ms' _ rfl
        refine ⟨⟨.merged hasked hrun htail.each, fun h => ?_, fun h => ?_⟩, fun h => ?_⟩
        · exact (htail.agree h).cons fun hsep => absurd ⟨h, hsep⟩ hasked
        · subst h haccepted
          exact leqComponents_cons.2 ⟨hacceptable, htail.covers rfl⟩
        · rcases Bool.or_eq_true_iff.1 h with hne | hchanged
          · exact ⟨0, m, r, rfl, rfl, by simpa using hne⟩
          · exact (hdiffer hchanged).cons
      · exact .pure fun _ _ ms changed heq => by cases heq

/-! ## Tuples -/

/-- A new tuple that comes of merging the tuple `s` into the tuple `r`. -/
structure MergedTuple (o : ProductOptions) (as : List (Analysis ν ρ ω)) (s r : State ν)
    (p : Precision ρ) (w : World (ω × MergeMode)) (m : State ν) (w' : World (ω × MergeMode)) :
    Prop where
  arity : s.HasArity as.length ∧ p.HasArity as.length ∧ r.HasArity as.length
  tuple : m = .tuple m.handle m.components (anchor o.locationIndex m.components)
  drawn : w.Drew w' m.handle
  each : ∃ w₁, MergedEach o.merge as s.components r.components p.components
    (w.withMemory w.memory.1) m.components w₁
  differ : Differ m.components r.components
  placed : ∀ i, o.locationIndex = some i →
    s.components[i]?.bind State.location? = r.components[i]?.bind State.location?
  agree : o.merge = .agree → Agree as s.components r.components
  covers : o.merge = .hybrid → ∀ (i : Nat) (a : Analysis ν ρ ω) (c d : State ν),
    as[i]? = some a → s.components[i]? = some c → m.components[i]? = some d → a.domain.Le c d

variable {o : ProductOptions} {s r m : State ν} {p : Precision ρ} {w w' : World (ω × MergeMode)}

theorem MergedTuple.hasArity (h : MergedTuple o as s r p w m w') : m.HasArity as.length := by
  obtain ⟨w₁, heach⟩ := h.each
  exact ⟨_, _, _, h.tuple, heach.length_eq⟩

theorem placed_of_anchors (h : ¬anchorsDiffer o.locationIndex ss rs = true) (i : Nat)
    (hi : o.locationIndex = some i) :
    ss[i]?.bind State.location? = rs[i]?.bind State.location? := by
  rw [hi] at h
  simpa [anchorsDiffer] using h

variable [LeafPrecision ρ]

/-- The order of the product is that of the components. -/
theorem MergedTuple.le (h : MergedTuple o as s r p w m w') (hkind : o.merge = .hybrid) :
    (analysis o as).domain.Le s m := by
  obtain ⟨k, cs, x, hs, hcs⟩ := h.arity.1
  obtain ⟨l, ds, y, hm, hds⟩ := h.hasArity
  have hsize : (as.map Analysis.domain).length = as.length := List.length_map _
  have hcomponents : leqComponents (as.map Analysis.domain) cs ds = .ok true := by
    refine leqComponents_eq_true_iff.2 fun i d c c' hd hc hc' => ?_
    rw [List.getElem?_map] at hd
    obtain ⟨a, ha, rfl⟩ := Option.map_eq_some_iff.1 hd
    refine h.covers hkind i a c c' ha ?_ ?_
    · rw [hs]
      exact hc
    · rw [hm]
      exact hc'
  rw [hs, hm]
  exact (leq_tuple (hcs.trans hsize.symm) (hds.trans hsize.symm)).trans hcomponents

/-- The reached tuple is given back and the mode is `sep`, or there is a new tuple and the mode is
`join`. -/
theorem merge_triple (hforward : ∀ a ∈ as, ∀ s r p, Keeps (fun _ => True) (a.merger.merge s r p))
    (w : World (ω × MergeMode)) :
    Triple (· = w) ((merger o as).merge s r p)
      (fun m w' => m = r ∧ w'.memory.2 = .sep ∨
        MergedTuple o as s r p w m w' ∧ w'.memory.2 = .join)
      fun _ _ => True := by
  have hreset : Triple (· = w) (Action.remember .snd fun _ => MergeMode.sep)
      (fun _ w₁ => w₁ = w.withMemory (w.memory.1, .sep)) fun _ _ => True := by
    rintro _ rfl
    exact rfl
  refine .bind hreset fun _ => .bind (.ofExcept _) fun parts => .assume fun hparts =>
    .bind (.ofExcept _) fun rs => .assume fun hreached => ?_
  obtain ⟨hs, hp, rfl⟩ := split_eq_ok_iff.1 hparts
  obtain ⟨hr, rfl⟩ := stateOf_eq_ok_iff.1 hreached
  split
  · refine .pure ?_
    rintro _ rfl
    exact .inl ⟨rfl, rfl⟩
  next hplaced =>
  obtain ⟨_, ss, _, rfl, hss⟩ := hs
  obtain ⟨_, ps, rfl, hps⟩ := hp
  obtain ⟨_, rs, _, rfl, hrs⟩ := hr
  refine .bind (Triple.focus_fst (w := w.withMemory (w.memory.1, .sep))
    (mergeComponents_accepted hss hrs hps (w.withMemory w.memory.1))) fun answer => ?_
  split
  · next ms =>
    rintro w₁ ⟨hanswer, -⟩
    obtain ⟨haccepted, hdiffer⟩ := hanswer ms true rfl
    have hforward : w.next.serial ≤ w₁.next.serial := haccepted.each.forward hforward
    refine .inr ⟨⟨⟨⟨_, _, _, rfl, hss⟩, ⟨_, _, rfl, hps⟩, _, _, _, rfl, hrs⟩, rfl,
      ⟨hforward, Nat.lt_succ_self _⟩, ⟨_, haccepted.each⟩, hdiffer rfl,
      placed_of_anchors hplaced, haccepted.agree, fun hkind i a c d ha hc hd => ?_⟩, rfl⟩
    refine leqComponents_eq_true_iff.1 (haccepted.covers hkind) i a.domain c d ?_ hc hd
    rw [List.getElem?_map, ha]
    rfl
  · refine .pure fun w₁ hw₁ => .inl ⟨rfl, hw₁.2⟩

/-- A merge of tuples gives the reached tuple itself or a new one that is put together from merged
components. The mode says which, whatever the calls before have left it at; and under `hybrid` a new
tuple covers the one that was merged into it. -/
theorem merge_classified (o : ProductOptions) (as : List (Analysis ν ρ ω))
    (hforward : ∀ a ∈ as, ∀ s r p, Keeps (fun _ => True) (a.merger.merge s r p))
    {s r m : State ν} {p : Precision ρ} {w w' : World (ω × MergeMode)}
    (hr : r.handle.serial < w.next.serial)
    (run : ((analysis o as).merger.merge s r p).run.run w = (.ok m, w')) :
    (m = r ∨ MergedTuple o as s r p w m w') ∧
      (w'.memory.2 = .join ↔ m.handle ≠ r.handle) ∧
      (m.handle ≠ r.handle → o.merge = .hybrid → o.locationIndex = none →
        (∀ a ∈ as, a.stopper = .sep a.domain) → ∀ q : Precision ρ, q.HasArity as.length →
        ∀ v, ((analysis o as).stopper.stop s [m] q).run.run v = (.ok true, v)) := by
  rcases (merge_triple hforward w).ok rfl run with ⟨rfl, hmode⟩ | ⟨hmerged, hmode⟩
  · refine ⟨.inl rfl, ?_, fun hne => absurd rfl hne⟩
    rw [hmode]
    simp
  · have hne : m.handle ≠ r.handle := by
      intro heq
      have hold := hmerged.drawn.1
      rw [heq] at hold
      omega
    refine ⟨.inr hmerged, iff_of_true hmode hne, fun _ hkind hindex hsep q hq v => ?_⟩
    have hstop := stop_analysis_eq hindex
      (fun a ha => Analysis.asksOrder_of_standard (.inl (hsep a ha))) hmerged.arity.1 hq
      (List.forall_mem_singleton.2 hmerged.hasArity)
    have hle : (analysis o as).domain.leq s m = .ok true := hmerged.le hkind
    rw [hstop, Domain.coveredBySome_singleton, hle]
    rfl

/-! ## A component that is covered next to one that grows -/

/-- Facts that are merged as given, and stopped by a single state that covers them. -/
def merging (choice : Facts.MergeChoice) : Analysis FactValue Level Facts.Notes :=
  { Facts.analysis { merge := choice } with stopper := .sep (Facts.domain { merge := choice }) }

def mergingParts : List (Analysis FactValue Level Facts.Notes) := [merging .sep, merging .join]

def hybridMerge : ProductOptions := { merge := .hybrid }

/-- The last call has failed, since it was given a state that is no tuple. -/
def afterFailure : World (Facts.Notes × MergeMode) :=
  (((analysis hybridMerge mergingParts).merger.merge (Facts.make {} ⟨1⟩ .empty none)
    (judged 20 [1] [5]) judgedPrecision).run.run judgeWorld).2

theorem merging_forward : ∀ a ∈ mergingParts, ∀ s r p,
    Keeps (fun _ => True) (a.merger.merge s r p) := by
  intro a ha s r p
  rcases List.mem_cons.1 ha with rfl | ha
  · exact fun w _ => ⟨trivial, Nat.le_refl _⟩
  · cases List.mem_singleton.1 ha
    exact fun w _ => ⟨trivial, Facts.merge_next rfl rfl s r p w⟩

/-- The first component keeps the reached facts, which cover the new ones; the second one joins. -/
theorem hybrid_merge_classified : ∃ m w',
    ((analysis hybridMerge mergingParts).merger.merge (judged 10 [1] [6]) (judged 20 [1] [5])
      judgedPrecision).run.run afterFailure = (.ok m, w') ∧
    MergedTuple hybridMerge mergingParts (judged 10 [1] [6]) (judged 20 [1] [5]) judgedPrecision
      afterFailure m w' ∧
    w'.memory.2 = .join ∧
    ((analysis hybridMerge mergingParts).stopper.stop (judged 10 [1] [6]) [m]
      judgedPrecision).run.run w' = (.ok true, w') := by
  obtain ⟨m, w', run, hnew⟩ := exists_ok_of_any
    (((analysis hybridMerge mergingParts).merger.merge (judged 10 [1] [6]) (judged 20 [1] [5])
      judgedPrecision).run.run afterFailure) (fun m => m.handle ≠ ⟨20⟩) (by decide +kernel)
  have hnew : m.handle ≠ ⟨20⟩ := of_decide_eq_true hnew
  obtain ⟨hresult, hmode, hstop⟩ :=
    merge_classified hybridMerge mergingParts merging_forward (by decide) run
  have hsep : ∀ a ∈ mergingParts, a.stopper = .sep a.domain := by
    intro a ha
    rcases List.mem_cons.1 ha with rfl | ha
    · rfl
    · cases List.mem_singleton.1 ha
      rfl
  refine ⟨m, w', run, hresult.resolve_left fun h => hnew (congrArg State.handle h), hmode.2 hnew,
    hstop hnew rfl rfl hsep judgedPrecision ⟨_, _, rfl, rfl⟩ w'⟩

end Product

end ProgramAnalysis
