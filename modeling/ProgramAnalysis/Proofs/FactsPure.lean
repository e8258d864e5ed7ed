import ProgramAnalysis.Proofs.FactsContract
import ProgramAnalysis.Proofs.Naming
/-!
Fact analyses that join do not look at the names of handles.

Their rules for the transfer may cancel the session and take time, as often as they like and also
depending on the number of the call; as long as they neither fail nor name the successors, the
answer is the same. Messages do not show handles, so refusals are the same too.
-/

namespace ProgramAnalysis.Facts

variable {spec : Spec} {s t r r' : State FactValue} {p : Precision Level}

/-! ## Contents -/

theorem asLeaf_bare (s : State FactValue) : s.bare.asLeaf = s.asLeaf := by
  have hmismatch : ∀ t : State FactValue, Except.error (Error.mismatch .leaf t.bare.describe) =
      (Except.error (Error.mismatch .leaf t.describe) : Except Error FactValue) :=
    fun t => by rw [State.describe_bare]
  cases s with
  | leaf h v => rfl
  | location h n => rfl
  | tuple h cs anchor => exact hmismatch (.tuple h cs anchor)
  | monitored h w len x => exact hmismatch (.monitored h w len x)
  | graphed h n w => exact hmismatch (.graphed h n w)

theorem asLeaf_alike (h : s.Alike t) : s.asLeaf = t.asLeaf := by
  rw [← asLeaf_bare s, ← asLeaf_bare t, h]

theorem level_bare (p : Precision Level) : p.bare.level = p.level := by
  cases p with
  | plain h => rfl
  | leaf h v => rfl
  | tuple h ps =>
    exact congrArg (fun text => Except.error (Error.mismatch .leafPrecision text))
      (Precision.describe_bare (.tuple h ps))

theorem pairText_alike (hs : s.Alike t) (hr : r.Alike r') : pairText s r = pairText t r' := by
  unfold pairText
  rw [hs.describe, hr.describe]

theorem leq_alike (hs : s.Alike t) (hr : r.Alike r') : leq spec s r = leq spec t r' := by
  unfold leq
  rw [asLeaf_alike hs, asLeaf_alike hr, pairText_alike hs hr]

theorem coveredBySome_alike (hs : s.Alike t) {rs rs' : List (State FactValue)}
    (hrs : List.Forall₂ State.Alike rs rs') :
    (domain spec).coveredBySome s rs = (domain spec).coveredBySome t rs' := by
  have hleq : ∀ r, (domain spec).leq s r = leq spec s r := fun _ => rfl
  have hleq' : ∀ r, (domain spec).leq t r = leq spec t r := fun _ => rfl
  induction hrs with
  | nil => rfl
  | cons hr _ ih =>
    unfold Domain.coveredBySome
    rw [hleq, hleq', leq_alike hs hr, ih]

/-! ## Joins -/

/-- Two computations of a join, from the handles `n` and `n'`, do the same: both refuse, both give
the reached state, or both make a new one. -/
inductive Parallel (spec : Spec) (r r' : State FactValue) (n n' : Handle) :
    Except Error (State FactValue) × Handle → Except Error (State FactValue) × Handle → Prop where
  | refused (e : Error) (m m' : Handle) : Parallel spec r r' n n' (.error e, m) (.error e, m')
  | kept : Parallel spec r r' n n' (.ok r, n) (.ok r', n')
  | made (facts : FactSet) (anchor : Option NodeId) :
      Parallel spec r r' n n' (.ok (make spec n facts anchor), n.next)
        (.ok (make spec n' facts anchor), n'.next)

theorem run_join {v w : FactValue} (hs : s.asLeaf = .ok v) (hr : r.asLeaf = .ok w) (n : Handle) :
    (join spec s r).run.run n =
      if (decide (spec.join = .undefined) || decide (v.anchor ≠ w.anchor)) = true then
        (.error (.undefined "join" (pairText s r)), n)
      else if spec.join = .lossy then (.ok (make spec n v.facts v.anchor), n.next)
      else if (decide (spec.join ≠ .copy) && v.facts.visible.subset w.facts.visible) = true then
        (.ok r, n)
      else (.ok (make spec n (v.facts.union w.facts) v.anchor), n.next) := by
  unfold join
  rw [hs, hr]
  show StateT.run (ExceptT.run (if _ then _ else _)) n = _
  split
  · rfl
  show StateT.run (ExceptT.run (if _ then _ else _)) n = _
  split
  · rfl
  show StateT.run (ExceptT.run (if _ then _ else _)) n = _
  split
  · rfl
  · rfl

theorem join_parallel (hs : s.Alike t) (hr : r.Alike r') (n n' : Handle) :
    Parallel spec r r' n n' ((join spec s r).run.run n) ((join spec t r').run.run n') := by
  have hv := asLeaf_alike hs
  have hw := asLeaf_alike hr
  rcases ht : t.asLeaf with e | v
  · unfold join
    rw [hv, ht]
    exact .refused e n n'
  rcases hr' : r'.asLeaf with e | w
  · unfold join
    rw [hv, hw, ht, hr']
    exact .refused e n n'
  rw [run_join (hv.trans ht) (hw.trans hr'), run_join ht hr', pairText_alike hs hr]
  split
  · exact .refused _ n n'
  split
  · exact .made _ _
  split
  · exact .kept
  · exact .made _ _

/-- What becomes of the outcome of a join, which has to cover the reached state. -/
def checked (spec : Spec) (r : State FactValue) :
    Except Error (State FactValue) × Handle → Except Error (State FactValue) × Handle
  | (.error e, m) => (.error e, m)
  | (.ok joined, m) =>
    match leq spec r joined with
    | .error e => (.error e, m)
    | .ok true => (.ok joined, m)
    | .ok false => (.error (.contractViolation
        ("join result " ++ joined.describe ++ " does not cover " ++ r.describe)), m)

theorem run_joinInto (s r : State FactValue) (n : Handle) :
    ((domain spec).joinInto s r).run.run n =
      match leq spec s r with
      | .error e => (.error e, n)
      | .ok true => (.ok r, n)
      | .ok false => checked spec r ((join spec s r).run.run n) := by
  have hread : ∀ (o : Except Error Bool) (m : Handle),
      (Alloc.ofExcept o).run.run m = (o, m) := by
    intro o m
    cases o <;> rfl
  have hleq : (domain spec).leq = leq spec := rfl
  have hjoin : (domain spec).join = join spec := rfl
  unfold Domain.joinInto
  rw [run_bind, hread, hleq, hjoin]
  rcases leq spec s r with e | b
  · rfl
  cases b with
  | true => rfl
  | false =>
    show StateT.run (ExceptT.run (join spec s r >>= _)) n = _
    rw [run_bind]
    rcases (join spec s r).run.run n with ⟨e | joined, m⟩
    · rfl
    dsimp only [checked]
    rw [run_bind, hread]
    rcases leq spec r joined with e | b
    · rfl
    cases b <;> rfl

theorem Parallel.checked {n n' : Handle} {p q : Except Error (State FactValue) × Handle}
    (hr : r.Alike r') (h : Parallel spec r r' n n' p q) :
    Parallel spec r r' n n' (checked spec r p) (checked spec r' q) := by
  have hmake : ∀ facts anchor, (make spec n facts anchor).Alike (make spec n' facts anchor) :=
    fun _ _ => rfl
  unfold Facts.checked
  cases h with
  | refused e m m' => exact .refused e m m'
  | kept =>
    dsimp only
    rw [leq_alike hr hr, hr.describe]
    split
    · exact .refused _ _ _
    · exact .kept
    · exact .refused _ _ _
  | made facts anchor =>
    dsimp only
    rw [leq_alike hr (hmake facts anchor), hr.describe, (hmake facts anchor).describe]
    split
    · exact .refused _ _ _
    · exact .made _ _
    · exact .refused _ _ _

theorem joinInto_parallel (hs : s.Alike t) (hr : r.Alike r') (n n' : Handle) :
    Parallel spec r r' n n' (((domain spec).joinInto s r).run.run n)
      (((domain spec).joinInto t r').run.run n') := by
  rw [run_joinInto, run_joinInto, leq_alike hs hr]
  split
  · exact .refused _ _ _
  · exact .kept
  · exact (join_parallel hs hr n n').checked hr

/-! ## Silent rules -/

/-- The rules neither fail nor say what the successors are. -/
def Silent (rules : List Rule) : Prop :=
  ∀ rule ∈ rules, rule.response.failure = none ∧ rule.response.results = none

theorem respond_silent {rules : List Rule} (h : Silent rules) (x : Situation) :
    (respond rules x).failure = none ∧ (respond rules x).results = none := by
  unfold respond
  cases hfind : rules.find? (Rule.applies x) with
  | none => exact ⟨rfl, rfl⟩
  | some rule => exact h rule (List.mem_of_find?_eq_some hfind)

theorem run_carryOut_eq (edge : EdgeId) (r : Response) (w : World Notes) :
    ∃ w₁, (carryOut edge r).run.run w =
        (r.failure.elim (.ok ()) fun f => .error (.error (f.kind.error edge f.message)), w₁) ∧
      w₁.next = w.next := by
  unfold carryOut
  cases r.failure <;> cases r.cancels <;> cases r.pause <;> exact ⟨_, rfl, rfl⟩

theorem run_carryOut (edge : EdgeId) {r : Response} (h : r.failure = none) (w : World Notes) :
    ∃ w₁, (carryOut edge r).run.run w = (.ok (), w₁) ∧ w₁.next = w.next := by
  have hrun := run_carryOut_eq edge r w
  rw [h] at hrun
  exact hrun

/-- The successor along an edge when no rule names another one. -/
def successor (spec : Spec) (v : FactValue) (e : ProgramEdge) (h : Handle) : State FactValue :=
  make spec h ((v.facts.eraseAll []).insertAll [e.id.index])
    (spec.tracking.map (Tracking.successor e))

theorem run_successors_silent (h : Silent spec.transfer) {v : FactValue} {level : Nat}
    (hs : s.asLeaf = .ok v) (hp : p.level = .ok level) (e : ProgramEdge) (w : World Notes) :
    ∃ w₁, (successors spec s [] p e).run.run w = (.ok [successor spec v e w.next], w₁) ∧
      w₁.next = w.next.next := by
  let answer := respond spec.transfer
    ⟨v.facts, [], level, (afterTransfer w).memory.1.transfer, some e, none⟩
  obtain ⟨hfailure, hresults⟩ : answer.failure = none ∧ answer.results = none := respond_silent h _
  obtain ⟨w₁, hrun, hnext⟩ := run_carryOut e.id hfailure (afterTransfer w)
  refine ⟨{ w₁ with next := w₁.next.next }, ?_, congrArg Handle.next hnext⟩
  unfold successors
  rw [hs, hp]
  show StateT.run (ExceptT.run (carryOut e.id answer >>= fun _ => Action.ofEffect
    (realiseAll spec s v (spec.tracking.map (Tracking.successor e))
      (answer.results.getD [.changed [] [e.id.index] none])))) (afterTransfer w) = _
  have hnext : w₁.next = w.next := hnext
  rw [run_bind, hrun, hresults, ← hnext]
  rfl

theorem run_successors_refused (spec : Spec) (s : State FactValue) (p : Precision Level)
    (e : ProgramEdge) {err : Error}
    (h : s.asLeaf = .error err ∨ (∃ v, s.asLeaf = .ok v) ∧ p.level = .error err) (w : World Notes) :
    ∃ w₁, (successors spec s [] p e).run.run w = (.error (.error err), w₁) ∧ w₁.next = w.next := by
  unfold successors
  rcases h with hs | ⟨⟨v, hs⟩, hp⟩
  · rw [hs]
    exact ⟨_, rfl, rfl⟩
  · rw [hs, hp]
    exact ⟨_, rfl, rfl⟩

/-! ## Purity -/

variable {interned : Handle → Prop} {T : Naming}

theorem make_matches {h k : Handle} (hk : T h k) (facts : FactSet) (anchor : Option NodeId) :
    (make spec h facts anchor).Matches T (make spec k facts anchor) :=
  ⟨rfl, .cons hk .nil⟩

theorem successors_likewise (hsilent : Silent spec.transfer) (e : ProgramEdge) {q : Precision Level}
    (hs : s.Matches T t) (hp : p.Matches T q) :
    Likewise interned T (successors spec s [] p e) (successors spec t [] q e)
      fun U => List.Forall₂ (State.Matches U) := by
  have hv := asLeaf_alike hs.1
  have hl : p.level = q.level := by rw [← level_bare p, ← level_bare q, hp.1]
  rcases ht : t.asLeaf with err | v
  · exact .refused (fun w => (run_successors_refused spec s p e (.inl (hv.trans ht)) w).imp
      fun _ h => h.1) fun w => (run_successors_refused spec t q e (.inl ht) w).imp fun _ h => h.1
  rcases hq : q.level with err | level
  · exact .refused (fun w => (run_successors_refused spec s p e
      (.inr ⟨⟨v, hv.trans ht⟩, hl.trans hq⟩) w).imp fun _ h => h.1)
      fun w => (run_successors_refused spec t q e (.inr ⟨⟨v, ht⟩, hq⟩) w).imp fun _ h => h.1
  · exact .draws 1 (f := fun h => [successor spec v e h]) (g := fun h => [successor spec v e h])
      (fun U h k _ hk => .cons (make_matches (hk 0 (by simp)) _ _) .nil)
      (run_successors_silent hsilent (hv.trans ht) (hl.trans hq) e)
      (run_successors_silent hsilent ht hq e)

theorem merge_likewise (hmerge : spec.merge = .join) (p q : Precision Level) (hs : s.Matches T t)
    (hr : r.Matches T r') :
    Likewise interned T ((merger spec).merge s r p) ((merger spec).merge t r' q)
      fun U => State.Matches U := by
  intro w w' hw
  rw [run_merge hmerge, run_merge hmerge]
  have h : Parallel spec r r' w.next w'.next _ _ := joinInto_parallel hs.1 hr.1 w.next w'.next
  generalize ((domain spec).joinInto s r).run.run w.next = o at h
  generalize ((domain spec).joinInto t r').run.run w'.next = o' at h
  cases h with
  | refused e m m' => exact rfl
  | kept => exact ⟨T, .refl _ _ _ _ _, hw.later (Nat.le_refl _) (Nat.le_refl _), hr⟩
  | made facts anchor =>
    exact ⟨_, (hw.drawn (n := 1) rfl rfl).2, (hw.drawn rfl rfl).1,
      make_matches (Naming.drawn_of_lt Nat.one_pos) _ _⟩

theorem forward_silent (hsilent : Silent spec.transfer) (hadjust : spec.adjust = none)
    (horder : spec.order = .subset) (hmerge : spec.merge = .join) (hstop : spec.stop = .sep) :
    (analysis spec).Forward := by
  have hrest : (analysis { spec with transfer := [] }).Forward :=
    forward rfl hadjust horder hmerge hstop
  refine ⟨fun s p e w _ => ⟨trivial, ?_⟩, hrest.merge, hrest.stop, hrest.adjust, hrest.fallback,
    hrest.initialState, hrest.initialPrecision⟩
  have hrefused : ∀ {err},
      (s.asLeaf = .error err ∨ (∃ v, s.asLeaf = .ok v) ∧ p.level = .error err) →
      w.next.serial ≤ ((successors spec s [] p e).run.run w).2.next.serial := by
    intro err h
    obtain ⟨w₁, hrun, hnext⟩ := run_successors_refused spec s p e h w
    rw [hrun]
    exact Nat.le_of_eq (congrArg Handle.serial hnext.symm)
  show w.next.serial ≤ ((successors spec s [] p e).run.run w).2.next.serial
  rcases hs : s.asLeaf with err | v
  · exact hrefused (.inl hs)
  rcases hp : p.level with err | level
  · exact hrefused (.inr ⟨⟨v, hs⟩, hp⟩)
  · obtain ⟨w₁, hrun, hnext⟩ := run_successors_silent hsilent hs hp e w
    rw [hrun]
    exact Nat.le_of_lt (Nat.lt_of_lt_of_eq (Nat.lt_succ_self _) (congrArg Handle.serial hnext.symm))

/-- A fact analysis that joins, with silent rules only, is pure. -/
theorem analysis_pure (hsilent : Silent spec.transfer) (hadjust : spec.adjust = none)
    (horder : spec.order = .subset) (hmerge : spec.merge = .join) (hstop : spec.stop = .sep)
    (interned : Handle → Prop)
    (sees : Naming → Store FactValue Level → Store FactValue Level → Prop) :
    (analysis spec).Pure interned sees := by
  have hadj := adjuster_static hadjust
  refine ⟨forward_silent hsilent hadjust horder hmerge hstop,
    fun e hs hp => successors_likewise hsilent e hs hp, ?_, ?_,
    fun hs hr _ => merge_likewise hmerge _ _ hs hr, ?_, ?_, ?_⟩
  · intro T s t p q store store' hs hp _
    rw [hadj]
    exact .still (a := some (.unchanged s p)) (b := some (.unchanged t q)) (.some ⟨hs, hp, rfl⟩)
      (fun w => ⟨w, rfl, rfl⟩) fun w => ⟨w, rfl, rfl⟩
  · intro T s t p q err _ _
    rw [hadj]
    exact .still .none (fun w => ⟨w, rfl, rfl⟩) fun w => ⟨w, rfl, rfl⟩
  · intro T s t rs rs' p q hs hrs _
    have hc : (domain spec).coveredBySome s rs = (domain spec).coveredBySome t rs' :=
      coveredBySome_alike hs.1 (hrs.imp fun _ _ h => h.1)
    have hrun : ∀ w, ((stopper spec).stop s rs p).run.run w =
        (((domain spec).coveredBySome t rs').mapError .error,
          tallied (fun c => { c with stop := c.stop + 1 }) w) := fun w => by
      rw [run_stop hstop, hc]
    have hrun' : ∀ w, ((stopper spec).stop t rs' q).run.run w = _ := run_stop hstop t rs' q
    rcases hb : (domain spec).coveredBySome t rs' with err | b
    · rw [hb] at hrun hrun'
      exact .refused (fun w => ⟨_, hrun w⟩) fun w => ⟨_, hrun' w⟩
    · rw [hb] at hrun hrun'
      exact .still rfl (fun w => ⟨_, hrun w, rfl⟩) fun w => ⟨_, hrun' w, rfl⟩
  · intro T n part
    show Likewise interned T (initialState spec n part) (initialState spec n part) _
    unfold initialState
    cases spec.initialFailure with
    | some kind => exact .refused (fun w => ⟨w, rfl⟩) fun w => ⟨w, rfl⟩
    | none =>
      exact .draws 1 (fun U h k _ hk => make_matches (hk 0 (by simp)) _ _)
        (fun w => ⟨_, rfl, rfl⟩) fun w => ⟨_, rfl, rfl⟩
  · intro T n part
    show Likewise interned T (initialPrecision spec part) (initialPrecision spec part) _
    unfold initialPrecision
    cases spec.precisionFailure with
    | some kind => exact .refused (fun w => ⟨w, rfl⟩) fun w => ⟨w, rfl⟩
    | none =>
      cases spec.level with
      | some level =>
        exact .draws 1 (f := fun h => .leaf h level) (g := fun h => .leaf h level)
          (fun U h k _ hk => ⟨rfl, .cons (hk 0 (by simp)) .nil⟩) (fun w => ⟨_, rfl, rfl⟩)
          fun w => ⟨_, rfl, rfl⟩
      | none =>
        exact .draws 1 (f := fun h => .plain h) (g := fun h => .plain h)
          (fun U h k _ hk => ⟨rfl, .cons (hk 0 (by simp)) .nil⟩) (fun w => ⟨_, rfl, rfl⟩)
          fun w => ⟨_, rfl, rfl⟩

end ProgramAnalysis.Facts
