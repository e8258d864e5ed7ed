import Mathlib.Data.List.Find
import ProgramAnalysis.Proofs.Agreement
import ProgramAnalysis.Proofs.FactsPure
import ProgramAnalysis.Proofs.NestedOrder
/-!
Pure adjusters.

An adjuster is pure if its answer depends on what it is given and not on the world, up to the
handles that it draws. Handles that were drawn before stand for themselves in both worlds, those of
the arguments and of the surroundings among them. What the adjuster does to its memory, to the clock
and to the tokens is left open.

Fact analyses adjust purely unless their rules count the calls (`Facts.adjuster_pure`); failures and
fallbacks do no harm.
-/

namespace ProgramAnalysis

variable {ν ρ ω ε α β : Type} {p : Precision ρ}

/-! ## What is given to a component -/

/-- All handles of the precision, inner ones included, were drawn before `h`. -/
def Precision.Before (p : Precision ρ) (h : Handle) : Prop := ∀ k ∈ p.handles, k.serial < h.serial

theorem Precision.Before.mono {h h' : Handle} (hp : p.Before h) (hle : h.serial ≤ h'.serial) :
    p.Before h' :=
  fun k hk => Nat.lt_of_lt_of_le (hp k hk) hle

theorem Precision.Before.handle_lt {h : Handle} (hp : p.Before h) : p.handle.serial < h.serial := by
  obtain ⟨inner, hhandles⟩ := p.exists_handles
  apply hp
  rw [hhandles]
  exact List.mem_cons_self

theorem Precision.mem_handlesAll {ps : List (Precision ρ)} {k : Handle} (hp : p ∈ ps)
    (hk : k ∈ p.handles) : k ∈ handlesAll ps := by
  induction ps with
  | nil => cases hp
  | cons q qs ih =>
    unfold handlesAll
    rcases List.mem_cons.1 hp with rfl | hp
    · exact List.mem_append_left _ hk
    · exact List.mem_append_right _ (ih hp)

theorem Precision.Before.component {h : Handle} (hp : p.Before h) :
    ∀ q ∈ p.components, q.Before h := by
  intro q hq
  cases p with
  | tuple k ps => exact fun l hl => hp l (List.mem_cons_of_mem k (mem_handlesAll hq hl))
  | _ => cases hq

/-- All handles that can be found in the surroundings were drawn before `h`. -/
structure Surroundings.Before (around : Surroundings ν ρ) (h : Handle) : Prop where
  whole : around.whole.Before h
  state : ∀ {id e}, around.reached.get? id = some e → e.state.Before h
  precision : ∀ {id e}, around.reached.get? id = some e → e.precision.Before h
  view : ∀ {id e}, around.reached.get? id = some e → (around.view e.state).Before h

/-- All that components are given was drawn before `h`, and so were the interned handles. -/
structure Given (interned : Handle → Prop) (around : Surroundings ν ρ) (ss : List (State ν))
    (ps : List (Precision ρ)) (h : Handle) : Prop where
  interned : ∀ k, interned k → k.serial < h.serial
  around : around.Before h
  states : ∀ s ∈ ss, s.Before h
  precisions : ∀ p ∈ ps, p.Before h

namespace Given

variable {interned : Handle → Prop} {around : Surroundings ν ρ} {s : State ν} {ss : List (State ν)}
  {p : Precision ρ} {ps : List (Precision ρ)} {h h' : Handle}

theorem later (hgiven : Given interned around ss ps h) (hle : h.serial ≤ h'.serial) :
    Given interned around ss ps h' where
  interned k hk := Nat.lt_of_lt_of_le (hgiven.interned k hk) hle
  around := ⟨hgiven.around.whole.mono hle, fun he => (hgiven.around.state he).mono hle,
    fun he => (hgiven.around.precision he).mono hle, fun he => (hgiven.around.view he).mono hle⟩
  states s hs := (hgiven.states s hs).mono hle
  precisions p hp := (hgiven.precisions p hp).mono hle

theorem head (hgiven : Given interned around (s :: ss) (p :: ps) h) :
    Given interned around [s] [p] h :=
  { hgiven with
    states := List.forall_mem_singleton.2 (hgiven.states s List.mem_cons_self)
    precisions := List.forall_mem_singleton.2 (hgiven.precisions p List.mem_cons_self) }

theorem tail (hgiven : Given interned around (s :: ss) (p :: ps) h) :
    Given interned around ss ps h :=
  { hgiven with
    states := fun t ht => hgiven.states t (List.mem_cons_of_mem s ht)
    precisions := fun q hq => hgiven.precisions q (List.mem_cons_of_mem p hq) }

theorem cons (hgiven : Given interned around ss ps h) (hs : s.Before h) (hp : p.Before h) :
    Given interned around (s :: ss) (p :: ps) h :=
  { hgiven with
    states := List.forall_mem_cons.2 ⟨hs, hgiven.states⟩
    precisions := List.forall_mem_cons.2 ⟨hp, hgiven.precisions⟩ }

theorem state (hgiven : Given interned around [s] [p] h) : s.Before h :=
  hgiven.states s List.mem_cons_self

theorem precision (hgiven : Given interned around [s] [p] h) : p.Before h :=
  hgiven.precisions p List.mem_cons_self

theorem components (hgiven : Given interned around [s] [p] h) :
    Given interned around s.components p.components h where
  interned := hgiven.interned
  around := hgiven.around
  states c hc := by
    have hs := hgiven.state
    cases s with
    | tuple k cs x => exact hs.component c hc
    | _ => cases hc
  precisions := hgiven.precision.component

end Given

/-! ## Pure adjusters -/

/-- `k` was drawn before `h`. -/
def Handle.Earlier (h k : Handle) : Prop := k.serial < h.serial

/-- What the adjuster answers does not depend on the world, up to the handles that it draws. -/
structure Adjuster.Pure (a : Adjuster ν ρ ω) (interned : Handle → Prop) : Prop where
  adjustForward : ∀ s p around, Keeps (fun _ => True) (a.adjust s p around)
  fallbackForward : ∀ s p err, Keeps (fun _ => True) (a.fallback s p err)
  adjust : ∀ {s p around h}, Given interned around [s] [p] h →
    Likewise h.Earlier (.ofInterned h.Earlier) (a.adjust s p around) (a.adjust s p around)
      fun U => Option.Rel (Adjustment.Matches U)
  fallback : ∀ {s p around h} (err : Error), Given interned around [s] [p] h →
    Likewise h.Earlier (.ofInterned h.Earlier) (a.fallback s p err) (a.fallback s p err)
      fun U => Option.Rel (Adjustment.Matches U)

/-! ## Effects that draw handles -/

/-- The computation does what the effect does, after steps that draw nothing. -/
def Performs (x : ExceptT ε (Effect ω) α) (e : Effect ω α) : Prop :=
  ∀ w, ∃ w₁, x.run.run w = (.ok (e.run w₁).1, (e.run w₁).2) ∧ w₁.next = w.next

section

variable {x : ExceptT ε (Effect ω) α} {e : Effect ω α} {known : Handle → Prop} {T : Naming}
  {Q : Naming → α → α → Prop}

theorem Performs.still {a : α} (h : Performs x e) (hQ : Q T a a) (he : ∀ w, e.run w = (a, w)) :
    Likewise known T x x Q := by
  have hrun : ∀ w, ∃ w₁, x.run.run w = (.ok a, w₁) ∧ w₁.next = w.next := by
    intro w
    obtain ⟨w₁, hrun, hnext⟩ := h w
    rw [he] at hrun
    exact ⟨w₁, hrun, hnext⟩
  exact .still hQ hrun hrun

theorem Performs.draws (n : Nat) {f : Handle → α} (h : Performs x e)
    (hQ : ∀ (U : Naming) (h k : Handle), (∀ a b, T a b → U a b) →
      (∀ i < n, U ⟨h.serial + i⟩ ⟨k.serial + i⟩) → Q U (f h) (f k))
    (he : ∀ w, e.run w = (f w.next, { w with next := ⟨w.next.serial + n⟩ })) :
    Likewise known T x x Q := by
  have hrun : ∀ w, ∃ w₁, x.run.run w = (.ok (f w.next), w₁) ∧ w₁.next = ⟨w.next.serial + n⟩ := by
    intro w
    obtain ⟨w₁, hrun, hnext⟩ := h w
    rw [he, hnext] at hrun
    exact ⟨_, hrun, rfl⟩
  exact .draws n hQ hrun hrun

end

/-! ## Rules that do not count calls -/

namespace Facts

/-- No rule looks at the number of the call. -/
def CallFree (rules : List Rule) : Prop :=
  ∀ rule ∈ rules, ∀ c ∈ rule.conditions, ∀ numbers, c ≠ .callIn numbers

theorem respond_callFree {rules : List Rule} (h : CallFree rules) (x : Situation) (call : Nat) :
    respond rules { x with call := call } = respond rules x := by
  have hholds : ∀ c : Condition, (∀ numbers, c ≠ .callIn numbers) →
      c.holds { x with call := call } = c.holds x := by
    intro c hc
    cases c with
    | callIn numbers => exact absurd rfl (hc numbers)
    | _ => rfl
  have happlies : ∀ rule ∈ rules, rule.applies { x with call := call } = rule.applies x := by
    intro rule hrule
    refine Bool.eq_iff_iff.2 ?_
    unfold Rule.applies
    rw [List.all_eq_true, List.all_eq_true]
    exact forall₂_congr fun c hc => by rw [hholds c (h rule hrule c hc)]
  unfold respond
  rw [List.find?_congr happlies]

variable {spec : Spec} {rules : List Rule} {s : State FactValue} {p : Precision Level}
  {x : ExceptT ε (Effect Notes) (Option (Adjustment FactValue Level))}

/-- What the rules say about an adjustment, at whatever call. -/
def answerTo (rules : List Rule) (v : FactValue) (level : Nat)
    (around : Surroundings FactValue Level) : Response :=
  respond rules ⟨v.facts, [], level, 0, none, some around⟩

/-- The rules refuse to adjust, or they describe an adjustment; the world has no part in this. -/
theorem adjust_performs (spec : Spec) (hfree : CallFree rules) (s : State FactValue)
    (p : Precision Level) (around : Surroundings FactValue Level) :
    (∃ err, ∀ w, ∃ w₁, (adjust spec rules s p around).run.run w = (.error (.error err), w₁) ∧
      w₁.next = w.next) ∨
    ∃ r, Performs (adjust spec rules s p around) (adjusted spec s p r) := by
  let counted (w : World Notes) := tallied (fun c => { c with adjust := c.adjust + 1 }) w
  rcases hs : s.asLeaf with err | v
  · refine .inl ⟨err, fun w => ⟨counted w, ?_, rfl⟩⟩
    unfold adjust
    rw [hs]
    rfl
  rcases hp : p.level with err | level
  · refine .inl ⟨err, fun w => ⟨counted w, ?_, rfl⟩⟩
    unfold adjust
    rw [hs, hp]
    rfl
  let r := answerTo rules v level around
  have hadjust : ∀ w, (adjust spec rules s p around).run.run w =
      (carryOut noEdge r >>= fun _ => Action.ofEffect (adjusted spec s p r)).run.run
        (counted w) := by
    intro w
    have hr : respond rules ⟨v.facts, [], level, (counted w).memory.1.adjust, none, some around⟩ =
        r := respond_callFree hfree ⟨v.facts, [], level, 0, none, some around⟩ _
    rw [← hr]
    unfold adjust
    rw [hs, hp]
    rfl
  cases hfailure : r.failure with
  | some f =>
    refine .inl ⟨f.kind.error noEdge f.message, fun w => ?_⟩
    obtain ⟨w₁, hrun, hnext⟩ := run_carryOut_eq noEdge r (counted w)
    rw [hfailure] at hrun
    exact ⟨w₁, (hadjust w).trans (run_bind_of_error hrun), hnext⟩
  | none =>
    refine .inr ⟨r, fun w => ?_⟩
    obtain ⟨w₁, hrun, hnext⟩ := run_carryOut noEdge hfailure (counted w)
    exact ⟨w₁, (hadjust w).trans (run_bind_of_ok hrun), hnext⟩

/-- A fallback that is missing does what a response without results does. -/
theorem fallback_performs (spec : Spec) (s : State FactValue) (p : Precision Level) :
    ∃ r, Performs (Attempt.ofEffect (fallback spec s p)) (adjusted spec s p r) := by
  let counted (w : World Notes) := tallied (fun c => { c with fallback := c.fallback + 1 }) w
  cases hfallback : spec.fallback with
  | some r =>
    refine ⟨r, fun w => ⟨counted w, ?_, rfl⟩⟩
    unfold fallback
    rw [hfallback]
    rfl
  | none =>
    refine ⟨{ results := some [] }, fun w => ⟨counted w, ?_, rfl⟩⟩
    unfold fallback
    rw [hfallback]
    rfl

theorem adjusted_likewise {r : Response} {known : Handle → Prop} {T : Naming}
    (hx : Performs x (adjusted spec s p r)) (hs : s.Matches T s) (hp : p.Matches T p) :
    Likewise known T x x fun U => Option.Rel (Adjustment.Matches U) := by
  let signal : Signal := if r.halts then .halt else .proceed
  unfold adjusted at hx
  rcases hresults : r.results.getD [.same] with _ | ⟨_ | ⟨remove, add, anchor⟩, rest⟩
  · rw [hresults] at hx
    exact hx.still .none fun w => rfl
  · rw [hresults] at hx
    cases hlevel : r.level with
    | none =>
      rw [hlevel] at hx
      exact hx.still (.some ⟨hs, hp, rfl⟩) fun w => rfl
    | some level =>
      rw [hlevel] at hx
      refine hx.draws 1 (f := fun h => some ⟨s, .leaf h level, signal⟩) ?_ fun w => rfl
      exact fun U h k hT hk => .some ⟨hs.mono hT, ⟨rfl, .cons (hk 0 (by simp)) .nil⟩, rfl⟩
  · rw [hresults] at hx
    unfold revise at hx
    cases hleaf : s.leaf? with
    | none =>
      rw [hleaf] at hx
      exact hx.still .none fun w => rfl
    | some v =>
      rw [hleaf] at hx
      let new (h : Handle) : State FactValue :=
        make spec h ((v.facts.eraseAll remove).insertAll add) (anchor.or v.anchor)
      cases hlevel : r.level with
      | none =>
        rw [hlevel] at hx
        refine hx.draws 1 (f := fun h => some ⟨new h, p, signal⟩) ?_ fun w => rfl
        exact fun U h k hT hk => .some ⟨make_matches (hk 0 (by simp)) _ _, hp.mono hT, rfl⟩
      | some level =>
        rw [hlevel] at hx
        refine hx.draws 2 (f := fun h => some ⟨new h, .leaf h.next level, signal⟩) ?_ fun w => rfl
        exact fun U h k _ hk => .some ⟨make_matches (hk 0 (by simp)) _ _,
          ⟨rfl, .cons (hk 1 (by simp)) .nil⟩, rfl⟩

theorem adjusted_next (spec : Spec) (s : State FactValue) (p : Precision Level) (r : Response)
    (w : World Notes) : w.next.serial ≤ ((adjusted spec s p r).run w).2.next.serial := by
  unfold adjusted
  rcases r.results.getD [.same] with _ | ⟨_ | ⟨remove, add, anchor⟩, rest⟩
  · exact Nat.le_refl _
  · cases r.level with
    | none => exact Nat.le_refl _
    | some level => exact Nat.le_succ _
  · unfold revise
    cases s.leaf? with
    | none => exact Nat.le_refl _
    | some v =>
      cases r.level with
      | none => exact Nat.le_succ _
      | some level => exact Nat.le_succ_of_le (Nat.le_succ _)

theorem adjusted_keeps {r : Response} (hx : Performs x (adjusted spec s p r)) :
    Keeps (fun _ => True) x := by
  intro w _
  obtain ⟨w₁, hrun, hnext⟩ := hx w
  rw [hrun, ← hnext]
  exact ⟨trivial, adjusted_next spec s p r w₁⟩

/-- Rules that do not count calls adjust purely, also if they fail and are saved by a fallback. -/
theorem adjuster_pure (hfree : ∀ rules, spec.adjust = some rules → CallFree rules)
    (interned : Handle → Prop) : (adjuster spec).Pure interned := by
  have hself : ∀ {s : State FactValue} {p : Precision Level} {around h},
      Given interned around [s] [p] h → s.Matches (.ofInterned h.Earlier) s ∧
        p.Matches (.ofInterned h.Earlier) p := fun hgiven =>
    ⟨State.matches_self fun k hk => ⟨hgiven.state k hk, rfl⟩,
      Precision.matches_self fun k hk => ⟨hgiven.precision k hk, rfl⟩⟩
  unfold adjuster
  cases hadjust : spec.adjust with
  | none =>
    refine ⟨fun s p around w _ => ⟨trivial, Nat.le_refl _⟩,
      fun s p err w _ => ⟨trivial, Nat.le_refl _⟩, ?_, ?_⟩
    · intro s p around h hgiven
      exact .still (.some ⟨(hself hgiven).1, (hself hgiven).2, rfl⟩) (fun w => ⟨w, rfl, rfl⟩)
        fun w => ⟨w, rfl, rfl⟩
    · intro s p around h err hgiven
      exact .still .none (fun w => ⟨w, rfl, rfl⟩) fun w => ⟨w, rfl, rfl⟩
  | some rules =>
    have hfree := hfree rules hadjust
    refine ⟨fun s p around => ?_, fun s p err => ?_, ?_, ?_⟩
    · rcases adjust_performs spec hfree s p around with ⟨err, hrefused⟩ | ⟨r, hperforms⟩
      · intro w _
        obtain ⟨w₁, hrun, hnext⟩ := hrefused w
        show _ ∧ _ ≤ ((adjust spec rules s p around).run.run w).2.next.serial
        rw [hrun, hnext]
        exact ⟨trivial, Nat.le_refl _⟩
      · exact adjusted_keeps hperforms
    · obtain ⟨r, hperforms⟩ := fallback_performs spec s p
      exact adjusted_keeps hperforms
    · intro s p around h hgiven
      rcases adjust_performs spec hfree s p around with ⟨err, hrefused⟩ | ⟨r, hperforms⟩
      · have hrun : ∀ w, ∃ w₁, (adjust spec rules s p around).run.run w =
            (.error (.error err), w₁) := fun w => (hrefused w).imp fun _ h => h.1
        exact .refused hrun hrun
      · exact adjusted_likewise hperforms (hself hgiven).1 (hself hgiven).2
    · intro s p around h err hgiven
      obtain ⟨r, hperforms⟩ := fallback_performs spec s p
      exact adjusted_likewise hperforms (hself hgiven).1 (hself hgiven).2

end Facts

end ProgramAnalysis
