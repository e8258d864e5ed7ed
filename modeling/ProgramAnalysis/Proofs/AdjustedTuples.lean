import ProgramAnalysis.Proofs.AdjustmentRounds
import ProgramAnalysis.Proofs.PureAdjusters
/-!
An adjusted tuple is a common fixpoint of its components.

The rounds of an adjustment end when one of them has changed nothing. Every component was asked
about its part of the tuple in that round and has agreed to it; if the components are pure
(`Adjuster.Pure`), each of them agrees to it again whenever it is asked later (`Product.Rests`).
Only an adjustment that was cut off after the last round that the settings allow can end elsewhere.

A pure component may draw handles, so its later answer is not the same. It matches the earlier one
under a naming of what was drawn, and agreement does not see the names.
-/

namespace ProgramAnalysis

variable {ν ρ ω : Type}

/-- A component sees parts of what the product sees. -/
theorem Given.seenBy {interned : Handle → Prop} {around : Surroundings ν ρ} {ss : List (State ν)}
    {ps : List (Precision ρ)} {h : Handle} (hgiven : Given interned around ss ps h) (i : Nat) :
    Given interned (Product.seenBy i around) ss ps h where
  interned := hgiven.interned
  around := by
    refine ⟨hgiven.around.whole, hgiven.around.state, hgiven.around.precision, ?_⟩
    intro id e he
    have hview := hgiven.around.view he
    show (Product.viewOf i around.view e.state).Before h
    unfold Product.viewOf
    dsimp only
    split
    · next k cs x heq =>
      rw [heq] at hview
      cases hc : cs[i]? with
      | none =>
        rw [Option.getD_none, heq]
        exact hview
      | some c => exact hview.component c (List.mem_of_getElem? hc)
    · exact hview
  states := hgiven.states
  precisions := hgiven.precisions

/-! ## Turns of pure components -/

namespace Product

variable {a : Adjuster ν ρ ω} {interned : Handle → Prop} {s : State ν} {p : Precision ρ}
  {around : Surroundings ν ρ} {w w' w₁ : World ω} {h : Handle} {b : Adjustment ν ρ}

theorem Reply.forward (hpure : a.Pure interned) {answer : Except Failure (Option (Adjustment ν ρ))}
    (hreply : Reply a s p around w answer w') : w.next.serial ≤ w'.next.serial := by
  have hadjust := hpure.adjustForward s p around
  have hfallback := hpure.fallbackForward s p
  cases hreply with
  | adjusted run => exact (hadjust.of_run trivial run).2
  | rescued run _ run' | unsaved run _ run' =>
    exact Nat.le_trans (hadjust.of_run trivial run).2 ((hfallback _).of_run trivial run').2
  | refused run _ => exact (hadjust.of_run trivial run).2
  | crashed run => exact (hadjust.of_run trivial run).2
  | crashedLate run _ run' =>
    exact Nat.le_trans (hadjust.of_run trivial run).2 ((hfallback _).of_run trivial run').2

/-- A pure component that has answered answers in any other world. -/
theorem Reply.likewise (hpure : a.Pure interned) (hgiven : Given interned around [s] [p] h)
    (hw : h.serial ≤ w.next.serial) (hw' : h.serial ≤ w'.next.serial)
    (hreply : Reply a s p around w (.ok (some b)) w₁) :
    ∃ c w₁' U, Reply a s p around w' (.ok (some c)) w₁' ∧ Naming.Spans h.Earlier U w₁ w₁' ∧
      b.Matches U c := by
  have hspans : ∀ {v v' : World ω}, h.serial ≤ v.next.serial → h.serial ≤ v'.next.serial →
      (Naming.ofInterned h.Earlier).Spans h.Earlier v v' := fun hv hv' =>
    Naming.spans_ofInterned (fun _ hk => Nat.lt_of_lt_of_le hk hv)
      fun _ hk => Nat.lt_of_lt_of_le hk hv'
  have hforward := hpure.adjustForward s p around
  cases hreply with
  | adjusted run =>
    obtain ⟨answer, w₁', U, run', hU, hmatch⟩ :=
      (hpure.adjust hgiven).ok_of_run (hspans hw hw') run
    cases hmatch with
    | some hmatch => exact ⟨_, w₁', U, .adjusted run', hU, hmatch⟩
  | @rescued e _ w₂ _ run hbackend hrescue =>
    -- The fallback is asked in the worlds that the failed calls have left.
    obtain ⟨w₂', run'⟩ := (hpure.adjust hgiven).error_of_run (hspans hw hw') run
    have hw₂ := Nat.le_trans hw (hforward.of_run trivial run).2
    have hw₂' := Nat.le_trans hw' (hforward.of_run trivial run').2
    obtain ⟨answer, w₁', U, hrescue', hU, hmatch⟩ :=
      (hpure.fallback e hgiven).ok_of_run (hspans hw₂ hw₂') hrescue
    cases hmatch with
    | some hmatch => exact ⟨_, w₁', U, .rescued run' hbackend hrescue', hU, hmatch⟩

/-- The answer of a pure component has no handles but those given and those drawn. -/
theorem Reply.before (hpure : a.Pure interned) (hgiven : Given interned around [s] [p] w.next)
    (hreply : Reply a s p around w (.ok (some b)) w') :
    b.state.Before w'.next ∧ b.precision.Before w'.next := by
  obtain ⟨c, w₁', U, -, hU, hmatch⟩ :=
    hreply.likewise hpure hgiven (Nat.le_refl _) (Nat.le_refl w.next.serial)
  have hbelow : ∀ {hs ks : List Handle}, List.Forall₂ U hs ks →
      ∀ k ∈ hs, k.serial < w'.next.serial := by
    intro hs ks hall
    induction hall with
    | nil => simp
    | cons hk _ ih => exact List.forall_mem_cons.2 ⟨(hU.below hk).1, ih⟩
  exact ⟨hbelow hmatch.state.2, hbelow hmatch.precision.2⟩

variable [LeafValue ν] [LeafPrecision ρ]

/-- Asked about its state and its precision, now or later, the component agrees to both and lets the
exploration go on. -/
def Rests (a : Adjuster ν ρ ω) (s : State ν) (p : Precision ρ) (around : Surroundings ν ρ)
    (h : Handle) : Prop :=
  ∀ w : World ω, h.serial ≤ w.next.serial → ∃ c w', Reply a s p around w (.ok (some c)) w' ∧
    c.signal = .proceed ∧ s.agrees c.state = true ∧ p.agrees c.precision = true

theorem Rests.mono {h' : Handle} (hrests : Rests a s p around h) (hle : h.serial ≤ h'.serial) :
    Rests a s p around h' :=
  fun w hw => hrests w (Nat.le_trans hle hw)

/-- A pure component that has agreed once rests. -/
theorem Reply.rests (hpure : a.Pure interned) (hgiven : Given interned around [s] [p] w.next)
    (hreply : Reply a s p around w (.ok (some b)) w₁) (hsignal : b.signal = .proceed)
    (hstate : s.agrees b.state = true) (hprecision : p.agrees b.precision = true) :
    Rests a s p around w.next := by
  intro w' hw'
  obtain ⟨c, w₁', U, hreply', hU, hmatch⟩ := hreply.likewise hpure hgiven (Nat.le_refl _) hw'
  have hs : s.Matches U s :=
    State.matches_self fun k hk => hU.interned k (hgiven.state k hk)
  have hp : p.Matches U p :=
    Precision.matches_self fun k hk => hU.interned k (hgiven.precision k hk)
  refine ⟨c, w₁', hreply', hmatch.signal.symm.trans hsignal, ?_, ?_⟩
  · rw [← State.agrees_congr hU.toOneToOne hs hmatch.state, hstate]
  · rw [← Precision.agrees_congr hU.toOneToOne hp hmatch.precision, hprecision]

/-! ## Rounds of pure components -/

variable {as : List (Adjuster ν ρ ω)} {i n : Nat} {ss : List (State ν)} {ps : List (Precision ρ)}
  {turns : List (Turn ν ρ)} {rounds : List (List (Turn ν ρ))}

namespace Turns

variable (hturns : Turns around as i ss ps w turns w')

include hturns

theorem given (hpure : ∀ a ∈ as, a.Pure interned) (hgiven : Given interned around ss ps w.next) :
    w.next.serial ≤ w'.next.serial ∧
      Given interned around (turns.map Turn.stateAfter) (turns.map Turn.precisionAfter) w'.next := by
  induction hturns with
  | nil => exact ⟨Nat.le_refl _, hgiven⟩
  | @answered a as i s ss p ps b turns w w₁ w' hreply _ ih =>
    obtain ⟨ha, has⟩ := List.forall_mem_cons.1 hpure
    have hfirst := hreply.forward ha
    obtain ⟨hrest, hafter⟩ := ih has (hgiven.tail.later hfirst)
    have hle := Nat.le_trans hfirst hrest
    obtain ⟨hstate, hprecision⟩ := hreply.before ha (hgiven.head.seenBy i)
    refine ⟨hle, hafter.cons ?_ ?_⟩
    · show State.Before (if _ then _ else _) _
      split
      · exact hstate.mono hrest
      · exact hgiven.head.state.mono hle
    · show Precision.Before (if _ then _ else _) _
      split
      · exact hprecision.mono hrest
      · exact hgiven.head.precision.mono hle
  | dropped hreply | failed hreply =>
    have hle := hreply.forward (hpure _ List.mem_cons_self)
    exact ⟨hle, hgiven.head.later hle⟩

/-- What is left of a round without a change is what it began with. -/
theorem unchanged (hchanges : turns.any Turn.changes = false)
    (hdrops : turns.any Turn.drops = false) (hfails : turns.any Turn.fails = false) :
    turns.map Turn.stateAfter = ss ∧ turns.map Turn.precisionAfter = ps := by
  induction hturns with
  | nil => exact ⟨rfl, rfl⟩
  | @answered a as i s ss p ps b turns w w₁ w' _ _ ih =>
    obtain ⟨hsame, hchanges⟩ := Bool.or_eq_false_iff.1 hchanges
    obtain ⟨hss, hps⟩ := ih hchanges hdrops hfails
    rw [List.map_cons, List.map_cons, hss, hps]
    simp [Turn.stateAfter, Turn.precisionAfter, hsame]
  | dropped _ => cases hdrops
  | failed _ => cases hfails

/-- After a round in which nothing changes and nobody halts, every component rests. -/
theorem rests (hpure : ∀ a ∈ as, a.Pure interned) (hgiven : Given interned around ss ps w.next)
    (hchanges : turns.any Turn.changes = false) (hhalts : turns.any Turn.halts = false)
    (hdrops : turns.any Turn.drops = false) (hfails : turns.any Turn.fails = false) {j : Nat}
    (ha : as[j]? = some a) (hs : ss[j]? = some s) (hp : ps[j]? = some p) :
    Rests a s p (seenBy (i + j) around) w'.next := by
  induction hturns generalizing j with
  | nil => cases ha
  | @answered a₀ as i s₀ ss p₀ ps b turns w w₁ w' hreply hturns ih =>
    obtain ⟨hfirst, hrest⟩ := List.forall_mem_cons.1 hpure
    obtain ⟨hsame, hchanges⟩ := Bool.or_eq_false_iff.1 hchanges
    obtain ⟨hproceeds, hhalts⟩ := Bool.or_eq_false_iff.1 hhalts
    have hgiven' := hgiven.tail.later (hreply.forward hfirst)
    cases j with
    | zero =>
      -- This component was asked before the others took their turns, so it rests since then.
      cases ha
      cases hs
      cases hp
      have hagrees : s.agrees b.state = true ∧ p.agrees b.precision = true := by
        simpa [Turn.changes] using hsame
      have hsignal : b.signal = .proceed := by
        cases hb : b.signal with
        | proceed => rfl
        | halt => simp [Turn.halts, hb] at hproceeds
      have hle := Nat.le_trans (hreply.forward hfirst) (hturns.given hrest hgiven').1
      exact (hreply.rests hfirst (hgiven.head.seenBy i) hsignal hagrees.1 hagrees.2).mono hle
    | succ j =>
      have hrests := ih hrest hgiven' hchanges hhalts hdrops hfails ha hs hp
      rw [Nat.add_right_comm, Nat.add_assoc] at hrests
      exact hrests
  | dropped _ => cases hdrops
  | failed _ => cases hfails

end Turns

namespace Rounds

variable (hrounds : Rounds around as n ss ps w rounds w')

include hrounds

theorem unchanged (hchanges : rounds.flatten.any Turn.changes = false)
    (hdrops : rounds.flatten.any Turn.drops = false)
    (hfails : rounds.flatten.any Turn.fails = false) :
    statesAfter ss rounds = ss ∧ precisionsAfter ps rounds = ps := by
  cases hrounds with
  | spent => exact ⟨rfl, rfl⟩
  | last hturns _ =>
    rw [List.flatten_singleton] at hchanges hdrops hfails
    exact hturns.unchanged hchanges hdrops hfails
  | again _ hgoes _ =>
    rw [List.flatten_cons, List.any_append, (goesOn_eq_true.1 hgoes).1] at hchanges
    cases hchanges

theorem length_eq (hss : ss.length = as.length) (hps : ps.length = as.length)
    (hdrops : rounds.flatten.any Turn.drops = false)
    (hfails : rounds.flatten.any Turn.fails = false) :
    (statesAfter ss rounds).length = as.length ∧
      (precisionsAfter ps rounds).length = as.length := by
  induction hrounds with
  | spent => exact ⟨hss, hps⟩
  | last hturns _ =>
    rw [List.flatten_singleton] at hdrops hfails
    have hlength := hturns.length_eq hdrops hfails
    exact ⟨(List.length_map _).trans hlength, (List.length_map _).trans hlength⟩
  | again hturns hgoes _ ih =>
    obtain ⟨-, -, hkept, hsound⟩ := goesOn_eq_true.1 hgoes
    have hlength := hturns.length_eq hkept hsound
    rw [any_flatten_cons hkept] at hdrops
    rw [any_flatten_cons hsound] at hfails
    exact ih ((List.length_map _).trans hlength) ((List.length_map _).trans hlength) hdrops hfails

/-- The rounds are spent, each of them on a change, or every component rests. -/
theorem rests (hpure : ∀ a ∈ as, a.Pure interned) (hgiven : Given interned around ss ps w.next)
    (hhalts : rounds.flatten.any Turn.halts = false)
    (hdrops : rounds.flatten.any Turn.drops = false)
    (hfails : rounds.flatten.any Turn.fails = false) :
    w.next.serial ≤ w'.next.serial ∧
      ((rounds.length = n ∧ ∀ turns ∈ rounds, turns.any Turn.changes = true) ∨
        ∀ {i a s p}, as[i]? = some a → (statesAfter ss rounds)[i]? = some s →
          (precisionsAfter ps rounds)[i]? = some p → Rests a s p (seenBy i around) w'.next) := by
  induction hrounds with
  | spent => exact ⟨Nat.le_refl _, .inl ⟨rfl, by simp⟩⟩
  | @last n ss ps turns w w' hturns hgoes =>
    rw [List.flatten_singleton] at hhalts hdrops hfails
    have hchanges : turns.any Turn.changes = false := by
      simpa [goesOn, hhalts, hdrops, hfails] using hgoes
    refine ⟨(hturns.given hpure hgiven).1, .inr fun {i a s p} ha hs hp => ?_⟩
    obtain ⟨hss, hps⟩ := hturns.unchanged hchanges hdrops hfails
    have hs : ss[i]? = some s := hss ▸ hs
    have hp : ps[i]? = some p := hps ▸ hp
    have hrests := hturns.rests hpure hgiven hchanges hhalts hdrops hfails ha hs hp
    rw [Nat.zero_add] at hrests
    exact hrests
  | again hturns hgoes _ ih =>
    obtain ⟨hchanges, hgo, hkept, hsound⟩ := goesOn_eq_true.1 hgoes
    rw [any_flatten_cons hgo] at hhalts
    rw [any_flatten_cons hkept] at hdrops
    rw [any_flatten_cons hsound] at hfails
    obtain ⟨hle, hgiven⟩ := hturns.given hpure hgiven
    obtain ⟨hle', hend⟩ := ih hgiven hhalts hdrops hfails
    refine ⟨Nat.le_trans hle hle', hend.imp_left fun hspent => ⟨congrArg (· + 1) hspent.1, ?_⟩⟩
    exact List.forall_mem_cons.2 ⟨hchanges, hspent.2⟩

end Rounds

/-! ## Tuples of pure components -/

/-- An adjusted tuple of pure components that lets the exploration go on. Either every round that
the settings allow has changed something, or all components rest at their parts of it. The tuple and
the precision are the very ones that were given if and only if nothing has changed. -/
theorem adjusted_tuple_rests (o : ProductOptions) (as : List (Adjuster ν ρ ω))
    (interned : Handle → Prop) (hpure : ∀ a ∈ as, a.Pure interned) {around : Surroundings ν ρ}
    {s : State ν} {p : Precision ρ} (hs : s.HasArity as.length) (hp : p.HasArity as.length)
    {w w' : World ω} (hgiven : Given interned around [s] [p] w.next) {b : Adjustment ν ρ}
    (run : ((adjuster o as).adjust s p around).run.run w = (.ok (some b), w'))
    (hsignal : b.signal = .proceed) :
    (∃ rounds w₁, Rounds around as o.maxRounds s.components p.components w rounds w₁) ∧
    ∀ rounds w₁, Rounds around as o.maxRounds s.components p.components w rounds w₁ →
      ((rounds.length = o.maxRounds ∧ ∀ turns ∈ rounds, turns.any Turn.changes = true) ∨
        (b.state.HasArity as.length ∧ b.precision.HasArity as.length ∧
          ∀ i a c q, as[i]? = some a → b.state.components[i]? = some c →
            b.precision.components[i]? = some q → Rests a c q (seenBy i around) w'.next)) ∧
      (b.state.handle = s.handle ↔ rounds.flatten.any Turn.changes = false) ∧
      (b.precision.handle = p.handle ↔ rounds.flatten.any Turn.changes = false) ∧
      (rounds.flatten.any Turn.changes = false → b.state = s ∧ b.precision = p) := by
  have hsize : s.components.length = as.length ∧ p.components.length = as.length := by
    obtain ⟨-, cs, -, rfl, hcs⟩ := hs
    obtain ⟨-, qs, rfl, hqs⟩ := hp
    exact ⟨hcs, hqs⟩
  refine ⟨exists_rounds around o.maxRounds hsize.1 hsize.2 w, fun rounds w₁ course => ?_⟩
  obtain ⟨answer, w₂, run', hends⟩ := course.ends hs hp
  rw [run] at run'
  cases run'
  cases hends with
  | unchanged hfails hdrops hchanges =>
    have hhalts := signalOf_eq_proceed.1 hsignal
    obtain ⟨-, hend⟩ := course.rests hpure hgiven.components hhalts hdrops hfails
    obtain ⟨hss, hps⟩ := course.unchanged hchanges hdrops hfails
    rw [hss, hps] at hend
    refine ⟨hend.imp_right fun hrests => ⟨hs, hp, fun i a c q ha hc hq => hrests ha hc hq⟩,
      iff_of_true rfl hchanges, iff_of_true rfl hchanges, fun _ => ⟨rfl, rfl⟩⟩
  | changed hfails hdrops hchanges hnext =>
    have hhalts := signalOf_eq_proceed.1 hsignal
    obtain ⟨hle, hend⟩ := course.rests hpure hgiven.components hhalts hdrops hfails
    obtain ⟨hss, hps⟩ := course.length_eq hsize.1 hsize.2 hdrops hfails
    have hchanged : ¬rounds.flatten.any Turn.changes = false := ne_false_of_eq_true hchanges
    -- What is new was drawn after the last round, what was given before the first.
    have hnew : ∀ {h k : Handle}, h.serial < w.next.serial → w₁.next.serial ≤ k.serial → k ≠ h := by
      rintro h k hh hk rfl
      omega
    have hstate := hnew hgiven.state.handle_lt (Nat.le_refl w₁.next.serial)
    have hprecision := hnew hgiven.precision.handle_lt (Nat.le_succ w₁.next.serial)
    refine ⟨hend.imp_right fun hrests => ⟨⟨_, _, _, rfl, hss⟩, ⟨_, _, rfl, hps⟩, ?_⟩,
      iff_of_false hstate hchanged, iff_of_false hprecision hchanged, fun h => absurd h hchanged⟩
    intro i a c q ha hc hq
    refine (hrests ha hc hq).mono ?_
    rw [hnext]
    exact Nat.le_succ_of_le (Nat.le_succ _)

/-! ## A backend failure and a new precision -/

/-- Fails on facts without 9; the fallback adds 9. -/
def saving : Adjuster FactValue Level Facts.Notes :=
  Facts.adjuster
    { adjust := some [⟨[.hasNone [9]], { failure := some ⟨.backend, "busy"⟩ }⟩]
      fallback := some { results := some [.changed [] [9] none] } }

/-- Raises the level to 2. -/
def deepening : Adjuster FactValue Level Facts.Notes :=
  ruled [⟨[.levelBelow 2], { level := some ⟨2⟩ }⟩]

theorem given_aroundPair : Given (fun _ => False) aroundPair [judged 0 [1] [2]] [judgedPrecision]
    pairWorld.next where
  interned k hk := hk.elim
  around := by
    refine ⟨?_, ?_, ?_, ?_⟩
    · unfold State.Before
      decide +kernel
    all_goals
      intro id e he
      cases he
  states := by
    unfold State.Before
    decide +kernel
  precisions := by
    unfold Precision.Before
    decide +kernel

/-- The first round changes the facts of one component and the precision of the other, the second
round changes nothing, and both components rest at what they have come to. -/
theorem saved_tuple_rests : ∃ rounds w₁ b w',
    Rounds aroundPair [saving, deepening] 16 (judged 0 [1] [2]).components
      judgedPrecision.components pairWorld rounds w₁ ∧
    rounds.length = 2 ∧
    ((adjuster {} [saving, deepening]).adjust (judged 0 [1] [2]) judgedPrecision
      aroundPair).run.run pairWorld = (.ok (some b), w') ∧
    b.signal = .proceed ∧ b.state.handle ≠ (judged 0 [1] [2]).handle ∧
    b.precision.handle ≠ judgedPrecision.handle ∧ b.state.HasArity 2 ∧ b.precision.HasArity 2 ∧
    ∀ i a c q, [saving, deepening][i]? = some a → b.state.components[i]? = some c →
      b.precision.components[i]? = some q → Rests a c q (seenBy i aroundPair) w'.next := by
  have hcourse : ∃ rounds w₁, Rounds aroundPair [saving, deepening] 16
      (judged 0 [1] [2]).components judgedPrecision.components pairWorld rounds w₁ ∧
      rounds.length = 2 ∧ rounds.flatten.any Turn.changes = true :=
    ⟨_, _, .again (.answered (.rescued rfl rfl rfl) (.answered (.adjusted rfl) .nil)) rfl
      (.last (.answered (.adjusted rfl) (.answered (.adjusted rfl) .nil)) rfl), rfl, rfl⟩
  obtain ⟨rounds, w₁, course, htwo, hchanges⟩ := hcourse
  have hpure : ∀ a ∈ [saving, deepening], a.Pure fun _ => False := by
    simp only [List.forall_mem_cons, List.not_mem_nil, false_implies, implies_true, and_true]
    constructor
    · refine Facts.adjuster_pure ?_ _
      simp [Facts.CallFree]
    · unfold deepening ruled
      refine Facts.adjuster_pure ?_ _
      simp [Facts.CallFree]
  obtain ⟨b, w', run, hsignal⟩ : ∃ b w', ((adjuster {} [saving, deepening]).adjust
      (judged 0 [1] [2]) judgedPrecision aroundPair).run.run pairWorld = (.ok (some b), w') ∧
      b.signal = .proceed := ⟨_, _, rfl, rfl⟩
  obtain ⟨-, hall⟩ := adjusted_tuple_rests {} [saving, deepening] (fun _ => False) hpure
    ⟨_, _, _, rfl, rfl⟩ ⟨_, _, rfl, rfl⟩ given_aroundPair run hsignal
  obtain ⟨hspent | ⟨hstate, hprecision, hrests⟩, hs, hp, -⟩ := hall rounds w₁ course
  · rw [htwo] at hspent
    exact absurd hspent.1 (by decide)
  · rw [hchanges] at hs hp
    exact ⟨rounds, w₁, b, w', course, htwo, run, hsignal, fun h => Bool.noConfusion (hs.1 h),
      fun h => Bool.noConfusion (hp.1 h), hstate, hprecision, hrests⟩

end Product

end ProgramAnalysis
