import ProgramAnalysis.Proofs.MonitorOperators
import ProgramAnalysis.Proofs.Partitions
import ProgramAnalysis.Proofs.Simulation
/-!
A monitor without limits changes nothing.

A monitored state stands for the state inside it. Both have a handle of their own, so two namings
are kept: the inner one is between the states inside and those of the analysis alone, the outer one
between the monitored states and those of the analysis alone. That an operator changes nothing is
said by handing back a handle, so what has to be seen is that the monitor hands back its handle
exactly when the analysis inside does.

With that every operator of the monitored analysis does what the one inside does (`relates`), and by
the theory of simulations the explorations are the same (`unlimited_transparent`).
-/

namespace ProgramAnalysis

variable {ν ρ ω θ ε α β : Type} {x : ExceptT ε (Effect ω) α}

/-! ## Analyses that keep to themselves -/

/-- The computation leaves the tokens alone and takes no handle back. -/
def KeepsTokens (x : ExceptT ε (Effect ω) α) : Prop :=
  ∀ tokens, Keeps (fun w => w.tokens = tokens) x

theorem KeepsTokens.of_run (h : KeepsTokens x) {w w' : World ω} {r : Except ε α}
    (hx : x.run.run w = (r, w')) : w'.tokens = w.tokens ∧ w.next.serial ≤ w'.next.serial :=
  (h w.tokens).of_run rfl hx

namespace Analysis

/-- No operator cancels anything. -/
structure Quiet (a : Analysis ν ρ ω) : Prop where
  transfer : ∀ s p e, KeepsTokens (a.transfer.successors s [] p e)
  merge : ∀ s r p, KeepsTokens (a.merger.merge s r p)
  stop : ∀ s rs p, KeepsTokens (a.stopper.stop s rs p)
  adjust : ∀ s p around, KeepsTokens (a.adjuster.adjust s p around)
  fallback : ∀ s p err, KeepsTokens (a.adjuster.fallback s p err)
  initialState : ∀ n part, KeepsTokens (a.initialState n part)
  initialPrecision : ∀ n part, KeepsTokens (a.initialPrecision n part)

/-- The operators are pure, also in that they cancel nothing, and give new handles to their states.
An adjustment looks at nothing but the state and the precision; if it gives back the handle of the
state, it gives back the state. -/
structure Isolated (a : Analysis ν ρ ω) (interned : Handle → Prop) : Prop where
  pure : a.Pure interned fun _ _ _ => True
  quiet : a.Quiet
  renewing : a.Renewing
  secluded : ∀ s p around around', a.adjuster.adjust s p around = a.adjuster.adjust s p around'
  adjust_same : ∀ s p around b, Answers (a.adjuster.adjust s p around) (some b) →
    b.state.handle = s.handle → b.state = s
  fallback_same : ∀ s p err b, Answers (a.adjuster.fallback s p err) (some b) →
    b.state.handle = s.handle → b.state = s

end Analysis

/-! ## What is seen of a monitored state -/

namespace State

mutual

theorem isTarget_bare [LeafValue ν] : (s : State ν) → s.bare.isTarget = s.isTarget
  | .location _ _ => rfl
  | .leaf _ _ => rfl
  | .tuple _ cs _ => anyTarget_bareAll cs
  | .monitored _ w _ _ => isTarget_bare w
  | .graphed _ _ w => isTarget_bare w

theorem anyTarget_bareAll [LeafValue ν] : (cs : List (State ν)) →
    anyTarget (bareAll cs) = anyTarget cs
  | [] => rfl
  | s :: rest => congrArg₂ or (isTarget_bare s) (anyTarget_bareAll rest)

end

theorem Alike.isTarget [LeafValue ν] {s t : State ν} (h : s.Alike t) :
    s.isTarget = t.isTarget := by
  rw [← isTarget_bare s, ← isTarget_bare t, h]

end State

/-- Of two frontiers that `R` relates, the first takes a monitored state like the second takes the
state inside it. -/
structure Waitlist.SeesThrough (ν : Type) [Waitlist θ ν] (R : θ → θ → Prop) : Prop where
  push : ∀ {f f' : θ} {s t : State ν} (id : EntryId) (n : NodeId) (h : Handle) (k : Nat), R f f' →
    s.Alike t → R (Waitlist.push f id n (.monitored h s k none)) (Waitlist.push f' id n t)
  pop : ∀ {f f' : θ}, R f f' → (Frontier.pop f).1 = (Frontier.pop f').1 ∧
    R (Frontier.pop f).2 (Frontier.pop f').2
  remove : ∀ {f f' : θ} (id : EntryId), R f f' →
    R (Frontier.remove f id).2 (Frontier.remove f' id).2
  size : ∀ {f f' : θ}, R f f' → Frontier.size f = Frontier.size f'
  contains : ∀ {f f' : θ} (id : EntryId), R f f' → Frontier.contains f id = Frontier.contains f' id

namespace KeyedWaitlist

/-- The same entries wait in the same order, and the key of the first frontier looks through the
monitor. -/
structure SeesThrough (l l' : KeyedWaitlist ν) : Prop where
  order : l.order = l'.order
  tickets : l.tickets = l'.tickets
  pushes : l.pushes = l'.pushes
  key : ∀ n h s t k, s.Alike t → l.key n (.monitored h s k none) = l'.key n t

variable {l l' : KeyedWaitlist ν}

theorem SeesThrough.contains (h : l.SeesThrough l') (id : EntryId) :
    l.contains id = l'.contains id := by
  unfold KeyedWaitlist.contains
  rw [h.tickets]

theorem SeesThrough.push (h : l.SeesThrough l') {s t : State ν} (hst : s.Alike t) (id : EntryId)
    (n : NodeId) (handle : Handle) (k : Nat) :
    (l.push id n (.monitored handle s k none)).SeesThrough (l'.push id n t) := by
  unfold KeyedWaitlist.push
  rw [h.contains, h.key n handle s t k hst, h.order, h.tickets, h.pushes]
  split
  · exact h
  · exact ⟨rfl, rfl, rfl, h.key⟩

/-- A key for states that are not monitored orders monitored ones by the states inside. -/
theorem seesThrough_ofKey (key : NodeId → State ν → Int)
    (hkey : ∀ n s t, s.Alike t → key n s = key n t) (order : Order) :
    (ofKey (fun n s => key n (Monitor.unwrapped s)) order).SeesThrough (ofKey key order) :=
  ⟨rfl, rfl, rfl, fun n _ s t _ hst => hkey n s t hst⟩

end KeyedWaitlist

namespace AnyFrontier

/-- The frontiers have the same policy and the same entries; a key looks through the monitor. -/
inductive SeesThrough : AnyFrontier ν → AnyFrontier ν → Prop where
  | simple (l : SimpleWaitlist) : SeesThrough (.simple l) (.simple l)
  | sticky (l : SimpleWaitlist) : SeesThrough (.sticky l) (.sticky l)
  | keyed {l l' : KeyedWaitlist ν} : l.SeesThrough l' → SeesThrough (.keyed l) (.keyed l')

theorem seesThrough : Waitlist.SeesThrough ν (SeesThrough (ν := ν)) where
  push id n h k hf hst := by
    cases hf with
    | simple l => exact .simple _
    | sticky l => exact .sticky _
    | keyed hl => exact .keyed (hl.push hst id n h k)
  pop hf := by
    cases hf with
    | simple l => exact ⟨rfl, .simple _⟩
    | sticky l => exact ⟨rfl, .sticky _⟩
    | @keyed l l' hl =>
      refine ⟨?_, .keyed ⟨hl.order, ?_, hl.pushes, hl.key⟩⟩
      · show l.tickets.head?.map Ticket.id = l'.tickets.head?.map Ticket.id
        rw [hl.tickets]
      · show l.tickets.tail = l'.tickets.tail
        rw [hl.tickets]
  remove id hf := by
    cases hf with
    | simple l => exact .simple _
    | sticky l => exact .sticky _
    | @keyed l l' hl =>
      refine .keyed ⟨hl.order, ?_, hl.pushes, hl.key⟩
      show l.tickets.filter _ = l'.tickets.filter _
      rw [hl.tickets]
  size hf := by
    cases hf with
    | simple l => rfl
    | sticky l => rfl
    | keyed hl => exact congrArg List.length hl.tickets
  contains id hf := by
    cases hf with
    | simple l => rfl
    | sticky l => rfl
    | keyed hl => exact hl.contains id

/-- Every order that can be configured sees through the monitor. -/
theorem seesThrough_ofSettings (program : Program) (o : OrderSettings) :
    SeesThrough (ofSettings program o : AnyFrontier ν) (ofSettings program o) := by
  unfold ofSettings
  split
  · exact .keyed (KeyedWaitlist.seesThrough_ofKey
      (fun n _ => (Program.rankIn program.reversePostorder n : Int)) (fun _ _ _ _ => rfl) o.order)
  · exact .simple _

end AnyFrontier

namespace Monitor

/-! ## Worlds and states on both sides -/

/-- Which handles stand for each other: of the states inside and those of the analysis alone, and of
the monitored states and those of the analysis alone. -/
structure Namings where
  inner : Naming
  outer : Naming

instance : Preorder Namings where
  le c d := (∀ h k, c.inner h k → d.inner h k) ∧ ∀ h k, c.outer h k → d.outer h k
  le_refl _ := ⟨fun _ _ h => h, fun _ _ h => h⟩
  le_trans _ _ _ hcd hde :=
    ⟨fun h k hk => hde.1 h k (hcd.1 h k hk), fun h k hk => hde.2 h k (hcd.2 h k hk)⟩

/-- Both namings are between handles that were drawn, and the tokens are the same. -/
structure Worlds (interned : Handle → Prop) (c : Namings) (w : World (ω × Counts))
    (w' : World ω) : Prop where
  inner : c.inner.Spans interned (inside w) w'
  outer : c.outer.Spans (fun _ => False) (inside w) w'
  tokens : w.tokens = w'.tokens

/-- The first state is monitored, has no budget exceeded, and the state inside it is the second one
up to the names of handles. -/
def Wraps (c : Namings) (s t : State ν) : Prop :=
  ∃ h u k, s = .monitored h u k none ∧ u.Matches c.inner t ∧ c.outer h t.handle

/-- The monitored analysis beside the analysis alone. -/
def simulation (interned : Handle → Prop) : Simulation Namings ν ρ (ω × Counts) ω where
  worlds := Worlds interned
  states := Wraps
  precisions c := Precision.Matches c.inner
  handles := Namings.outer

variable {interned : Handle → Prop} {c d : Namings} {next next' : List (State ν)}
  {R : θ → θ → Prop}

theorem simulation_lawful [LeafValue ν] :
    (simulation interned : Simulation Namings ν ρ (ω × Counts) ω).Lawful where
  states_mono hcd hst := by
    obtain ⟨h, u, k, rfl, hu, hk⟩ := hst
    exact ⟨h, u, k, rfl, hu.mono hcd.1, hcd.2 _ _ hk⟩
  precisions_mono hcd hpq := Precision.Matches.mono hpq hcd.1
  handles_mono hcd hk := hcd.2 _ _ hk
  oneToOne hw := hw.outer.toOneToOne
  tokens hw := hw.tokens
  handle hst := by
    obtain ⟨h, u, k, rfl, -, hk⟩ := hst
    exact hk
  location? hst := by
    obtain ⟨h, u, k, rfl, hu, -⟩ := hst
    exact hu.1.location?

/-! ## Calls of the analysis inside -/

/-- The worlds after the same call on both sides. The analysis inside has left `w₁`; the monitor has
not drawn a handle yet. -/
structure Called (interned : Handle → Prop) (c : Namings) (w : World (ω × Counts)) (w' : World ω)
    (U : Naming) (w₁ w₁' : World ω) : Prop where
  before : Worlds interned c w w'
  grown : ∀ h k, c.inner h k → U h k
  inner : U.Spans interned w₁ w₁'
  later : w.next.serial ≤ w₁.next.serial
  later' : w'.next.serial ≤ w₁'.next.serial
  tokens : w₁.tokens = w₁'.tokens

section Calls

variable {w : World (ω × Counts)} {w' w₁ w₁' : World ω} {U : Naming} {Q : Naming → α → β → Prop}
  {y : ExceptT ε (Effect ω) β}

theorem Worlds.call {o : Except ε α} {o' : Except ε β} (hw : Worlds interned c w w')
    (hx : KeepsTokens x) (hy : KeepsTokens y) (hxy : Likewise interned c.inner x y Q)
    (hrun : x.run.run (inside w) = (o, w₁)) (hrun' : y.run.run w' = (o', w₁')) :
    ∃ U, Called interned c w w' U w₁ w₁' ∧ Outcomes (Q U) o o' := by
  have h := hxy (inside w) w' hw.inner
  rw [hrun, hrun'] at h
  obtain ⟨htokens, hle⟩ := hx.of_run hrun
  obtain ⟨htokens', hle'⟩ := hy.of_run hrun'
  have hsame : w₁.tokens = w₁'.tokens := htokens.trans (hw.tokens.trans htokens'.symm)
  rcases o with e | a <;> rcases o' with e' | b
  · exact ⟨c.inner, ⟨hw, fun _ _ => id, hw.inner.later hle hle', hle, hle', hsame⟩, h⟩
  · exact h.elim
  · exact h.elim
  · obtain ⟨U, hgrows, hspans, hQ⟩ := h
    exact ⟨U, ⟨hw, hgrows.old, hspans, hle, hle', hsame⟩, hQ⟩

namespace Called

variable (h : Called interned c w w' U w₁ w₁')

include h

/-- The monitor has drawn handles for the states that the call has made. -/
theorem join {w₂ : World (ω × Counts)}
    (hle : w₁.next.serial ≤ w₂.next.serial) (htokens : w₂.tokens = w₁.tokens)
    {pairs : List (Handle × Handle)} (hfst : (pairs.map Prod.fst).Nodup)
    (hsnd : (pairs.map Prod.snd).Nodup)
    (hdrew : ∀ p ∈ pairs, w₁.Drew (inside w₂) p.1 ∧ w'.Drew w₁' p.2) :
    c ≤ ⟨U, c.outer.join pairs⟩ ∧ Worlds interned ⟨U, c.outer.join pairs⟩ w₂ w₁' := by
  refine ⟨⟨h.grown, fun _ _ hk => .inl hk⟩, h.inner.later hle (Nat.le_refl _), ?_,
    htokens.trans h.tokens⟩
  refine h.before.outer.join (Nat.le_trans h.later hle) h.later' hfst hsnd fun p hp => ?_
  exact ⟨⟨Nat.le_trans h.later (hdrew p hp).1.1, (hdrew p hp).1.2⟩, (hdrew p hp).2⟩

/-- The monitor draws no handle. -/
theorem still :
    c ≤ ⟨U, c.outer⟩ ∧ Worlds interned ⟨U, c.outer⟩ (outside w w₁) w₁' :=
  ⟨⟨h.grown, fun _ _ => id⟩, h.inner, h.before.outer.later h.later h.later', h.tokens⟩

/-- The monitor draws one handle, for a state that the call has made. -/
theorem one {k : Handle} (hk : w'.Drew w₁' k) :
    c ≤ ⟨U, c.outer.join [(w₁.next, k)]⟩ ∧
      Worlds interned ⟨U, c.outer.join [(w₁.next, k)]⟩
        { outside w w₁ with next := w₁.next.next } w₁' := by
  have hlt : w₁.next.serial < w₁.next.next.serial := Nat.lt_succ_self _
  refine h.join (Nat.le_of_lt hlt) rfl (List.nodup_singleton _) (List.nodup_singleton _) ?_
  intro p hp
  rw [List.mem_singleton.1 hp]
  exact ⟨⟨Nat.le_refl _, hlt⟩, hk⟩

end Called

/-- An operator of the monitor that calls the one inside, hands on its failure, and makes something
of its answer. -/
theorem bisimilar_of_call {γ : Type} {x' : ExceptT ε (Effect (ω × Counts)) γ}
    {Q' : Namings → γ → β → Prop} (hx : KeepsTokens x) (hy : KeepsTokens y)
    (hxy : Likewise interned c.inner x y Q)
    (failed : ∀ w w₁ e, x.run.run (inside w) = (.error e, w₁) →
      x'.run.run w = (.error e, outside w w₁))
    (answered : ∀ w w' U w₁ w₁' a b, Called interned c w w' U w₁ w₁' → Q U a b →
      x.run.run (inside w) = (.ok a, w₁) → y.run.run w' = (.ok b, w₁') →
      ∃ a' w₂ d, x'.run.run w = (.ok a', w₂) ∧ c ≤ d ∧ Worlds interned d w₂ w₁' ∧ Q' d a' b) :
    Bisimilar (Worlds interned) c x' y Q' := by
  intro w w' hw
  rcases hrun : x.run.run (inside w) with ⟨o, w₁⟩
  rcases hrun' : y.run.run w' with ⟨o', w₁'⟩
  obtain ⟨U, hcall, ho⟩ := hw.call hx hy hxy hrun hrun'
  rcases o with e | a <;> rcases o' with e' | b
  · rw [failed w w₁ e hrun]
    exact ⟨_, hcall.still.1, hcall.still.2, ho⟩
  · exact ho.elim
  · exact ho.elim
  · obtain ⟨a', w₂, d, houter, hle, hworlds, hQ⟩ :=
      answered w w' U w₁ w₁' a b hcall ho hrun hrun'
    rw [houter]
    exact ⟨d, hle, hworlds, hQ⟩

/-- An operator of the monitor that starts with a call of the one inside. -/
theorem bisimilar_of_bind {γ : Type} {k : α → ExceptT ε (Effect (ω × Counts)) γ}
    {Q' : Namings → γ → β → Prop} (hx : KeepsTokens x) (hy : KeepsTokens y)
    (hxy : Likewise interned c.inner x y Q)
    (answered : ∀ w w' U w₁ w₁' a b, Called interned c w w' U w₁ w₁' → Q U a b →
      y.run.run w' = (.ok b, w₁') → ∃ a' w₂ d, (k a).run.run (outside w w₁) = (.ok a', w₂) ∧ c ≤ d ∧
        Worlds interned d w₂ w₁' ∧ Q' d a' b) :
    Bisimilar (Worlds interned) c (ExceptT.mk (Effect.focus .fst x.run) >>= k) y Q' := by
  refine bisimilar_of_call hx hy hxy (fun w w₁ e hrun => run_bind_of_error (run_inside hrun)) ?_
  intro w w' U w₁ w₁' a b hcall hQ hrun hrun'
  rw [run_bind_of_ok (run_inside hrun)]
  exact answered w w' U w₁ w₁' a b hcall hQ hrun'

end Calls

/-! ## Operators -/

theorem handles_decorated (k : Nat) (x : Option Exhaustion) (states : List (State ν)) (h : Handle) :
    (decorated k x h states).map State.handle =
      (List.range' h.serial states.length).map Handle.mk := by
  induction states generalizing h with
  | nil => rfl
  | cons s rest ih =>
    show h :: (decorated k x h.next rest).map State.handle = _
    rw [ih, List.length_cons, List.range'_succ]
    rfl

/-- The decorated states wrap what matches the states before, if the new handles are paired. -/
theorem decorated_wraps {k : Nat} (h : List.Forall₂ (State.Matches c.inner) next next')
    (first : Handle)
    (hpairs : ∀ p ∈ ((decorated k none first next).map State.handle).zip (next'.map State.handle),
      c.outer p.1 p.2) : List.Forall₂ (Wraps c) (decorated k none first next) next' := by
  induction h generalizing first with
  | nil => exact .nil
  | @cons s t rest rest' hst _ ih =>
    refine .cons ⟨first, s, k, rfl, hst, hpairs (first, t.handle) ?_⟩ (ih first.next ?_)
    · exact List.mem_cons_self
    · intro p hp
      exact hpairs p (List.mem_cons_of_mem _ hp)

/-- The monitor draws a handle for each of the states that the call has made. -/
theorem Called.many {w : World (ω × Counts)} {w' w₁ w₁' : World ω} {U : Naming} (k : Nat)
    (h : Called interned c w w' U w₁ w₁') (hlength : next.length = next'.length)
    (hnodup : (next'.map State.handle).Nodup) (hdrew : ∀ t ∈ next', w'.Drew w₁' t.handle)
    (w₂ : World (ω × Counts)) (hnext : w₂.next = ⟨w₁.next.serial + next.length⟩)
    (htokens : w₂.tokens = w₁.tokens) :
    let pairs := ((decorated k none w₁.next next).map State.handle).zip (next'.map State.handle)
    c ≤ ⟨U, c.outer.join pairs⟩ ∧ Worlds interned ⟨U, c.outer.join pairs⟩ w₂ w₁' := by
  intro pairs
  have hlengths : ((decorated k none w₁.next next).map State.handle).length =
      (next'.map State.handle).length := by
    rw [handles_decorated, List.length_map, List.length_range', List.length_map, hlength]
  have hfst : pairs.map Prod.fst = (List.range' w₁.next.serial next.length).map Handle.mk := by
    rw [List.map_fst_zip (Nat.le_of_eq hlengths), handles_decorated]
  have hsnd : pairs.map Prod.snd = next'.map State.handle :=
    List.map_snd_zip (Nat.le_of_eq hlengths.symm)
  have hserial : w₂.next.serial = w₁.next.serial + next.length := by rw [hnext]
  refine h.join (by omega) htokens ?_ (hsnd ▸ hnodup) fun p hp => ?_
  · rw [hfst]
    exact List.Nodup.map (fun i j hij => Handle.mk.inj hij) List.nodup_range'
  · have hp₁ : p.1 ∈ pairs.map Prod.fst := List.mem_map_of_mem hp
    have hp₂ : p.2 ∈ pairs.map Prod.snd := List.mem_map_of_mem hp
    rw [hfst] at hp₁
    rw [hsnd] at hp₂
    obtain ⟨i, hi, hp₁⟩ := List.mem_map.1 hp₁
    obtain ⟨t, ht, hp₂⟩ := List.mem_map.1 hp₂
    obtain ⟨hlow, hhigh⟩ := List.mem_range'_1.1 hi
    rw [← hp₁, ← hp₂]
    refine ⟨⟨hlow, ?_⟩, hdrew t ht⟩
    show i < w₂.next.serial
    omega

section Operators

variable [LeafValue ν] {a : Analysis ν ρ ω} (ha : a.Isolated interned) {s t r r' : State ν}
  {p q : Precision ρ} {rs rs' : List (State ν)}

include ha

theorem transfer_bisimilar (e : ProgramEdge) (hst : Wraps c s t) (hpq : p.Matches c.inner q) :
    Bisimilar (Worlds interned) c ((transfer {} a.transfer).successors s [] p e)
      (a.transfer.successors t [] q e) fun d => List.Forall₂ (Wraps d) := by
  obtain ⟨h, u, k, rfl, hu, -⟩ := hst
  refine bisimilar_of_call (ha.quiet.transfer u p e) (ha.quiet.transfer t q e)
    (ha.pure.transfer e hu hpq) (fun _ _ _ hrun => transfer_of_error hrun) ?_
  intro w w' U w₁ w₁' next next' hcall hmatches hrun hrun'
  obtain ⟨hnodup, hdrew⟩ := ha.renewing.transfer _ _ _ _ _ _ hrun'
  obtain ⟨counts, houter⟩ := transfer_of_ok {} h k hrun
  obtain ⟨hle, hworlds⟩ := hcall.many (k + 1) hmatches.length_eq hnodup hdrew
    { w₁ with next := ⟨w₁.next.serial + next.length⟩, memory := (w₁.memory, counts) } rfl rfl
  exact ⟨_, _, _, houter, hle, hworlds, decorated_wraps hmatches w₁.next fun p hp => .inr hp⟩

theorem merge_bisimilar (hst : Wraps c s t) (hr : Wraps c r r') (hpq : p.Matches c.inner q) :
    Bisimilar (Worlds interned) c ((merger a.merger).merge s r p) (a.merger.merge t r' q)
      fun d m m' => (m.handle = r.handle ↔ m'.handle = r'.handle) ∧
        (m.handle ≠ r.handle → Wraps d m m') := by
  obtain ⟨h, u, k, rfl, hu, -⟩ := hst
  obtain ⟨h', v, k', rfl, hv, hv'⟩ := hr
  rw [merge_live]
  refine bisimilar_of_bind (ha.quiet.merge u v p) (ha.quiet.merge t r' q)
    (ha.pure.merge hu hv hpq) ?_
  intro w w' U w₁ w₁' m m' hcall hmatches hrun'
  have hsame : m.handle = v.handle ↔ m'.handle = r'.handle :=
    hcall.inner.eq_iff hmatches.handle (hcall.grown _ _ hv.handle)
  by_cases hm : m.handle = v.handle
  · rw [if_pos hm]
    refine ⟨_, _, _, rfl, hcall.still.1, hcall.still.2, ?_, ?_⟩
    · exact ⟨fun _ => hsame.1 hm, fun _ => rfl⟩
    · exact fun hne => absurd rfl hne
  · have hdrew := (ha.renewing.merge _ _ _ _ _ _ hrun').resolve_left (mt hsame.2 hm)
    obtain ⟨hle, hworlds⟩ := hcall.one hdrew
    -- The new handle is not the one of the reached state, which was drawn before.
    have hnew : w₁.next ≠ h' := by
      intro heq
      have hbelow : h'.serial < w.next.serial := (hcall.before.outer.below hv').1
      have hlater := hcall.later
      rw [heq] at hlater
      omega
    rw [if_neg hm]
    refine ⟨_, _, _, rfl, hle, hworlds, ?_, fun _ => ?_⟩
    · exact ⟨fun heq => absurd heq hnew, fun heq => absurd (hsame.2 heq) hm⟩
    · exact ⟨_, _, _, rfl, hmatches, .inr (List.mem_singleton.2 rfl)⟩

omit ha in
theorem comparable_wraps (h : List.Forall₂ (Wraps c) rs rs') :
    ∃ inner, comparable none rs = .ok inner ∧
      List.Forall₂ (State.Matches c.inner) inner rs' := by
  induction h with
  | nil => exact ⟨[], rfl, .nil⟩
  | cons hst _ ih =>
    obtain ⟨h, u, k, rfl, hu, -⟩ := hst
    obtain ⟨inner, hinner, hmatches⟩ := ih
    refine ⟨u :: inner, ?_, .cons hu hmatches⟩
    unfold comparable
    rw [hinner]
    rfl

theorem stop_bisimilar (hst : Wraps c s t) (hrs : List.Forall₂ (Wraps c) rs rs')
    (hpq : p.Matches c.inner q) :
    Bisimilar (Worlds interned) c ((stopper a.stopper).stop s rs p) (a.stopper.stop t rs' q)
      fun _ b b' => b = b' := by
  obtain ⟨h, u, k, rfl, hu, -⟩ := hst
  obtain ⟨inner, hinner, hmatches⟩ := comparable_wraps hrs
  refine bisimilar_of_call (ha.quiet.stop u inner p) (ha.quiet.stop t rs' q)
    (ha.pure.stop hu hmatches hpq) (fun _ _ _ hrun => stop_of_run hinner hrun) ?_
  intro w w' U w₁ w₁' b b' hcall hb hrun _
  exact ⟨_, _, _, stop_of_run hinner hrun, hcall.still.1, hcall.still.2, hb⟩

omit ha in
omit [LeafValue ν] in
/-- An adjusted state is wrapped again: by the monitored state itself if it is as it was. -/
theorem rewrap_wraps {w : World (ω × Counts)} {w' w₁ w₁' : World ω} {U : Naming} {h : Handle}
    {k : Nat} {b b' : Adjustment ν ρ} (hcall : Called interned c w w' U w₁ w₁')
    (hst : s.Matches c.inner t) (hh : c.outer h t.handle) (hb : b.Matches U b')
    (hsame : b'.state.handle = t.handle → b'.state = t)
    (hrenewed : b'.state.handle = t.handle ∨ w'.Drew w₁' b'.state.handle) :
    ∃ d, c ≤ d ∧
      Worlds interned d ((rewrap (.monitored h s k none) ⟨s, k, none⟩ b).run (outside w w₁)).2 w₁' ∧
      (simulation interned : Simulation Namings ν ρ (ω × Counts) ω).Adjustments d
        ((rewrap (.monitored h s k none) ⟨s, k, none⟩ b).run (outside w w₁)).1 b' := by
  have hiff : b.state.handle = s.handle ↔ b'.state.handle = t.handle :=
    hcall.inner.eq_iff hb.state.handle (hcall.grown _ _ hst.handle)
  by_cases hkept : b.state.handle = s.handle
  · have hstate := hsame (hiff.1 hkept)
    rw [run_rewrap_same hkept]
    refine ⟨_, hcall.still.1, hcall.still.2, ⟨?_, hb.precision, hb.signal⟩⟩
    rw [hstate]
    exact ⟨h, s, k, rfl, hst.mono hcall.grown, hh⟩
  · have hdrew := hrenewed.resolve_left (mt hiff.2 hkept)
    obtain ⟨hle, hworlds⟩ := hcall.one hdrew
    rw [run_rewrap_new hkept]
    refine ⟨_, hle, hworlds, ⟨?_, hb.precision, hb.signal⟩⟩
    exact ⟨_, _, _, rfl, hb.state, .inr (List.mem_singleton.2 rfl)⟩

theorem adjust_bisimilar (store store' : Store ν ρ) (hst : Wraps c s t)
    (hpq : p.Matches c.inner q) :
    Bisimilar (Worlds interned) c ((adjuster a.adjuster).adjust s p ⟨store, id, s⟩)
      (a.adjuster.adjust t q ⟨store', id, t⟩)
      fun d => Option.Rel ((simulation interned :
        Simulation Namings ν ρ (ω × Counts) ω).Adjustments d) := by
  obtain ⟨h, u, k, rfl, hu, hh⟩ := hst
  have hlikewise : Likewise interned c.inner (a.adjuster.adjust u p ⟨store, id, u⟩)
      (a.adjuster.adjust t q ⟨store', id, t⟩) fun U => Option.Rel (Adjustment.Matches U) :=
    ha.pure.adjust hu hpq trivial
  rw [ha.secluded u p _ (unwrappedView ⟨store, id, .monitored h u k none⟩)] at hlikewise
  rw [adjust_monitored]
  refine bisimilar_of_bind (ha.quiet.adjust _ _ _) (ha.quiet.adjust _ _ _) hlikewise ?_
  intro w w' U w₁ w₁' o o' hcall ho hrun'
  cases ho with
  | none => exact ⟨_, _, _, rfl, hcall.still.1, hcall.still.2, .none⟩
  | some hb =>
    obtain ⟨d, hle, hworlds, hb⟩ := rewrap_wraps hcall hu hh hb
      (ha.adjust_same t q _ _ ⟨w', w₁', hrun'⟩) (ha.renewing.adjust _ _ _ _ _ _ hrun')
    exact ⟨_, _, d, rfl, hle, hworlds, .some hb⟩

theorem fallback_bisimilar (err : Error) (hst : Wraps c s t) (hpq : p.Matches c.inner q) :
    Bisimilar (Worlds interned) c ((adjuster a.adjuster).fallback s p err)
      (a.adjuster.fallback t q err)
      fun d => Option.Rel ((simulation interned :
        Simulation Namings ν ρ (ω × Counts) ω).Adjustments d) := by
  obtain ⟨h, u, k, rfl, hu, hh⟩ := hst
  refine bisimilar_of_bind (ha.quiet.fallback _ _ _) (ha.quiet.fallback _ _ _)
    (ha.pure.fallback err hu hpq) ?_
  intro w w' U w₁ w₁' o o' hcall ho hrun'
  cases ho with
  | none => exact ⟨_, _, _, rfl, hcall.still.1, hcall.still.2, .none⟩
  | some hb =>
    obtain ⟨d, hle, hworlds, hb⟩ := rewrap_wraps hcall hu hh hb
      (ha.fallback_same t q err _ ⟨w', w₁', hrun'⟩) (ha.renewing.fallback _ _ _ _ _ _ hrun')
    exact ⟨_, _, d, rfl, hle, hworlds, .some hb⟩

theorem initialState_bisimilar (n : NodeId) (part : Partition) :
    Bisimilar (Worlds interned) c ((analysis {} a).initialState n part) (a.initialState n part)
      Wraps := by
  refine bisimilar_of_bind (ha.quiet.initialState n part) (ha.quiet.initialState n part)
    (ha.pure.initialState c.inner n part) ?_
  intro w w' U w₁ w₁' s t hcall hmatches hrun'
  obtain ⟨hle, hworlds⟩ := hcall.one (ha.renewing.initialState _ _ _ _ _ hrun')
  refine ⟨_, _, _, rfl, hle, hworlds, ?_⟩
  exact ⟨_, _, _, rfl, hmatches, .inr (List.mem_singleton.2 rfl)⟩

theorem initialPrecision_bisimilar (n : NodeId) (part : Partition) :
    Bisimilar (Worlds interned) c ((analysis {} a).initialPrecision n part)
      (a.initialPrecision n part) fun d => Precision.Matches d.inner := by
  refine bisimilar_of_call (ha.quiet.initialPrecision n part) (ha.quiet.initialPrecision n part)
    (ha.pure.initialPrecision c.inner n part) (fun _ _ _ hrun => run_action hrun) ?_
  intro w w' U w₁ w₁' s t hcall hmatches hrun _
  exact ⟨_, _, _, run_action hrun, hcall.still.1, hcall.still.2, hmatches⟩

/-- The monitored analysis without limits does what the analysis inside does. -/
theorem relates (p : Program) (options : RunOptions) (token : TokenId) :
    (simulation interned).Relates ⟨p, analysis {} a, State.isTarget, options, token⟩
      ⟨p, a, State.isTarget, options, token⟩ where
  program := rfl
  options := rfl
  token := rfl
  isSep := rfl
  isTarget hst := by
    obtain ⟨h, u, k, rfl, hu, -⟩ := hst
    exact hu.1.isTarget
  transfer e hst hpq := transfer_bisimilar ha e hst hpq
  adjust hst hpq _ := adjust_bisimilar ha _ _ hst hpq
  fallback err hst hpq := fallback_bisimilar ha err hst hpq
  merge hst hr hpq := merge_bisimilar ha hst hr hpq
  stop hst hrs hpq := stop_bisimilar ha hst hrs hpq
  initialState _ n part := initialState_bisimilar ha n part
  initialPrecision _ n part := initialPrecision_bisimilar ha n part

end Operators

/-! ## Transparency -/

theorem simulation_schedules [Waitlist θ ν] (hR : Waitlist.SeesThrough ν R) :
    (simulation interned : Simulation Namings ν ρ (ω × Counts) ω).Schedules R where
  push id n hf hst := by
    obtain ⟨h, u, k, rfl, hu, -⟩ := hst
    exact hR.push id n h k hf hu.1
  pop := hR.pop
  remove := hR.remove
  size := hR.size

/-- The entries differ in the monitor around the state of the first and in the names of handles. -/
structure Unwraps (T : Naming) (e f : Entry ν ρ) : Prop where
  state : ∃ h s k, e.state = .monitored h s k none ∧ s.Matches T f.state
  precision : e.precision.Matches T f.precision
  location : e.location = f.location
  partition : e.partition = f.partition

/-- The explorations have ended alike, after equally many iterations. They have reached the same, up
to the monitor and to the names of handles, and the same entries wait. -/
structure Agrees [Frontier θ] (b : Except Failure Status × Machine ν ρ (ω × Counts) θ)
    (b' : Except Failure Status × Machine ν ρ ω θ) : Prop where
  result : b.1 = b'.1
  iterations : b.2.meter.counters.iterations = b'.2.meter.counters.iterations
  entries : ∃ T : Naming, T.OneToOne ∧
    ∀ id, Option.Rel (Unwraps T) (b.2.reached.get? id) (b'.2.reached.get? id)
  waiting : ∀ id, b.2.reached.isWaiting id = b'.2.reached.isWaiting id

theorem agrees_of_ends [Waitlist θ ν] (hR : Waitlist.SeesThrough ν R)
    {b : Except Failure Status × Machine ν ρ (ω × Counts) θ}
    {b' : Except Failure Status × Machine ν ρ ω θ} (h : (simulation interned).Ends R b b') :
    Agrees b b' := by
  obtain ⟨hresult, c, hc⟩ := h
  refine ⟨hresult, hc.iterations, ⟨c.inner, hc.world.inner.toOneToOne, fun id => ?_⟩,
    fun id => hR.contains id hc.reached.frontier⟩
  have hentry := hc.reached.get? id
  revert hentry
  rcases b.2.reached.get? id with _ | e <;> rcases b'.2.reached.get? id with _ | f <;>
    intro hentry <;> cases hentry
  · exact .none
  · next he =>
    obtain ⟨h, u, k, hstate, hu, -⟩ := he.state
    exact .some ⟨⟨h, u, k, hstate, hu⟩, he.precision, he.location, he.partition⟩

/-- An exploration of the monitored analysis without limits agrees with one of the analysis inside:
both end alike, with the same entries, or both go on. The two frontiers must order corresponding
entries alike (`Waitlist.SeesThrough`): a frontier whose key reads the monitor's count, or does not
look through its states, may visit the entries in another order. -/
theorem unlimited_transparent [LeafValue ν] [Waitlist θ ν] (a : Analysis ν ρ ω)
    (interned : Handle → Prop) (ha : a.Isolated interned) (p : Program) (options : RunOptions)
    (token : TokenId) (R : θ → θ → Prop) (hR : Waitlist.SeesThrough ν R) (f f' : θ) (hf : R f f')
    (n : NodeId) (part : Partition) (w : World (ω × Counts)) (w' : World ω)
    (htokens : w.tokens = w'.tokens)
    (hinterned : ∀ h, interned h → h.serial < w.next.serial ∧ h.serial < w'.next.serial)
    (fuel : Nat) :
    Option.Rel Agrees
      (Exploration.explore ⟨p, analysis {} a, State.isTarget, options, token⟩ n part f fuel w)
      (Exploration.explore ⟨p, a, State.isTarget, options, token⟩ n part f' fuel w') := by
  have hstart : Worlds interned ⟨.ofInterned interned, fun _ _ => False⟩ w w' := by
    refine ⟨Naming.spans_ofInterned (fun h hh => (hinterned h hh).1) fun h hh => (hinterned h hh).2,
      ?_, htokens⟩
    exact ⟨⟨False.elim, False.elim⟩, fun _ => False.elim, False.elim⟩
  have hends := Simulation.explore_ends simulation_lawful (simulation_schedules hR)
    (relates ha p options token) hstart hf n part fuel
  revert hends
  rcases Exploration.explore _ n part f fuel w with _ | b <;>
    rcases Exploration.explore _ n part f' fuel w' with _ | b' <;> intro hends <;>
    cases hends
  · exact .none
  · next h => exact .some (agrees_of_ends hR h)

end Monitor

/-! ## Fact analyses -/

namespace Facts

variable {spec : Spec} (htransfer : spec.transfer = []) (hadjust : spec.adjust = none)
  (horder : spec.order = .subset) (hmerge : spec.merge = .join) (hstop : spec.stop = .sep)

include htransfer hadjust horder hmerge hstop

theorem quiet : (analysis spec).Quiet := by
  have hforward := forward htransfer hadjust horder hmerge hstop
  have hadj := adjuster_static hadjust
  refine ⟨fun s p e tokens w hw => ⟨?_, (hforward.transfer s p e w trivial).2⟩,
    fun s r p tokens w hw => ⟨?_, (hforward.merge s r p w trivial).2⟩,
    fun s rs p tokens w hw => ⟨?_, (hforward.stop s rs p w trivial).2⟩,
    fun s p around tokens w hw => ⟨?_, (hforward.adjust s p around w trivial).2⟩,
    fun s p err tokens w hw => ⟨?_, (hforward.fallback s p err w trivial).2⟩,
    fun n part tokens w hw => ⟨?_, (hforward.initialState n part w trivial).2⟩,
    fun n part tokens w hw => ⟨?_, (hforward.initialPrecision n part w trivial).2⟩⟩
  · show ((successors spec s [] p e).run.run w).2.tokens = tokens
    rw [run_successors htransfer]
    split <;> exact hw
  · show (((merger spec).merge s r p).run.run w).2.tokens = tokens
    rw [run_merge hmerge]
    exact hw
  · show (((stopper spec).stop s rs p).run.run w).2.tokens = tokens
    rw [run_stop hstop]
    exact hw
  · rw [hadj]
    exact hw
  · rw [hadj]
    exact hw
  · show ((initialState spec n part).run.run w).2.tokens = tokens
    unfold initialState
    cases spec.initialFailure <;> exact hw
  · show ((initialPrecision spec part).run.run w).2.tokens = tokens
    unfold initialPrecision
    cases spec.precisionFailure <;> cases spec.level <;> exact hw

/-- A fact analysis that joins and has no rules keeps to itself. -/
theorem isolated (interned : Handle → Prop) : (analysis spec).Isolated interned := by
  have hadj := adjuster_static hadjust
  have hsilent : Silent spec.transfer := by
    rw [htransfer]
    exact fun rule hrule => absurd hrule (List.not_mem_nil)
  refine ⟨analysis_pure hsilent hadjust horder hmerge hstop interned _,
    quiet htransfer hadjust horder hmerge hstop,
    renewing htransfer hadjust horder hmerge hstop, ?_, ?_, ?_⟩
  · intro s p around around'
    rw [hadj]
    rfl
  · intro s p around b hb _
    obtain ⟨w, w', hrun⟩ := hb
    rw [hadj] at hrun
    cases hrun
    rfl
  · intro s p err b hb _
    obtain ⟨w, w', hrun⟩ := hb
    rw [hadj] at hrun
    cases hrun

end Facts

namespace Monitor

/-- The loop, explored with a monitor. -/
def monitoredLoop : Option (Except Failure Status ×
    Machine FactValue Level (Facts.Notes × Counts) (AnyFrontier FactValue)) :=
  Exploration.explore
    ⟨Exploration.loop, analysis {} (Facts.analysis { merge := .join }), State.isTarget, {}, ⟨0⟩⟩
    ⟨0⟩ .whole (.ofSettings Exploration.loop ⟨.depthFirst, true⟩) 20
    ⟨⟨7⟩, .empty, ⟨0⟩, ⟨0⟩, (({}, .sep), .zero)⟩

/-- The loop, explored without one. Other handles come next. -/
def bareLoop : Option (Except Failure Status ×
    Machine FactValue Level Facts.Notes (AnyFrontier FactValue)) :=
  Exploration.explore
    ⟨Exploration.loop, Facts.analysis { merge := .join }, State.isTarget, {}, ⟨0⟩⟩
    ⟨0⟩ .whole (.ofSettings Exploration.loop ⟨.depthFirst, true⟩) 20
    ⟨⟨0⟩, .empty, ⟨0⟩, ⟨0⟩, ({}, .sep)⟩

/-- The entry of the loop is merged with its own successor, so it matters which handles are handed
back. -/
theorem loop_transparent : ∃ b b', monitoredLoop = some b ∧ bareLoop = some b' ∧
    b.1.toOption = some .exhausted ∧ b.2.meter.counters.merges = 2 ∧ Agrees b b' := by
  have hrun : monitoredLoop.any (fun b =>
      decide (b.1.toOption = some .exhausted) && b.2.meter.counters.merges = 2) = true := by
    decide +kernel
  obtain ⟨b, hb, hp⟩ := (Option.any_eq_true _ _).1 hrun
  obtain ⟨hresult, hmerges⟩ := Bool.and_eq_true_iff.1 hp
  have h : Option.Rel Agrees monitoredLoop bareLoop :=
    unlimited_transparent (Facts.analysis { merge := .join }) (fun _ => False)
      (Facts.isolated rfl rfl rfl rfl rfl _) Exploration.loop {} ⟨0⟩ _ AnyFrontier.seesThrough _ _
      (AnyFrontier.seesThrough_ofSettings Exploration.loop ⟨.depthFirst, true⟩) ⟨0⟩ .whole _ _ rfl
      nofun 20
  rcases hb' : bareLoop with _ | b' <;> rw [hb, hb'] at h <;> cases h
  next hagrees =>
  exact ⟨b, b', hb, rfl, of_decide_eq_true hresult, of_decide_eq_true hmerges, hagrees⟩

end Monitor

end ProgramAnalysis
