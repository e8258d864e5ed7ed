import Mathlib.Order.Basic
import ProgramAnalysis.Proofs.Naming
import ProgramAnalysis.Proofs.Run
/-!
Two explorations in lockstep.

Two explorations are run on machines that correspond to each other. What corresponds may become more
along a run, so all of it depends on an index that can only grow. `Paired` is the assertion about
two computations that are started like that: both end alike, in states that correspond, or one of
them is stopped for a reason that need not concern the other (a cancellation, say). A `Coupling`
says what corresponds, and `Coupling.Relates` what it takes of the two explorations; then each
function of the expansion is paired with its counterpart.

A `Bond` is the case of one pure analysis on two reached sets, where a `Pairing` says which handles
and which entries of the two sides stand for each other.
-/

namespace ProgramAnalysis

/-! ## Paired computations -/

section

variable {ι ε σ τ α β α' β' : Type} [Preorder ι] {excused : ε → Prop} {K : ι → σ → τ → Prop} {c : ι}

/-- Both outcomes are errors, the same one, or both are answers that `Q` relates. -/
def Outcomes (Q : α → β → Prop) : Except ε α → Except ε β → Prop
  | .ok a, .ok b => Q a b
  | .error e, .error e' => e = e'
  | _, _ => False

/-- Started from states that correspond under `c`, both computations give the same failure, or
answers that `Q` relates. In any case the states that they leave correspond, under more than `c`. -/
def Bisimilar (K : ι → σ → τ → Prop) (c : ι) (x : ExceptT ε (StateM σ) α)
    (y : ExceptT ε (StateM τ) β) (Q : ι → α → β → Prop) : Prop :=
  ∀ s t, K c s t → ∃ d, c ≤ d ∧ K d (x.run.run s).2 (y.run.run t).2 ∧
    Outcomes (Q d) (x.run.run s).1 (y.run.run t).1

/-- The outcome is a failure that need not concern the other side. -/
def Stopped (excused : ε → Prop) : Except ε α → Prop
  | .error e => excused e
  | .ok _ => False

/-- The computations do the same, unless one of them is stopped. -/
def Paired (excused : ε → Prop) (K : ι → σ → τ → Prop) (c : ι) (x : ExceptT ε (StateM σ) α)
    (y : ExceptT ε (StateM τ) β) (Q : ι → α → β → Prop) : Prop :=
  ∀ s t, K c s t → Stopped excused (x.run.run s).1 ∨ Stopped excused (y.run.run t).1 ∨
    ∃ d, c ≤ d ∧ K d (x.run.run s).2 (y.run.run t).2 ∧
      Outcomes (Q d) (x.run.run s).1 (y.run.run t).1

variable {x : ExceptT ε (StateM σ) α} {y : ExceptT ε (StateM τ) β} {Q : ι → α → β → Prop}

theorem Bisimilar.paired (h : Bisimilar K c x y Q) : Paired excused K c x y Q :=
  fun s t hst => .inr (.inr (h s t hst))

theorem not_stopped {o : Except ε α} : ¬Stopped (fun _ => False) o := by
  rcases o with e | a <;> exact id

theorem Stopped.bind {f : α → ExceptT ε (StateM σ) α'} {s : σ}
    (h : Stopped excused (x.run.run s).1) : Stopped excused ((x >>= f).run.run s).1 := by
  rcases hx : x.run.run s with ⟨e | a, s'⟩ <;> rw [hx] at h
  · rw [run_bind_of_error hx]
    exact h
  · exact h.elim

namespace Paired

theorem bisimilar (h : Paired (fun _ => False) K c x y Q) : Bisimilar K c x y Q := fun s t hst =>
  ((h s t hst).resolve_left not_stopped).resolve_left not_stopped

variable {Q' : ι → α' → β' → Prop} {f : α → ExceptT ε (StateM σ) α'}
  {g : β → ExceptT ε (StateM τ) β'}

theorem bind (hxy : Paired excused K c x y Q)
    (hfg : ∀ d a b, c ≤ d → Q d a b → Paired excused K d (f a) (g b) Q') :
    Paired excused K c (x >>= f) (y >>= g) Q' := by
  intro s t hst
  rcases hxy s t hst with hstop | hstop | ⟨d, hcd, hd, ho⟩
  · exact .inl hstop.bind
  · exact .inr (.inl hstop.bind)
  rcases hx : x.run.run s with ⟨e | a, s'⟩ <;> rcases hy : y.run.run t with ⟨e' | b, t'⟩ <;>
    rw [hx, hy] at hd ho
  · rw [run_bind_of_error hx, run_bind_of_error hy]
    exact .inr (.inr ⟨d, hcd, hd, ho⟩)
  · exact ho.elim
  · exact ho.elim
  · rw [run_bind_of_ok hx, run_bind_of_ok hy]
    refine (hfg d a b hcd ho s' t' hd).imp_right (.imp_right ?_)
    rintro ⟨d', hdd', hd', ho'⟩
    exact ⟨d', hcd.trans hdd', hd', ho'⟩

theorem pure {a : α} {b : β} (h : Q c a b) : Paired excused K c
    (pure a : ExceptT ε (StateM σ) α) (pure b : ExceptT ε (StateM τ) β) Q :=
  fun _ _ hst => .inr (.inr ⟨c, le_rfl, hst, h⟩)

/-- Both fail alike. -/
theorem throw (e : ε) : Paired excused K c
    (throw e : ExceptT ε (StateM σ) α) (throw e : ExceptT ε (StateM τ) β) Q :=
  fun _ _ hst => .inr (.inr ⟨c, le_rfl, hst, rfl⟩)

/-- What would follow on a failure does not matter. -/
theorem throw_bind (e : ε) : Paired excused K c (MonadExcept.throw e >>= f)
      (MonadExcept.throw e >>= g) Q' :=
  .bind (Q := fun _ _ _ => False) (.throw e) fun _ _ _ _ h => h.elim

/-- The first computation is stopped, whatever the second one does. -/
theorem stopped_left (h : ∀ s, Stopped excused (x.run.run s).1) : Paired excused K c x y Q :=
  fun s _ _ => .inl (h s)

/-- The second computation is stopped, whatever the first one does. -/
theorem stopped_right (h : ∀ t, Stopped excused (y.run.run t).1) : Paired excused K c x y Q :=
  fun _ t _ => .inr (.inl (h t))

/-- Each computation by itself keeps the correspondence, unless it is stopped. -/
theorem apart {x : ExceptT ε (StateM σ) Unit} {y : ExceptT ε (StateM τ) Unit}
    (hx : ∀ t, Triple (K c · t) x (fun _ => (K c · t)) fun e _ => excused e)
    (hy : ∀ s, Triple (K c s) y (fun _ => K c s) fun e _ => excused e) :
    Paired excused K c x y fun _ _ _ => True := by
  intro s t hst
  have h := hx t s hst
  revert h
  rcases x.run.run s with ⟨e | _, s'⟩
  · exact .inl
  intro hst'
  have h := hy s' t hst'
  revert h
  rcases y.run.run t with ⟨e' | _, t'⟩
  · exact fun he => .inr (.inl he)
  · exact fun h => .inr (.inr ⟨c, le_rfl, h, trivial⟩)

theorem modify {f : σ → σ} {g : τ → τ} (h : ∀ s t, K c s t → K c (f s) (g t)) :
    Paired excused K c (modify f : ExceptT ε (StateM σ) Unit) (modify g) fun _ _ _ => True :=
  fun s t hst => .inr (.inr ⟨c, le_rfl, h s t hst, trivial⟩)

/-- Both sides read a part of their state. -/
theorem read {f : σ → α} {g : τ → β} (h : ∀ s t, K c s t → Q c (f s) (g t)) :
    Paired excused K c (modifyGet fun s => (f s, s) : ExceptT ε (StateM σ) α)
      (modifyGet fun t => (g t, t)) Q :=
  fun s t hst => .inr (.inr ⟨c, le_rfl, hst, h s t hst⟩)

end Paired

end

/-! ## Couplings -/

variable {ι ν ρ ω ω' θ ε α β : Type}

/-- Which states and precisions of two explorations correspond. -/
structure Likeness (ι ν ρ : Type) where
  states : ι → State ν → State ν → Prop
  precisions : ι → Precision ρ → Precision ρ → Prop

namespace Likeness

variable {L : Likeness ι ν ρ} {c d : ι}

/-- The adjustments correspond: states and precisions do, and the signals are the same. -/
structure Adjustments (L : Likeness ι ν ρ) (c : ι) (a b : Adjustment ν ρ) : Prop where
  state : L.states c a.state b.state
  precision : L.precisions c a.precision b.precision
  signal : a.signal = b.signal

/-- The entries correspond, and they are at the same place. -/
structure Entries (L : Likeness ι ν ρ) (c : ι) (e f : Entry ν ρ) : Prop where
  state : L.states c e.state f.state
  precision : L.precisions c e.precision f.precision
  location : e.location = f.location
  partition : e.partition = f.partition

theorem Entries.place {e f : Entry ν ρ} (h : L.Entries c e f) : e.place = f.place := by
  unfold Entry.place
  rw [h.location, h.partition]

/-- What corresponds keeps to correspond, and is at the same location. -/
structure Lasts [Preorder ι] [LeafValue ν] (L : Likeness ι ν ρ) : Prop where
  states_mono : ∀ {c d s t}, c ≤ d → L.states c s t → L.states d s t
  precisions_mono : ∀ {c d p q}, c ≤ d → L.precisions c p q → L.precisions d p q
  location? : ∀ {c s t}, L.states c s t → s.location? = t.location?

/-- The operators of two explorations do the same. Here `calls` says what that is for two calls, and
`stores` which stores an adjustment may be shown. Of a merge the answer counts only if it changes
something. -/
structure Operators (L : Likeness ι ν ρ) (stores : ι → Store ν ρ → Store ν ρ → Prop)
    (calls : ∀ {ε α : Type}, ι → ExceptT ε (Effect ω) α → ExceptT ε (Effect ω') α →
      (ι → α → α → Prop) → Prop)
    (x : Exploration ν ρ ω) (y : Exploration ν ρ ω') : Prop where
  program : x.program = y.program
  isSep : x.analysis.merger.isSep = y.analysis.merger.isSep
  transfer : ∀ {c s t p q} (e : ProgramEdge), L.states c s t → L.precisions c p q →
    calls c (x.analysis.transfer.successors s [] p e) (y.analysis.transfer.successors t [] q e)
      fun d => List.Forall₂ (L.states d)
  adjust : ∀ {c s t p q store store'}, L.states c s t → L.precisions c p q →
    stores c store store' → calls c (x.analysis.adjuster.adjust s p ⟨store, id, s⟩)
      (y.analysis.adjuster.adjust t q ⟨store', id, t⟩) fun d => Option.Rel (L.Adjustments d)
  fallback : ∀ {c s t p q} (err : Error), L.states c s t → L.precisions c p q →
    calls c (x.analysis.adjuster.fallback s p err) (y.analysis.adjuster.fallback t q err)
      fun d => Option.Rel (L.Adjustments d)
  merge : ∀ {c s t r r' p q}, L.states c s t → L.states c r r' → L.precisions c p q →
    calls c (x.analysis.merger.merge s r p) (y.analysis.merger.merge t r' q)
      fun d m m' => (m.handle = r.handle ↔ m'.handle = r'.handle) ∧
        (m.handle ≠ r.handle → L.states d m m')
  stop : ∀ {c s t rs rs' p q}, L.states c s t → List.Forall₂ (L.states c) rs rs' →
    L.precisions c p q → calls c (x.analysis.stopper.stop s rs p)
      (y.analysis.stopper.stop t rs' q) fun _ b b' => b = b'

variable [Preorder ι] [LeafValue ν] (hL : L.Lasts)

include hL

theorem Adjustments.mono {a b : Adjustment ν ρ} (h : L.Adjustments c a b) (hcd : c ≤ d) :
    L.Adjustments d a b :=
  ⟨hL.states_mono hcd h.state, hL.precisions_mono hcd h.precision, h.signal⟩

theorem Entries.mono {e f : Entry ν ρ} (h : L.Entries c e f) (hcd : c ≤ d) : L.Entries d e f :=
  ⟨hL.states_mono hcd h.state, hL.precisions_mono hcd h.precision, h.location, h.partition⟩

end Likeness

/-- The machine in another world. -/
abbrev Machine.inWorld (m : Machine ν ρ ω θ) (w : World ω) : Machine ν ρ ω θ :=
  { m with meter := { m.meter with world := w } }

/-- The machine with other counters. -/
abbrev Machine.counting (m : Machine ν ρ ω θ) (n : Counters) : Machine ν ρ ω θ :=
  { m with meter := { m.meter with counters := n } }

/-- Notes the state if it is a target, and ends with it if the options say so. -/
abbrev Exploration.note (x : Exploration ν ρ ω) (s : State ν) (more : Bool) : Stage ν ρ ω θ Unit :=
  if x.isTarget s = true then do
    modify fun m => { m with targets := m.targets ++ [s] }
    if x.options.stopAtTarget = true then throw (.done .targetFound more) else pure ()
  else pure ()

/-- What corresponds in two explorations. Of two stores that an adjustment is shown, `stores` says
when they count as the same; only entries in the partitions `own` are compared. -/
structure Coupling (ι ν ρ ω ω' θ : Type) extends Likeness ι ν ρ where
  machines : ι → Machine ν ρ ω θ → Machine ν ρ ω' θ → Prop
  entries : ι → EntryId → EntryId → Prop
  stores : ι → Store ν ρ → Store ν ρ → Prop
  own : Partition → Prop

namespace Coupling

/-- Corresponding meters, while the rest of the machines stays as it is. -/
def meters (C : Coupling ι ν ρ ω ω' θ) (m : Machine ν ρ ω θ) (m' : Machine ν ρ ω' θ) (c : ι)
    (n : Meter ω) (n' : Meter ω') : Prop :=
  C.machines c { m with meter := n } { m' with meter := n' }

/-- In corresponding machines the two calls fail alike or give answers that `Q` relates, and the
machines correspond in the worlds that they leave. -/
def Calls [Preorder ι] (C : Coupling ι ν ρ ω ω' θ) (c : ι) (x : ExceptT ε (Effect ω) α)
    (y : ExceptT ε (Effect ω') β) (Q : ι → α → β → Prop) : Prop :=
  ∀ m m', C.machines c m m' → ∃ d, c ≤ d ∧
    C.machines d (m.inWorld (x.run.run m.meter.world).2)
      (m'.inWorld (y.run.run m'.meter.world).2) ∧
    Outcomes (Q d) (x.run.run m.meter.world).1 (y.run.run m'.meter.world).1

/-- The explorations do the same: what an expansion takes of the correspondence, and of the
operators. -/
structure Relates [Preorder ι] [LeafValue ν] [Waitlist θ ν] (C : Coupling ι ν ρ ω ω' θ)
    (excused : Ending → Prop) (x : Exploration ν ρ ω) (y : Exploration ν ρ ω') : Prop extends
    C.Lasts, C.Operators C.stores C.Calls x y where
  entries_mono : ∀ {c d i j}, c ≤ d → C.entries c i j → C.entries d i j
  stores_mono : ∀ {c d r r'}, c ≤ d → C.stores c r r' → C.stores d r r'
  counted : ∀ {c m m' n n'}, C.machines c m m' → n.iterations = m.meter.counters.iterations →
    n'.iterations = m'.meter.counters.iterations → C.machines c (m.counting n) (m'.counting n')
  cancelled : ∀ {c m m'}, C.machines c m m' → excused (.done .interrupted true) ∨
    m.meter.world.tokens.isCancelled x.token = m'.meter.world.tokens.isCancelled y.token
  seen : ∀ {c m m'}, C.machines c m m' → C.stores c m.reached.store m'.reached.store
  candidates : ∀ {c m m' l part}, C.machines c m m' → C.own part →
    List.Forall₂ (C.entries c) (m.reached.store.candidates ⟨l, part⟩)
      (m'.reached.store.candidates ⟨l, part⟩)
  entry : ∀ {c m m' i j}, C.machines c m m' → C.entries c i j →
    Option.Rel (C.Entries c) (m.reached.get? i) (m'.reached.get? j)
  partition : ∀ {c m m' i j e}, C.machines c m m' → C.entries c i j → m.reached.get? i = some e →
    C.own e.partition
  contains : ∀ {c m m' s t}, C.machines c m m' → C.states c s t →
    m.reached.store.contains s = m'.reached.store.contains t
  remove : ∀ {c m m' i j}, C.machines c m m' → C.entries c i j →
    C.machines c { m with reached := (m.reached.remove i).2 }
      { m' with reached := (m'.reached.remove j).2 }
  add : ∀ {c m m' e f}, C.machines c m m' → C.Entries c e f → C.own e.partition →
    m.reached.store.contains e.state = false →
    Outcomes (fun p q => ∃ d, c ≤ d ∧
      C.machines d { m with reached := p.2 } { m' with reached := q.2 })
      (m.reached.add e) (m'.reached.add f)
  noted : ∀ {c s t} (more : Bool), C.states c s t →
    Paired excused C.machines c (x.note s more) (y.note t more) fun _ _ _ => True

/-! ## Calls of operators -/

section

variable [Preorder ι] [LeafValue ν] [Waitlist θ ν] {C : Coupling ι ν ρ ω ω' θ}
  {excused : Ending → Prop} {x : Exploration ν ρ ω} {y : Exploration ν ρ ω'} {c : ι}
  {m : Machine ν ρ ω θ} {m' : Machine ν ρ ω' θ} {Q : ι → α → β → Prop} {e f : Entry ν ρ}
  {s t : State ν} {p q : Precision ρ} {store store' : Store ν ρ}

omit [LeafValue ν] [Waitlist θ ν] in
theorem perform_paired {a : Attempt ω α} {b : Attempt ω' β} (hab : C.Calls c a b Q) :
    Paired excused (C.meters m m') c (Phase.perform a) (Phase.perform b) Q := by
  intro n n' hn
  obtain ⟨d, hcd, hd, ho⟩ := hab _ _ hn
  refine .inr (.inr ⟨d, hcd, hd, ?_⟩)
  show Outcomes (Q d) ((a.run.run n.world).1.mapError Ending.crashed)
    ((b.run.run n'.world).1.mapError Ending.crashed)
  revert ho
  dsimp only
  rcases (a.run.run n.world).1 with e | a <;> rcases (b.run.run n'.world).1 with e' | b
  · exact congrArg Ending.crashed
  · exact id
  · exact id
  · exact id

/-- A failure is an outcome that is handed on, a crash is not. -/
theorem outcome_outcomes {Q : α → β → Prop} {o : Except Failure α} {o' : Except Failure β}
    (h : Outcomes Q o o') : Outcomes (Outcomes Q) (Phase.outcome o) (Phase.outcome o') := by
  rcases o with (e | crash) | a <;> rcases o' with (e' | crash') | b <;> try cases h
  · exact rfl
  · exact rfl
  · exact h

variable (h : C.Relates excused x y) {place : Place} {g g' : Counters → Counters}

include h

theorem Relates.count (hg : ∀ n, (g n).iterations = n.iterations)
    (hg' : ∀ n, (g' n).iterations = n.iterations) :
    Paired excused (C.meters m m') c (Phase.count g) (Phase.count g') fun _ _ _ => True :=
  .modify fun n n' hn => h.counted hn (hg n.counters) (hg' n'.counters)

theorem Relates.timed (watch : Watch) {a : Action ω α} {b : Action ω' β} (hab : C.Calls c a b Q) :
    Paired excused (C.meters m m') c (Phase.timed watch a) (Phase.timed watch b)
      fun d => Outcomes (Q d) := by
  intro n n' hn
  obtain ⟨d, hcd, hd, ho⟩ := hab _ _ hn
  obtain ⟨k, hk, hrun⟩ := Phase.run_timed watch a n
  obtain ⟨k', hk', hrun'⟩ := Phase.run_timed watch b n'
  rw [hrun, hrun']
  exact .inr (.inr ⟨d, hcd, h.counted hd hk hk', outcome_outcomes ho⟩)

/-! ## Successors -/

theorem Relates.gather (he : C.Entries c e f) (edges : List ProgramEdge) :
    Paired excused (C.meters m m') c (x.gather e edges) (y.gather f edges)
      fun d => List.Forall₂ fun p q => C.states d p.1 q.1 ∧ p.2 = q.2 := by
  induction edges generalizing c with
  | nil => exact .pure .nil
  | cons g rest ih =>
    have hcancelled : Paired excused (C.meters m m') c (Phase.isCancelled x.token)
        (Phase.isCancelled y.token) fun _ b b' => excused (.done .interrupted true) ∨ b = b' :=
      .read fun n n' hn => h.cancelled hn
    unfold Exploration.gather
    refine .bind hcancelled fun d b b' hcd hb => ?_
    have he := he.mono h.toLasts hcd
    cases b <;> cases b'
    case true.true => exact .throw_bind _
    case true.false => exact .stopped_left fun _ => hb.resolve_right Bool.noConfusion
    case false.true => exact .stopped_right fun _ => hb.resolve_right Bool.noConfusion
    refine .bind (h.timed .transfer (h.transfer g he.state he.precision)) fun d₁ o o' hd₁ ho => ?_
    have he := he.mono h.toLasts hd₁
    rcases o with err | next <;> rcases o' with err' | next'
    · obtain rfl : err = err' := ho
      dsimp only
      split
      · exact .bind (h.count (fun _ => rfl) fun _ => rfl) fun d₂ _ _ hd₂ _ =>
          ih (he.mono h.toLasts hd₂)
      · split
        · exact .throw _
        · exact .throw _
    · exact ho.elim
    · exact ho.elim
    · refine .bind (ih he) fun d₂ raw raw' hd₂ hraw => .pure ?_
      refine List.rel_append ?_ hraw
      rw [List.forall₂_map_left_iff, List.forall₂_map_right_iff]
      refine List.Forall₂.imp (fun s t hst => ⟨h.states_mono hd₂ hst, ?_⟩) ho
      rw [h.location? hst]

theorem Relates.adjusted (hst : C.states c s t) (hpq : C.precisions c p q)
    (hstore : C.stores c store store') :
    Paired excused (C.meters m m') c (x.adjust store p s) (y.adjust store' q t)
      fun d => Option.Rel (C.Adjustments d) := by
  unfold Exploration.adjust
  refine .bind (h.timed .adjustment (h.adjust hst hpq hstore)) fun d o o' hcd ho => ?_
  rcases o with err | a <;> rcases o' with err' | b
  · obtain rfl : err = err' := ho
    cases err with
    | backend component reason =>
      refine .bind (perform_paired (h.fallback (.backend component reason)
        (h.states_mono hcd hst) (h.precisions_mono hcd hpq))) fun d₁ a b _ hab => ?_
      cases hab with
      | some hab => exact .pure (.some hab)
      | none => exact .throw _
    | _ => exact .throw _
  · exact ho.elim
  · exact ho.elim
  · exact .pure ho

theorem Relates.adjustAll (hpq : C.precisions c p q) (hstore : C.stores c store store')
    {raw raw' : Batch ν}
    (hraw : List.Forall₂ (fun p q => C.states c p.1 q.1 ∧ p.2 = q.2) raw raw') :
    Paired excused (C.meters m m') c (x.adjustAll store p raw) (y.adjustAll store' q raw')
      fun d => List.Forall₂ fun p q => C.Adjustments d p.1 q.1 ∧ p.2 = q.2 := by
  induction raw generalizing c raw' with
  | nil =>
    cases hraw
    exact .pure .nil
  | cons head raw ih =>
    obtain ⟨head', raw', hhead, hrest, rfl⟩ := List.forall₂_cons_left_iff.1 hraw
    obtain ⟨s, l⟩ := head
    obtain ⟨t, l'⟩ := head'
    obtain ⟨hst, hl⟩ := hhead
    obtain rfl : l = l' := hl
    unfold Exploration.adjustAll
    refine .bind (h.adjusted hst hpq hstore) fun d o o' hcd ho => ?_
    have rest := ih (h.precisions_mono hcd hpq) (h.stores_mono hcd hstore)
      (hrest.imp fun _ _ hq => ⟨h.states_mono hcd hq.1, hq.2⟩)
    cases ho with
    | none => exact rest
    | @some a b hab =>
      dsimp only
      rw [hab.signal]
      split
      · exact .bind (h.count (fun _ => rfl) fun _ => rfl) fun _ _ _ _ _ => .throw_bind _
      · refine .bind rest fun d₁ out out' hd₁ hout =>
          .pure (.cons ⟨hab.mono h.toLasts hd₁, ?_⟩ hout)
        show a.state.location?.getD l = b.state.location?.getD l
        rw [h.location? hab.state]

theorem Relates.successors (hstore : C.stores c store store') (he : C.Entries c e f) :
    Paired excused (C.meters m m') c (x.successors store e) (y.successors store' f)
      fun d => List.Forall₂ fun p q => C.Adjustments d p.1 q.1 ∧ p.2 = q.2 := by
  unfold Exploration.successors
  rw [h.program, he.location]
  refine .bind (h.gather he _) fun d raw raw' hcd hraw => ?_
  refine .bind (h.count (fun _ => rfl) fun _ => rfl) fun d₁ _ _ hd₁ _ => ?_
  have hcd₁ := hcd.trans hd₁
  exact h.adjustAll (h.precisions_mono hcd₁ he.precision) (h.stores_mono hcd₁ hstore)
    (hraw.imp fun _ _ hq => ⟨h.states_mono hd₁ hq.1, hq.2⟩)

/-! ## Stages -/

omit h [LeafValue ν] [Waitlist θ ν] in
theorem ofPhase_paired {a : Phase ω α} {b : Phase ω' β}
    (hab : ∀ m m', Paired excused (C.meters m m') c a b Q) :
    Paired excused C.machines c (Stage.ofPhase a) (Stage.ofPhase b) Q :=
  fun m m' hm => hab m m' m.meter m'.meter hm

omit h [LeafValue ν] [Waitlist θ ν] in
/-- Of the reached sets one learns that they are those of machines that correspond. -/
theorem reached_paired : Paired excused C.machines c Stage.reached Stage.reached
    fun d r r' => ∃ m m', C.machines d m m' ∧ m.reached = r ∧ m'.reached = r' :=
  .read fun m m' hm => ⟨m, m', hm, rfl, rfl⟩

theorem Relates.stageTimed (watch : Watch) {a : Action ω α} {b : Action ω' β}
    (hab : C.Calls c a b Q) :
    Paired excused C.machines c (Stage.timed watch a) (Stage.timed watch b) Q := by
  unfold Stage.timed
  refine .bind (ofPhase_paired fun _ _ => h.timed watch hab) fun d o o' _ ho => ?_
  rcases o with err | a <;> rcases o' with err' | b
  · obtain rfl : err = err' := ho
    exact .throw _
  · exact ho.elim
  · exact ho.elim
  · exact .pure ho

theorem Relates.stageCount (hg : ∀ n, (g n).iterations = n.iterations)
    (hg' : ∀ n, (g' n).iterations = n.iterations) :
    Paired excused C.machines c (Stage.count g) (Stage.count g') fun _ _ _ => True :=
  ofPhase_paired fun _ _ => h.count hg hg'

theorem Relates.removed {i j : EntryId} (hij : C.entries c i j) :
    Paired excused C.machines c (Stage.remove i) (Stage.remove j) fun _ _ _ => True :=
  .modify fun _ _ hm => h.remove hm hij

omit [Preorder ι] h in
theorem run_add (e : Entry ν ρ) (m : Machine ν ρ ω θ) :
    (Stage.add e : Stage ν ρ ω θ Unit).run.run m = match m.reached.add e with
      | .ok (_, r) => (.ok (), { m with reached := r })
      | .error err => (.error (.failed err), m) := by
  have hreached : (Stage.reached : Stage ν ρ ω θ _).run.run m = (.ok m.reached, m) := rfl
  unfold Stage.add
  rw [run_bind, hreached]
  dsimp only
  rcases m.reached.add e with err | ⟨id, r⟩ <;> rfl

/-- An entry is added unless its state is in the set. -/
theorem Relates.addNew (he : C.Entries c e f) (hown : C.own e.partition) {skip k : Stage ν ρ ω θ α}
    {skip' k' : Stage ν ρ ω' θ β} (hskip : Paired excused C.machines c skip skip' Q)
    (hk : ∀ d, c ≤ d → Paired excused C.machines d k k' Q) :
    Paired excused C.machines c
      (do
        let r ← Stage.reached
        if r.store.contains e.state = true then skip
        else do
          Stage.add e
          k)
      (do
        let r ← Stage.reached
        if r.store.contains f.state = true then skip'
        else do
          Stage.add f
          k') Q := by
  intro m m' hm
  have hread : Stage.reached.run.run m = (.ok m.reached, m) := rfl
  have hread' : Stage.reached.run.run m' = (.ok m'.reached, m') := rfl
  rw [run_bind_of_ok hread, run_bind_of_ok hread', h.contains hm he.state]
  split
  · exact hskip m m' hm
  next hnew =>
  rw [Bool.not_eq_true, ← h.contains hm he.state] at hnew
  have hadd := h.add hm he hown hnew
  have hrun := run_add e m
  have hrun' := run_add f m'
  rcases hr : m.reached.add e with err | ⟨i, r⟩ <;> rw [hr] at hadd hrun <;>
    rcases hr' : m'.reached.add f with err' | ⟨j, r'⟩ <;> rw [hr'] at hadd hrun'
  · rw [run_bind_of_error hrun, run_bind_of_error hrun']
    exact .inr (.inr ⟨c, le_rfl, hm, congrArg Ending.failed hadd⟩)
  · exact hadd.elim
  · exact hadd.elim
  · rw [run_bind_of_ok hrun, run_bind_of_ok hrun']
    obtain ⟨d, hcd, hd⟩ := hadd
    refine (hk d hcd _ _ hd).imp_right (.imp_right ?_)
    rintro ⟨d', hdd', hd', ho⟩
    exact ⟨d', hcd.trans hdd', hd', ho⟩

/-! ## Merging -/

theorem Relates.statesAt (hm : C.machines c m m') (hown : C.own place.partition) :
    List.Forall₂ (C.states c) (m.reached.store.statesAt place)
      (m'.reached.store.statesAt place) := by
  refine List.rel_filterMap ?_ (h.candidates hm hown)
  intro i j hij
  have hentry := h.entry hm hij
  show Option.Rel _ ((m.reached.get? i).map Entry.state) ((m'.reached.get? j).map Entry.state)
  revert hentry
  rcases m.reached.get? i with _ | e <;> rcases m'.reached.get? j with _ | f <;> intro hentry <;>
    cases hentry
  · exact .none
  · next he => exact .some he.state

theorem Relates.mergeEach (hst : C.states c s t) (hpq : C.precisions c p q)
    (hown : C.own place.partition) {ids ids' : List EntryId}
    (hids : List.Forall₂ (C.entries c) ids ids') :
    Paired excused C.machines c (x.mergeEach s p place ids) (y.mergeEach t q place ids')
      fun _ _ _ => True := by
  induction ids generalizing c ids' with
  | nil =>
    cases hids
    exact .pure trivial
  | cons i ids ih =>
    obtain ⟨j, ids', hij, hrest, rfl⟩ := List.forall₂_cons_left_iff.1 hids
    have rest : ∀ {d}, c ≤ d → Paired excused C.machines d (x.mergeEach s p place ids)
        (y.mergeEach t q place ids') fun _ _ _ => True := fun hcd =>
      ih (h.states_mono hcd hst) (h.precisions_mono hcd hpq)
        (hrest.imp fun _ _ => h.entries_mono hcd)
    unfold Exploration.mergeEach
    refine .bind reached_paired fun d r r' hcd hr => ?_
    obtain ⟨n, n', hn, rfl, rfl⟩ := hr
    have hentry := h.entry hn (h.entries_mono hcd hij)
    rcases hi : n.reached.get? i with _ | e <;> rcases hj : n'.reached.get? j with _ | f <;>
      rw [hi, hj] at hentry <;> cases hentry
    · exact rest hcd
    next he =>
    refine .bind (h.stageTimed .merge (h.merge (h.states_mono hcd hst) he.state
      (h.precisions_mono hcd hpq))) fun d₁ u v hd₁ huv => ?_
    obtain ⟨hsame, huv⟩ := huv
    have hcd₁ := hcd.trans hd₁
    dsimp only
    simp only [hsame]
    split
    · exact rest hcd₁
    next hne =>
    have huv := huv (mt hsame.1 hne)
    refine .bind (h.stageCount (fun _ => rfl) fun _ => rfl) fun d₂ _ _ hd₂ _ => ?_
    have hcd₂ := hcd₁.trans hd₂
    refine .bind (h.removed (h.entries_mono hcd₂ hij)) fun d₃ _ _ hd₃ _ => ?_
    have hcd₃ := hcd₂.trans hd₃
    have hnew : C.Entries d₃ ⟨u, p, place.location, place.partition⟩
        ⟨v, q, place.location, place.partition⟩ :=
      ⟨h.states_mono (hd₂.trans hd₃) huv, h.precisions_mono hcd₃ hpq, rfl, rfl⟩
    exact h.addNew hnew hown (rest hcd₃) fun d₄ hd₄ => rest (hcd₃.trans hd₄)

theorem Relates.mergeInto (hst : C.states c s t) (hpq : C.precisions c p q)
    (hown : C.own place.partition) :
    Paired excused C.machines c (x.mergeInto s p place) (y.mergeInto t q place)
      fun _ b b' => b = b' := by
  have covered : ∀ {d}, c ≤ d → Paired excused C.machines d
      (do
        let r ← Stage.reached
        let covered ← Stage.timed .stop (x.analysis.stopper.stop s (r.store.statesAt place) p)
        return !covered)
      (do
        let r ← Stage.reached
        let covered ← Stage.timed .stop (y.analysis.stopper.stop t (r.store.statesAt place) q)
        return !covered) fun _ b b' => b = b' := by
    intro d hcd
    refine .bind reached_paired fun d₁ r r' hd₁ hr => ?_
    obtain ⟨n, n', hn, rfl, rfl⟩ := hr
    have hcd₁ := hcd.trans hd₁
    refine .bind (h.stageTimed .stop (h.stop (h.states_mono hcd₁ hst) (h.statesAt hn hown)
      (h.precisions_mono hcd₁ hpq))) fun _ b b' _ hb => .pure ?_
    rw [hb]
  unfold Exploration.mergeInto
  rw [h.isSep]
  split
  · exact covered le_rfl
  · refine .bind reached_paired fun d r r' hcd hr => ?_
    obtain ⟨n, n', hn, rfl, rfl⟩ := hr
    exact .bind (h.mergeEach (h.states_mono hcd hst) (h.precisions_mono hcd hpq) hown
      (h.candidates hn hown)) fun d₁ _ _ hd₁ _ => covered (hcd.trans hd₁)

/-! ## Expansions -/

theorem Relates.admitOne {a b : Adjustment ν ρ} (hab : C.Adjustments c a b) {part : Partition}
    (hown : C.own part) (l : NodeId) (more : Bool) :
    Paired excused C.machines c (x.admitOne part a l more) (y.admitOne part b l more)
      fun _ _ _ => True := by
  unfold Exploration.admitOne
  refine .bind (h.mergeInto hab.state hab.precision hown) fun d o o' hcd ho => ?_
  subst ho
  have hab := hab.mono h.toLasts hcd
  split
  · have he : C.Entries d ⟨a.state, a.precision, l, part⟩ ⟨b.state, b.precision, l, part⟩ :=
      ⟨hab.state, hab.precision, rfl, rfl⟩
    exact h.addNew he hown (.pure trivial) fun d₁ hd₁ =>
      h.noted more (h.states_mono hd₁ hab.state)
  · exact h.stageCount (fun _ => rfl) fun _ => rfl

theorem Relates.admitAll {part : Partition} (hown : C.own part)
    {out out' : Successors ν ρ}
    (hout : List.Forall₂ (fun p q => C.Adjustments c p.1 q.1 ∧ p.2 = q.2) out out') :
    Paired excused C.machines c (x.admitAll part out) (y.admitAll part out')
      fun _ _ _ => True := by
  induction out generalizing c out' with
  | nil =>
    cases hout
    exact .pure trivial
  | cons head out ih =>
    obtain ⟨head', out', hhead, hrest, rfl⟩ := List.forall₂_cons_left_iff.1 hout
    obtain ⟨a, l⟩ := head
    obtain ⟨b, l'⟩ := head'
    obtain ⟨hab, hl⟩ := hhead
    obtain rfl : l = l' := hl
    have hmore : out.isEmpty = out'.isEmpty := by cases hrest <;> rfl
    unfold Exploration.admitAll
    rw [hmore]
    exact .bind (h.admitOne hab hown l _) fun d _ _ hcd _ =>
      ih (hrest.imp fun _ _ hq => ⟨hq.1.mono h.toLasts hcd, hq.2⟩)

/-- Corresponding entries are expanded alike. -/
theorem Relates.expand {i j : EntryId} (hij : C.entries c i j)
    (hmissing : i = j ∨ ∀ err, excused (.failed err)) :
    Paired excused C.machines c (x.expand i) (y.expand j) fun _ _ _ => True := by
  unfold Exploration.expand
  refine .bind reached_paired fun d r r' hcd hr => ?_
  obtain ⟨n, n', hn, rfl, rfl⟩ := hr
  have hij := h.entries_mono hcd hij
  have hentry := h.entry hn hij
  rcases hi : n.reached.get? i with _ | e <;> rcases hj : n'.reached.get? j with _ | f <;>
    rw [hi, hj] at hentry <;> cases hentry
  · rcases hmissing with rfl | hfailed
    · exact .throw _
    · exact .stopped_left fun _ => hfailed _
  next he =>
  dsimp only
  rw [← he.partition]
  refine .bind (ofPhase_paired fun _ _ => h.successors (h.seen hn) he) fun d₁ out out' _ hout => ?_
  exact h.admitAll (h.partition hn hij hi) hout

end

end Coupling

/-! ## Pairings and bonds -/

/-- Which handles and which entries of two sides stand for each other. The first side may have
entries besides, the strangers. -/
structure Pairing where
  handles : Naming
  entries : EntryId → EntryId → Prop
  strangers : EntryId → Prop

/-- All that is paired stays paired. -/
structure Pairing.Within (c d : Pairing) : Prop where
  handles : ∀ h k, c.handles h k → d.handles h k
  entries : ∀ i j, c.entries i j → d.entries i j
  strangers : ∀ i, c.strangers i → d.strangers i

instance : Preorder Pairing where
  le := Pairing.Within
  le_refl _ := ⟨fun _ _ h => h, fun _ _ h => h, fun _ h => h⟩
  le_trans _ _ _ hbc hcd :=
    ⟨fun h k hk => hcd.handles h k (hbc.handles h k hk),
      fun i j hj => hcd.entries i j (hbc.entries i j hj),
      fun i hi => hcd.strangers i (hbc.strangers i hi)⟩

/-- When worlds and reached sets of two sides correspond. -/
abbrev Bond (ν ρ ω θ : Type) :=
  Pairing → World ω → ReachedSet ν ρ θ → World ω → ReachedSet ν ρ θ → Prop

/-- Corresponding machines. -/
def Bond.machines (J : Bond ν ρ ω θ) (c : Pairing) (m m' : Machine ν ρ ω θ) : Prop :=
  J c m.meter.world m.reached m'.meter.world m'.reached

/-- What an expansion takes of a correspondence, for the entries in the partitions `own`. -/
structure Bond.Couples [LeafValue ν] [Waitlist θ ν] (J : Bond ν ρ ω θ) (interned : Handle → Prop)
    (own : Partition → Prop) (sees : Naming → Store ν ρ → Store ν ρ → Prop) : Prop where
  spans : ∀ {c w r w' r'}, J c w r w' r' → c.handles.Spans interned w w'
  grow : ∀ {c w r w' r' T w₁ w₁'}, J c w r w' r' → c.handles.Grows T w w₁ w' w₁' →
    T.Spans interned w₁ w₁' → w.next.serial ≤ w₁.next.serial → w'.next.serial ≤ w₁'.next.serial →
    J { c with handles := T } w₁ r w₁' r'
  program : ∀ {c w r w' r'}, J c w r w' r' → r.program = r'.program
  seen : ∀ {c w r w' r'}, J c w r w' r' → sees c.handles r.store r'.store
  stays : ∀ {T U : Naming} {store store'}, sees T store store' → (∀ h k, T h k → U h k) →
    sees U store store'
  candidates : ∀ {c w r w' r' l part}, J c w r w' r' → own part →
    List.Forall₂ c.entries (r.store.candidates ⟨l, part⟩) (r'.store.candidates ⟨l, part⟩)
  entry : ∀ {c w r w' r' i j}, J c w r w' r' → c.entries i j →
    Option.Rel (Entry.Matches c.handles) (r.get? i) (r'.get? j)
  partition : ∀ {c w r w' r' i j e}, J c w r w' r' → c.entries i j → r.get? i = some e →
    own e.partition
  contains : ∀ {c w r w' r' s t}, J c w r w' r' → s.Matches c.handles t →
    r.store.contains s = r'.store.contains t
  remove : ∀ {c w r w' r' i j}, J c w r w' r' → c.entries i j →
    J c w (r.remove i).2 w' (r'.remove j).2
  add : ∀ {c w r w' r' e f i j r₁ r₁'}, J c w r w' r' → e.Matches c.handles f → own e.partition →
    r.add e = .ok (i, r₁) → r'.add f = .ok (j, r₁') → ∃ d, c.Within d ∧ J d w r₁ w' r₁'

/-- The same exploration with other options and another token. -/
abbrev Exploration.under (x : Exploration ν ρ ω) (options : RunOptions) (token : TokenId) :
    Exploration ν ρ ω :=
  { x with options := options, token := token }

/-- The coupling of a bond: states and precisions match under the naming of the pairing. -/
def Bond.coupling (J : Bond ν ρ ω θ) (own : Partition → Prop)
    (sees : Naming → Store ν ρ → Store ν ρ → Prop) : Coupling Pairing ν ρ ω ω θ where
  states c := State.Matches c.handles
  precisions c := Precision.Matches c.handles
  machines := J.machines
  entries c := c.entries
  stores c := sees c.handles
  own := own

section

variable [LeafValue ν] [Waitlist θ ν] {J : Bond ν ρ ω θ} {interned : Handle → Prop}
  {own : Partition → Prop} {sees : Naming → Store ν ρ → Store ν ρ → Prop} {c : Pairing}
  {r r' : ReachedSet ν ρ θ} {part : Partition} {Q : Naming → α → β → Prop}
  {x : ExceptT ε (Effect ω) α} {y : ExceptT ε (Effect ω) β}

/-- Two calls that agree keep the worlds in correspondence, also if both fail. -/
theorem Bond.Couples.called (hJ : J.Couples interned own sees) {w w' : World ω} (hw : J c w r w' r')
    (hx : Keeps (fun _ => True) x) (hy : Keeps (fun _ => True) y)
    (hxy : Likewise interned c.handles x y Q) :
    ∃ d, c ≤ d ∧ J d (x.run.run w).2 r (y.run.run w').2 r' ∧
      Outcomes (Q d.handles) (x.run.run w).1 (y.run.run w').1 := by
  have h := hxy w w' (hJ.spans hw)
  have hle := (hx w trivial).2
  have hle' := (hy w' trivial).2
  revert h hle hle'
  rcases x.run.run w with ⟨e | a, w₁⟩ <;> rcases y.run.run w' with ⟨e' | b, w₁'⟩
  · intro he hle hle'
    exact ⟨c, le_rfl, hJ.grow hw (.refl _ _ _ _ _) ((hJ.spans hw).later hle hle') hle hle', he⟩
  · exact fun h => h.elim
  · exact fun h => h.elim
  · rintro ⟨T, hgrows, hspans, hQ⟩ hle hle'
    exact ⟨{ c with handles := T }, ⟨hgrows.old, fun _ _ h => h, fun _ h => h⟩,
      hJ.grow hw hgrows hspans hle hle', hQ⟩

theorem Bond.Couples.calls (hJ : J.Couples interned own sees) (hx : Keeps (fun _ => True) x)
    (hy : Keeps (fun _ => True) y) (hxy : Likewise interned c.handles x y Q)
    {Q' : Pairing → α → β → Prop}
    (hQ : ∀ d a b, c.Within d → d.handles.OneToOne → Q d.handles a b → Q' d a b) :
    (J.coupling own sees).Calls c x y Q' := by
  intro m m' hm
  obtain ⟨d, hcd, hd, ho⟩ := hJ.called hm hx hy hxy
  refine ⟨d, hcd, hd, ?_⟩
  have hQ := fun a b => hQ d a b hcd (hJ.spans hd).toOneToOne
  revert ho
  rcases (x.run.run m.meter.world).1 with e | a <;> rcases (y.run.run m'.meter.world).1 with e' | b
  · exact id
  · exact id
  · exact id
  · exact hQ a b

theorem rel_imp {R R' : α → β → Prop} (h : ∀ a b, R a b → R' a b) {o : Option α} {o' : Option β}
    (ho : Option.Rel R o o') : Option.Rel R' o o' := by
  cases ho with
  | some hab => exact .some (h _ _ hab)
  | none => exact .none

theorem rel_self {R : α → α → Prop} (h : ∀ a, R a a) (o : Option α) : Option.Rel R o o := by
  cases o with
  | some a => exact .some (h a)
  | none => exact .none

namespace Exploration

variable {x : Exploration ν ρ ω} {options : RunOptions} {token : TokenId}

omit [LeafValue ν] [Waitlist θ ν] in
/-- To note a target changes nothing that a bond is about. -/
theorem note_target {K : View ν ρ ω θ} {E : Ending → Prop} (s : State ν) (more : Bool)
    (htarget : x.isTarget s = true → E (.done .targetFound more))
    (hK : ∀ {w r t t'}, K w r t → K w r t') :
    Triple (Machine.Meets K) (x.note s more) (fun _ => Machine.Meets K) fun e _ => E e := by
  unfold note
  split
  · next h =>
    refine .bind (R := fun _ => Machine.Meets K) (.modify fun _ hm => hK hm) fun _ => ?_
    split
    · exact .throw fun _ _ => htarget h
    · exact .pure fun _ hm => hm
  · exact .pure fun _ hm => hm

variable (hJ : J.Couples interned own sees) (hpure : x.analysis.Pure interned sees)
  {excused : Ending → Prop} {r₁ r₁' : ReachedSet ν ρ θ}

include hJ hpure

/-- A pure analysis does the same on both sides of a bond, unless it is cancelled or has found a
target. -/
theorem relates_under (hcancelled : excused (.done .interrupted true))
    (htarget : ∀ s more, x.isTarget s = true → excused (.done .targetFound more)) :
    (J.coupling own sees).Relates excused x (x.under options token) where
  states_mono hcd hst := hst.mono hcd.handles
  precisions_mono hcd hpq := hpq.mono hcd.handles
  location? hst := hst.1.location?
  entries_mono hcd hij := hcd.entries _ _ hij
  stores_mono hcd hr := hJ.stays hr hcd.handles
  program := rfl
  isSep := rfl
  counted hm _ _ := hm
  cancelled _ := .inl hcancelled
  seen hm := hJ.seen hm
  candidates hm hown := hJ.candidates hm hown
  entry hm hij := rel_imp (fun _ _ he => ⟨he.state, he.precision, he.location, he.partition⟩)
    (hJ.entry hm hij)
  partition hm hij he := hJ.partition hm hij he
  contains hm hst := hJ.contains hm hst
  remove hm hij := hJ.remove hm hij
  add {c m m' e f} hm he hown hnew := by
    have hef : e.Matches c.handles f := ⟨he.state, he.precision, he.location, he.partition⟩
    have hnew' : m'.reached.store.contains f.state = false := by
      rw [← hJ.contains hm hef.state, hnew]
    have hadd : ∀ {i j r r'}, m.reached.add e = .ok (i, r) → m'.reached.add f = .ok (j, r') →
        ∃ d, c.Within d ∧ J d m.meter.world r m'.meter.world r' := hJ.add hm hef hown
    unfold ReachedSet.add ReachedSet.offer at hadd ⊢
    rw [hnew, hnew', hJ.program hm, he.location] at hadd ⊢
    cases hin : m'.reached.program.contains f.location
    · exact rfl
    · rw [hin] at hadd
      exact hadd rfl rfl
  noted {c s t} more _ := .apart
    (fun m' => note_target (K := fun w r _ => J c w r m'.meter.world m'.reached) s more
      (htarget s more) id)
    fun m => note_target (x := x.under options token)
      (K := fun w r _ => J c m.meter.world m.reached w r) t more (htarget t more) id
  transfer e hst hpq := hJ.calls (hpure.forward.transfer _ _ e) (hpure.forward.transfer _ _ e)
    (hpure.transfer e hst hpq) fun _ _ _ _ _ h => h
  adjust hst hpq hstore := hJ.calls (hpure.forward.adjust _ _ _) (hpure.forward.adjust _ _ _)
    (hpure.adjust hst hpq hstore) fun _ _ _ _ _ =>
      rel_imp fun _ _ h => ⟨h.state, h.precision, h.signal⟩
  fallback err hst hpq := hJ.calls (hpure.forward.fallback _ _ _) (hpure.forward.fallback _ _ _)
    (hpure.fallback err hst hpq) fun _ _ _ _ _ =>
      rel_imp fun _ _ h => ⟨h.state, h.precision, h.signal⟩
  merge hst hrs hpq := hJ.calls (hpure.forward.merge _ _ _) (hpure.forward.merge _ _ _)
    (hpure.merge hst hrs hpq) fun _ _ _ hcd hone h =>
      ⟨hone.eq_iff h.handle (hcd.handles _ _ hrs.handle), fun _ => h⟩
  stop hst hrs hpq := hJ.calls (hpure.forward.stop _ _ _) (hpure.forward.stop _ _ _)
    (hpure.stop hst hrs hpq) fun _ _ _ _ _ h => h

/-- Corresponding entries are expanded alike. -/
theorem expand_paired (hcancelled : excused (.done .interrupted true))
    (htarget : ∀ s more, x.isTarget s = true → excused (.done .targetFound more)) {i j : EntryId}
    (hij : c.entries i j) (hmissing : i = j ∨ ∀ err, excused (.failed err)) :
    Paired excused J.machines c (x.expand i) ((x.under options token).expand j)
      fun _ _ _ => True :=
  (relates_under hJ hpure hcancelled htarget).expand hij hmissing

/-! ## Initial states -/

/-- The reached set after initial states were added one after the other. -/
inductive Sown (x : Exploration ν ρ ω) : List (NodeId × Partition) → World ω → ReachedSet ν ρ θ →
    World ω → ReachedSet ν ρ θ → Prop where
  | nil (w : World ω) (r : ReachedSet ν ρ θ) : Sown x [] w r w r
  | cons {n part seeds w w₁ w' r r₁ r' id} : x.seed n part w r = (.ok id, w₁, r₁) →
      Sown x seeds w₁ r₁ w' r' → Sown x ((n, part) :: seeds) w r w' r'

/-- Initial states at the same location correspond. -/
theorem seed_paired {n : NodeId} (hown : own part) {w w' w₁ w₁' : World ω} {i j : EntryId}
    (hw : J c w r w' r') (hseed : x.seed n part w r = (.ok i, w₁, r₁))
    (hseed' : x.seed n part w' r' = (.ok j, w₁', r₁')) : ∃ d, J d w₁ r₁ w₁' r₁' := by
  obtain ⟨s, p, w₂, hs, hp, hadd⟩ := seed_eq_ok.1 hseed
  obtain ⟨t, q, w₂', ht, hq, hadd'⟩ := seed_eq_ok.1 hseed'
  obtain ⟨d, -, hd, hst⟩ := hJ.called hw (hpure.forward.initialState n part)
    (hpure.forward.initialState n part) (hpure.initialState c.handles n part)
  rw [hs, ht] at hd hst
  obtain ⟨d', hdd', hd', hpq⟩ := hJ.called hd (hpure.forward.initialPrecision n part)
    (hpure.forward.initialPrecision n part) (hpure.initialPrecision d.handles n part)
  rw [hp, hq] at hd' hpq
  have hst : s.Matches d'.handles t := State.Matches.mono hst (Pairing.Within.handles hdd')
  have hl : s.location?.getD n = t.location?.getD n := by rw [hst.1.location?]
  have hentry : Entry.Matches d'.handles ⟨s, p, s.location?.getD n, part⟩
      ⟨t, q, t.location?.getD n, part⟩ := ⟨hst, hpq, hl, rfl⟩
  obtain ⟨d'', -, h⟩ := hJ.add hd' hentry hown hadd hadd'
  exact ⟨d'', h⟩

theorem sown_paired {seeds : List (NodeId × Partition)} (hown : ∀ q ∈ seeds, own q.2)
    {w w' w₁ w₁' : World ω} (hw : J c w r w' r') (hsown : Sown x seeds w r w₁ r₁)
    (hsown' : Sown x seeds w' r' w₁' r₁') : ∃ d, J d w₁ r₁ w₁' r₁' := by
  induction hsown generalizing c w' r' with
  | nil w r =>
    cases hsown'
    exact ⟨c, hw⟩
  | cons hseed _ ih =>
    cases hsown' with
    | cons hseed' hsown' =>
      obtain ⟨d, hd⟩ := seed_paired hJ hpure (hown _ List.mem_cons_self) hw hseed hseed'
      exact ih (fun q hq => hown q (List.mem_cons_of_mem _ hq)) hd hsown'

end Exploration

end

end ProgramAnalysis
