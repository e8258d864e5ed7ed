import Mathlib.Order.CompleteBooleanAlgebra
import Mathlib.Order.CompletePartialOrder
import ProgramAnalysis.Proofs.Lockstep
import ProgramAnalysis.Proofs.Places
/-!
The moments of a run.

Between two calls of operators a run is at one of its moments: at the loop head, after some of the
transfers or adjustments, after some of the merges, after a check for coverage, or at its end. What
all operators keep, whatever comes of them, holds at every moment of every run
(`Moment.sustained`). A crash ends a run too, so it is one of the things that may come of an
operator.
-/

namespace ProgramAnalysis

variable {ν ρ ω θ α : Type}

/-- Whatever comes of them, the operators that an expansion calls keep `I`. -/
structure Analysis.Sustains (a : Analysis ν ρ ω) (I : World ω → Prop) : Prop where
  transfer : ∀ s p e, Steady I (a.transfer.successors s [] p e)
  adjust : ∀ s p around, Steady I (a.adjuster.adjust s p around)
  fallback : ∀ s p err, Steady I (a.adjuster.fallback s p err)
  merge : ∀ s r p, Steady I (a.merger.merge s r p)
  stop : ∀ s rs p, Steady I (a.stopper.stop s rs p)

/-- The world has `I`, and there were `k` iterations. -/
def Meter.Keeps (I : World ω → Prop) (k : Nat) (m : Meter ω) : Prop :=
  I m.world ∧ m.counters.iterations = k

/-! ## An exploration beside itself -/

/-- The machines differ in their counters and targets only. -/
structure Machine.Abreast (I : World ω → Prop) (k : Nat) (m m' : Machine ν ρ ω θ) : Prop where
  world : m.meter.world = m'.meter.world
  reached : m.reached = m'.reached
  left : m.meter.Keeps I k
  right : m'.meter.Keeps I k

/-- The coupling of an exploration with itself. -/
def Coupling.diagonal (I : World ω → Prop) (k : Nat) : Coupling Unit ν ρ ω ω θ where
  states _ := Eq
  precisions _ := Eq
  machines _ := Machine.Abreast I k
  entries _ := Eq
  stores _ := Eq
  own _ := True

section Calls

variable {ε σ : Type} {J : σ → Prop} {I : World ω → Prop} {k : Nat} {Q : Unit → α → α → Prop}

/-- Started beside itself, a computation keeps what the correspondence says of one side. -/
theorem Paired.steady {K : Unit → σ → σ → Prop} {x : ExceptT ε (StateM σ) α}
    (h : Paired (fun _ => False) K () x x Q) (hK : ∀ s, J s → K () s s)
    (hJ : ∀ s t, K () s t → J s) : Steady J x := by
  intro s hs
  obtain ⟨_, -, hd, -⟩ := h.bisimilar s s (hK s hs)
  have hs' := hJ _ _ hd
  revert hs'
  rcases x.run.run s with ⟨_ | _, _⟩ <;> exact id

theorem Paired.phase_steady {m : Machine ν ρ ω θ} {x : Phase ω α}
    (h : Paired (fun _ => False) ((Coupling.diagonal I k).meters m m) () x x Q) :
    Steady (Meter.Keeps I k) x :=
  h.steady (fun _ hn => ⟨rfl, rfl, hn, hn⟩) fun _ _ hn => hn.left

theorem Paired.stage_steady {x : Stage ν ρ ω θ α}
    (h : Paired (fun _ => False) (Coupling.diagonal I k).machines () x x Q) :
    Steady (fun m => m.meter.Keeps I k) x :=
  h.steady (fun _ hm => ⟨rfl, rfl, hm, hm⟩) fun _ _ hm => hm.left

/-- What keeps `I` can be called on both sides. -/
theorem Steady.calls {x : ExceptT ε (Effect ω) α} (h : Steady I x) (hQ : ∀ a, Q () a a) :
    (Coupling.diagonal I k : Coupling Unit ν ρ ω ω θ).Calls () x x Q := by
  intro m m' hm
  have hw : I (x.run.run m.meter.world).2 := h.of_run hm.left.1 rfl
  rw [← hm.world]
  refine ⟨(), le_rfl, ⟨rfl, hm.reached, ⟨hw, hm.left.2⟩, ⟨hw, hm.right.2⟩⟩, ?_⟩
  rcases (x.run.run m.meter.world).1 with e | a
  · exact rfl
  · exact hQ a

end Calls

namespace Exploration

variable [LeafValue ν] [Waitlist θ ν] {x : Exploration ν ρ ω} {I : World ω → Prop} {k : Nat}

/-! ## What the operators keep -/

section Sustained

variable (h : x.analysis.Sustains I)

include h

theorem relates_self :
    (Coupling.diagonal I k : Coupling Unit ν ρ ω ω θ).Relates (fun _ => False) x x where
  states_mono _ hst := hst
  precisions_mono _ hpq := hpq
  location? hst := congrArg _ hst
  entries_mono _ hij := hij
  stores_mono _ hr := hr
  program := rfl
  isSep := rfl
  counted hm hn hn' :=
    ⟨hm.world, hm.reached, ⟨hm.left.1, hn.trans hm.left.2⟩, ⟨hm.right.1, hn'.trans hm.right.2⟩⟩
  cancelled hm := .inr (by rw [hm.world])
  seen hm := congrArg _ hm.reached
  candidates hm _ := by
    rw [hm.reached]
    exact List.forall₂_same.2 fun _ _ => rfl
  entry := by
    rintro _ m m' i _ hm rfl
    rw [hm.reached]
    exact rel_self (fun _ => ⟨rfl, rfl, rfl, rfl⟩) _
  partition _ _ _ := trivial
  contains hm hst := by rw [hm.reached, hst]
  remove hm hij := ⟨hm.world, by rw [hm.reached, hij], hm.left, hm.right⟩
  add := by
    rintro _ m m' ⟨_, _, _, _⟩ ⟨_, _, _, _⟩ hm ⟨rfl, rfl, rfl, rfl⟩ - -
    rw [← hm.reached]
    rcases m.reached.add _ with err | ⟨i, r⟩
    · exact rfl
    · exact ⟨(), le_rfl, hm.world, rfl, hm.left, hm.right⟩
  noted := by
    rintro _ s _ more rfl
    unfold Exploration.note
    split
    · refine .bind (.modify fun _ _ hm => ⟨hm.world, hm.reached, hm.left, hm.right⟩)
        fun _ _ _ _ _ => ?_
      split
      · exact .throw _
      · exact .pure trivial
    · exact .pure trivial
  transfer := by
    rintro _ s _ p _ e rfl rfl
    exact (h.transfer s p e).calls fun _ => List.forall₂_same.2 fun _ _ => rfl
  adjust := by
    rintro _ s _ p _ store _ rfl rfl rfl
    exact (h.adjust s p _).calls (rel_self fun _ => ⟨rfl, rfl, rfl⟩)
  fallback := by
    rintro _ s _ p _ err rfl rfl
    exact (h.fallback s p err).calls (rel_self fun _ => ⟨rfl, rfl, rfl⟩)
  merge := by
    rintro _ s _ r _ p _ rfl rfl rfl
    exact (h.merge s r p).calls fun _ => ⟨Iff.rfl, fun _ => rfl⟩
  stop := by
    rintro _ s _ rs rs' p _ rfl hrs rfl
    obtain rfl : rs = rs' := List.forall₂_eq_eq_eq ▸ hrs
    exact (h.stop s rs p).calls fun _ => rfl

theorem gather_steady (m : Machine ν ρ ω θ) (entry : Entry ν ρ) (edges : List ProgramEdge) :
    Steady (Meter.Keeps I k) (x.gather entry edges) :=
  ((relates_self h).gather (m := m) ⟨rfl, rfl, rfl, rfl⟩ edges).phase_steady

theorem adjustAll_steady (m : Machine ν ρ ω θ) (store : Store ν ρ) (p : Precision ρ)
    (todo : Batch ν) : Steady (Meter.Keeps I k) (x.adjustAll store p todo) :=
  ((relates_self h).adjustAll (m := m) rfl rfl
    (List.forall₂_same.2 fun _ _ => ⟨rfl, rfl⟩)).phase_steady

theorem successors_steady (m : Machine ν ρ ω θ) (store : Store ν ρ) (entry : Entry ν ρ) :
    Steady (Meter.Keeps I k) (x.successors store entry) :=
  ((relates_self h).successors (m := m) rfl ⟨rfl, rfl, rfl, rfl⟩).phase_steady

theorem mergeEach_steady (s : State ν) (p : Precision ρ) (place : Place) (ids : List EntryId) :
    Steady (fun m : Machine ν ρ ω θ => m.meter.Keeps I k) (x.mergeEach s p place ids) :=
  ((relates_self h).mergeEach rfl rfl trivial (List.forall₂_same.2 fun _ _ => rfl)).stage_steady

theorem mergeInto_steady (s : State ν) (p : Precision ρ) (place : Place) :
    Steady (fun m : Machine ν ρ ω θ => m.meter.Keeps I k) (x.mergeInto s p place) :=
  ((relates_self h).mergeInto rfl rfl trivial).stage_steady

theorem admitAll_steady (part : Partition) (todo : Successors ν ρ) :
    Steady (fun m : Machine ν ρ ω θ => m.meter.Keeps I k) (x.admitAll part todo) :=
  ((relates_self h).admitAll trivial
    (List.forall₂_same.2 fun _ _ => ⟨⟨rfl, rfl, rfl⟩, rfl⟩)).stage_steady

theorem expand_steady (id : EntryId) :
    Steady (fun m : Machine ν ρ ω θ => m.meter.Keeps I k) (x.expand id) :=
  ((relates_self h).expand rfl (.inl rfl)).stage_steady

theorem step_sustained {m : Machine ν ρ ω θ} (hm : I m.meter.world) :
    (x.step m).Meets (fun m => I m.meter.world) (fun _ m => I m.meter.world) := by
  refine step_rule hm (fun _ => hm) hm (fun _ _ _ => hm) fun id r _ => ?_
  refine .weaken (expand_steady (k := (popped m r).meter.counters.iterations) h id) ?_
    (fun _ _ hm' => hm'.1) ?_
  · rintro _ rfl
    exact ⟨hm, rfl⟩
  · rintro (⟨_, _ | _⟩ | _ | _) m' hm' <;> exact hm'.1

end Sustained

/-! ## Moments -/

/-- The worlds during a run from `m₀`, before and after each call of an operator. -/
inductive Moment (x : Exploration ν ρ ω) (m₀ : Machine ν ρ ω θ) : World ω → Prop where
  /-- The run is at its loop head. -/
  | head {m} : Visits x m₀ m → Moment x m₀ m.meter.world
  /-- The transfers along the edges `done` are over. -/
  | gathering {m k r e done rest answer meter} :
      Visits x m₀ m → m.reached.pop = (some k, r) → r.get? k = some e →
      x.program.leaving e.location = done ++ rest →
      (x.gather e done).run.run (popped m r).meter = (answer, meter) → Moment x m₀ meter.world
  /-- All transfers are over, and so are the adjustments of the successors `done`. -/
  | adjusting {m k r e done rest answer counters meter meter'} :
      Visits x m₀ m → m.reached.pop = (some k, r) → r.get? k = some e →
      (x.gather e (x.program.leaving e.location)).run.run (popped m r).meter =
        (.ok (done ++ rest), meter) →
      (x.adjustAll r.store e.precision done).run.run ⟨meter.world, counters⟩ = (answer, meter') →
      Moment x m₀ meter'.world
  /-- An adjustment has answered, and its fallback may be called. -/
  | falling {m k r e done rest s l out answer counters meter meter' w} :
      Visits x m₀ m → m.reached.pop = (some k, r) → r.get? k = some e →
      (x.gather e (x.program.leaving e.location)).run.run (popped m r).meter =
        (.ok (done ++ (s, l) :: rest), meter) →
      (x.adjustAll r.store e.precision done).run.run ⟨meter.world, counters⟩ =
        (.ok out, meter') →
      (x.adjustment r.store e.precision s).run.run meter'.world = (answer, w) →
      Moment x m₀ w
  /-- The successor `a` has been merged into the entries `done` at its place. -/
  | merging {part a l more m m' done rest answer} :
      Admits x m₀ part a l more m → x.analysis.merger.isSep = false →
      m.reached.store.candidates ⟨l, part⟩ = done ++ rest →
      (x.mergeEach a.state a.precision ⟨l, part⟩ done).run.run m = (answer, m') →
      Moment x m₀ m'.meter.world
  /-- It is known whether the successor `a` is covered. -/
  | stopping {part a l more m m' answer} :
      Admits x m₀ part a l more m →
      (x.mergeInto a.state a.precision ⟨l, part⟩).run.run m = (answer, m') →
      Moment x m₀ m'.meter.world
  /-- The run is over. -/
  | ended {m m' result} :
      Visits x m₀ m → x.step m = .ended result m' → Moment x m₀ m'.meter.world

variable {m₀ m : Machine ν ρ ω θ}

theorem Visits.sustained (hv : Visits x m₀ m) (h : x.analysis.Sustains I) (h₀ : I m₀.meter.world) :
    I m.meter.world :=
  hv.invariant (I := fun m => I m.meter.world) (fun _ _ hm => step_sustained h hm) h₀

theorem Admits.sustained {part : Partition} {a : Adjustment ν ρ} {l : NodeId} {more : Bool}
    (hm : Admits x m₀ part a l more m) (h : x.analysis.Sustains I) (h₀ : I m₀.meter.world) :
    I m.meter.world := by
  cases hm with
  | @intro m _ _ r _ _ _ meter hv _ _ _ hsuccessors hadmit _ =>
    have hout := (successors_steady h m _ _).of_run (s := (popped m r).meter)
      ⟨hv.sustained h h₀, rfl⟩ hsuccessors
    exact ((admitAll_steady h _ _).of_run (s := { popped m r with meter := meter }) hout hadmit).1

/-- What all operators keep holds at every moment. -/
theorem Moment.sustained {w : World ω} (hw : Moment x m₀ w) (h : x.analysis.Sustains I)
    (h₀ : I m₀.meter.world) : I w := by
  have hgathered : ∀ {m : Machine ν ρ ω θ} {r : ReachedSet ν ρ θ} {e edges answer meter},
      Visits x m₀ m → (x.gather e edges).run.run (popped m r).meter = (answer, meter) →
      I meter.world := fun hv hgather =>
    ((gather_steady h m₀ _ _).of_run (s := (popped _ _).meter) ⟨hv.sustained h h₀, rfl⟩ hgather).1
  have hadjusted : ∀ {store p todo answer w counters} {m' : Meter ω}, I w →
      (x.adjustAll store p todo).run.run ⟨w, counters⟩ = (answer, m') → I m'.world :=
    fun hw hadjust => ((adjustAll_steady h m₀ _ _ _).of_run ⟨hw, rfl⟩ hadjust).1
  cases hw with
  | head hv => exact hv.sustained h h₀
  | gathering hv _ _ _ hgather => exact hgathered hv hgather
  | adjusting hv _ _ hgather hadjust => exact hadjusted (hgathered hv hgather) hadjust
  | falling hv _ _ hgather hadjust hlast =>
    exact (h.adjust _ _ _).of_run (hadjusted (hgathered hv hgather) hadjust) hlast
  | merging hm _ _ hmerge =>
    exact ((mergeEach_steady h _ _ _ _).of_run ⟨hm.sustained h h₀, rfl⟩ hmerge).1
  | stopping hm hstop => exact ((mergeInto_steady h _ _ _).of_run ⟨hm.sustained h h₀, rfl⟩ hstop).1
  | ended hv hstep =>
    have hnext := step_sustained h (hv.sustained h h₀)
    rw [hstep] at hnext
    exact hnext

end Exploration

end ProgramAnalysis
