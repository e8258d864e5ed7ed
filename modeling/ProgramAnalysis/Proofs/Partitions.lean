import ProgramAnalysis.Proofs.Aborts
import ProgramAnalysis.Proofs.Closure
import ProgramAnalysis.Proofs.FactsPure
import ProgramAnalysis.Proofs.Interleaved
/-!
Partitions do not disturb each other.

A run from seeds in several partitions is compared with the run from the seeds of one of them. An
expansion in that partition does the same in both, and an expansion elsewhere only adds and removes
strangers. The waitlists take the entries of the partition in the same order, whatever else they
hold. So the two runs reach the same entries there, in the same order (`partition_undisturbed`).
-/

namespace ProgramAnalysis

variable {ν ρ ω θ : Type} {other : Partition} {c : Pairing}

/-- Every state that an operator gives has a handle that was never used before, except that an
adjustment may keep the handle that it was given and a merge the one of the reached state. -/
structure Analysis.Renewing (a : Analysis ν ρ ω) : Prop extends a.Fresh where
  merge : ∀ s r p w m w', (a.merger.merge s r p).run.run w = (.ok m, w') →
    m.handle = r.handle ∨ w.Drew w' m.handle
  initialState : ∀ n part w s w', (a.initialState n part).run.run w = (.ok s, w') →
    w.Drew w' s.handle

namespace Exploration

variable [LeafValue ν] [Waitlist θ ν] [Waitlist.Separable θ ν] {x : Exploration ν ρ ω}
  {interned : Handle → Prop} {part : Partition} {w' : World ω} {r' : ReachedSet ν ρ θ}

/-! ## Expansions elsewhere -/

/-- The reached set is interleaved, and the successors that are left will be strangers. -/
def Aside (interned : Handle → Prop) (part : Partition) (w' : World ω) (r' : ReachedSet ν ρ θ)
    (todo : Successors ν ρ) (w : World ω) (r : ReachedSet ν ρ θ) : Prop :=
  ∃ c, Interleaved interned part c w r w' r' ∧ ∀ q ∈ todo, Alien c.handles w q.1.state

section

variable {todo : Successors ν ρ} {q : Adjustment ν ρ × NodeId} {w w₁ : World ω}
  {r r₁ : ReachedSet ν ρ θ} {i : EntryId} {e : Entry ν ρ}

omit [LeafValue ν] in
theorem Aside.later (h : Aside interned part w' r' todo w r)
    (hle : w.next.serial ≤ w₁.next.serial) : Aside interned part w' r' todo w₁ r := by
  obtain ⟨c, hc, htodo⟩ := h
  exact ⟨c, hc.later hle, fun q hq => (htodo q hq).later hle⟩

omit [LeafValue ν] in
theorem Aside.tail (h : Aside interned part w' r' (q :: todo) w r) :
    Aside interned part w' r' todo w r := by
  obtain ⟨c, hc, htodo⟩ := h
  exact ⟨c, hc, fun q hq => htodo q (List.mem_cons_of_mem _ hq)⟩

omit [LeafValue ν] in
theorem Aside.remove (h : Aside interned part w' r' todo w r) (he : r.get? i = some e)
    (hpart : e.partition ≠ part) : Aside interned part w' r' todo w (r.remove i).2 := by
  obtain ⟨c, hc, htodo⟩ := h
  exact ⟨c, hc.remove_stranger he hpart, htodo⟩

/-- The next successor is added. -/
theorem Aside.added {a : Adjustment ν ρ} {l : NodeId} (hother : other ≠ part)
    (h : Aside interned part w' r' ((a, l) :: todo) w r)
    (hadd : r.add ⟨a.state, a.precision, l, other⟩ = .ok (i, r₁)) :
    Aside interned part w' r' todo w r₁ := by
  obtain ⟨c, hc, htodo⟩ := h
  exact ⟨c.welcome i, hc.add_stranger (htodo (a, l) List.mem_cons_self) hother hadd,
    fun q hq => htodo q (List.mem_cons_of_mem _ hq)⟩

end

section

variable (forward : x.analysis.Forward) (renewing : x.analysis.Renewing)

include forward renewing

theorem aside_merging (hother : other ≠ part) (s : State ν) (p : Precision ρ) (l : NodeId)
    (todo : Successors ν ρ) :
    MergePass x s p ⟨l, other⟩ (fun _ w r _ => Aside interned part w' r' todo w r)
      (fun _ _ _ _ => True) where
  sound _ _ _ _ h := by
    obtain ⟨c, hc, -⟩ := h
    exact hc.sound
  gone _ _ _ _ _ h _ := h
  same _ _ w r t e merged w₁ h _ _ hrun _ := h.later ((forward.merge _ _ _).of_run trivial hrun).2
  replaced _ _ w r t e merged w₁ i r₁ h he hplace hrun hne hadd := by
    have hle := ((forward.merge _ _ _).of_run trivial hrun).2
    have hdrew := (renewing.merge _ _ _ _ _ _ hrun).resolve_left hne
    have hpart : e.partition ≠ part := fun heq =>
      hother ((congrArg Place.partition hplace).symm.trans heq)
    obtain ⟨c, hc, htodo⟩ := h
    have hremoved := (hc.later hle).remove_stranger he hpart
    exact ⟨c.welcome i, hremoved.add_stranger (alien_of_drew hc.spans hdrew) hother hadd,
      fun q hq => (htodo q hq).later hle⟩
  vanished _ _ w r t e merged w₁ h he hplace hrun _ _ := by
    have hpart : e.partition ≠ part := fun heq =>
      hother ((congrArg Place.partition hplace).symm.trans heq)
    exact (h.later ((forward.merge _ _ _).of_run trivial hrun).2).remove he hpart
  failed _ _ _ _ _ _ _ _ _ _ _ _ := trivial
  crashed _ _ _ _ := trivial

theorem aside_admission (hother : other ≠ part) :
    Admission x other (fun todo w r _ => Aside interned part w' r' todo w r)
      (fun _ _ _ _ => True) where
  merging a l _ _ := aside_merging forward renewing hother a.state a.precision l _
  covered _ _ _ _ _ _ _ h hrun := (h.later ((forward.stop _ _ _).of_run trivial hrun).2).tail
  known _ _ _ _ _ _ _ h hrun _ := (h.later ((forward.stop _ _ _).of_run trivial hrun).2).tail
  added _ _ _ _ _ _ _ _ _ h hrun hadd _ :=
    (h.later ((forward.stop _ _ _).of_run trivial hrun).2).added hother hadd
  found _ _ _ _ _ _ _ _ _ h hrun hadd _ :=
    ⟨(h.later ((forward.stop _ _ _).of_run trivial hrun).2).added hother hadd, trivial⟩
  refused _ _ _ _ _ _ _ _ _ _ _ := trivial
  failed _ _ _ _ _ _ _ _ _ _ := trivial
  crashed _ _ _ _ _ _ _ _ _ _ := trivial

/-- The expansion of a stranger leaves the partition as it was. -/
theorem expand_stranger {m m' : Machine ν ρ ω θ} {i : EntryId}
    (h : Interleaved interned part c m.meter.world m.reached w' r') (hi : c.strangers i)
    (hrun : (x.expand i).run.run m = (.ok (), m')) :
    ∃ d, Interleaved interned part d m'.meter.world m'.reached w' r' := by
  rcases he : m.reached.get? i with _ | e
  · exact ((expand_missing he).ok rfl hrun).elim
  have hother : e.partition ≠ part := by
    rcases h.others i e he with ⟨j, hij⟩ | ⟨-, hpart, -⟩
    · exact absurd hi (h.apart i j hij)
    · exact hpart
  have hsucc : Triple (fun n => n = m.meter) (x.successors m.reached.store e)
      (fun out n => Aside interned part w' r' out n.world m.reached) (fun _ _ => True) := by
    refine .weaken (passes_drawn forward renewing.toFresh m.reached.store e m.meter.world).triple
      (fun n hn => congrArg Meter.world hn) ?_ fun _ _ _ => trivial
    rintro out n ⟨hle, hout⟩
    exact ⟨c, h.later hle, fun q hq => alien_of_drew h.spans (hout q hq)⟩
  have hexpand := expand_triple he hsucc (aside_admission forward renewing hother)
  obtain ⟨d, hd, -⟩ := hexpand.ok rfl hrun
  exact ⟨d, hd⟩

end

variable {options : RunOptions} {token : TokenId} {i : EntryId} {m m₁ n n₁ : Machine ν ρ ω θ}
  {r r₁ : ReachedSet ν ρ θ}

/-! ## Expansions in the partition -/

/-- An expansion in the partition, on both sides. -/
theorem expand_own (hpure : x.analysis.Pure interned fun _ _ _ => True) {j : EntryId}
    (h : Interleaved interned part c m.meter.world m.reached n.meter.world n.reached)
    (hij : c.entries i j) (hrun : (x.expand i).run.run m = (.ok (), m₁))
    (hrun' : ((x.under options token).expand j).run.run n = (.ok (), n₁)) :
    ∃ d, Interleaved interned part d m₁.meter.world m₁.reached n₁.meter.world n₁.reached := by
  have hpaired : Paired (fun _ => True) (Bond.machines (Interleaved interned part : Bond ν ρ ω θ)) c
      (x.expand i) ((x.under options token).expand j) fun _ _ _ => True :=
    expand_paired (interleaved_couples interned part) hpure trivial (fun _ _ _ => trivial) hij
      (.inr fun _ => trivial)
  have hends := hpaired m n h
  rw [hrun, hrun'] at hends
  obtain hstop | hstop | ⟨d, -, hd, -⟩ := hends
  · exact hstop.elim
  · exact hstop.elim
  · exact ⟨d, hd⟩

/-! ## Seeds -/

/-- A seed in another partition is a stranger. -/
theorem seed_stranger (forward : x.analysis.Forward) (renewing : x.analysis.Renewing)
    {w w₁ : World ω} {l : NodeId} (h : Interleaved interned part c w r w' r')
    (hother : other ≠ part) (hseed : x.seed l other w r = (.ok i, w₁, r₁)) :
    ∃ d, Interleaved interned part d w₁ r₁ w' r' := by
  obtain ⟨s, p, w₂, hs, hp, hadd⟩ := seed_eq_ok.1 hseed
  have hle := ((forward.initialState _ _).of_run trivial hs).2
  have hle' := ((forward.initialPrecision _ _).of_run trivial hp).2
  have halien := (alien_of_drew h.spans (renewing.initialState _ _ _ _ _ hs)).later hle'
  exact ⟨c.welcome i, (h.later (Nat.le_trans hle hle')).add_stranger halien hother hadd⟩

theorem sown_interleaved (hpure : x.analysis.Pure interned fun _ _ _ => True)
    (renewing : x.analysis.Renewing) {seeds : List (NodeId × Partition)} {w w₁ w₁' : World ω}
    {r₁' : ReachedSet ν ρ θ} (h : Interleaved interned part c w r w' r')
    (hsown : Sown x seeds w r w₁ r₁)
    (hsown' : Sown x (seeds.filter fun q => q.2 = part) w' r' w₁' r₁') :
    ∃ d, Interleaved interned part d w₁ r₁ w₁' r₁' := by
  induction hsown generalizing c w' r' with
  | nil w r =>
    cases hsown'
    exact ⟨c, h⟩
  | @cons l p seeds w w₂ w₁ r r₂ r₁ i hseed _ ih =>
    by_cases hpart : p = part
    · rw [List.filter_cons, if_pos (decide_eq_true hpart)] at hsown'
      cases hsown' with
      | cons hseed' hsown' =>
        obtain ⟨d, hd⟩ := seed_paired (interleaved_couples interned part) hpure hpart h hseed
          hseed'
        exact ih hd hsown'
    · rw [List.filter_cons, if_neg (mt of_decide_eq_true hpart)] at hsown'
      obtain ⟨d, hd⟩ := seed_stranger hpure.forward renewing h hpart hseed
      exact ih hd hsown'

/-! ## Whole runs -/

variable [Waitlist.Listed θ ν]

omit [Waitlist.Separable θ ν] in
/-- A run that is exhausted in the end is so already, or it expands one more entry. -/
theorem run_exhausted {fuel : Nat} (hm : m.reached.Sound)
    (hrun : x.run fuel m = some (.ok .exhausted, m₁)) :
    m₁ = m ∧ m.reached.hasWaiting = false ∨
      ∃ fuel₁ i r m₂, fuel = fuel₁ + 1 ∧ m.reached.pop = (some i, r) ∧
        (x.expand i).run.run (popped m r) = (.ok (), m₂) ∧
        x.run fuel₁ m₂ = some (.ok .exhausted, m₁) := by
  cases fuel with
  | zero => cases hrun
  | succ fuel =>
    cases hstep : x.step m with
    | ended result m₂ =>
      simp only [run, hstep] at hrun
      cases hrun
      exact .inl (step_of_exhausted hm hstep)
    | again m₂ =>
      simp only [run, hstep] at hrun
      obtain ⟨hwaiting, ⟨r, hpop, -⟩ | ⟨i, r, hpop, hexpand⟩⟩ := step_eq_again hstep
      · exact absurd hpop (ReachedSet.pop_ne_none hwaiting)
      · exact .inr ⟨fuel, i, r, m₂, rfl, hpop, hexpand, hrun⟩

omit [LeafValue ν] [Waitlist.Separable θ ν] in
theorem not_idle_of_pop (hpop : r.pop = (some i, r₁)) : r.hasWaiting ≠ false := by
  intro hidle
  have hzero : r.waiting = 0 := not_not.1 (of_decide_eq_false hidle)
  have hsucc := ReachedSet.waiting_pop hpop
  omega

/-- Two runs that are exhausted in the end have reached the same in the partition. -/
theorem runs_interleaved (hpure : x.analysis.Pure interned fun _ _ _ => True)
    (renewing : x.analysis.Renewing) {fuel fuel' : Nat}
    (h : Interleaved interned part c m.meter.world m.reached n.meter.world n.reached)
    (hrun : x.run fuel m = some (.ok .exhausted, m₁))
    (hrun' : (x.under options token).run fuel' n = some (.ok .exhausted, n₁)) :
    ∃ d, Interleaved interned part d m₁.meter.world m₁.reached n₁.meter.world n₁.reached := by
  -- Each step of the first run is one of the second run as well, or none at all.
  induction fuel generalizing m n c fuel' with
  | zero => cases hrun
  | succ fuel ih =>
    rcases run_exhausted h.sound hrun with
      ⟨rfl, hidle⟩ | ⟨_, i, r, m₂, ⟨⟩, hpop, hexpand, hrest⟩
    · rcases run_exhausted h.sound' hrun' with ⟨rfl, -⟩ | ⟨_, j, r', _, -, hpop', -, -⟩
      · exact ⟨c, h⟩
      · exact absurd (h.idle hidle) (not_idle_of_pop hpop')
    · rcases h.pop hpop with ⟨hi, hr⟩ | ⟨j, r', hij, hpop', hr⟩
      · obtain ⟨d, hd⟩ := expand_stranger hpure.forward renewing (m := popped m r) hr hi hexpand
        exact ih hd hrest hrun'
      · rcases run_exhausted h.sound' hrun' with
          ⟨-, hidle⟩ | ⟨fuel', _, _, n₂, rfl, hpop₂, hexpand', hrest'⟩
        · exact absurd hidle (not_idle_of_pop hpop')
        · rw [hpop'] at hpop₂
          cases hpop₂
          obtain ⟨d, hd⟩ := expand_own hpure (m := popped m r) (n := popped n r') hr hij hexpand
            hexpand'
          exact ih hd hrest hrest'

/-! ## What a partition holds in the end -/

/-- An exhausted run from all the seeds has reached in the partition what an exhausted run from the
seeds of the partition alone has reached there: entries with the same locations, states and
precisions, in the same order, up to the names of handles. -/
def Undisturbed (x : Exploration ν ρ ω) (options : RunOptions) (token : TokenId) (program : Program)
    (part : Partition) (seeds : List (NodeId × Partition)) (w₀ w₀' : World ω) (frontier : θ) :
    Prop :=
  ∀ w w' r r' fuel fuel' m m', Sown x seeds w₀ (.ofFrontier program frontier) w r →
    Sown x (seeds.filter fun q => q.2 = part) w₀' (.ofFrontier program frontier) w' r' →
    x.run fuel ⟨⟨w, {}⟩, r, []⟩ = some (.ok .exhausted, m) →
    (x.under options token).run fuel' ⟨⟨w', {}⟩, r', []⟩ = some (.ok .exhausted, m') →
    ∃ T : Naming, T.OneToOne ∧ List.Forall₂ (Entry.Matches T) (m.reached.store.entriesIn part)
      (m'.reached.store.entriesIn part)

theorem undisturbed_of_splits (hpure : x.analysis.Pure interned fun _ _ _ => True)
    (renewing : x.analysis.Renewing) {w₀ w₀' : World ω}
    (hinterned : ∀ h, interned h → h.serial < w₀.next.serial)
    (hinterned' : ∀ h, interned h → h.serial < w₀'.next.serial) {frontier : θ}
    (hsplits : Waitlist.Separable.Splits ν (fun _ _ => False) (fun _ => False) frontier frontier)
    (program : Program) (seeds : List (NodeId × Partition)) :
    x.Undisturbed options token program part seeds w₀ w₀' frontier := by
  intro w w' r r' fuel fuel' m m' hsown hsown' hrun hrun'
  obtain ⟨c, hc⟩ := sown_interleaved hpure renewing
    (interleaved_empty hinterned hinterned' program part hsplits) hsown hsown'
  obtain ⟨d, hd⟩ := runs_interleaved hpure renewing (m := ⟨⟨w, {}⟩, r, []⟩)
    (n := ⟨⟨w', {}⟩, r', []⟩) hc hrun hrun'
  exact ⟨d.handles, hd.spans.toOneToOne, hd.entriesIn⟩

end Exploration

/-- Partitions do not disturb each other. -/
theorem Exploration.partition_undisturbed [LeafValue ν] (x : Exploration ν ρ ω)
    (interned : Handle → Prop) (hpure : x.analysis.Pure interned fun _ _ _ => True)
    (renewing : x.analysis.Renewing) (options : RunOptions) (token : TokenId) (program : Program)
    (part : Partition) (seeds : List (NodeId × Partition)) (w₀ w₀' : World ω)
    (hinterned : ∀ h, interned h → h.serial < w₀.next.serial)
    (hinterned' : ∀ h, interned h → h.serial < w₀'.next.serial) :
    (∀ order,
      x.Undisturbed options token program part seeds w₀ w₀' (SimpleWaitlist.ofOrder order)) ∧
    ∀ (key : NodeId → State ν → Int) (order : Order),
      (∀ n s t, s.Alike t → key n s = key n t) →
      x.Undisturbed options token program part seeds w₀ w₀' (KeyedWaitlist.ofKey key order) := by
  constructor
  · intro order
    refine undisturbed_of_splits hpure renewing hinterned hinterned' ?_ program seeds
    exact ⟨rfl, .nil⟩
  · intro key order hkey
    refine undisturbed_of_splits hpure renewing hinterned hinterned' ?_ program seeds
    exact ⟨rfl, hkey, rfl, .nil, .nil, nofun, nofun⟩

/-! ## A loop in two partitions -/

/-- The handles that a fact analysis which joins and has no rules gives to its states. -/
theorem Facts.renewing {spec : Facts.Spec} (htransfer : spec.transfer = [])
    (hadjust : spec.adjust = none) (horder : spec.order = .subset) (hmerge : spec.merge = .join)
    (hstop : spec.stop = .sep) : (Facts.analysis spec).Renewing where
  toFresh := (Facts.lawful htransfer hadjust horder hmerge hstop).fresh
  merge _ _ _ _ _ _ hrun := (Facts.merge_renewed horder hmerge hrun).1.2
  initialState n part w s w' hrun := by
    have hrun : (Facts.initialState spec n part).run.run w = (.ok s, w') := hrun
    unfold Facts.initialState at hrun
    cases hfailure : spec.initialFailure with
    | some kind =>
      rw [hfailure] at hrun
      cases hrun
    | none =>
      rw [hfailure] at hrun
      cases hrun
      exact ⟨Nat.le_refl _, Nat.lt_succ_self _⟩

namespace Exploration

/-- Adds the initial states one after the other. -/
def sow [LeafValue ν] [Waitlist θ ν] (x : Exploration ν ρ ω) : List (NodeId × Partition) →
    World ω → ReachedSet ν ρ θ → Option (World ω × ReachedSet ν ρ θ)
  | [], w, r => some (w, r)
  | (n, part) :: seeds, w, r =>
    match x.seed n part w r with
    | (.ok _, w₁, r₁) => sow x seeds w₁ r₁
    | (.error _, _, _) => none

theorem sown_of_sow [LeafValue ν] [Waitlist θ ν] {x : Exploration ν ρ ω}
    {seeds : List (NodeId × Partition)} {w w' : World ω} {r r' : ReachedSet ν ρ θ}
    (h : x.sow seeds w r = some (w', r')) : Sown x seeds w r w' r' := by
  induction seeds generalizing w r with
  | nil =>
    cases h
    exact .nil _ _
  | cons q seeds ih =>
    unfold sow at h
    split at h
    · next hseed => exact .cons hseed (ih h)
    · cases h

/-- The loop, explored from the given seeds in reverse postorder, in a world where handles are drawn
from `n` on. -/
def loopFrom (seeds : List (NodeId × Partition)) (n : Nat) : Option
    (Except Failure Status × Machine FactValue Level Facts.Notes (KeyedWaitlist FactValue)) :=
  (loopFacts.sow seeds ⟨⟨n⟩, .empty, ⟨0⟩, ⟨0⟩, ({}, .sep)⟩
    (.ofFrontier loop (.reversePostorder loop .breadthFirst))).bind
    fun p => loopFacts.run 20 ⟨⟨p.1, {}⟩, p.2, []⟩

/-- With an entry in another partition the loop has twice as many entries, but the same ones in its
own. -/
theorem loop_undisturbed : ∃ m m' T,
    loopFrom [(⟨0⟩, .keyed "other"), (⟨0⟩, .whole)] 0 = some (.ok .exhausted, m) ∧
    loopFrom [(⟨0⟩, .whole)] 7 = some (.ok .exhausted, m') ∧
    m.reached.store.size = 4 ∧ (m.reached.store.entriesIn .whole).length = 2 ∧
    List.Forall₂ (Entry.Matches T) (m.reached.store.entriesIn .whole)
      (m'.reached.store.entriesIn .whole) := by
  obtain ⟨m, hm, hsize⟩ := exhausted_of_any
    (loopFrom [(⟨0⟩, .keyed "other"), (⟨0⟩, .whole)] 0)
    (fun m => m.reached.store.size = 4 && (m.reached.store.entriesIn .whole).length = 2)
    (by decide +kernel)
  obtain ⟨m', hm', -⟩ := exhausted_of_any (loopFrom [(⟨0⟩, .whole)] 7) (fun _ => true)
    (by decide +kernel)
  obtain ⟨⟨w, r⟩, hsow, hrun⟩ := Option.bind_eq_some_iff.1 hm
  obtain ⟨⟨w', r'⟩, hsow', hrun'⟩ := Option.bind_eq_some_iff.1 hm'
  have hpure : loopFacts.analysis.Pure (fun _ => False) fun _ _ _ => True :=
    Facts.analysis_pure (by rintro rule ⟨⟩) rfl rfl rfl rfl _ _
  obtain ⟨T, -, hT⟩ := (partition_undisturbed loopFacts (fun _ => False) hpure
    (Facts.renewing rfl rfl rfl rfl rfl) {} ⟨0⟩ loop .whole
    [(⟨0⟩, .keyed "other"), (⟨0⟩, .whole)] _ _ nofun nofun).2 _ .breadthFirst (fun _ _ _ _ => rfl)
    w w' r r' 20 20 m m' (sown_of_sow hsow) (sown_of_sow hsow') hrun hrun'
  obtain ⟨hfour, htwo⟩ := Bool.and_eq_true_iff.1 hsize
  exact ⟨m, m', T, hm, hm', of_decide_eq_true hfour, of_decide_eq_true htwo, hT⟩

end Exploration

end ProgramAnalysis
