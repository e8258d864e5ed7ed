import ProgramAnalysis.Proofs.Contract
import ProgramAnalysis.Proofs.Expansion
/-!
The successors of an entry under a lawful analysis.

`Traced` and `Adjusts` say what the transfer and the adjustment answer in every valid world. Since
they are functions of what they are given, up to handles, one run of the two stages tells this: all
successors of an entry are dropped or are, up to handles, among those that the stages gave, and
these have handles of their own (`successors_adjusted`).
-/

namespace ProgramAnalysis.Exploration

variable {ν ρ ω : Type} {o : Option (Adjustment ν ρ)} {store : Store ν ρ}
  {p : Precision ρ} {s : State ν} {e : Entry ν ρ} {w' w : World ω} {m : Meter ω} {n : Nat}

/-! ## Answers in every valid world -/

/-- Along each of the edges the transfer fails in a way that only drops the edge, or all that it
gives has `Q`; and this holds in every valid world. -/
def Traced (x : Exploration ν ρ ω) (valid : World ω → Prop) (e : Entry ν ρ)
    (edges : List ProgramEdge) (Q : ProgramEdge → State ν → Prop) : Prop :=
  ∀ g ∈ edges, ∀ w, valid w →
    (∃ err w', (x.transfer e g).run.run w =
      (.error (.error err), w') ∧ err.isRecoverable = true) ∨
    ∃ next w', (x.transfer e g).run.run w =
      (.ok next, w') ∧ ∀ s ∈ next, Q g s

/-- The adjustment, with its fallback, drops the state or goes on with a state that has `Q`; and
this holds in every valid world and for all reached states. -/
def Adjusts (x : Exploration ν ρ ω) (valid : World ω → Prop) (p : Precision ρ) (s : State ν)
    (Q : State ν → Prop) : Prop :=
  ∀ store (m : Meter ω), valid m.world → ∃ o m', (x.adjust store p s).run.run m = (.ok o, m') ∧
    ∀ a, o = some a → a.signal = .proceed ∧ Q a.state

section

variable {x : Exploration ν ρ ω} {valid : World ω → Prop} {Q : ProgramEdge → State ν → Prop}

theorem Traced.mono {edges : List ProgramEdge} {Q' : ProgramEdge → State ν → Prop}
    (h : Traced x valid e edges Q) (hQ : ∀ g s, Q g s → Q' g s) : Traced x valid e edges Q' := by
  intro g hg w hw
  rcases h g hg w hw with hdrop | ⟨next, w', hx, hnext⟩
  · exact .inl hdrop
  · exact .inr ⟨next, w', hx, fun s hs => hQ g s (hnext s hs)⟩

theorem Traced.snoc {done : List ProgramEdge} {g : ProgramEdge} (h : Traced x valid e done Q)
    (hg : Traced x valid e [g] Q) : Traced x valid e (done ++ [g]) Q := by
  intro g' hg'
  rcases List.mem_append.1 hg' with hg' | hg'
  · exact h g' hg'
  · exact hg g' hg'

theorem Adjusts.mono {Q Q' : State ν → Prop} (h : Adjusts x valid p s Q) (hQ : ∀ t, Q t → Q' t) :
    Adjusts x valid p s Q' := by
  intro store m hm
  obtain ⟨o, m', hx, ho⟩ := h store m hm
  exact ⟨o, m', hx, fun a ha => ⟨(ho a ha).1, hQ _ (ho a ha).2⟩⟩

end

/-! ## Purity -/

section

variable {x : Exploration ν ρ ω} {order : StateOrder ν} {valid : World ω → Prop} {α : Type}

/-- How an adjustment comes to its answer. -/
inductive Answers (x : Exploration ν ρ ω) (store : Store ν ρ) (p : Precision ρ) (s : State ν)
    (w : World ω) : Option (Adjustment ν ρ) → World ω → Prop where
  | directly {o : Option (Adjustment ν ρ)} {w'} :
      (x.adjustment store p s).run.run w = (.ok o, w') →
      Answers x store p s w o w'
  | byFallback {component reason w₁ w' a} :
      (x.adjustment store p s).run.run w = (.error (.error (.backend component reason)), w₁) →
      (x.analysis.adjuster.fallback s p (.backend component reason)).run.run w₁ =
        (.ok (some a), w') →
      Answers x store p s w (some a) w'

theorem answers_of_adjust {m' : Meter ω} (h : (x.adjust store p s).run.run m = (.ok o, m')) :
    Answers x store p s m.world o m'.world := by
  have hx : Triple (fun n : Meter ω => n.world = m.world) (x.adjust store p s)
      (fun o n => Answers x store p s m.world o n.world) (fun _ _ => True) := by
    refine adjust_triple (P := fun w => w = m.world) (Q := Answers x store p s m.world)
      (E := fun _ _ => True) ?_ ?_ ?_ ?_ ?_ ?_
    · rintro w o w' rfl hx
      exact .directly hx
    · rintro w component reason w₁ a w' rfl hx hf
      exact .byFallback hx hf
    all_goals
      intros
      trivial
  exact hx.ok rfl h

theorem run_perform_of_ok {y : Attempt ω α} {a : α} (h : y.run.run m.world = (.ok a, w')) :
    (Phase.perform y).run.run m = (.ok a, { m with world := w' }) := by
  have hr : (Phase.perform y).run.run m =
      ((y.run.run m.world).1.mapError .crashed, { m with world := (y.run.run m.world).2 }) := rfl
  rw [hr, h]
  rfl

/-- What an adjustment answers is handed on. -/
theorem run_adjust_of_ok
    (h : (x.adjustment store p s).run.run m.world = (.ok o, w')) :
    ∃ counters, (x.adjust store p s).run.run m = (.ok o, ⟨w', counters⟩) := by
  obtain ⟨counters, -, htimed⟩ := Phase.run_timed .adjustment
    (x.adjustment store p s) m
  rw [h] at htimed
  exact ⟨counters, run_bind_of_ok htimed⟩

/-- When a backend fails, all hangs on the fallback. -/
theorem run_adjust_of_backend {component reason : String} {w₁ : World ω}
    (h : (x.adjustment store p s).run.run m.world =
      (.error (.error (.backend component reason)), w₁))
    (hf : (x.analysis.adjuster.fallback s p (.backend component reason)).run.run w₁ = (.ok o, w')) :
    ∃ counters, (x.adjust store p s).run.run m =
      (o.elim (.error (.done
          (.broken (.backendFailure (Error.backendMessage component reason))) true))
        fun a => .ok (some a), ⟨w', counters⟩) := by
  obtain ⟨counters, -, htimed⟩ := Phase.run_timed .adjustment
    (x.adjustment store p s) m
  rw [h] at htimed
  have hperform : (Phase.perform (x.analysis.adjuster.fallback s p
      (.backend component reason))).run.run ⟨w₁, counters⟩ = (.ok o, ⟨w', counters⟩) :=
    run_perform_of_ok hf
  refine ⟨counters, (run_bind_of_ok htimed).trans ((run_bind_of_ok hperform).trans ?_)⟩
  cases o with
  | none => rfl
  | some a => rfl

theorem Answers.adjust (h : Answers x store p s m.world o w') :
    ∃ counters, (x.adjust store p s).run.run m = (.ok o, ⟨w', counters⟩) := by
  cases h with
  | directly h => exact run_adjust_of_ok h
  | byFallback h hf => exact run_adjust_of_backend h hf

theorem exists_of_map_eq {ε β : Type} {f : α → β} {r r' : Except ε α} {a : α}
    (h : r.map f = r'.map f) (hr : r = .ok a) : ∃ a', r' = .ok a' ∧ f a' = f a := by
  subst hr
  cases r' with
  | error e => cases h
  | ok a' => exact ⟨a', rfl, (Except.ok.inj h).symm⟩

theorem eq_error_of_map_eq {ε β : Type} {f : α → β} {r r' : Except ε α} {e : ε}
    (h : r.map f = r'.map f) (hr : r = .error e) : r' = .error e := by
  subst hr
  cases r' with
  | error e' => rw [Except.error.inj h]
  | ok _ => cases h

/-- An adjustment that has an answer has one in every valid world, up to handles. -/
theorem Answers.alike (lawful : x.analysis.Lawful order valid) {s₁ : State ν}
    (h : Answers x store p s w o w') (hs : s.Alike s₁) (hw : valid w) (store₁ : Store ν ρ)
    (w₁ : World ω) (hw₁ : valid w₁) :
    ∃ o₁ w₁', Answers x store₁ p s₁ w₁ o₁ w₁' ∧ o₁.map Adjustment.core = o.map Adjustment.core := by
  have hpure := lawful.adjust_pure s s₁ p store store₁ w w₁ hs hw hw₁
  rcases hr : (x.adjustment store₁ p s₁).run.run w₁ with ⟨r, w₂⟩
  rw [hr] at hpure
  cases h with
  | directly h =>
    obtain ⟨o₁, rfl, ho⟩ := exists_of_map_eq hpure (congrArg Prod.fst h)
    exact ⟨o₁, w₂, .directly hr, ho⟩
  | @byFallback component reason u _ a h hf =>
    obtain rfl := eq_error_of_map_eq hpure (congrArg Prod.fst h)
    have hu := ((lawful.adjust_keeps s p store).of_run hw h).1
    have hw₂ := ((lawful.adjust_keeps s₁ p store₁).of_run hw₁ hr).1
    have hpure := lawful.fallback_pure s s₁ p (.backend component reason) u w₂ hs hu hw₂
    rcases hr' : (x.analysis.adjuster.fallback s₁ p (.backend component reason)).run.run w₂ with
      ⟨r, w₃⟩
    rw [hr'] at hpure
    obtain ⟨o₁, rfl, ho⟩ := exists_of_map_eq hpure (congrArg Prod.fst hf)
    obtain ⟨b, rfl⟩ : ∃ b, o₁ = some b := by
      cases o₁ with
      | none => cases ho
      | some b => exact ⟨b, rfl⟩
    exact ⟨some b, w₃, .byFallback hr hr', ho⟩

/-- What an answer does to the world, and the handle that it has. -/
theorem Answers.keeps (lawful : x.analysis.Lawful order valid) (h : Answers x store p s w o w')
    (hw : valid w) :
    valid w' ∧ w.next.serial ≤ w'.next.serial ∧
      ∀ a, o = some a → a.state.handle = s.handle ∨ w.Drew w' a.state.handle := by
  cases h with
  | directly h =>
    obtain ⟨hw', hle⟩ := (lawful.adjust_keeps s p store).of_run hw h
    refine ⟨hw', hle, ?_⟩
    rintro a rfl
    exact lawful.adjust_fresh s p store w a w' hw h
  | @byFallback component reason u _ b h hf =>
    obtain ⟨hu, hle⟩ := (lawful.adjust_keeps s p store).of_run hw h
    obtain ⟨hw', hle'⟩ := (lawful.fallback_keeps s p (.backend component reason)).of_run hu hf
    refine ⟨hw', Nat.le_trans hle hle', ?_⟩
    rintro a ⟨⟩
    rcases lawful.fallback_fresh s p _ u b w' hu hf with hb | hb
    · exact .inl hb
    · exact .inr ⟨Nat.le_trans hle hb.1, hb.2⟩

/-! ## The successors of an entry -/

/-- The handles are distinct, and all of them were drawn since the supply stood at `n`. -/
structure Fresh (n : Nat) (w : World ω) (hs : List Handle) : Prop where
  nodup : hs.Nodup
  drawn : ∀ h ∈ hs, n ≤ h.serial ∧ h.serial < w.next.serial

theorem Fresh.append {hs new : List Handle} (h : Fresh n w hs) (hn : n ≤ w.next.serial)
    (hle : w.next.serial ≤ w'.next.serial) (hnew : new.Nodup) (hdrew : ∀ t ∈ new, w.Drew w' t) :
    Fresh n w' (hs ++ new) := by
  constructor
  · refine List.nodup_append.2 ⟨h.nodup, hnew, ?_⟩
    rintro a ha b hb rfl
    have := (h.drawn a ha).2
    have := (hdrew a hb).1
    omega
  · intro a ha
    rcases List.mem_append.1 ha with ha | ha
    · have := h.drawn a ha
      omega
    · obtain ⟨h1, h2⟩ := hdrew a ha
      omega

/-- The handle at the head makes room for the one of its adjustment. -/
theorem Fresh.adjust {h : Handle} {hs : List Handle} (hf : Fresh n w (h :: hs))
    (hn : n ≤ w.next.serial) (hle : w.next.serial ≤ w'.next.serial) (h' : Option Handle)
    (hh' : ∀ k, h' = some k → k = h ∨ w.Drew w' k) : Fresh n w' (hs ++ h'.toList) := by
  have hlater : ∀ k ∈ h :: hs, n ≤ k.serial ∧ k.serial < w'.next.serial := fun k hk => by
    have := hf.drawn k hk
    omega
  obtain ⟨hnot, hnodup⟩ := List.nodup_cons.1 hf.nodup
  cases h' with
  | none => simpa using ⟨hnodup, fun k hk => hlater k (List.mem_cons_of_mem h hk)⟩
  | some k =>
    rcases hh' k rfl with rfl | hk
    · refine ⟨List.nodup_append.2 ⟨hnodup, by simp, ?_⟩, fun a ha => hlater a ?_⟩
      · rintro a ha b hb rfl
        obtain rfl : a = k := by simpa using hb
        exact hnot ha
      · simpa [or_comm] using ha
    · have hold : Fresh n w hs := ⟨hnodup, fun a ha => hf.drawn a (List.mem_cons_of_mem h ha)⟩
      refine hold.append hn hle (by simp) fun t ht => ?_
      obtain rfl : t = k := by simpa using ht
      exact hk

variable [LeafValue ν] {raw : Batch ν}

/-- The successors along one more edge have handles of their own. -/
theorem Fresh.branch {next : List (State ν)} {target : NodeId}
    (h : Fresh n w (raw.map fun q => q.1.handle)) (hn : n ≤ w.next.serial)
    (hle : w.next.serial ≤ w'.next.serial) (hnodup : (next.map State.handle).Nodup)
    (hdrew : ∀ s ∈ next, w.Drew w' s.handle) :
    Fresh n w' ((raw ++ next.map fun s => (s, s.location?.getD target)).map fun q => q.1.handle) := by
  rw [List.map_append, List.map_map]
  exact h.append hn hle hnodup (List.forall_mem_map.2 hdrew)

/-- The state of the transfer stage of an expansion. -/
structure Gathered (x : Exploration ν ρ ω) (valid : World ω → Prop) (n : Nat) (e : Entry ν ρ)
    (done : List ProgramEdge) (raw : Batch ν) (w : World ω) : Prop where
  world : valid w
  supply : n ≤ w.next.serial
  fresh : Fresh n w (raw.map fun q => q.1.handle)
  traced : Traced x valid e done fun g s =>
    ∃ s₀, (s₀, s₀.location?.getD g.target) ∈ raw ∧ s.Alike s₀

theorem gathering (lawful : x.analysis.Lawful order valid) (n : Nat) (e : Entry ν ρ)
    (all : List ProgramEdge) :
    Gathering x e all (Gathered x valid n e) (fun ending _ => ending.Early) where
  got done g rest raw w next w' _ hT hx := by
    obtain ⟨hw', hle⟩ := (lawful.transfer_keeps e.state e.precision g).of_run hT.world hx
    obtain ⟨hnodup, hdrew⟩ := lawful.transfer_fresh _ _ _ w next w' hT.world hx
    refine ⟨hw', Nat.le_trans hT.supply hle, ?_, ?_⟩
    · exact hT.fresh.branch hT.supply hle hnodup hdrew
    · refine .snoc (hT.traced.mono ?_) fun g' hg' w₁ hw₁ => .inr ?_
      · rintro g s ⟨s₀, hs₀, hs⟩
        exact ⟨s₀, List.mem_append_left _ hs₀, hs⟩
      · obtain rfl := List.mem_singleton.1 hg'
        have hpure := lawful.transfer_pure e.state e.precision g' w w₁ hT.world hw₁
        rcases hr : (x.analysis.transfer.successors e.state [] e.precision g').run.run w₁ with
          ⟨r, w₂⟩
        rw [hr] at hpure
        obtain ⟨next₁, rfl, hbare⟩ := exists_of_map_eq hpure (congrArg Prod.fst hx)
        refine ⟨next₁, w₂, rfl, fun s hs => ?_⟩
        have hmem : s.bare ∈ next.map State.bare := hbare ▸ List.mem_map_of_mem hs
        obtain ⟨s₀, hs₀, hs₀s⟩ := List.mem_map.1 hmem
        exact ⟨s₀, List.mem_append_right _ (List.mem_map.2 ⟨s₀, hs₀, rfl⟩), hs₀s.symm⟩
  dropped done g rest raw w err w' _ hT hx hrec := by
    obtain ⟨hw', hle⟩ := (lawful.transfer_keeps e.state e.precision g).of_run hT.world hx
    refine ⟨hw', Nat.le_trans hT.supply hle, ⟨hT.fresh.nodup, fun h hh => ?_⟩, ?_⟩
    · have := hT.fresh.drawn h hh
      omega
    · refine hT.traced.snoc fun g' hg' w₁ hw₁ => .inl ?_
      obtain rfl := List.mem_singleton.1 hg'
      have hpure := lawful.transfer_pure e.state e.precision g' w w₁ hT.world hw₁
      rcases hr : (x.analysis.transfer.successors e.state [] e.precision g').run.run w₁ with
        ⟨r, w₂⟩
      rw [hr] at hpure
      obtain rfl := eq_error_of_map_eq hpure (congrArg Prod.fst hx)
      exact ⟨err, w₂, rfl, hrec⟩
  refused _ _ _ _ _ err _ _ _ _ _ := .ofError err
  cancelled _ _ _ _ _ := ⟨by simp, rfl⟩
  crashed _ _ _ _ _ _ _ _ _ _ := trivial

/-- The state of the adjustment stage of an expansion. -/
structure Adjusted (x : Exploration ν ρ ω) (valid : World ω → Prop) (n : Nat) (e : Entry ν ρ)
    (todo : Batch ν) (out : Successors ν ρ) (w : World ω) :
    Prop where
  world : valid w
  supply : n ≤ w.next.serial
  fresh : Fresh n w ((todo.map fun q => q.1.handle) ++ out.map fun q => q.1.state.handle)
  traced : Traced x valid e (x.program.leaving e.location) fun g s =>
    (∃ s₀, (s₀, s₀.location?.getD g.target) ∈ todo ∧ s.Alike s₀) ∨
    Adjusts x valid e.precision s fun t =>
      ∃ b, (b, t.location?.getD (s.location?.getD g.target)) ∈ out ∧ t.Alike b.state

theorem Gathered.adjusted (h : Gathered x valid n e (x.program.leaving e.location) raw w) :
    Adjusted x valid n e raw [] w where
  world := h.world
  supply := h.supply
  fresh := by simpa using h.fresh
  traced := h.traced.mono fun _ _ hs => .inl hs

/-- One more successor is adjusted. -/
theorem Adjusted.answered (lawful : x.analysis.Lawful order valid) {s₀ : State ν} {l : NodeId}
    {todo : Batch ν} {out : Successors ν ρ}
    (h : Adjusted x valid n e ((s₀, l) :: todo) out w) (ha : Answers x store e.precision s₀ w o w')
    (ho : ∀ a, o = some a → a.signal = .proceed) :
    Adjusted x valid n e todo
      (out ++ (o.map fun a => (a, a.state.location?.getD l)).toList) w' := by
  obtain ⟨hw', hle, hfresh⟩ := ha.keeps lawful h.world
  refine ⟨hw', Nat.le_trans h.supply hle, ?_, h.traced.mono fun g s hs => ?_⟩
  · have hnew := h.fresh.adjust h.supply hle (o.map fun a => a.state.handle) ?_
    · cases o <;> simpa using hnew
    · intro k hk
      obtain ⟨a, rfl, rfl⟩ := Option.map_eq_some_iff.1 hk
      exact hfresh a rfl
  · rcases hs with ⟨s₁, hs₁, hss₁⟩ | hs
    · rcases List.mem_cons.1 hs₁ with heq | hs₁
      · -- The successor at the head: its adjustment is the same up to handles.
        obtain ⟨rfl, rfl⟩ := Prod.mk.inj heq
        refine .inr fun store₁ m hm => ?_
        obtain ⟨o₁, w₁, ha₁, hcore⟩ := ha.alike lawful hss₁.symm h.world store₁ m.world hm
        obtain ⟨counters, hrun⟩ := ha₁.adjust
        refine ⟨o₁, ⟨w₁, counters⟩, hrun, ?_⟩
        rintro a₁ rfl
        cases o with
        | none => cases hcore
        | some a =>
          obtain ⟨halike, hsignal⟩ := Prod.mk.inj (Option.some.inj hcore)
          have halike : a₁.state.Alike a.state := halike
          refine ⟨hsignal.trans (ho a rfl), a, ?_, halike⟩
          rw [halike.location?, hss₁.location?]
          simp
      · exact .inl ⟨s₁, hs₁, hss₁⟩
    · refine .inr (hs.mono ?_)
      rintro t ⟨b, hb, ht⟩
      exact ⟨b, List.mem_append_left _ hb, ht⟩

theorem successors_adjusted (lawful : x.analysis.Lawful order valid) (store : Store ν ρ)
    (e : Entry ν ρ) (hw : valid w) :
    Triple (fun m => m.world = w) (x.successors store e)
      (fun out m => Adjusted x valid w.next.serial e [] out m.world)
      (fun ending _ => ending.Early) := by
  refine .pre (successors_triple (gathering lawful w.next.serial e _)
    (fun _ _ h => h.adjusted) fun s l todo out m hm => ?_) ?_
  · rcases hr : (x.adjust store e.precision s).run.run m with ⟨ending | o, m'⟩
    · exact (adjust_early store e.precision s).error trivial hr
    · have ha := answers_of_adjust hr
      cases o with
      | none => simpa using hm.answered lawful ha (by simp)
      | some a =>
        dsimp only
        split
        · exact ⟨by simp, rfl⟩
        · next hsignal =>
          have hproceed : a.signal = .proceed := by
            cases h : a.signal with
            | proceed => rfl
            | halt => exact absurd h hsignal
          simpa using hm.answered lawful ha (by rintro b ⟨⟩; exact hproceed)
  · rintro m rfl
    refine ⟨hw, Nat.le_refl _, ⟨List.nodup_nil, by simp⟩, ?_⟩
    intro g hg
    cases hg

end

/-! ## New handles -/

/-- The handles of the adjusted successors were drawn since the expansion began. -/
theorem passes_drawn {x : Exploration ν ρ ω} (forward : x.analysis.Forward)
    (fresh : x.analysis.Fresh) (store : Store ν ρ) (e : Entry ν ρ) (w₀ : World ω) :
    Passes x store e w₀ (fun w w' => w.next.serial ≤ w'.next.serial)
      (fun s w => w₀.Drew w s.handle) where
  refl _ := Nat.le_refl _
  trans _ _ _ := Nat.le_trans
  stays _ _ _ h hle := ⟨h.1, Nat.lt_of_lt_of_le h.2 hle⟩
  transfer g _ w r w' hstart hrun := by
    refine ⟨((forward.transfer _ _ g).of_run trivial hrun).2, fun next hr s hs => ?_⟩
    rw [hr] at hrun
    have hdrew := (fresh.transfer _ _ _ w next w' hrun).2 s hs
    exact ⟨Nat.le_trans hstart hdrew.1, hdrew.2⟩
  adjust s w r w' hrun := by
    have hle := ((forward.adjust s e.precision _).of_run trivial hrun).2
    refine ⟨hle, fun b hr hs => ?_⟩
    rw [hr] at hrun
    exact hs.renewed hle (fresh.adjust s _ store w b w' hrun)
  fallback s err w r w' hrun := by
    have hle := ((forward.fallback s e.precision err).of_run trivial hrun).2
    refine ⟨hle, fun b hr hs => ?_⟩
    rw [hr] at hrun
    exact hs.renewed hle (fresh.fallback s _ err w b w' hrun)

end ProgramAnalysis.Exploration
