import ProgramAnalysis.Proofs.RecorderOperators
import ProgramAnalysis.Proofs.Run
/-!
Recorded explorations as sequences of steps.

Whatever the analysis inside does, a run that does not crash leads from its scene to another one by
steps (`run_leads`), and an initial state adds a root (`seed_sowing`). These two statements are all
that later proofs know about recorded explorations.
-/

namespace ProgramAnalysis.Recorder

variable {ν ρ ω θ : Type} [LeafValue ν] [Waitlist θ ν] {a : Analysis ν ρ ω}
  {x : Exploration ν ρ (Memory ω ν)} {c₀ : Scene ν ρ θ} {r : ReachedSet ν ρ θ}
  {w : World (Memory ω ν)} {part : Partition} {result : Except Failure EntryId}

/-- What an expansion that ends early leaves; nothing is known after a crash. -/
def Left (a : Analysis ν ρ ω) (program : Program) (c₀ : Scene ν ρ θ) (r : ReachedSet ν ρ θ) :
    Ending → World (Memory ω ν) → Prop
  | .crashed _, _ => True
  | _, w => Traced a program c₀ [] r w

theorem Traced.left {program : Program} {batch : Batch ν}
    (h : Traced a program c₀ batch r w) (ending : Ending) : Left a program c₀ r ending w := by
  cases ending with
  | crashed _ => trivial
  | done _ _ => exact h.abandon
  | failed _ => exact h.abandon

section Expansion

variable (hx : x.analysis = analysis a)

include hx

/-! ## Successors -/

/-- The successors along the edges `done` wait. -/
def Gathered (a : Analysis ν ρ ω) (program : Program) (c₀ : Scene ν ρ θ) (r : ReachedSet ν ρ θ)
    (e : Entry ν ρ) (done : List ProgramEdge) (raw : Batch ν)
    (w : World (Memory ω ν)) : Prop :=
  Traced a program c₀ raw r w ∧ Underway e done raw w.memory.2

theorem gathering {k : EntryId} {e : Entry ν ρ} (he : r.get? k = some e) :
    x.Gathering e (x.program.leaving e.location) (Gathered a x.program c₀ r e)
      (Left a x.program c₀ r) :=
  (sprouting_traced he).gathering hx (fun _ _ ending hw => hw.left ending) fun _ _ => trivial

/-! ## Adjustment -/

/-- The adjusted successors with their locations. -/
def admissible (out : Successors ν ρ) : Batch ν :=
  out.map fun q => (q.1.state, q.2)

theorem adjust_adjusted {p : Precision ρ} {s : State ν} {l : NodeId}
    {before after : Batch ν} :
    Triple (fun m => Traced a x.program c₀ (before ++ (s, l) :: after) r m.world)
      (x.adjust r.store p s) (fun o m => Adjusted a x.program c₀ before after l r o m.world)
      (fun e m => Left a x.program c₀ r e m.world) := by
  obtain ⟨program, _, isTarget, options, token⟩ := x
  cases hx
  refine Exploration.adjust_triple (P := Traced a program c₀ (before ++ (s, l) :: after) r)
    (Q := Adjusted a program c₀ before after l r) (E := Left a program c₀ r)
    ?_ ?_ ?_ ?_ (fun _ _ _ _ _ => trivial) fun _ _ _ _ _ _ _ _ _ => trivial
  · intro w o w' hw hrun
    exact adjust_triple.ok hw hrun
  · intro w component reason w₁ b w' hw hrun hfall
    have hw₁ := (adjust_triple.error hw hrun).2 rfl
    obtain ⟨hleft, hw'⟩ := fallback_triple.ok hw₁ hfall
    show if b.signal = .halt then _ else _
    split
    · exact hleft
    · exact hw' b rfl
  · intro w component reason w₁ w' hw hrun hfall
    have hw₁ := (adjust_triple.error hw hrun).2 rfl
    exact (fallback_triple.ok hw₁ hfall).1.left _
  · intro w err w' hw _ hrun
    exact (adjust_triple.error hw hrun).1.left _

theorem adjusting {p : Precision ρ} (s : State ν) (l : NodeId) (todo : Batch ν)
    (out : Successors ν ρ) :
    Triple (fun m => Traced a x.program c₀ (admissible out ++ (s, l) :: todo) r m.world)
      (x.adjust r.store p s)
      (fun o m => match o with
        | none => Traced a x.program c₀ (admissible out ++ todo) r m.world
        | some b =>
          if b.signal = .halt then
            Left a x.program c₀ r (.done (.broken .adjustment) true) m.world
          else Traced a x.program c₀
            (admissible (out ++ [(b, b.state.location?.getD l)]) ++ todo) r m.world)
      (fun e m => Left a x.program c₀ r e m.world) := by
  refine .post (adjust_adjusted hx) ?_
  rintro (_ | b) m hm
  · exact hm
  · unfold Adjusted at hm
    dsimp only at hm ⊢
    split at hm
    · next hhalt =>
      rw [if_pos hhalt]
      exact hm
    · next hgo =>
      rw [if_neg hgo, admissible, List.map_append, List.append_assoc]
      exact hm.step (.relocates _ rfl)

/-! ## Admission -/

/-- The successors that are still to be admitted wait. -/
def Admitting (a : Analysis ν ρ ω) (program : Program) (c₀ : Scene ν ρ θ)
    (todo : Successors ν ρ) : View ν ρ (Memory ω ν) θ :=
  fun w r _ => Traced a program c₀ (admissible todo) r w

theorem merging {b : Adjustment ν ρ} {l : NodeId} {todo : Successors ν ρ} :
    x.MergePass b.state b.precision ⟨l, part⟩
      (fun _ => Admitting a x.program c₀ ((b, l) :: todo))
      (fun e w r _ => Left a x.program c₀ r e w) := by
  obtain ⟨program, _, isTarget, options, token⟩ := x
  cases hx
  constructor
  · exact fun _ w r t h => (Traced.records h).sound
  · exact fun _ _ _ _ _ h _ => h
  · intro k _ w r t e merged w' h he _ hrun hsame
    rcases (merge_triple he).ok h hrun with ⟨-, hw'⟩ | hmerged
    · exact hw'
    · exact hmerged.clash he hsame.symm (.inl rfl)
  · intro k _ w r t e merged w' i r' h he hplace hrun hne hadd
    rcases (merge_triple he).ok h hrun with ⟨rfl, -⟩ | hmerged
    · exact absurd rfl hne
    · cases hplace
      exact hmerged.replace hadd
  · intro k _ w r t e merged w' h he _ hrun hne hheld
    rcases (merge_triple he).ok h hrun with ⟨rfl, -⟩ | hmerged
    · exact absurd rfl hne
    · obtain ⟨j, f, hf, hhandle⟩ := ((Traced.records h).sound.remove k).store.contains_iff.1 hheld
      have hf : (r.remove k).2.get? j = some f := hf
      rw [ReachedSet.get?_remove] at hf
      split at hf
      · cases hf
      · exact hmerged.clash hf hhandle (.inr rfl)
  · intro k _ w r t e err w' h he _ hrun
    exact Traced.left ((merge_triple he).error h hrun) _
  · exact fun _ _ _ _ => trivial

theorem admission :
    x.Admission part (Admitting a x.program c₀) (fun e w r _ => Left a x.program c₀ r e w) := by
  obtain ⟨program, _, isTarget, options, token⟩ := x
  cases hx
  -- The states at a place are states of entries.
  have hstates : ∀ {w : World (Memory ω ν)} {r : ReachedSet ν ρ θ} {batch} {l : NodeId},
      Traced a program c₀ batch r w →
      ∀ s ∈ r.store.statesAt ⟨l, part⟩, ∃ k e, r.get? k = some e ∧ e.state = s := by
    intro w r batch l h s hs
    obtain ⟨k, e, he, -, rfl⟩ := h.records.sound.store.mem_statesAt.1 hs
    exact ⟨k, e, he, rfl⟩
  refine ⟨⟨?_, ?_, ?_, ?_, ?_, ?_, fun _ _ _ _ _ _ _ _ _ _ => trivial⟩,
    fun b l todo _ => merging rfl⟩
  · intro b l todo w r t w' h hrun
    exact (stop_triple (hstates h)).ok h hrun
  · intro b l todo w r t w' h hrun hheld
    have haccepted := (stop_triple (hstates h)).ok h hrun
    exact Accepted.strand haccepted (.inl hheld)
  · intro b l todo w r t w' k r' h hrun hadd _
    have haccepted := (stop_triple (hstates h)).ok h hrun
    exact Accepted.added haccepted hadd
  · intro b l todo w r t w' k r' h hrun hadd _
    have haccepted := (stop_triple (hstates h)).ok h hrun
    have hr' : Traced a program c₀ (admissible todo) r' w' := Accepted.added haccepted hadd
    exact ⟨hr', hr'.left _⟩
  · intro b l todo w r t w' err h hrun hadd
    have haccepted := (stop_triple (hstates h)).ok h hrun
    refine Traced.left (Accepted.strand haccepted ?_) _
    cases hl : r.program.contains l with
    | false => exact .inr rfl
    | true =>
      cases hc : r.store.contains b.state with
      | true => exact .inl rfl
      | false =>
        obtain ⟨r', hr'⟩ := ReachedSet.exists_add (e := ⟨b.state, b.precision, l, part⟩) hl hc
        rw [hr'] at hadd
        cases hadd
  · intro b l todo w r t err w' h hrun
    exact Traced.left ((stop_triple (hstates h)).error h hrun) _

theorem expand_traced {m₀ : Machine ν ρ (Memory ω ν) θ} {k : EntryId} {e : Entry ν ρ}
    (he : m₀.reached.get? k = some e) (h : Traced a x.program c₀ [] m₀.reached m₀.meter.world) :
    Triple (fun m => m = m₀) (x.expand k)
      (fun _ m => Traced a x.program c₀ [] m.reached m.meter.world)
      (fun ending m => Left a x.program c₀ m.reached ending m.meter.world) := by
  refine Exploration.expand_triple (P := Admitting a x.program c₀)
    (E := fun e w r _ => Left a x.program c₀ r e w) he (.weaken
    (Exploration.successors_triple
      (U := fun todo out => Traced a x.program c₀ (admissible out ++ todo) m₀.reached)
      (gathering hx he) (fun _ _ hw => hw.1) (adjusting hx)) ?_ ?_ fun _ _ hm => hm)
    (admission hx)
  · rintro m rfl
    exact ⟨h, .inl rfl⟩
  · intro out m hm
    rw [List.append_nil] at hm
    exact hm

/-! ## Runs -/

/-- What a call leaves that ends with this result; nothing is known after a crash. -/
def Stays {β : Type} (a : Analysis ν ρ ω) (program : Program) (c₀ : Scene ν ρ θ)
    (r : ReachedSet ν ρ θ) (w : World (Memory ω ν)) : Except Failure β → Prop
  | .error (.crash _) => True
  | _ => Traced a program c₀ [] r w

theorem step_traced {m : Machine ν ρ (Memory ω ν) θ}
    (h : Traced a x.program c₀ [] m.reached m.meter.world) :
    (x.step m).Meets (fun m => Traced a x.program c₀ [] m.reached m.meter.world)
      (fun result m => Stays a x.program c₀ m.reached m.meter.world result) := by
  have hback : ∀ (k : EntryId) {r : ReachedSet ν ρ θ} {w : World (Memory ω ν)},
      Traced a x.program c₀ [] r w → Traced a x.program c₀ [] (r.reschedule k) w :=
    fun k r _ hm => hm.step (.reschedules _ (r.reschedule_store k) (r.reschedule_program k))
  have hpopped : ∀ o r, m.reached.pop = (o, r) → Traced a x.program c₀ [] r m.meter.world := by
    intro o r hpop
    have hr : r = m.reached.pop.2 := by rw [hpop]
    rw [hr]
    exact h.step (.reschedules _ rfl rfl)
  refine Exploration.step_rule h (fun _ => h) h (fun _ => hpopped none) ?_
  intro k r hpop
  refine Exploration.expand_rule (fun _ _ => hback k (hpopped (some k) r hpop)) fun e he => ?_
  refine .fail (expand_traced hx he (hpopped (some k) r hpop)) ?_
  rintro (⟨status, _ | _⟩ | err | c) m' hm'
  · exact hm'
  · exact hback k hm'
  · exact hback k hm'
  · trivial

end Expansion

/-- The scene of a world while no successor waits. -/
def sceneOf (w : World (Memory ω ν)) (r : ReachedSet ν ρ θ) : Scene ν ρ θ :=
  ⟨w.graph, w.next, [], r⟩

omit [LeafValue ν] [Waitlist θ ν] in
theorem sceneOf_eq {g : ReachGraph ν} (hg : w.graph = g) (r : ReachedSet ν ρ θ) :
    sceneOf w r = ⟨g, w.next, [], r⟩ := by
  rw [sceneOf, hg]

/-- A run that does not crash is a sequence of steps. -/
theorem run_leads (hx : x.analysis = analysis a) {counters : Counters} {targets : List (State ν)}
    {fuel : Nat} {result : Except Failure Status} {m : Machine ν ρ (Memory ω ν) θ}
    (h : (sceneOf w r).Records) (hrun : x.run fuel ⟨⟨w, counters⟩, r, targets⟩ = some (result, m))
    (hok : ∀ c, result ≠ .error (.crash c)) :
    Leads a x.program (sceneOf w r) (sceneOf m.meter.world m.reached) := by
  have hstays : Stays a x.program (sceneOf w r) m.reached m.meter.world result := by
    refine Exploration.run_rule
      (I := fun m => Traced a x.program (sceneOf w r) [] m.reached m.meter.world)
      (J := fun result m => Stays a x.program (sceneOf w r) m.reached m.meter.world result)
      (fun _ _ hm => step_traced hx hm) ?_ hrun
    exact Leads.refl h
  match result, hstays with
  | .ok _, h => exact h
  | .error (.error _), h => exact h
  | .error (.crash c), _ => exact absurd rfl (hok c)

/-! ## Initial states -/

/-- How the call for an initial state, with the given result, changes a scene. -/
inductive Sowing (a : Analysis ν ρ ω) (c : Scene ν ρ θ) :
    Except Failure EntryId → Scene ν ρ θ → Prop where
  /-- There is no initial state. -/
  | failed {f} {n : Handle} : (a.Forward → c.next.serial ≤ n.serial) →
      Sowing a c (.error f) { c with next := n }
  /-- There is an initial state, but it is not added to the reached set. -/
  | stranded {f} {h n : Handle} {w} :
      (a.Forward → c.next.serial ≤ h.serial ∧ h.serial < n.serial) →
      Sowing a c (.error f) ⟨c.rooted h w, n, c.batch, c.reached⟩
  /-- The initial state is added to the reached set. -/
  | sown {h n : Handle} {w p l part k r} :
      (a.Forward → c.next.serial ≤ h.serial ∧ h.serial < n.serial) →
      c.reached.add ⟨.graphed h c.newNode w, p, w.location?.getD l, part⟩ = .ok (k, r) →
      Sowing a c (.ok k) ⟨c.rooted h w, n, c.batch, r⟩

theorem seed_sowing (hx : x.analysis = analysis a) {w' : World (Memory ω ν)}
    {r' : ReachedSet ν ρ θ} {n : NodeId} (hseed : x.seed n part w r = (result, w', r'))
    (hok : ∀ c, result ≠ .error (.crash c)) : Sowing a (sceneOf w r) result (sceneOf w' r') := by
  have hstart : Triple (Unrooted a (sceneOf w r)) (do
      let s ← x.analysis.initialState n part
      let p ← x.analysis.initialPrecision n part
      return (s, p) : Action (Memory ω ν) (State ν × Precision ρ))
      (fun q => Rooted a (sceneOf w r) q.1)
      (Spared fun w' => Unrooted a (sceneOf w r) w' ∨ ∃ s, Rooted a (sceneOf w r) s w') := by
    rw [hx]
    refine .bind (.fail initialState_triple ?_) fun s =>
      .bind (.fail initialPrecision_triple ?_) fun p =>
        .pure fun _ hw => hw
    · rintro (e | _) w' hw
      · exact .inl hw
      · trivial
    · rintro (e | _) w' hw
      · exact .inr ⟨s, hw⟩
      · trivial
  have hfirst : Unrooted a (sceneOf w r) w := ⟨rfl, fun _ => Nat.le_refl _⟩
  unfold Exploration.seed at hseed
  dsimp only at hseed
  split at hseed
  · next f _ hrun =>
    cases hseed
    have hw' := hstart.error hfirst hrun
    cases f with
    | crash c => exact absurd rfl (hok c)
    | error e =>
      rcases hw' with ⟨hg, hh⟩ | ⟨_, h, inner, -, hg, hh⟩
      · rw [sceneOf_eq hg]
        exact .failed hh
      · rw [sceneOf_eq hg]
        exact .stranded hh
  · next s p _ hrun =>
    obtain ⟨h, inner, rfl, hg, hh⟩ := hstart.ok hfirst hrun
    split at hseed
    · cases hseed
      rw [sceneOf_eq hg]
      exact .stranded hh
    · next hadd =>
      cases hseed
      rw [sceneOf_eq hg]
      exact .sown hh hadd

theorem Sowing.records {c c' : Scene ν ρ θ} (hs : Sowing a c result c') (h : c.Records)
    (hbatch : c.batch = []) : c'.Records := by
  have hrec : c.graph.Records [] c.reached := by
    rw [Scene.Records, hbatch] at h
    exact h
  cases hs with
  | failed _ => exact h
  | @stranded _ h' _ w _ =>
    rw [Scene.Records, hbatch]
    exact (hrec.root w.location? (.graphed h' c.newNode w)).1
  | @sown h' _ w _ _ _ _ _ _ hadd =>
    rw [Scene.Records, hbatch]
    obtain ⟨hroot, hstands⟩ := hrec.root w.location? (.graphed h' c.newNode w)
    exact hroot.add hadd rfl hstands

end ProgramAnalysis.Recorder
