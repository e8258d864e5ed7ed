import ProgramAnalysis.Facts.Analysis
import ProgramAnalysis.Proofs.Programs
import ProgramAnalysis.Proofs.Run
/-!
Targets and the end of a run.

A successor that is added and is a target gets on the list of targets, and a run with such a list
does not end as exhausted. An entry that a merge puts in the place of another one is not looked at,
so a target can get into the reached set that way, and the run still ends as exhausted. Apart from
that, an exhausted run has added no target (`exhausted_free_of_targets_iff`).
-/

namespace ProgramAnalysis.Exploration

variable {ν ρ ω θ : Type} [LeafValue ν] [Waitlist θ ν]
variable {x : Exploration ν ρ ω} {m₀ m : Machine ν ρ ω θ}

/-- The entry is the answer of a merge of a successor in the run into an entry at its place. -/
def Merged (x : Exploration ν ρ ω) (m₀ : Machine ν ρ ω θ) (e : Entry ν ρ) : Prop :=
  x.analysis.merger.isSep = false ∧ ∃ (a : Adjustment ν ρ) (f : Entry ν ρ) (w w' : World ω),
    Yields x m₀ e.partition a e.location ∧ f.place = e.place ∧
    (x.analysis.merger.merge a.state f.state a.precision).run.run w = (.ok e.state, w') ∧
    e.state.handle ≠ f.state.handle

/-- Where an entry comes from: it was there at the start, it was merged, or it is no target unless
there is one on the list. -/
def Accounted (x : Exploration ν ρ ω) (m₀ : Machine ν ρ ω θ) (t : List (State ν)) (id : EntryId)
    (e : Entry ν ρ) : Prop :=
  (m₀.reached.get? id).isSome = true ∨ Merged x m₀ e ∨ (x.isTarget e.state = true → t ≠ [])

/-- Every entry is accounted for. -/
structure Watched (x : Exploration ν ρ ω) (m₀ : Machine ν ρ ω θ) (r : ReachedSet ν ρ θ)
    (t : List (State ν)) : Prop where
  sound : r.Sound
  accounted : ∀ id e, r.get? id = some e → Accounted x m₀ t id e

namespace Watched

variable {r r' : ReachedSet ν ρ θ} {t : List (State ν)}

theorem remove (h : Watched x m₀ r t) (id : EntryId) : Watched x m₀ (r.remove id).2 t := by
  refine ⟨h.sound.remove id, fun j e he => ?_⟩
  exact h.accounted j e (ReachedSet.get?_remove_eq_some.1 he).2

theorem add {e : Entry ν ρ} {id : EntryId} (h : Watched x m₀ r t) (ha : r.add e = .ok (id, r'))
    (he : Accounted x m₀ t id e) : Watched x m₀ r' t := by
  refine ⟨h.sound.add ha, fun j f hf => ?_⟩
  rcases ReachedSet.new_or_old_of_add ha hf with ⟨rfl, rfl⟩ | hf
  · exact he
  · exact h.accounted j f hf

theorem append (h : Watched x m₀ r t) (s : State ν) : Watched x m₀ r (t ++ [s]) := by
  refine ⟨h.sound, fun id e he => ?_⟩
  rcases h.accounted id e he with hold | hmerged | htarget
  · exact .inl hold
  · exact .inr (.inl hmerged)
  · exact .inr (.inr fun _ => by simp)

theorem of_store (h : Watched x m₀ r t) (hs : r'.store = r.store) (hp : r'.program = r.program) :
    Watched x m₀ r' t := by
  refine ⟨h.sound.of_store hs hp, fun id e he => h.accounted id e ?_⟩
  rw [ReachedSet.get?, ← hs]
  exact he

end Watched

/-! ## One expansion -/

/-- The ending of an expansion that does not end the run as exhausted. -/
def Inexhausted (ending : Ending) : Prop := ∀ again, ending ≠ .done .exhausted again

theorem inexhausted_of_early {ending : Ending} (h : ending.Early) : Inexhausted ending := by
  rintro again rfl
  exact h.1 rfl

omit [LeafValue ν] in
theorem cut_of_inexhausted {K : Machine ν ρ ω θ → Prop} (id : EntryId) {ending : Ending}
    (h : Inexhausted ending) (m : Machine ν ρ ω θ) :
    Cut (fun result m => result = .ok .exhausted → K m) id ending m := by
  rcases ending with ⟨status, again⟩ | e | c
  · have hne : status ≠ .exhausted := fun hs => h again (hs ▸ rfl)
    cases again with
    | false => exact fun hs => absurd (Except.ok.inj hs) hne
    | true => exact fun hs => absurd (Except.ok.inj hs) hne
  · exact fun hs => by cases hs
  · exact fun hs => by cases hs

/-- Successors of the run are admitted to a set whose entries are accounted for. -/
def Admitting (x : Exploration ν ρ ω) (m₀ : Machine ν ρ ω θ) (part : Partition)
    (todo : Successors ν ρ) : View ν ρ ω θ := fun _ r t =>
  (∀ q ∈ todo, Yields x m₀ part q.1 q.2) ∧ Watched x m₀ r t

theorem watched_merging {part : Partition} {a : Adjustment ν ρ} {l : NodeId}
    {todo : Successors ν ρ} (hsep : x.analysis.merger.isSep = false) :
    MergePass x a.state a.precision ⟨l, part⟩ (fun _ => Admitting x m₀ part ((a, l) :: todo))
      (fun ending _ _ _ => Inexhausted ending) where
  sound _ _ _ _ h := h.2.sound
  gone _ _ _ _ _ h _ := h
  same _ _ _ _ _ _ _ _ h _ _ _ _ := h
  replaced id _ w r t f merged w' i r' h _ hplace hx hne ha := by
    refine ⟨h.1, (h.2.remove id).add ha (.inr (.inl ⟨hsep, a, f, w, w', ?_, hplace, hx, hne⟩))⟩
    exact h.1 (a, l) (by simp)
  vanished id _ w r t f merged w' h _ _ _ _ _ := ⟨h.1, h.2.remove id⟩
  failed _ _ _ _ _ _ _ _ _ _ _ _ := by simp [Inexhausted]
  crashed _ _ _ _ := by simp [Inexhausted]

theorem watched_admission {part : Partition} :
    Admission x part (Admitting x m₀ part)
      (fun ending _ _ _ => Inexhausted ending) where
  merging _ _ _ hsep := watched_merging hsep
  covered a l todo w r t w' h _ := ⟨fun q hq => h.1 q (List.mem_cons_of_mem _ hq), h.2⟩
  known a l todo w r t w' h _ _ := ⟨fun q hq => h.1 q (List.mem_cons_of_mem _ hq), h.2⟩
  added a l todo w r t w' id r' h _ ha ht := by
    refine ⟨fun q hq => h.1 q (List.mem_cons_of_mem _ hq), h.2.add ha (.inr (.inr ?_))⟩
    intro ht'
    rw [ht] at ht'
    cases ht'
  found a l todo w r t w' id r' h _ ha _ := by
    refine ⟨⟨fun q hq => h.1 q (List.mem_cons_of_mem _ hq), ?_⟩, by simp [Inexhausted]⟩
    exact (h.2.append a.state).add ha (.inr (.inr fun _ => by simp))
  refused _ _ _ _ _ _ _ _ _ _ _ := by simp [Inexhausted]
  failed _ _ _ _ _ _ _ _ _ _ := by simp [Inexhausted]
  crashed _ _ _ _ _ _ _ _ _ _ := by simp [Inexhausted]

/-- An expansion keeps the entries accounted for, and does not end the run as exhausted. -/
theorem Watched.expand {id : EntryId} {r : ReachedSet ν ρ θ} (h : Watched x m₀ m.reached m.targets)
    (hvisit : Visits x m₀ m) (hpop : m.reached.pop = (some id, r)) :
    Triple (fun m' => m' = popped m r) (x.expand id)
      (fun _ m' => Watched x m₀ m'.reached m'.targets) (fun ending _ => Inexhausted ending) := by
  have hr : Watched x m₀ r m.targets := by
    obtain rfl : r = m.reached.pop.2 := by rw [hpop]
    exact h.of_store rfl rfl
  refine expand_rule (fun _ _ => by simp [Inexhausted]) fun e he => ?_
  refine .post (expand_triple he (P := Admitting x m₀ e.partition) ?_ watched_admission)
    fun _ _ hm => hm.2
  refine .of_run ?_ ?_
  · rintro meter out meter' rfl hx
    refine ⟨fun q hq => ?_, hr⟩
    exact ⟨m, id, r, e, out, meter', hvisit, hpop, he, hx, rfl, hq⟩
  · rintro meter ending meter' rfl hx
    exact inexhausted_of_early ((successors_early r.store e).error trivial hx)

/-! ## Whole runs -/

/-- The entries at the end of an exhausted run: none of them is a target, unless it was there at the
start or was merged. -/
theorem exhausted_accounted (made : m₀.reached.Made) {fuel : Nat}
    (h : x.run fuel m₀ = some (.ok .exhausted, m)) {id : EntryId} {e : Entry ν ρ}
    (he : m.reached.get? id = some e) :
    (m₀.reached.get? id).isSome = true ∨ Merged x m₀ e ∨ x.isTarget e.state = false := by
  have step : ∀ m, Visits x m₀ m → Watched x m₀ m.reached m.targets → (x.step m).Meets
      (fun m => Watched x m₀ m.reached m.targets)
      (fun result m => result = .ok .exhausted → Watched x m₀ m.reached []) := by
    intro m hvisit hm
    refine step_rule (fun hend => by cases hend) ?_ (fun hend => by cases hend) ?_ ?_
    · intro _ hend
      have hempty : m.targets = [] := by
        cases ht : m.targets with
        | nil => rfl
        | cons s rest => simp [ht] at hend
      exact hempty ▸ hm
    · intro _ r hpop
      obtain rfl : r = m.reached.pop.2 := by rw [hpop]
      exact hm.of_store rfl rfl
    · intro id r hpop
      exact .fail (hm.expand hvisit hpop) fun ending m' hend => cut_of_inexhausted id hend m'
  have start : Watched x m₀ m₀.reached m₀.targets :=
    ⟨made.sound, fun id e he => .inl (by rw [he]; rfl)⟩
  rcases (run_rule step start h rfl).accounted id e he with hold | hmerged | htarget
  · exact .inl hold
  · exact .inr (.inl hmerged)
  · exact .inr (.inr (Bool.eq_false_iff.2 fun ht => htarget ht rfl))

/-- A run that ends as exhausted has added no target exactly when it has merged none. -/
theorem exhausted_free_of_targets_iff (made : m₀.reached.Made) {fuel : Nat}
    {m : Machine ν ρ ω θ} (h : x.run fuel m₀ = some (.ok .exhausted, m)) :
    (∀ id e, m.reached.get? id = some e → m₀.reached.get? id = none →
      x.isTarget e.state = false) ↔
    ∀ id e, m.reached.get? id = some e → m₀.reached.get? id = none → Merged x m₀ e →
      x.isTarget e.state = false := by
  constructor
  · intro hall id e he hnew _
    exact hall id e he hnew
  · intro hmerged id e he hnew
    rcases exhausted_accounted made h he with hold | hm | ht
    · rw [hnew] at hold
      cases hold
    · exact hmerged id e he hnew hm
    · exact ht

/-! ## A merged target -/

/-- A program with two edges from its entry to its exit. -/
def fork : Program := .ofPairs 0 [(0, 1), (0, 1)]

/-- The facts of the fork, joined at its end. The second edge leads to a target. -/
def forkFacts : Exploration FactValue Level Facts.Notes where
  program := fork
  analysis := Facts.analysis { merge := .join }
  isTarget s := s.holdsFact 1
  options := { stopAtTarget := false }
  token := ⟨0⟩

def forkStart : Machine FactValue Level Facts.Notes SimpleWaitlist where
  meter := ⟨⟨⟨2⟩, .empty, ⟨0⟩, ⟨0⟩, ({}, .sep)⟩, {}⟩
  reached := ⟨fork, Store.empty.insert ⟨Facts.make {} ⟨0⟩ .empty none, .plain ⟨1⟩, ⟨0⟩, .whole⟩,
    ⟨.breadthFirst, [⟨0⟩]⟩⟩
  targets := []

theorem made_forkStart : forkStart.reached.Made :=
  have hadd : (ReachedSet.ofFrontier fork (SimpleWaitlist.ofOrder .breadthFirst)).add
      ⟨Facts.make {} ⟨0⟩ .empty none, .plain ⟨1⟩, ⟨0⟩, .whole⟩ = .ok (⟨0⟩, forkStart.reached) := rfl
  .add (.ofFrontier _ _) hadd

theorem fork_run : ∃ m e, forkFacts.run 10 forkStart = some (.ok .exhausted, m) ∧
    m.reached.get? ⟨2⟩ = some e ∧ forkFacts.isTarget e.state = true := by
  obtain ⟨m, hsome, hentry⟩ := exhausted_of_any (forkFacts.run 10 forkStart)
    (fun m => (m.reached.get? ⟨2⟩).any fun e => forkFacts.isTarget e.state) (by decide +kernel)
  obtain ⟨e, he, ht⟩ := (Option.any_eq_true _ _).1 hentry
  exact ⟨m, e, hsome, he, ht⟩

theorem fork_free_of_targets_iff : ∃ m, forkFacts.run 10 forkStart = some (.ok .exhausted, m) ∧
    ((∀ id e, m.reached.get? id = some e → forkStart.reached.get? id = none →
      forkFacts.isTarget e.state = false) ↔
    ∀ id e, m.reached.get? id = some e → forkStart.reached.get? id = none →
      Merged forkFacts forkStart e → forkFacts.isTarget e.state = false) := by
  obtain ⟨m, _, hrun, -, -⟩ := fork_run
  exact ⟨m, hrun, exhausted_free_of_targets_iff made_forkStart hrun⟩

/-- The target is merged into the successor along the first edge and then covered by the result. -/
theorem fork_exhausted_with_target : ∃ m id e,
    forkFacts.run 10 forkStart = some (.ok .exhausted, m) ∧ m.reached.get? id = some e ∧
    forkStart.reached.get? id = none ∧ forkFacts.isTarget e.state = true := by
  obtain ⟨m, e, hrun, he, ht⟩ := fork_run
  exact ⟨m, ⟨2⟩, e, hrun, he, rfl, ht⟩

end ProgramAnalysis.Exploration
