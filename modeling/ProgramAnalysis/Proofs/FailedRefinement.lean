import ProgramAnalysis.Proofs.GraphHistory
/-!
A refinement that fails.

The ancestors of the cut get their new precisions one after the other, and before all of them have
one nothing else is changed. So a refinement that fails leaves the graph as it was, and of the
reached set everything but precisions: the entries with their states and places, their numbers, the
indices and the frontier (`ReachedSet.outline`). The precisions that were given before the failure
stay. All is as before exactly when these were the old ones; in particular when the point was not
live, or when the first ancestor failed (`failed_refinement_keeps`).
-/

namespace ProgramAnalysis

variable {ν ρ θ σ : Type}

/-! ## Reached sets without precisions -/

/-- All of a reached set but the precisions. -/
structure Outline (ν θ : Type) where
  program : Program
  slots : Array (Option (State ν × NodeId × Partition))
  size : Nat
  byPlace : Index Place (List EntryId)
  byHandle : Index Handle EntryId
  last : Option EntryId
  frontier : θ

namespace ReachedSet

def outline (r : ReachedSet ν ρ θ) : Outline ν θ where
  program := r.program
  slots := r.store.slots.map (Option.map fun e => (e.state, e.location, e.partition))
  size := r.store.size
  byPlace := r.store.byPlace
  byHandle := r.store.byHandle
  last := r.store.last
  frontier := r.frontier

/-- The precision of an entry. -/
def precision? (r : ReachedSet ν ρ θ) (k : EntryId) : Option (Precision ρ) :=
  (r.get? k).map Entry.precision

variable {r r' : ReachedSet ν ρ θ} {k : EntryId} {p : Precision ρ}

theorem outline_updatePrecision (h : r.updatePrecision k p = .ok r') : r'.outline = r.outline := by
  obtain ⟨-, rfl⟩ := updatePrecision_eq_ok h
  unfold outline
  congr 1
  refine Array.ext (by simp [Store.setPrecision]) fun i hi hi' => ?_
  simp only [Store.setPrecision, Array.getElem_map, Array.getElem_modify]
  split
  · rw [Option.map_map]
    rfl
  · rfl

theorem precision?_updatePrecision (h : r.updatePrecision k p = .ok r') {j : EntryId} (hj : j ≠ k) :
    r'.precision? j = r.precision? j := by
  obtain ⟨-, rfl⟩ := updatePrecision_eq_ok h
  have hget : (r.store.setPrecision k p).get? j = _ := Store.get?_setPrecision r.store k j p
  unfold precision? get?
  rw [hget, if_neg hj]

theorem eq_of_bare {o o' : Option (Entry ν ρ)}
    (h : o'.map (fun e => (e.state, e.location, e.partition)) =
      o.map fun e => (e.state, e.location, e.partition))
    (hp : o'.map Entry.precision = o.map Entry.precision) : o' = o := by
  cases o with
  | none => exact Option.map_eq_none_iff.1 h
  | some e =>
    obtain ⟨e', rfl, he⟩ := Option.map_eq_some_iff.1 h
    obtain ⟨state', precision', location', partition'⟩ := e'
    cases he
    cases hp
    rfl

/-- A reached set is given by its outline and its precisions. -/
theorem eq_of_outline (h : r'.outline = r.outline)
    (hp : ∀ k, r'.precision? k = r.precision? k) : r' = r := by
  obtain ⟨program', ⟨slots', size', byPlace', byHandle', last'⟩, frontier'⟩ := r'
  obtain ⟨program, ⟨slots, size, byPlace, byHandle, last⟩, frontier⟩ := r
  simp only [outline, Outline.mk.injEq] at h
  obtain ⟨rfl, hslots, rfl, rfl, rfl, rfl, rfl⟩ := h
  have hsame : slots' = slots := by
    have hsize : slots'.size = slots.size := by simpa using congrArg Array.size hslots
    refine Array.ext hsize fun i hi hi' => eq_of_bare ?_ ?_
    · simpa [hi, hi'] using congrArg (fun a => a[i]?) hslots
    · simpa [precision?, get?, Store.get?, hi, hi'] using hp ⟨i⟩
  rw [hsame]

end ReachedSet

namespace ReachGraph

/-! ## Precisions given one after the other -/

/-- The callback answers for the entries one after the other, with the precisions `granted`, which
lead from `r` to `r'`. Entries that are not in the set are passed over. -/
inductive Grants (f : Strengthening ρ σ) : List (GraphNodeId × EntryId) → ReachedSet ν ρ θ → σ →
    List (EntryId × Precision ρ) → ReachedSet ν ρ θ → σ → Prop where
  | nil {r st} : Grants f [] r st [] r st
  | skip {a k rest} {r : ReachedSet ν ρ θ} {r' st st' granted} :
      r.get? k = none → Grants f rest r st granted r' st' →
      Grants f ((a, k) :: rest) r st granted r' st'
  | grant {a k rest e p} {r : ReachedSet ν ρ θ} {r₁ r' st st₁ st' granted} :
      r.get? k = some e → (f a e.precision).run.run st = (.ok p, st₁) →
      r.updatePrecision k p = .ok r₁ → Grants f rest r₁ st₁ granted r' st' →
      Grants f ((a, k) :: rest) r st ((k, p) :: granted) r' st'

namespace Grants

variable {f : Strengthening ρ σ} {entries : List (GraphNodeId × EntryId)} {r r' : ReachedSet ν ρ θ}
  {st st' : σ} {granted : List (EntryId × Precision ρ)}

theorem outline (h : Grants f entries r st granted r' st') : r'.outline = r.outline := by
  induction h with
  | nil => rfl
  | skip _ _ ih => exact ih
  | grant _ _ hu _ ih => exact ih.trans (ReachedSet.outline_updatePrecision hu)

theorem precision? (h : Grants f entries r st granted r' st') {k : EntryId}
    (hk : k ∉ granted.map Prod.fst) : r'.precision? k = r.precision? k := by
  induction h with
  | nil => rfl
  | skip _ _ ih => exact ih hk
  | grant _ _ hu _ ih =>
    rw [List.map_cons, List.mem_cons, not_or] at hk
    exact (ih hk.2).trans (ReachedSet.precision?_updatePrecision hu hk.1)

/-- The set changes exactly if a precision does. -/
theorem eq_iff (h : Grants f entries r st granted r' st') :
    r' = r ↔ ∀ k, r'.precision? k = r.precision? k :=
  ⟨fun heq k => by rw [heq], ReachedSet.eq_of_outline h.outline⟩

theorem eq_of_nil (h : Grants f entries r st [] r' st') : r' = r :=
  h.eq_iff.2 fun _ => h.precision? (by simp)

end Grants

variable {f : Strengthening ρ σ}

/-- When the callback fails, it has answered for the entries before. -/
theorem strengthenEntries_eq_error {entries : List (GraphNodeId × EntryId)}
    {r r' : ReachedSet ν ρ θ} {done : List EntryId} {st st' : σ} {failure : Failure}
    (h : strengthenEntries f entries r done st = (.error failure, r', st')) :
    ∃ front a k rest granted e st₁, entries = front ++ (a, k) :: rest ∧
      Grants f front r st granted r' st₁ ∧ r'.get? k = some e ∧
      (f a e.precision).run.run st₁ = (.error failure, st') := by
  induction entries generalizing r done st with
  | nil => cases h
  | cons entry entries ih =>
    obtain ⟨a, k⟩ := entry
    unfold strengthenEntries at h
    split at h
    · next hnone =>
      obtain ⟨front, a', k', rest, granted, e, st₁, rfl, hg, he, hf⟩ := ih h
      exact ⟨(a, k) :: front, a', k', rest, granted, e, st₁, rfl, .skip hnone hg, he, hf⟩
    · next e he =>
      split at h
      · next hf =>
        cases h
        exact ⟨[], a, k, entries, [], e, st, rfl, .nil, he, hf⟩
      · next p st₁ hf =>
        split at h
        · -- The entry is in the set, so its precision can be replaced.
          next hu =>
          rw [ReachedSet.updatePrecision, ReachedSet.setPrecision, he] at hu
          cases hu
        · next r₁ hu =>
          obtain ⟨front, a', k', rest, granted, e', st₂, rfl, hg, he', hf'⟩ := ih h
          exact ⟨(a, k) :: front, a', k', rest, (k, p) :: granted, e', st₂, rfl,
            .grant he hf hu hg, he', hf'⟩

/-! ## The whole refinement -/

/-- The entries that a refinement at `point` gives new precisions, with their nodes. -/
def Recorded.leading (s : Recorded ν ρ θ) (point : GraphNodeId) : List (GraphNodeId × EntryId) :=
  ((s.graph.ancestors point).filter fun a => !(s.graph.subtree point).contains a).filterMap fun a =>
    (s.graph.entryOf s.reached a).map fun e => (a, e)

/-- A refinement fails after the precisions `granted` were given: its point is not live, or the
callback fails for an ancestor. -/
inductive Fails (f : Strengthening ρ σ) (point : GraphNodeId) (s : Recorded ν ρ θ) (st : σ) :
    List (EntryId × Precision ρ) → Failure → Recorded ν ρ θ → σ → Prop where
  | dead : ¬ s.graph.Live point → Fails f point s st []
      (.error (.contractViolation ("refinement point " ++ point.text ++ " is not in the ARG"))) s st
  | refused {front rest a k e granted failure r st₁ st'} :
      s.graph.Live point → s.leading point = front ++ (a, k) :: rest →
      Grants f front s.reached st granted r st₁ → r.get? k = some e →
      (f a e.precision).run.run st₁ = (.error failure, st') →
      Fails f point s st granted failure ⟨s.graph, r⟩ st'

theorem fails_of_refine [Waitlist θ ν] {point : GraphNodeId} {s s' : Recorded ν ρ θ} {st st' : σ}
    {err : Error} (h : ReachGraph.refine f point s st = (.error (.error err), s', st')) :
    ∃ granted, Fails f point s st granted (.error err) s' st' := by
  unfold ReachGraph.refine at h
  split at h
  · next hdead =>
    cases h
    refine ⟨[], .dead fun hlive => ?_⟩
    rw [isLive_iff.2 hlive] at hdead
    cases hdead
  · next hlive =>
    have hlive : s.graph.Live point := isLive_iff.1 (by simpa using hlive)
    dsimp only at h
    split at h
    · next hfail =>
      cases h
      obtain ⟨front, a, k, rest, granted, e, st₁, hsplit, hg, he, hf⟩ :=
        strengthenEntries_eq_error hfail
      exact ⟨granted, .refused hlive hsplit hg he hf⟩
    · split at h
      · cases h
      · cases h

/-- A refinement that fails leaves the graph and all of the reached set but the precisions that were
given before. It leaves everything as it was exactly if these were the old ones, and so if none was
given. -/
theorem failed_refinement_keeps [Waitlist θ ν] {f : Strengthening ρ σ} {point : GraphNodeId}
    {s s' : Recorded ν ρ θ} {st st' : σ} {err : Error}
    (failed : ReachGraph.refine f point s st = (.error (.error err), s', st')) :
    ∃ granted, Fails f point s st granted (.error err) s' st' ∧ s'.graph = s.graph ∧
      s'.reached.outline = s.reached.outline ∧
      (∀ k, k ∉ granted.map Prod.fst → s'.reached.precision? k = s.reached.precision? k) ∧
      (s' = s ↔ ∀ k, s'.reached.precision? k = s.reached.precision? k) ∧
      (granted = [] → s' = s) := by
  obtain ⟨granted, hfails⟩ := fails_of_refine failed
  refine ⟨granted, hfails, ?_⟩
  cases hfails with
  | dead _ => exact ⟨rfl, rfl, fun _ _ => rfl, ⟨fun _ _ => rfl, fun _ => rfl⟩, fun _ => rfl⟩
  | refused _ _ hg _ _ =>
    refine ⟨rfl, hg.outline, fun _ hk => hg.precision? hk, ?_, ?_⟩
    · rw [← hg.eq_iff]
      exact ⟨fun heq => congrArg Recorded.reached heq, fun heq => by rw [heq]⟩
    · rintro rfl
      rw [hg.eq_of_nil]

end ReachGraph

namespace Recorder

/-! ## A callback that fails for the second ancestor -/

/-- A program with two edges in a row. -/
def trek : Program := .ofPairs 1 [(0, 2), (2, 1)]

def trekFacts : Exploration FactValue Level (Memory Facts.Notes FactValue) :=
  { knotFacts with program := trek }

def trekReached : ReachedSet FactValue Level SimpleWaitlist :=
  .ofFrontier trek (.ofOrder .breadthFirst)

/-- Level one for all nodes but the first, for which it fails. -/
def allButFirst : ReachGraph.Strengthening Level Unit := fun i _ =>
  if i = ⟨0⟩ then throw (.error (.contractViolation "strengthen")) else pure (.leaf ⟨100⟩ ⟨1⟩)

/-- The level that an entry is tracked at. -/
def levelAt (r : ReachedSet FactValue Level SimpleWaitlist) (k : EntryId) : Option Nat :=
  (r.precision? k).bind fun p => p.level.toOption

theorem trek_run : ∃ m s,
    trekFacts.exploreTo .exhausted ⟨0⟩ 10 knotWorld trekReached = some m ∧
    ReachGraph.refine allButFirst ⟨2⟩ ⟨m.graph, m.reached⟩ () =
      (.error (.error (.contractViolation "strengthen")), s, ()) ∧
    levelAt m.reached ⟨1⟩ = some 0 ∧ levelAt s.reached ⟨1⟩ = some 1 := by
  have hrun : (trekFacts.exploreTo .exhausted ⟨0⟩ 10 knotWorld trekReached).any (fun m =>
      let refined := ReachGraph.refine allButFirst ⟨2⟩
        ⟨m.graph, m.reached⟩ ()
      decide (refined.1 = .error (.error (.contractViolation "strengthen"))) &&
        decide (levelAt m.reached ⟨1⟩ = some 0) &&
          decide (levelAt refined.2.1.reached ⟨1⟩ = some 1)) = true := by
    decide +kernel
  obtain ⟨m, hm, hcheck⟩ := (Option.any_eq_true _ _).1 hrun
  dsimp only at hcheck
  rw [Bool.and_eq_true, Bool.and_eq_true] at hcheck
  obtain ⟨⟨hfail, hbefore⟩, hafter⟩ := hcheck
  refine ⟨m, _, hm, ?_, of_decide_eq_true hbefore, of_decide_eq_true hafter⟩
  exact Prod.ext (of_decide_eq_true hfail) rfl

/-- A refinement at the exit fails for the first node of the trek; everything but the precision of
the node between them is kept. -/
theorem trek_failed_refinement_keeps : ∃ m s granted,
    ReachGraph.refine allButFirst ⟨2⟩ ⟨m.graph, m.reached⟩ () =
      (.error (.error (.contractViolation "strengthen")), s, ()) ∧
    trekFacts.exploreTo .exhausted ⟨0⟩ 10 knotWorld trekReached = some m ∧
    ReachGraph.Fails allButFirst ⟨2⟩ ⟨m.graph, m.reached⟩ () granted
      (.error (.contractViolation "strengthen")) s () ∧
    s.graph = m.graph ∧ s.reached.outline = m.reached.outline ∧
    (∀ k, k ∉ granted.map Prod.fst → s.reached.precision? k = m.reached.precision? k) ∧
    (s = ⟨m.graph, m.reached⟩ ↔ ∀ k, s.reached.precision? k = m.reached.precision? k) ∧
    (granted = [] → s = ⟨m.graph, m.reached⟩) := by
  obtain ⟨m, s, hm, hrefine, -⟩ := trek_run
  obtain ⟨granted, hkeeps⟩ := ReachGraph.failed_refinement_keeps hrefine
  exact ⟨m, s, granted, hrefine, hm, hkeeps⟩

/-- A refinement at the exit of the trek fails, and the entry of the node before it has got a new
precision. -/
theorem trek_half_strengthened : ∃ m s,
    trekFacts.exploreTo .exhausted ⟨0⟩ 10 knotWorld trekReached = some m ∧
    ReachGraph.refine allButFirst ⟨2⟩ ⟨m.graph, m.reached⟩ () =
      (.error (.error (.contractViolation "strengthen")), s, ()) ∧
    levelAt m.reached ⟨1⟩ = some 0 ∧ levelAt s.reached ⟨1⟩ = some 1 ∧
    s ≠ ⟨m.graph, m.reached⟩ := by
  obtain ⟨m, s, hm, hrefine, hbefore, hafter⟩ := trek_run
  refine ⟨m, s, hm, hrefine, hbefore, hafter, ?_⟩
  rintro rfl
  rw [hbefore] at hafter
  cases hafter

end Recorder

end ProgramAnalysis
