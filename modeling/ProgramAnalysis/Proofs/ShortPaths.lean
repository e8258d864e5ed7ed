import ProgramAnalysis.Proofs.BudgetedSteps
/-!
Which short paths a limit on the length of paths lets through.

The entries that are not exhausted stand at the ends of paths without cycles, whatever the order of
the exploration. So a location is kept if every path without cycles to the locations on the way is
within the limit. If the entries are taken in the order of their lengths, as first in, first out
does, then the lengths are those of shortest paths, and every location that a path within the limit
leads to is kept. In another order a longer path can come first and cover a shorter one
(`short_path_cut`).
-/

namespace ProgramAnalysis

/-! ## Paths -/

namespace Program

/-- The location is at the end of a path with so many edges. -/
inductive ReachesIn (p : Program) (n : NodeId) : Nat → NodeId → Prop where
  | refl : ReachesIn p n 0 n
  | step {k l g} : ReachesIn p n k l → g ∈ p.leaving l → ReachesIn p n (k + 1) g.target

/-- The locations of a path without cycles, the last one first, with the number of its edges. -/
inductive Trail (p : Program) (n : NodeId) : Nat → NodeId → List NodeId → Prop where
  | refl : Trail p n 0 n [n]
  | step {k l seen g} : Trail p n k l seen →
    g ∈ p.leaving l → g.target ∉ seen → Trail p n (k + 1) g.target (g.target :: seen)

/-- The location is at the end of a path through locations to which every path without cycles has at
most so many edges. -/
inductive ReachesWithin (p : Program) (n : NodeId) (limit : Nat) : NodeId → Prop where
  | refl : ReachesWithin p n limit n
  | step {l g} : ReachesWithin p n limit l → g ∈ p.leaving l →
    (∀ k seen, p.Trail n k g.target seen → k ≤ limit) → ReachesWithin p n limit g.target

variable {p : Program} {n l : NodeId} {k : Nat} {seen : List NodeId}

theorem Trail.reachesIn (h : p.Trail n k l seen) : p.ReachesIn n k l := by
  induction h with
  | refl => exact .refl
  | step _ hg _ ih => exact ih.step hg

end Program

/-- Frontiers of the kind `P` take their entries in the order in which they came. -/
structure Waitlist.Fifo {θ : Type} (ν : Type) [Waitlist θ ν] [Waitlist.Listed θ ν]
    (P : θ → Prop) : Prop where
  pop : ∀ (f : θ) (id : EntryId) (rest : List EntryId), P f →
    Waitlist.Listed.waiting ν f = id :: rest →
    (Frontier.pop f).1 = some id ∧ Waitlist.Listed.waiting ν (Frontier.pop f).2 = rest ∧
      P (Frontier.pop f).2
  push : ∀ (f : θ) (id : EntryId) (l : NodeId) (s : State ν), P f →
    id ∉ Waitlist.Listed.waiting ν f →
    Waitlist.Listed.waiting ν (Waitlist.push f id l s) = Waitlist.Listed.waiting ν f ++ [id] ∧
      P (Waitlist.push f id l s)

theorem SimpleWaitlist.fifo (ν : Type) :
    Waitlist.Fifo ν fun f : SimpleWaitlist => f.order = .breadthFirst where
  pop f id rest horder hqueue := by
    have hqueue : f.queue = id :: rest := hqueue
    have hpop : f.pop = (some id, { f with queue := rest }) := by
      unfold SimpleWaitlist.pop SimpleWaitlist.next?
      rw [horder, hqueue]
      rfl
    show f.pop.1 = some id ∧ f.pop.2.queue = rest ∧ f.pop.2.order = .breadthFirst
    rw [hpop]
    exact ⟨rfl, rfl, horder⟩
  push f id l s horder hid := by
    have hpush : f.push id = { f with queue := f.queue ++ [id] } := by
      unfold SimpleWaitlist.push
      rw [if_neg (mt SimpleWaitlist.contains_iff.1 hid)]
    show (f.push id).queue = f.queue ++ [id] ∧ (f.push id).order = .breadthFirst
    rw [hpush]
    exact ⟨rfl, horder⟩

namespace Monitor

open ReachedSet

variable {ν ρ θ : Type} [LeafValue ν] {p : Program} {first : Handle} {limit b i : Nat}
  {e : Entry ν ρ}

section

variable [Waitlist θ ν] [Waitlist.Listed θ ν] {part : Partition} {r r' : ReachedSet ν ρ θ} {k : Nat}
  {l n : NodeId} {ls : List NodeId}

/-! ## What expansions keep -/

omit [Waitlist.Listed θ ν] in
theorem liveAt_add {h : Handle} {v : NodeId} {q : Precision ρ} {id j : EntryId}
    (ha : r.add ⟨tracked first limit h l k, q, l, part⟩ = .ok (id, r')) :
    LiveAt r' j v i ↔ LiveAt r j v i ∨ k ≤ limit ∧ j = id ∧ v = l ∧ i = k := by
  constructor
  · rintro ⟨e, h', s, he, hl, hs⟩
    rcases new_or_old_of_add ha he with ⟨rfl, rfl⟩ | he
    · right
      dsimp only at hl hs
      unfold tracked at hs
      simp only [State.monitored.injEq] at hs
      obtain ⟨-, -, rfl, hover⟩ := hs
      exact ⟨overrun_eq_none.1 hover, rfl, hl.symm, rfl⟩
    · exact .inl ⟨e, h', s, he, hl, hs⟩
  · rintro (⟨e, h', s, he, hl, hs⟩ | ⟨hk, rfl, rfl, rfl⟩)
    · exact ⟨e, h', s, get?_add_of_some ha j e he, hl, hs⟩
    · refine ⟨_, h, Location.spot first v, (get?_add ha j).trans (if_pos rfl), rfl, ?_⟩
      show tracked first limit h v i = _
      unfold tracked
      rw [overrun_eq_none.2 hk]

theorem queue_add {h : Handle} {q : Precision ρ} {id : EntryId}
    (ha : r.add ⟨tracked first limit h l k, q, l, part⟩ = .ok (id, r')) (hid : id ∉ r.queue) :
    r'.queue.Perm (id :: r.queue) := by
  obtain ⟨-, -, rfl, rfl⟩ := add_eq_ok ha
  exact Waitlist.Listed.push_new r.frontier _ _ _ hid

namespace Grown

variable (hgrown : Grown first limit part k ls r r')

include hgrown

theorem live {id : EntryId} (h : LiveAt r id l i) : LiveAt r' id l i := by
  induction hgrown with
  | nil => exact h
  | skip _ _ ih => exact ih h
  | add _ ha _ _ ih => exact ih ((liveAt_add ha).2 (.inl h))

theorem queue {id : EntryId} (h : id ∈ r.queue) : id ∈ r'.queue := by
  induction hgrown with
  | nil => exact h
  | skip _ _ ih => exact ih h
  | add _ ha hid _ ih => exact ih ((queue_add ha hid).mem_iff.2 (List.mem_cons_of_mem _ h))

/-- What is live and does not wait was live before. -/
theorem live_old {id : EntryId} (h : LiveAt r' id l i) (hid : id ∉ r'.queue) : LiveAt r id l i := by
  induction hgrown with
  | nil => exact h
  | skip _ _ ih => exact ih h hid
  | add _ ha hnew hrest ih =>
    rcases (liveAt_add ha).1 (ih h hid) with hold | ⟨-, rfl, -⟩
    · exact hold
    · exact absurd (hrest.queue ((queue_add ha hnew).mem_iff.2 (by simp))) hid

/-- A path within the limit leaves a live entry at each of the locations. -/
theorem live_of_mem (hk : k ≤ limit) (hl : l ∈ ls) : ∃ i, Live r' l i := by
  induction hgrown with
  | nil => cases hl
  | skip hcovered hrest ih =>
    rcases List.mem_cons.1 hl with rfl | hl
    · obtain ⟨i, id, hlive⟩ := hcovered hk
      exact ⟨i, id, hrest.live hlive⟩
    · exact ih hl
  | @add l' _ _ _ _ id _ _ _ ha _ hrest ih =>
    rcases List.mem_cons.1 hl with rfl | hl
    · exact ⟨k, id, hrest.live ((liveAt_add ha).2 (.inr ⟨hk, rfl, rfl, rfl⟩))⟩
    · exact ih hl

end Grown

/-! ## Trails -/

/-- Every live entry is at the end of a path without cycles, through locations with live entries. -/
def Trails (p : Program) (n : NodeId) (r : ReachedSet ν ρ θ) : Prop :=
  ∀ l k, Live r l k → ∃ seen, p.Trail n k l seen ∧ ∀ v ∈ seen, ∃ i, Live r v i

/-- A successor is added at a location that has no live entry, so it is not on the path so far. -/
theorem Grown.trails {seen : List NodeId} (hgrown : Grown first limit part (k + 1) ls r r')
    (htrail : p.Trail n k l seen) (hseen : ∀ v ∈ seen, ∃ i, Live r v i)
    (hls : ∀ v ∈ ls, ∃ g ∈ p.leaving l, g.target = v) (h : Trails p n r) : Trails p n r' := by
  induction hgrown with
  | nil => exact h
  | skip _ _ ih => exact ih hseen (fun v hv => hls v (List.mem_cons_of_mem _ hv)) h
  | @add l' ls r r₁ r' id _ _ hnot ha _ _ ih =>
    have hmono : ∀ v, (∃ i, Live r v i) → ∃ i, Live r₁ v i := by
      rintro v ⟨i, j, hj⟩
      exact ⟨i, j, (liveAt_add ha).2 (.inl hj)⟩
    refine ih (fun v hv => hmono v (hseen v hv))
      (fun v hv => hls v (List.mem_cons_of_mem _ hv)) ?_
    rintro v i ⟨j, hj⟩
    rcases (liveAt_add ha).1 hj with hold | ⟨hk, rfl, rfl, rfl⟩
    · obtain ⟨seen', htrail', hseen'⟩ := h v i ⟨j, hold⟩
      exact ⟨seen', htrail', fun u hu => hmono u (hseen' u hu)⟩
    · obtain ⟨g, hg, hv⟩ := hls v (by simp)
      have hnew : g.target ∉ seen := by
        intro hmem
        obtain ⟨i, hi⟩ := hseen g.target hmem
        rw [hv] at hi
        exact hnot hk i hi
      have hstep := htrail.step hg hnew
      rw [hv] at hstep
      refine ⟨v :: seen, hstep, ?_⟩
      intro u hu
      rcases List.mem_cons.1 hu with rfl | hu
      · exact ⟨_, j, hj⟩
      · exact hmono u (hseen u hu)

/-! ## Shortest paths first -/

/-- All paths have at most `b + 1` edges, and those that wait have at least `b`. -/
def Layered (b : Nat) (r : ReachedSet ν ρ θ) : Prop :=
  ∀ id e, r.get? id = some e → pathLength e.state ≤ b + 1 ∧ (id ∈ r.queue → b ≤ pathLength e.state)

theorem Grown.layered (hgrown : Grown first limit part (b + 1) ls r r') (h : Layered b r) :
    Layered b r' := by
  induction hgrown with
  | nil => exact h
  | skip _ _ ih => exact ih h
  | @add l ls r r₁ r' id _ _ _ ha hid _ ih =>
    refine ih ?_
    intro j f hf
    rcases new_or_old_of_add ha hf with ⟨rfl, rfl⟩ | hold
    · exact ⟨Nat.le_refl _, fun _ => Nat.le_succ b⟩
    · refine ⟨(h j f hold).1, fun hj => (h j f hold).2 ?_⟩
      rcases List.mem_cons.1 ((queue_add ha hid).mem_iff.1 hj) with rfl | hj
      · rw [get?_of_add ha] at hold
        cases hold
      · exact hj

omit [LeafValue ν] in
theorem Layered.pop (h : Layered b r) {id : EntryId} (hpop : r.pop = (some id, r'))
    (he : r.get? id = some e)
    (hmin : ∀ j f, j ∈ r.queue → r.get? j = some f → pathLength e.state ≤ pathLength f.state) :
    Layered (pathLength e.state) r' := by
  have hqueue := queue_pop hpop
  obtain rfl : r' = r.pop.2 := by rw [hpop]
  have hb : b ≤ pathLength e.state := (h id e he).2 (hqueue.mem_iff.2 (by simp))
  intro j f hf
  have hf' : r.get? j = some f := hf
  refine ⟨?_, fun hj => hmin j f (hqueue.mem_iff.2 (List.mem_cons_of_mem id hj)) hf'⟩
  have := (h j f hf').1
  omega

/-! ## First in, first out -/

/-- The length of the path of an entry. -/
def lengthAt (r : ReachedSet ν ρ θ) (id : EntryId) : Nat :=
  (r.get? id).elim 0 fun e => pathLength e.state

omit [LeafValue ν] [Waitlist θ ν] [Waitlist.Listed θ ν] in
theorem lengthAt_of_get? {id : EntryId} (he : r.get? id = some e) :
    lengthAt r id = pathLength e.state := by
  unfold lengthAt
  rw [he]
  rfl

/-- The queue is in the order of the lengths, which are `b` or `b + 1`. -/
structure Ordered (P : θ → Prop) (b : Nat) (r : ReachedSet ν ρ θ) : Prop where
  frontier : P r.frontier
  sorted : r.queue.Pairwise fun i j => lengthAt r i ≤ lengthAt r j
  bounds : ∀ j ∈ r.queue, b ≤ lengthAt r j ∧ lengthAt r j ≤ b + 1

variable {P : θ → Prop}

theorem Grown.ordered (hfifo : Waitlist.Fifo ν P) (hgrown : Grown first limit part (b + 1) ls r r')
    (h : Ordered P b r) : Ordered P b r' := by
  induction hgrown with
  | nil => exact h
  | skip _ _ ih => exact ih h
  | @add l ls r r₁ r' id _ _ _ ha hid _ ih =>
    have hlength : ∀ j ∈ r.queue, lengthAt r₁ j = lengthAt r j := by
      intro j hj
      have hne : j ≠ id := fun hji => hid (hji ▸ hj)
      unfold lengthAt
      rw [get?_add ha, if_neg hne]
    have hself : lengthAt r₁ id = b + 1 := by
      rw [lengthAt_of_get? ((get?_add ha id).trans (if_pos rfl))]
      rfl
    have hfrontier : r₁.queue = r.queue ++ [id] ∧ P r₁.frontier := by
      obtain ⟨-, -, rfl, rfl⟩ := add_eq_ok ha
      exact hfifo.push r.frontier _ _ _ h.frontier hid
    refine ih ⟨hfrontier.2, ?_, ?_⟩
    · rw [hfrontier.1, List.pairwise_append]
      refine ⟨?_, List.pairwise_singleton _ _, ?_⟩
      · refine h.sorted.imp_of_mem fun hi hj hij => ?_
        rw [hlength _ hi, hlength _ hj]
        exact hij
      · intro i hi j hj
        rw [List.mem_singleton.1 hj, hself, hlength i hi]
        exact (h.bounds i hi).2
    · intro j hj
      rw [hfrontier.1] at hj
      rcases List.mem_append.1 hj with hj | hj
      · rw [hlength j hj]
        exact h.bounds j hj
      · rw [List.mem_singleton.1 hj, hself]
        omega

omit [LeafValue ν] in
/-- The first one in the queue has a shortest path. -/
theorem Ordered.pop (hfifo : Waitlist.Fifo ν P) (h : Ordered P b r) {id : EntryId}
    (hpop : r.pop = (some id, r')) :
    (∀ j ∈ r.queue, lengthAt r id ≤ lengthAt r j) ∧ Ordered P (lengthAt r id) r' := by
  obtain rfl : r' = r.pop.2 := by rw [hpop]
  cases hqueue : r.queue with
  | nil =>
    have hperm := queue_pop hpop
    rw [hqueue] at hperm
    cases hperm.length_eq
  | cons i rest =>
    obtain ⟨hfirst, hrest, hP⟩ := hfifo.pop r.frontier i rest h.frontier hqueue
    obtain rfl : i = id := Option.some.inj (hfirst.symm.trans (congrArg Prod.fst hpop))
    have hsorted := h.sorted
    rw [hqueue, List.pairwise_cons] at hsorted
    have hmin : ∀ j ∈ i :: rest, lengthAt r i ≤ lengthAt r j := by
      intro j hj
      rcases List.mem_cons.1 hj with rfl | hj
      · exact Nat.le_refl _
      · exact hsorted.1 j hj
    have hqueue' : r.pop.2.queue = rest := hrest
    refine ⟨hmin, hP, ?_, ?_⟩
    · rw [hqueue']
      exact hsorted.2
    · intro j hj
      rw [hqueue'] at hj
      refine ⟨hsorted.1 j hj, ?_⟩
      have hi := h.bounds i (by rw [hqueue]; simp)
      have hj' := h.bounds j (by rw [hqueue]; simp [hj])
      have hsame : lengthAt r.pop.2 j = lengthAt r j := rfl
      omega

/-! ## Whole runs -/

variable {isTarget : State ν → Bool} {options : RunOptions} {token : TokenId}
  {m₀ m : Machine ν ρ (Unit × Counts) θ} {I : ReachedSet ν ρ θ → Prop} {w : World (Unit × Counts)}

/-- What each expansion of a visited machine keeps. -/
def Kept (p : Program) (first : Handle) (limit : Nat) (part : Partition)
    (I : ReachedSet ν ρ θ → Prop) (r : ReachedSet ν ρ θ) : Prop :=
  ∀ id r₁ e h k r', I r → r.pop = (some id, r₁) → r.get? id = some e →
    e.state = tracked first limit h e.location k →
    Grown first limit part (k + 1) (onward limit k (p.leaving e.location)) r₁ r' → I r'

omit [LeafValue ν] in
theorem Tracked.pop {next : Handle} (hr : Tracked first limit part next r) {id : EntryId}
    (hpop : r.pop = (some id, r')) : Tracked first limit part next r' := by
  have hqueue := queue_pop hpop
  obtain rfl : r' = r.pop.2 := by rw [hpop]
  exact ⟨hr.sound.of_store rfl rfl, hr.entry,
    fun j hj => hr.waiting j (hqueue.mem_iff.2 (List.mem_cons_of_mem id hj))⟩

theorem step_grown (hclosed : p.Closed) (hm : Tracked first limit part m.meter.world.next m.reached)
    (hI : I m.reached) (hkept : Kept p first limit part I m.reached) :
    ((exploration p first limit isTarget options token).step m).Meets
      (fun m' => Tracked first limit part m'.meter.world.next m'.reached ∧ I m'.reached)
      (fun result m' => result = .ok .exhausted →
        Tracked first limit part m'.meter.world.next m'.reached ∧ I m'.reached ∧
          m'.reached.queue = []) := by
  refine Exploration.step_rule (fun h => by cases h) ?_ (fun h => by cases h) ?_ ?_
  · intro hwaiting _
    exact ⟨hm, hI, hasWaiting_eq_false.1 hwaiting⟩
  · intro hwaiting r hpop
    exact absurd hpop (pop_ne_none hwaiting)
  · intro id r hpop
    obtain ⟨e, he⟩ := hm.waiting id ((queue_pop hpop).mem_iff.2 (by simp))
    obtain ⟨-, h, k, hstate, -⟩ := hm.entry id e he
    have he' : (Exploration.popped m r).reached.get? id = some e := by
      obtain rfl : r = m.reached.pop.2 := by rw [hpop]
      exact he
    have hr : Tracked first limit part (Exploration.popped m r).meter.world.next
        (Exploration.popped m r).reached := hm.pop hpop
    refine .weaken (expand_grown hclosed hr he' hstate) (fun _ h => h) ?_ fun _ m' hend =>
      Exploration.cut_of_inexhausted id hend m'
    intro _ m' hm'
    exact ⟨hm'.1, hkept id r e h k m'.reached hI hpop he hstate hm'.2⟩

theorem visits_grown (hclosed : p.Closed)
    (hm₀ : Tracked first limit part m₀.meter.world.next m₀.reached) (hI : I m₀.reached)
    (hkept : ∀ m, Exploration.Visits (exploration p first limit isTarget options token) m₀ m →
      Kept p first limit part I m.reached)
    (hvisits : Exploration.Visits (exploration p first limit isTarget options token) m₀ m) :
    I m.reached :=
  (hvisits.invariant (fun m hv hm => step_grown hclosed hm.1 hm.2 (hkept m hv)) ⟨hm₀, hI⟩).2

theorem run_grown (hclosed : p.Closed)
    (hm₀ : Tracked first limit part m₀.meter.world.next m₀.reached) (hI : I m₀.reached)
    (hkept : ∀ m, Exploration.Visits (exploration p first limit isTarget options token) m₀ m →
      Kept p first limit part I m.reached) {fuel : Nat}
    (hrun : (exploration p first limit isTarget options token).run fuel m₀ =
      some (.ok .exhausted, m)) :
    Tracked first limit part m.meter.world.next m.reached ∧ I m.reached ∧ m.reached.queue = [] :=
  Exploration.run_rule (fun m hv hm => step_grown hclosed hm.1 hm.2 (hkept m hv)) ⟨hm₀, hI⟩ hrun
    rfl

/-- The run always takes an entry with a shortest path among those that wait. -/
def ShortestFirst (x : Exploration ν ρ (Unit × Counts)) (m₀ : Machine ν ρ (Unit × Counts) θ) :
    Prop :=
  ∀ m id r e, Exploration.Visits x m₀ m → m.reached.pop = (some id, r) →
    m.reached.get? id = some e → ∀ j f, m.reached.isWaiting j = true →
    m.reached.get? j = some f → pathLength e.state ≤ pathLength f.state

/-- The reached set after some iterations; `shortest` says that shortest paths came first. -/
structure Explored (p : Program) (limit : Nat) (n : NodeId) (shortest : Prop)
    (r : ReachedSet ν ρ θ) : Prop where
  start : Live r n 0
  trails : Trails p n r
  closed : ∀ id l k, LiveAt r id l k → id ∉ r.queue → k < limit → ∀ g ∈ p.leaving l,
    ∃ i, Live r g.target i ∧ (shortest → i ≤ k + 1)
  layered : shortest → ∃ b, Layered b r

omit [LeafValue ν] [Waitlist θ ν] [Waitlist.Listed θ ν] in
theorem liveAt_of_state {id : EntryId} {h : Handle} (hk : k ≤ limit) (he : r.get? id = some e)
    (hstate : e.state = tracked first limit h e.location k) : LiveAt r id e.location k := by
  refine ⟨e, h, Location.spot first e.location, he, rfl, ?_⟩
  rw [hstate]
  unfold tracked
  rw [overrun_eq_none.2 hk]

omit [LeafValue ν] in
theorem Layered.le (h : Layered b r) (hlive : Live r l i) : i ≤ b + 1 := by
  obtain ⟨id, e, h', s, he, -, hs⟩ := hlive
  have hle := (h id e he).1
  rw [hs] at hle
  exact hle

theorem explored_kept {shortest : Prop}
    (hshortest : shortest → ∀ id r₁ e, r.pop = (some id, r₁) → r.get? id = some e →
      ∀ j f, j ∈ r.queue → r.get? j = some f → pathLength e.state ≤ pathLength f.state) :
    Kept p first limit part (Explored p limit n shortest) r := by
  intro id r₁ e h k r' hr hpop he hstate hgrown
  have hqueue := queue_pop hpop
  have hlength : pathLength e.state = k := by
    rw [hstate]
    rfl
  have hlayered : shortest → Layered k r' := by
    intro hs
    obtain ⟨b, hb⟩ := hr.layered hs
    have hpopped := hb.pop hpop he (hshortest hs id r₁ e hpop he)
    rw [hlength] at hpopped
    exact hgrown.layered hpopped
  obtain rfl : r₁ = r.pop.2 := by rw [hpop]
  have hmono : ∀ l i, Live r l i → Live r' l i := by
    rintro l i ⟨j, hj⟩
    exact ⟨j, hgrown.live hj⟩
  refine ⟨hmono n 0 hr.start, ?_, ?_, fun hs => ⟨k, hlayered hs⟩⟩
  · by_cases hk : k ≤ limit
    · obtain ⟨seen, htrail, hseen⟩ := hr.trails e.location k ⟨id, liveAt_of_state hk he hstate⟩
      refine hgrown.trails htrail hseen ?_ hr.trails
      intro v hv
      unfold onward at hv
      rw [if_pos hk] at hv
      obtain ⟨g, hg, hv⟩ := List.mem_map.1 hv
      exact ⟨g, hg, hv⟩
    · unfold onward at hgrown
      rw [if_neg hk] at hgrown
      cases hgrown
      exact hr.trails
  · intro j l i hj hwait hi g hg
    have hold : LiveAt r j l i := hgrown.live_old hj hwait
    by_cases hjid : j = id
    · -- The popped entry: each of its successors is there, or what covers it.
      obtain ⟨f, h', s, hf, hl, hs⟩ := hold
      rw [hjid] at hf
      obtain rfl : e = f := Option.some.inj (he.symm.trans hf)
      have hik : k = i := by
        rw [← hlength, hs]
        rfl
      have hmem : g.target ∈ onward limit k (p.leaving e.location) := by
        unfold onward
        rw [if_pos (by omega), hl]
        exact List.mem_map.2 ⟨g, hg, rfl⟩
      obtain ⟨i', hi'⟩ := hgrown.live_of_mem (by omega) hmem
      refine ⟨i', hi', fun hs => ?_⟩
      rw [← hik]
      exact (hlayered hs).le hi'
    · have hout : j ∉ r.queue := by
        rw [hqueue.mem_iff, List.mem_cons]
        rintro (hj' | hj')
        · exact hjid hj'
        · exact hwait (hgrown.queue hj')
      obtain ⟨i', hi', hle⟩ := hr.closed j l i hold hout hi g hg
      exact ⟨i', hmono _ _ hi', hle⟩

theorem ordered_kept (hfifo : Waitlist.Fifo ν P) :
    Kept p first limit part (fun r => ∃ b, Ordered P b r) r := by
  rintro id r₁ e h k r' ⟨b, hb⟩ hpop he hstate hgrown
  have hlength : lengthAt r id = k := by
    rw [lengthAt_of_get? he, hstate]
    rfl
  have hpopped := (hb.pop hfifo hpop).2
  rw [hlength] at hpopped
  exact ⟨k, hgrown.ordered hfifo hpopped⟩

/-! ## What is kept -/

section

variable {n : NodeId} {shortest : Prop} (h : Explored p limit n shortest r) (hempty : r.queue = [])

include h hempty

omit [LeafValue ν] in
/-- When nothing waits, shortest paths within the limit lead to live entries. -/
theorem Explored.live_of_reachesIn (hs : shortest) (hl : p.ReachesIn n k l) (hk : k ≤ limit) :
    ∃ i, i ≤ k ∧ Live r l i := by
  induction hl with
  | refl => exact ⟨0, Nat.le_refl 0, h.start⟩
  | step _ hg ih =>
    obtain ⟨i, hi, id, hlive⟩ := ih (by omega)
    have hout : id ∉ r.queue := by
      rw [hempty]
      exact List.not_mem_nil
    obtain ⟨i', hi', hle⟩ := h.closed id _ i hlive hout (by omega) _ hg
    have := hle hs
    exact ⟨i', by omega, hi'⟩

omit [LeafValue ν] in
/-- When nothing waits, an entry at the limit is at the end of a path without cycles of that length,
so the next location is on the path or too far. -/
theorem Explored.live_of_reachesWithin (hl : p.ReachesWithin n limit l)
    (hlimit : ∀ v k, Live r v k → k ≤ limit) : ∃ k, Live r l k := by
  induction hl with
  | refl => exact ⟨0, h.start⟩
  | @step l g _ hg hshort ih =>
    obtain ⟨k, id, hlive⟩ := ih
    have hk := hlimit l k ⟨id, hlive⟩
    by_cases hlt : k < limit
    · have hout : id ∉ r.queue := by
        rw [hempty]
        exact List.not_mem_nil
      obtain ⟨i, hi, -⟩ := h.closed id l k hlive hout hlt g hg
      exact ⟨i, hi⟩
    · obtain ⟨seen, htrail, hseen⟩ := h.trails l k ⟨id, hlive⟩
      by_cases hmem : g.target ∈ seen
      · exact hseen g.target hmem
      · have hlong := hshort (k + 1) _ (htrail.step hg hmem)
        omega

end

omit [Waitlist θ ν] [Waitlist.Listed θ ν] in
theorem run_initialState {w₁ : World (Unit × Counts)} {s : State ν}
    (hrun : ((budgeted p first limit : Analysis ν ρ (Unit × Counts)).initialState
      n part).run.run w = (.ok s, w₁)) :
    s = tracked first limit w.next n 0 ∧ w₁.next = w.next.next := by
  have hover : overrun limit 0 = none := overrun_eq_none.2 (Nat.zero_le limit)
  cases hn : p.contains n with
  | false =>
    have hinner : ((Location.analysis p first : Analysis ν ρ Unit).initialState n part).run.run
        (inside w) = (.error (.error (.unknownLocation n)), inside w) := by
      show (Action.ofExcept (Location.stateOf p first n)).run.run (inside w) = _
      unfold Location.stateOf
      rw [hn]
      rfl
    cases (run_bind_of_error (run_inside hinner)).symm.trans hrun
  | true =>
    have hinner : ((Location.analysis p first : Analysis ν ρ Unit).initialState n part).run.run
        (inside w) = (.ok (Location.spot first n), inside w) := by
      show (Action.ofExcept (Location.stateOf p first n)).run.run (inside w) = _
      rw [Location.stateOf_eq hn]
      rfl
    cases (run_bind_of_ok (run_inside hinner)).symm.trans hrun
    unfold tracked
    rw [hover]
    exact ⟨rfl, rfl⟩

omit [LeafValue ν] in
theorem tracked_empty {frontier : θ} (hempty : Frontier.size frontier = 0) (next : Handle) :
    Tracked first limit part next (.ofFrontier p frontier : ReachedSet ν ρ θ) ∧
      (.ofFrontier p frontier : ReachedSet ν ρ θ).queue = [] := by
  have hqueue : (.ofFrontier p frontier : ReachedSet ν ρ θ).queue = [] := queue_ofFrontier hempty p
  refine ⟨⟨sound_ofFrontier p frontier, fun id e he => ?_, fun id hid => ?_⟩, hqueue⟩
  · cases (Store.get?_empty id).symm.trans he
  · rw [hqueue] at hid
    cases hid

/-- The reached set at the start of a run has one entry, and its path has no edge. -/
theorem seed_tracked {frontier : θ} (hempty : Frontier.size frontier = 0)
    {w' : World (Unit × Counts)} {id : EntryId}
    (hseed : (exploration p first limit isTarget options token).seed n part w
      (.ofFrontier p frontier) = (.ok id, w', r)) :
    Tracked first limit part w'.next r ∧ (∀ shortest, Explored p limit n shortest r) ∧
      ∀ P, Waitlist.Fifo ν P → P frontier → Ordered P 0 r := by
  obtain ⟨s, q, w₁, hinitial, hprecision, hadd⟩ := Exploration.seed_eq_ok.1 hseed
  obtain ⟨rfl, hnext⟩ := run_initialState hinitial
  have ha : (.ofFrontier p frontier : ReachedSet ν ρ θ).add
      ⟨tracked first limit w.next n 0, q, n, part⟩ = .ok (id, r) := hadd
  have hnext' : w.next.serial < w'.next.serial := by
    cases hprecision
    show w.next.serial < w₁.next.serial + 1
    rw [hnext]
    show w.next.serial < w.next.serial + 1 + 1
    omega
  obtain ⟨hstart, hqueue⟩ : Tracked first limit part w'.next
      (.ofFrontier p frontier : ReachedSet ν ρ θ) ∧ _ := tracked_empty hempty w'.next
  have hnone : ∀ j l k, ¬LiveAt (.ofFrontier p frontier : ReachedSet ν ρ θ) j l k := by
    rintro j l k ⟨e, -, -, he, -⟩
    cases (Store.get?_empty j).symm.trans he
  have hid : id ∉ (.ofFrontier p frontier : ReachedSet ν ρ θ).queue := by
    rw [hqueue]
    exact List.not_mem_nil
  have hlive : ∀ j l k, LiveAt r j l k ↔ j = id ∧ l = n ∧ k = 0 := by
    intro j l k
    rw [liveAt_add ha]
    simp [hnone]
  have hself : Live r n 0 := ⟨id, (hlive id n 0).2 ⟨rfl, rfl, rfl⟩⟩
  refine ⟨hstart.add ha hnext', fun shortest => ⟨hself, ?_, ?_, fun _ => ⟨0, ?_⟩⟩, ?_⟩
  · rintro l k ⟨j, hj⟩
    obtain ⟨-, rfl, rfl⟩ := (hlive j l k).1 hj
    refine ⟨[l], .refl, fun v hv => ?_⟩
    rw [List.mem_singleton.1 hv]
    exact ⟨0, hself⟩
  · intro j l k hj hout
    obtain ⟨rfl, -⟩ := (hlive j l k).1 hj
    exact absurd ((queue_add ha hid).mem_iff.2 (by simp)) hout
  · intro j f hf
    rcases new_or_old_of_add ha hf with ⟨-, rfl⟩ | hold
    · exact ⟨Nat.zero_le 1, fun _ => Nat.le_refl 0⟩
    · cases (Store.get?_empty j).symm.trans hold
  · intro P hfifo hP
    have hfrontier : r.queue = [id] ∧ P r.frontier := by
      obtain ⟨-, -, rfl, rfl⟩ := add_eq_ok ha
      obtain ⟨hpush, hkeep⟩ := hfifo.push frontier _ n (tracked first limit w.next n 0) hP hid
      refine ⟨hpush.trans ?_, hkeep⟩
      have hwaiting : Waitlist.Listed.waiting ν frontier = [] := hqueue
      rw [hwaiting]
      rfl
    have hlength : lengthAt r id = 0 :=
      lengthAt_of_get? ((get?_add ha id).trans (if_pos rfl))
    refine ⟨hfrontier.2, ?_, ?_⟩
    · rw [hfrontier.1]
      exact List.pairwise_singleton _ _
    · intro j hj
      rw [hfrontier.1] at hj
      rw [List.mem_singleton.1 hj, hlength]
      omega

end

/-- What an exhausted run under a limit on the length of paths has kept. If entries with shortest
paths are taken first, as from a frontier that is first in, first out, then the locations with an
entry that is not exhausted are those that a path within the limit leads to. In any order, they
include the locations that are reached through locations to which no path without cycles is over the
limit. -/
theorem short_paths_kept [Waitlist θ ν] [Waitlist.Listed θ ν] (hp : p.Built) (first : Handle)
    (limit : Nat) (isTarget : State ν → Bool) (options : RunOptions) (token : TokenId) (n : NodeId)
    (part : Partition) (frontier : θ) (hempty : Frontier.size frontier = 0)
    {w w' : World (Unit × Counts)} {id : EntryId} {r : ReachedSet ν ρ θ}
    (hseed : (exploration p first limit isTarget options token).seed n part w
      (.ofFrontier p frontier) = (.ok id, w', r))
    {fuel : Nat} {m : Machine ν ρ (Unit × Counts) θ}
    (hrun : (exploration p first limit isTarget options token).run fuel ⟨⟨w', {}⟩, r, []⟩ =
      some (.ok .exhausted, m)) :
    (∀ P, Waitlist.Fifo ν P → P frontier →
      ShortestFirst (exploration p first limit isTarget options token) ⟨⟨w', {}⟩, r, []⟩) ∧
    (ShortestFirst (exploration p first limit isTarget options token) ⟨⟨w', {}⟩, r, []⟩ →
      ∀ l, (∃ k, Live m.reached l k) ↔ ∃ k, k ≤ limit ∧ p.ReachesIn n k l) ∧
    ∀ l, p.ReachesWithin n limit l → ∃ k, Live m.reached l k := by
  obtain ⟨htracked, hexplored, hordered⟩ := seed_tracked hempty hseed
  have hkept : ∀ shortest : Prop, (shortest →
      ShortestFirst (exploration p first limit isTarget options token) ⟨⟨w', {}⟩, r, []⟩) →
      Tracked first limit part m.meter.world.next m.reached ∧
        Explored p limit n shortest m.reached ∧ m.reached.queue = [] := by
    intro shortest hshortest
    refine run_grown hp.closed htracked (hexplored shortest) ?_ hrun
    intro m hvisits
    refine explored_kept fun hs id r₁ e hpop he j f hj hf => ?_
    exact hshortest hs m id r₁ e hvisits hpop he j f (isWaiting_iff_mem.2 hj) hf
  refine ⟨?_, ?_, ?_⟩
  · intro P hfifo hP m id r₁ e hvisits hpop he j f hj hf
    obtain ⟨b, hb⟩ : ∃ b, Ordered P b m.reached :=
      visits_grown hp.closed htracked ⟨0, hordered P hfifo hP⟩ (fun _ _ => ordered_kept hfifo)
        hvisits
    have hmin := (hb.pop hfifo hpop).1 j (isWaiting_iff_mem.1 hj)
    rw [lengthAt_of_get? he, lengthAt_of_get? hf] at hmin
    exact hmin
  · intro hshortest l
    obtain ⟨hm, hexplored, hqueue⟩ := hkept _ fun h => h
    constructor
    · rintro ⟨k, hk⟩
      obtain ⟨seen, htrail, -⟩ := hexplored.trails l k hk
      exact ⟨k, (hm.live_iff.1 hk).1, htrail.reachesIn⟩
    · rintro ⟨k, hk, hl⟩
      obtain ⟨i, -, hi⟩ := hexplored.live_of_reachesIn hqueue hshortest hl hk
      exact ⟨i, hi⟩
  · intro l hl
    obtain ⟨hm, hexplored, hqueue⟩ := hkept False False.elim
    exact hexplored.live_of_reachesWithin hqueue hl fun v k hk => (hm.live_iff.1 hk).1

/-! ## A short way and a long way -/

/-- Two ways lead from the entry to the location before the exit: one over location 2, one over
locations 3 and 4. -/
def twoWays : Program := .ofPairs 4 [(0, 2), (0, 3), (3, 4), (4, 5), (2, 5), (5, 1)]

theorem twoWays_built : twoWays.Built := .of_redraft rfl rfl rfl rfl

/-- The exploration of the two ways with paths of at most three edges. -/
def threeEdges : Exploration FactValue Level (Unit × Counts) :=
  exploration twoWays ⟨0⟩ 3 State.isTarget {} ⟨0⟩

def twoWaysWorld : World (Unit × Counts) := ⟨⟨6⟩, .empty, ⟨0⟩, ⟨0⟩, (), .zero⟩

def twoWaysReached (order : Order) : ReachedSet FactValue Level SimpleWaitlist :=
  .ofFrontier twoWays (.ofOrder order)

/-- The oldest first: all locations are kept, since three edges lead to each of them. -/
theorem twoWays_kept : twoWays.Built ∧ ∃ id w r m,
    threeEdges.seed ⟨0⟩ .whole twoWaysWorld (twoWaysReached .breadthFirst) = (.ok id, w, r) ∧
    threeEdges.run 10 ⟨⟨w, {}⟩, r, []⟩ = some (.ok .exhausted, m) ∧
    ShortestFirst threeEdges ⟨⟨w, {}⟩, r, []⟩ ∧
    (∀ l, (∃ k, Live m.reached l k) ↔ ∃ k, k ≤ 3 ∧ twoWays.ReachesIn ⟨0⟩ k l) ∧
    ∀ l, twoWays.ReachesWithin ⟨0⟩ 3 l → ∃ k, Live m.reached l k := by
  have hrun : (threeEdges.exploreTo .exhausted ⟨0⟩ 10 twoWaysWorld
      (twoWaysReached .breadthFirst)).isSome = true := by
    decide +kernel
  obtain ⟨m, hm⟩ := Option.isSome_iff_exists.1 hrun
  obtain ⟨id, w, r, hseed, hrun⟩ := Exploration.exploreTo_eq_some hm
  obtain ⟨hfifo, hshort, hwithin⟩ := short_paths_kept twoWays_built ⟨0⟩ 3 State.isTarget {} ⟨0⟩ ⟨0⟩
    .whole (.ofOrder .breadthFirst : SimpleWaitlist) rfl hseed hrun
  have hfirst := hfifo _ (SimpleWaitlist.fifo FactValue) rfl
  exact ⟨twoWays_built, id, w, r, m, hseed, hrun, hfirst, hshort hfirst, hwithin⟩

/-- The newest first: the long way comes first. It uses up the limit on the way to the exit, and it
covers the short way, which would not have done so. -/
theorem short_path_cut : ¬∀ (p : Program) (first : Handle) (limit : Nat) (token : TokenId)
    (n : NodeId) (part : Partition) (frontier : SimpleWaitlist) (w : World (Unit × Counts))
    (id : EntryId) (w' : World (Unit × Counts)) (r : ReachedSet FactValue Level SimpleWaitlist)
    (fuel : Nat) (m : Machine FactValue Level (Unit × Counts) SimpleWaitlist),
    p.Built → Frontier.size frontier = 0 →
    (exploration p first limit State.isTarget {} token).seed n part w (.ofFrontier p frontier) =
      (.ok id, w', r) →
    (exploration p first limit State.isTarget {} token).run fuel ⟨⟨w', {}⟩, r, []⟩ =
      some (.ok .exhausted, m) →
    ∀ k l, k ≤ limit → p.ReachesIn n k l → ∃ i, Live m.reached l i := by
  intro h
  have hrun : (threeEdges.exploreTo .exhausted ⟨0⟩ 10 twoWaysWorld
      (twoWaysReached .depthFirst)).any (fun m => m.reached.store.entries.all fun q =>
        decide (q.2.location ≠ ⟨1⟩) ||
          (q.2.state.asMonitored.toOption.bind Monitored.exhaustion).isSome) = true := by
    decide +kernel
  obtain ⟨m, hm, hcut⟩ := (Option.any_eq_true _ _).1 hrun
  obtain ⟨id, w, r, hseed, hrun⟩ := Exploration.exploreTo_eq_some hm
  have hway : twoWays.ReachesIn ⟨0⟩ 3 ⟨1⟩ := by
    have hfirst : twoWays.ReachesIn ⟨0⟩ 1 ⟨2⟩ :=
      .step (g := ⟨⟨0⟩, .statement, ⟨0⟩, ⟨2⟩, none⟩) .refl (by decide)
    have hsecond : twoWays.ReachesIn ⟨0⟩ 2 ⟨5⟩ :=
      .step (g := ⟨⟨4⟩, .statement, ⟨2⟩, ⟨5⟩, none⟩) hfirst (by decide)
    exact .step (g := ⟨⟨5⟩, .statement, ⟨5⟩, ⟨1⟩, none⟩) hsecond (by decide)
  obtain ⟨i, j, e, h', s, he, hl, hs⟩ := h twoWays ⟨0⟩ 3 ⟨0⟩ ⟨0⟩ .whole (.ofOrder .depthFirst)
    twoWaysWorld id w r 10 m twoWays_built rfl hseed hrun 3 ⟨1⟩ (Nat.le_refl 3) hway
  have hentry := List.all_eq_true.1 hcut (j, e) (Store.mem_entries.2 he)
  rw [hl, hs] at hentry
  simp [State.asMonitored, Except.toOption] at hentry

end Monitor

end ProgramAnalysis
