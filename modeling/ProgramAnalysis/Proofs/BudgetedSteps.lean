import ProgramAnalysis.Proofs.MonitorOperators
import ProgramAnalysis.Proofs.Reachability
import ProgramAnalysis.Proofs.Targets
/-!
The location analysis under a limit on the length of paths, one expansion at a time.

A location has an entry for a path within the limit and one for a path over it, at most. A state is
covered by any entry at its location that ran out of the budget like itself, however long the path
of that entry is. `Grown` says all that an expansion does to the reached set (`expand_grown`), so
that properties of runs can be shown without looking at the operators again.
-/

namespace ProgramAnalysis

namespace Monitor

variable {ν ρ θ : Type} [LeafValue ν] {p : Program} {first h : Handle} {limit k : Nat}
  {todo : Successors ν ρ} {l : NodeId} {a : Adjustment ν ρ} {ls : List NodeId}
  {e : Entry ν ρ} {rs : List (State ν)}

/-! ## Operators -/

/-- The only budget is that on the length of a path. -/
def Limits.ofLength (limit : Nat) : Limits := { pathLength := some limit }

/-- The budget is used up by a path of the given length. -/
def overrun (limit k : Nat) : Option Exhaustion :=
  if limit < k then some (.pathLength limit) else none

theorem overrun_eq_none : overrun limit k = none ↔ k ≤ limit := by
  unfold overrun
  split
  · simp only [reduceCtorEq, false_iff]
    omega
  · simp only [true_iff]
    omega

theorem overrun_eq_overrun {j : Nat} :
    overrun limit j = overrun limit k ↔ (j ≤ limit ↔ k ≤ limit) := by
  unfold overrun
  split <;> split <;> simp <;> omega

theorem exhaustion_ofLength (k : Nat) (pauses : Duration) :
    (Limits.ofLength limit).exhaustion k pauses = overrun limit k := by
  unfold Limits.exhaustion Limits.overlong Limits.overtime Limits.ofLength overrun
  simp

/-- The state of a location at the end of a path of the given length. -/
def tracked (first : Handle) (limit : Nat) (h : Handle) (l : NodeId) (k : Nat) : State ν :=
  .monitored h (Location.spot first l) k (overrun limit k)

/-- The location analysis under a limit on the length of paths. -/
def budgeted (p : Program) (first : Handle) (limit : Nat) : Analysis ν ρ (Unit × Counts) :=
  analysis (.ofLength limit) (Location.analysis p first)

theorem transfer_within (first h : Handle) {g : ProgramEdge} (q : Precision ρ) (hk : k ≤ limit)
    (hg : g ∈ p.leaving l) (ht : p.contains g.target = true) (w : World (Unit × Counts)) :
    ∃ w', ((budgeted p first limit).transfer.successors (tracked first limit h l k : State ν)
        [] q g).run.run w = (.ok [tracked first limit w.next g.target (k + 1)], w') ∧
      w'.next = w.next.next := by
  have hlive : overrun limit k = none := overrun_eq_none.2 hk
  have hinner : ((Location.analysis p first).transfer.successors (Location.spot first l : State ν)
      [] q g).run.run (inside w) = (.ok [Location.spot first g.target], inside w) :=
    Location.transfer_plain q hg ht (inside w)
  obtain ⟨c, hrun⟩ := transfer_of_ok (.ofLength limit) h k hinner
  rw [exhaustion_ofLength] at hrun
  unfold tracked
  rw [hlive]
  exact ⟨_, hrun, rfl⟩

theorem transfer_over {g : ProgramEdge} (q : Precision ρ) (hk : limit < k)
    (w : World (Unit × Counts)) :
    ((budgeted p first limit).transfer.successors (tracked first limit h l k : State ν)
        [] q g).run.run w = (.ok [], w) := by
  have hover : overrun limit k = some (.pathLength limit) := if_pos hk
  unfold tracked
  rw [hover]
  exact transfer_exhausted _

theorem adjust_tracked (h : Handle) (l : NodeId) (k : Nat) (q : Precision ρ)
    (around : Surroundings ν ρ) :
    ((budgeted p first limit).adjuster.adjust (tracked first limit h l k) q around).Plain
      (some (.unchanged (tracked first limit h l k) q)) := by
  intro w
  have hinner : ((Location.analysis p first).adjuster.adjust (Location.spot first l) q
      (unwrappedView around)).run.run (inside w) =
        (.ok (some (.unchanged (Location.spot first l) q)), inside w) :=
    Location.adjust_plain _ q _ (inside w)
  show ((adjuster (Location.analysis p first).adjuster).adjust _ q around).run.run w = _
  unfold tracked
  rw [adjust_monitored, run_bind_of_ok (run_action hinner)]
  show (Except.ok (some ((rewrap _ _ _).run _).1), ((rewrap _ _ _).run _).2) = _
  rw [run_rewrap_same rfl]
  rfl

/-- The states that are compared with one at the same location stand for that location, and there
are some if one of them ran out of the budget like it. -/
theorem comparable_tracked {x : Option Exhaustion}
    (hrs : ∀ r ∈ rs, ∃ h k, r = tracked first limit h l k) :
    ∃ inner, comparable x rs = .ok inner ∧ (∀ s ∈ inner, s = Location.spot first l) ∧
      (inner.isEmpty = false ↔ ∃ h k, tracked first limit h l k ∈ rs ∧ overrun limit k = x) := by
  refine ⟨_, comparable_eq x fun r hr => ?_, fun s hs => ?_, ?_⟩
  · obtain ⟨h, k, rfl⟩ := hrs r hr
    rfl
  · obtain ⟨r, hr, rfl⟩ := List.mem_map.1 hs
    obtain ⟨h, k, rfl⟩ := hrs r (List.mem_filter.1 hr).1
    rfl
  · rw [List.isEmpty_map, List.isEmpty_eq_false_iff_exists_mem]
    constructor
    · rintro ⟨r, hr⟩
      obtain ⟨hmem, hx⟩ := List.mem_filter.1 hr
      obtain ⟨h, k, rfl⟩ := hrs r hmem
      exact ⟨h, k, hmem, of_decide_eq_true hx⟩
    · rintro ⟨h, k, hmem, hx⟩
      exact ⟨_, List.mem_filter.2 ⟨hmem, decide_eq_true hx⟩⟩

theorem stop_tracked (q : Precision ρ) (hrs : ∀ r ∈ rs, ∃ h k, r = tracked first limit h l k) :
    ∃ b, ((budgeted p first limit).stopper.stop (tracked first limit h l k) rs q).Plain b ∧
      (b = true ↔ ∃ h' k', tracked first limit h' l k' ∈ rs ∧ (k' ≤ limit ↔ k ≤ limit)) := by
  obtain ⟨inner, hinner, hspot, hempty⟩ := comparable_tracked (x := overrun limit k) hrs
  refine ⟨!inner.isEmpty, fun w => ?_, ?_⟩
  · have hrun : ((Location.analysis p first).stopper.stop (Location.spot first l) inner q).run.run
        (inside w) = (.ok !inner.isEmpty, inside w) := Location.stop_plain q hspot (inside w)
    exact stop_of_run hinner hrun
  · rw [Bool.not_eq_true', hempty]
    simp only [overrun_eq_overrun]

/-! ## What an expansion does -/

/-- The length of the path of a state. -/
def pathLength : State ν → Nat
  | .monitored _ _ k _ => k
  | _ => 0

/-- The entry is at the location, with a path of the given length, and it is not exhausted. -/
def LiveAt (r : ReachedSet ν ρ θ) (id : EntryId) (l : NodeId) (k : Nat) : Prop :=
  ∃ e h s, r.get? id = some e ∧ e.location = l ∧ e.state = .monitored h s k none

/-- The location has an entry that is not exhausted, with a path of the given length. -/
def Live (r : ReachedSet ν ρ θ) (l : NodeId) (k : Nat) : Prop := ∃ id, LiveAt r id l k

/-- The states of the reached set are those of the budgeted analysis, and what waits is there. -/
structure Tracked [Waitlist θ ν] [Waitlist.Listed θ ν] (first : Handle) (limit : Nat)
    (part : Partition) (next : Handle) (r : ReachedSet ν ρ θ) : Prop where
  sound : r.Sound
  entry : ∀ id e, r.get? id = some e → e.partition = part ∧
    ∃ h k, e.state = tracked first limit h e.location k ∧ h.serial < next.serial
  waiting : ∀ id ∈ r.queue, ∃ e, r.get? id = some e

section

variable [Waitlist θ ν] [Waitlist.Listed θ ν]

/-- The states at some locations, with paths of length `k`, are admitted one after the other: each
of them is covered, or it is added. -/
inductive Grown (first : Handle) (limit : Nat) (part : Partition) (k : Nat) :
    List NodeId → ReachedSet ν ρ θ → ReachedSet ν ρ θ → Prop where
  | nil (r : ReachedSet ν ρ θ) : Grown first limit part k [] r r
  | skip {l ls r r'} :
    (k ≤ limit → ∃ j, Live r l j) → Grown first limit part k ls r r' →
    Grown first limit part k (l :: ls) r r'
  | add {l ls r r₁ r' id h q} : (k ≤ limit → ∀ j, ¬Live r l j) →
    r.add ⟨tracked first limit h l k, q, l, part⟩ = .ok (id, r₁) → id ∉ r.queue →
    Grown first limit part k ls r₁ r' → Grown first limit part k (l :: ls) r r'

variable {part : Partition} {next : Handle} {r r' : ReachedSet ν ρ θ}

namespace Tracked

variable (hr : Tracked first limit part next r)

include hr

omit [LeafValue ν] in
/-- A state is live as long as its path is within the limit. -/
theorem live_iff :
    Live r l k ↔ k ≤ limit ∧ ∃ h, tracked first limit h l k ∈ r.store.statesAt ⟨l, part⟩ := by
  constructor
  · rintro ⟨id, e, h, s, he, rfl, hs⟩
    obtain ⟨hpart, h', k', hstate, -⟩ := hr.entry id e he
    have hk := hs.symm.trans hstate
    unfold tracked at hk
    simp only [State.monitored.injEq] at hk
    obtain ⟨rfl, rfl, rfl, hover⟩ := hk
    refine ⟨overrun_eq_none.1 hover.symm, h, ?_⟩
    refine hr.sound.store.mem_statesAt.2 ⟨id, e, he, ?_, hstate⟩
    unfold Entry.place
    rw [hpart]
  · rintro ⟨hk, h, hmem⟩
    obtain ⟨id, e, he, hplace, hs⟩ := hr.sound.store.mem_statesAt.1 hmem
    refine ⟨id, e, h, Location.spot first l, he, congrArg Place.location hplace, ?_⟩
    rw [hs]
    unfold tracked
    rw [overrun_eq_none.2 hk]

theorem add {q : Precision ρ} {id : EntryId}
    (ha : r.add ⟨tracked first limit h l k, q, l, part⟩ = .ok (id, r'))
    (hh : h.serial < next.serial) : Tracked first limit part next r' where
  sound := hr.sound.add ha
  entry j f hf := by
    rcases ReachedSet.new_or_old_of_add ha hf with ⟨rfl, rfl⟩ | hf
    · exact ⟨rfl, h, k, rfl, hh⟩
    · exact hr.entry j f hf
  waiting j hj := by
    rw [ReachedSet.get?_add ha]
    split
    · exact ⟨_, rfl⟩
    · next hne =>
      refine hr.waiting j ?_
      rcases ReachedSet.queue_add ha with hq | hq
      · exact (List.mem_cons.1 (hq.mem_iff.1 hj)).resolve_left hne
      · rw [← hq]
        exact hj

omit [LeafValue ν] in
theorem later {next' : Handle}
    (hnext : next.serial ≤ next'.serial) : Tracked first limit part next' r := by
  refine { hr with entry := fun id e he => ?_ }
  obtain ⟨hpart, h, k, hstate, hlt⟩ := hr.entry id e he
  exact ⟨hpart, h, k, hstate, Nat.lt_of_lt_of_le hlt hnext⟩

end Tracked

/-- The locations after the edges, if a path of length `k` may go on. -/
def onward (limit k : Nat) (edges : List ProgramEdge) : List NodeId :=
  if k ≤ limit then edges.map ProgramEdge.target else []

/-- The states stand for the locations, with paths of length `k`, and their handles were drawn one
by one since `start`. -/
structure Drawn (first : Handle) (limit k : Nat) (start next : Handle) (ls : List NodeId)
    (raw : Batch ν) : Prop where
  locations : raw.map Prod.snd = ls
  state : ∀ q ∈ raw, ∃ h, q.1 = tracked first limit h q.2 k ∧
    start.serial ≤ h.serial ∧ h.serial < next.serial
  distinct : (raw.map fun q => q.1.handle).Nodup
  later : start.serial ≤ next.serial

omit [LeafValue ν] in
theorem Drawn.snoc {start : Handle} {raw : Batch ν}
    (h : Drawn first limit k start next ls raw) (l : NodeId) :
    Drawn first limit k start next.next (ls ++ [l])
      (raw ++ [(tracked first limit next l k, l)]) where
  locations := by
    rw [List.map_append, h.locations]
    rfl
  state q hq := by
    have hnext : next.serial < next.next.serial := Nat.lt_succ_self _
    rcases List.mem_append.1 hq with hq | hq
    · obtain ⟨h', hstate, hstart, hlt⟩ := h.state q hq
      exact ⟨h', hstate, hstart, Nat.lt_trans hlt hnext⟩
    · rw [List.mem_singleton.1 hq]
      exact ⟨next, rfl, h.later, hnext⟩
  distinct := by
    rw [List.map_append, List.nodup_append]
    refine ⟨h.distinct, List.nodup_singleton _, ?_⟩
    intro a ha b hb hab
    obtain ⟨q, hq, rfl⟩ := List.mem_map.1 ha
    obtain ⟨h', hstate, -, hlt⟩ := h.state q hq
    obtain rfl : b = next := List.mem_singleton.1 hb
    rw [hstate] at hab
    obtain rfl : h' = b := hab
    exact Nat.lt_irrefl _ hlt
  later := Nat.le_trans h.later (Nat.le_succ _)

variable {isTarget : State ν → Bool} {options : RunOptions} {token : TokenId}
  {w w' : World (Unit × Counts)} {r₀ : ReachedSet ν ρ θ}

/-- The exploration by the budgeted location analysis. -/
def exploration (p : Program) (first : Handle) (limit : Nat) (isTarget : State ν → Bool)
    (options : RunOptions) (token : TokenId) : Exploration ν ρ (Unit × Counts) where
  program := p
  analysis := budgeted p first limit
  isTarget := isTarget
  options := options
  token := token

omit [Waitlist θ ν] [Waitlist.Listed θ ν] in
theorem gathering_drawn (hclosed : p.Closed) (he : e.state = tracked first limit h e.location k)
    (start : Handle) :
    Exploration.Gathering (exploration p first limit isTarget options token) e
      (p.leaving e.location)
      (fun done raw w => Drawn first limit (k + 1) start w.next (onward limit k done) raw)
      (fun ending _ => Exploration.Inexhausted ending) where
  got done g rest raw w next w' hall hdrawn hrun := by
    have hg : g ∈ p.leaving e.location := by
      rw [hall]
      simp
    rw [Exploration.transfer, he] at hrun
    by_cases hk : k ≤ limit
    · obtain ⟨w₁, hrun₁, hnext⟩ := transfer_within (ν := ν) first h e.precision hk hg
        (hclosed e.location g hg) w
      cases hrun₁.symm.trans hrun
      unfold onward at hdrawn ⊢
      rw [if_pos hk] at hdrawn ⊢
      rw [hnext, List.map_append]
      exact hdrawn.snoc g.target
    · cases (transfer_over e.precision (Nat.lt_of_not_le hk) w).symm.trans hrun
      unfold onward at hdrawn ⊢
      rw [if_neg hk] at hdrawn ⊢
      rw [List.map_nil, List.append_nil]
      exact hdrawn
  dropped done g rest raw w err w' hall hdrawn hrun _ := by
    have hg : g ∈ p.leaving e.location := by
      rw [hall]
      simp
    rw [Exploration.transfer, he] at hrun
    by_cases hk : k ≤ limit
    · obtain ⟨w₁, hrun₁, -⟩ := transfer_within (ν := ν) first h e.precision hk hg
        (hclosed e.location g hg) w
      cases hrun₁.symm.trans hrun
    · cases (transfer_over e.precision (Nat.lt_of_not_le hk) w).symm.trans hrun
  refused _ _ _ _ _ err _ _ _ _ _ := Exploration.inexhausted_of_early (.ofError err)
  cancelled _ _ _ _ _ := by simp [Exploration.Inexhausted]
  crashed _ _ _ _ _ _ _ _ _ _ := by simp [Exploration.Inexhausted]

omit [Waitlist θ ν] [Waitlist.Listed θ ν] in
theorem successors_drawn (hclosed : p.Closed) (he : e.state = tracked first limit h e.location k)
    (store : Store ν ρ) (meter : Meter (Unit × Counts)) :
    Triple (fun m => m = meter)
      ((exploration p first limit isTarget options token).successors store e)
      (fun out m => Drawn first limit (k + 1) meter.world.next m.world.next
        (onward limit k (p.leaving e.location)) (out.map fun q => (q.1.state, q.2)))
      (fun ending _ => Exploration.Inexhausted ending) := by
  refine .weaken (Exploration.successors_unchanged (gathering_drawn hclosed he meter.world.next)
    fun raw w hraw q hq => ?_) ?_ (fun _ _ hm => hm.1) fun _ _ hending => hending
  · obtain ⟨h', hs, -⟩ := hraw.state q hq
    rw [hs]
    exact ⟨rfl, adjust_tracked h' q.2 (k + 1) e.precision _ w⟩
  · rintro m rfl
    refine ⟨?_, ?_, List.nodup_nil, Nat.le_refl _⟩
    · unfold onward
      split <;> rfl
    · intro q hq
      cases hq

/-- States that are to be admitted to the reached set: with paths of length `k`, and with handles
that are not in the set yet. -/
structure Pending (first : Handle) (limit k : Nat) (todo : Successors ν ρ)
    (next : Handle) (r : ReachedSet ν ρ θ) : Prop where
  state : ∀ q ∈ todo, ∃ h, q.1.state = tracked first limit h q.2 k ∧ h.serial < next.serial
  fresh : ∀ q ∈ todo, ∀ id e, r.get? id = some e → e.state.handle ≠ q.1.state.handle
  distinct : (todo.map fun q => q.1.state.handle).Nodup

omit [LeafValue ν] [Waitlist θ ν] [Waitlist.Listed θ ν] in
theorem Pending.tail {q : Adjustment ν ρ × NodeId} (h : Pending first limit k (q :: todo) next r) :
    Pending first limit k todo next r where
  state q' hq' := h.state q' (List.mem_cons_of_mem q hq')
  fresh q' hq' := h.fresh q' (List.mem_cons_of_mem q hq')
  distinct := (List.nodup_cons.1 h.distinct).2

omit [Waitlist.Listed θ ν] in
theorem Pending.add {id : EntryId} (h : Pending first limit k ((a, l) :: todo) next r)
    (ha : r.add ⟨a.state, a.precision, l, part⟩ = .ok (id, r')) :
    Pending first limit k todo next r' := by
  refine { h.tail with fresh := ?_ }
  intro q hq j f hf
  rcases ReachedSet.new_or_old_of_add ha hf with ⟨rfl, rfl⟩ | hf
  · intro hsame
    refine (List.nodup_cons.1 h.distinct).1 ?_
    exact List.mem_map.2 ⟨q, hq, hsame.symm⟩
  · exact h.tail.fresh q hq j f hf

/-- The successors `todo` are still to be admitted, of those at the locations `ls`. -/
def Admitting (first : Handle) (limit : Nat) (part : Partition) (k : Nat) (ls : List NodeId)
    (r₀ : ReachedSet ν ρ θ) (todo : Successors ν ρ) :
    View ν ρ (Unit × Counts) θ := fun w r _ =>
  Tracked first limit part w.next r ∧ Pending first limit k todo w.next r ∧
    ∀ r', Grown first limit part k (todo.map Prod.snd) r r' → Grown first limit part k ls r₀ r'

/-- What the coverage test answers about a state that is to be admitted. -/
theorem stop_pending {b : Bool} (hr : Tracked first limit part w.next r)
    (hpending : Pending first limit k ((a, l) :: todo) w.next r)
    (hrun : ((budgeted p first limit).stopper.stop a.state (r.store.statesAt ⟨l, part⟩)
      a.precision).run.run w = (.ok b, w')) :
    w' = w ∧ (k ≤ limit → (b = true ↔ ∃ j, Live r l j)) := by
  obtain ⟨h, hstate, -⟩ := hpending.state (a, l) (by simp)
  dsimp only at hstate
  have hrs : ∀ s ∈ r.store.statesAt ⟨l, part⟩, ∃ h k, s = tracked first limit h l k := by
    intro s hs
    obtain ⟨id, e, he, hplace, rfl⟩ := hr.sound.store.mem_statesAt.1 hs
    obtain ⟨-, h', k', hs', -⟩ := hr.entry id e he
    obtain rfl : e.location = l := congrArg Place.location hplace
    exact ⟨h', k', hs'⟩
  obtain ⟨b', hplain, hb'⟩ := stop_tracked (p := p) (h := h) (k := k) a.precision hrs
  rw [hstate] at hrun
  cases (hplain w).symm.trans hrun
  refine ⟨rfl, fun hk => hb'.trans ?_⟩
  constructor
  · rintro ⟨h', k', hmem, hk'⟩
    exact ⟨k', hr.live_iff.2 ⟨hk'.2 hk, h', hmem⟩⟩
  · rintro ⟨j, hj⟩
    obtain ⟨hjk, h', hmem⟩ := hr.live_iff.1 hj
    exact ⟨h', j, hmem, fun _ => hk, fun _ => hjk⟩

/-- A state that is not covered is added. -/
theorem Admitting.add {t t' : List (State ν)} {id : EntryId}
    (h : Admitting first limit part k ls r₀ ((a, l) :: todo) w r t)
    (hrun : ((budgeted p first limit).stopper.stop a.state (r.store.statesAt ⟨l, part⟩)
      a.precision).run.run w = (.ok false, w'))
    (ha : r.add ⟨a.state, a.precision, l, part⟩ = .ok (id, r')) :
    Admitting first limit part k ls r₀ todo w' r' t' := by
  obtain ⟨hr, hpending, hgrown⟩ := h
  obtain ⟨rfl, hb⟩ := stop_pending hr hpending hrun
  obtain ⟨h', hstate, hlt⟩ := hpending.state (a, l) (by simp)
  dsimp only at hstate
  have ha' := ha
  rw [hstate] at ha'
  refine ⟨hr.add ha' hlt, hpending.add ha, fun r'' hr'' => hgrown r'' (.add ?_ ha' ?_ hr'')⟩
  · intro hk j hj
    cases (hb hk).2 ⟨j, hj⟩
  · intro hid
    obtain ⟨e, he⟩ := hr.waiting id hid
    rw [ReachedSet.get?_of_add ha] at he
    cases he

theorem admission_grown :
    Exploration.Admission (exploration p first limit isTarget options token) part
      (Admitting first limit part k ls r₀)
      (fun ending _ _ _ => Exploration.Inexhausted ending) where
  merging _ _ _ hsep := by cases (show true = false from hsep)
  covered a l todo w r t w' h hrun := by
    obtain ⟨hr, hpending, hgrown⟩ := h
    obtain ⟨rfl, hb⟩ := stop_pending hr hpending hrun
    refine ⟨hr, hpending.tail, fun r' hr' => hgrown r' (.skip ?_ hr')⟩
    exact fun hk => (hb hk).1 rfl
  known a l todo w r t w' h hrun hknown := by
    obtain ⟨hr, hpending, -⟩ := h
    obtain ⟨id, e, he, hhandle⟩ := hr.sound.store.contains_iff.1 hknown
    exact absurd hhandle (hpending.fresh (a, l) (by simp) id e he)
  added a l todo w r t w' id r' h hrun ha _ := h.add hrun ha
  found a l todo w r t w' id r' h hrun ha _ :=
    ⟨h.add hrun ha, by simp [Exploration.Inexhausted]⟩
  refused _ _ _ _ _ _ _ _ _ _ _ := by simp [Exploration.Inexhausted]
  failed _ _ _ _ _ _ _ _ _ _ := by simp [Exploration.Inexhausted]
  crashed _ _ _ _ _ _ _ _ _ _ := by simp [Exploration.Inexhausted]

/-- An expansion that comes to its end has admitted the successors of the entry. -/
theorem expand_grown (hclosed : p.Closed) {m₀ : Machine ν ρ (Unit × Counts) θ}
    (hm₀ : Tracked first limit part m₀.meter.world.next m₀.reached) {id : EntryId}
    (he : m₀.reached.get? id = some e) (hstate : e.state = tracked first limit h e.location k) :
    Triple (fun m => m = m₀) ((exploration p first limit isTarget options token).expand id)
      (fun _ m => Tracked first limit part m.meter.world.next m.reached ∧
        Grown first limit part (k + 1) (onward limit k (p.leaving e.location)) m₀.reached
          m.reached)
      (fun ending _ => Exploration.Inexhausted ending) := by
  obtain ⟨rfl, -⟩ := hm₀.entry id e he
  refine .post (Exploration.expand_triple he
    (P := Admitting first limit e.partition (k + 1) (onward limit k (p.leaving e.location))
      m₀.reached) ?_ admission_grown) fun _ m hm => ⟨hm.1, hm.2.2 _ (.nil _)⟩
  refine .post (successors_drawn hclosed hstate m₀.reached.store m₀.meter) ?_
  intro out m hout
  have hlocations : out.map Prod.snd = onward limit k (p.leaving e.location) := by
    rw [← hout.locations, List.map_map]
    rfl
  refine ⟨hm₀.later hout.later, ⟨?_, ?_, ?_⟩, ?_⟩
  · intro q hq
    obtain ⟨h', hs, -, hlt⟩ := hout.state (q.1.state, q.2) (List.mem_map.2 ⟨q, hq, rfl⟩)
    exact ⟨h', hs, hlt⟩
  · -- The handles of the successors are newer than all that are in the set.
    intro q hq j f hf hsame
    obtain ⟨h', hs, hstart, -⟩ := hout.state (q.1.state, q.2) (List.mem_map.2 ⟨q, hq, rfl⟩)
    obtain ⟨-, i, _, hi, hlt⟩ := hm₀.entry j f hf
    dsimp only at hs
    rw [hs, hi] at hsame
    obtain rfl : i = h' := hsame
    omega
  · have hdistinct := hout.distinct
    rw [List.map_map] at hdistinct
    exact hdistinct
  · intro r' hr'
    rw [← hlocations]
    exact hr'

end

end Monitor

end ProgramAnalysis
