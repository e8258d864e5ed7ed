import ProgramAnalysis.Proofs.ReachedSet
import ProgramAnalysis.Session.Frontier
/-!
What waits, written down as a list.

The order of the list says nothing about the policy. A push puts an entry in unless it is there, a
removal takes it out, and a pop takes out one entry as long as there is one (`Waitlist.Listed`).
Both policies of the library are of this kind. Such a frontier is exact and faithful, and faithful
is also every frontier that a session can choose. The size of a listed frontier is a measure that
every pop makes smaller, which is what proofs that a run ends are built on.
-/

namespace ProgramAnalysis

/-! ## Listed frontiers -/

/-- The entries that wait are those of a list, and each operation does to it what it says. -/
class Waitlist.Listed (θ ν : Type) [Waitlist θ ν] where
  waiting : θ → List EntryId
  contains_iff : ∀ (w : θ) (id : EntryId), Frontier.contains w id = true ↔ id ∈ waiting w
  size_eq : ∀ w : θ, Frontier.size w = (waiting w).length
  push_known : ∀ (w : θ) (id : EntryId) (n : NodeId) (s : State ν),
    id ∈ waiting w → waiting (Waitlist.push w id n s) = waiting w
  push_new : ∀ (w : θ) (id : EntryId) (n : NodeId) (s : State ν),
    id ∉ waiting w → (waiting (Waitlist.push w id n s)).Perm (id :: waiting w)
  pop_none : ∀ w : θ, (Frontier.pop w).1 = none → waiting w = []
  pop_some : ∀ (w : θ) (id : EntryId), (Frontier.pop w).1 = some id →
    (waiting w).Perm (id :: waiting (Frontier.pop w).2)
  remove_eq : ∀ (w : θ) (id : EntryId),
    waiting (Frontier.remove w id).2 = (waiting w).filter fun x => x ≠ id

theorem SimpleWaitlist.contains_iff {w : SimpleWaitlist} {id : EntryId} :
    w.contains id = true ↔ id ∈ w.queue := by
  simp [SimpleWaitlist.contains]

instance {ν : Type} : Waitlist.Listed SimpleWaitlist ν where
  waiting w := w.queue
  contains_iff w id := SimpleWaitlist.contains_iff
  size_eq w := rfl
  push_known w id n s h := by
    show (w.push id).queue = w.queue
    unfold SimpleWaitlist.push
    rw [if_pos (SimpleWaitlist.contains_iff.2 h)]
  push_new w id n s h := by
    show (w.push id).queue.Perm (id :: w.queue)
    unfold SimpleWaitlist.push
    rw [if_neg (mt SimpleWaitlist.contains_iff.1 h)]
    exact List.perm_append_singleton id w.queue
  pop_none w h := by
    have h : w.next? = none := h
    unfold SimpleWaitlist.next? at h
    cases horder : w.order with
    | depthFirst => simpa [horder] using h
    | breadthFirst => simpa [horder] using h
  pop_some w id h := by
    have h : w.next? = some id := h
    show w.queue.Perm (id :: w.pop.2.queue)
    unfold SimpleWaitlist.next? at h
    unfold SimpleWaitlist.pop
    cases horder : w.order with
    | depthFirst =>
      rw [horder] at h
      obtain ⟨rest, hqueue⟩ := List.getLast?_eq_some_iff.1 h
      rw [hqueue, List.dropLast_concat]
      exact List.perm_append_singleton id rest
    | breadthFirst =>
      rw [horder] at h
      obtain ⟨rest, hqueue⟩ := List.head?_eq_some_iff.1 h
      rw [hqueue, List.tail_cons]
  remove_eq w id := rfl

theorem KeyedWaitlist.contains_iff {ν : Type} {w : KeyedWaitlist ν} {id : EntryId} :
    w.contains id = true ↔ ∃ t ∈ w.tickets, t.id = id := by
  simp [KeyedWaitlist.contains]

theorem KeyedWaitlist.place_perm (order : Order) (t : Ticket) (l : List Ticket) :
    (place order t l).Perm (t :: l) := by
  induction l with
  | nil => exact .refl _
  | cons u l ih =>
    unfold place
    split
    · exact .refl _
    · exact (ih.cons u).trans (.swap t u l)

theorem KeyedWaitlist.mem_place {order : Order} {t u : Ticket} {l : List Ticket} :
    u ∈ place order t l ↔ u = t ∨ u ∈ l :=
  (place_perm order t l).mem_iff.trans List.mem_cons

instance {ν : Type} : Waitlist.Listed (KeyedWaitlist ν) ν where
  waiting w := w.tickets.map Ticket.id
  contains_iff w id := by
    rw [List.mem_map]
    exact KeyedWaitlist.contains_iff
  size_eq w := (List.length_map Ticket.id).symm
  push_known w id n s h := by
    show (w.push id n s).tickets.map Ticket.id = _
    unfold KeyedWaitlist.push
    rw [if_pos (KeyedWaitlist.contains_iff.2 (List.mem_map.1 h))]
  push_new w id n s h := by
    show ((w.push id n s).tickets.map Ticket.id).Perm _
    unfold KeyedWaitlist.push
    rw [if_neg fun hc => h (List.mem_map.2 (KeyedWaitlist.contains_iff.1 hc))]
    exact (KeyedWaitlist.place_perm w.order ⟨id, w.key n s, w.pushes + 1⟩ w.tickets).map Ticket.id
  pop_none w h := by
    have h : w.tickets.head?.map Ticket.id = none := h
    cases htickets : w.tickets with
    | nil => rfl
    | cons t l => simp [htickets] at h
  pop_some w id h := by
    have h : w.tickets.head?.map Ticket.id = some id := h
    show (w.tickets.map Ticket.id).Perm (id :: w.tickets.tail.map Ticket.id)
    cases htickets : w.tickets with
    | nil => simp [htickets] at h
    | cons t l =>
      have hid : t.id = id := by simpa [htickets] using h
      rw [List.map_cons, hid, List.tail_cons]
  remove_eq w id := by
    show (w.tickets.filter fun t => t.id ≠ id).map Ticket.id = _
    rw [List.filter_map]
    rfl

namespace Waitlist.Listed

variable {θ ν : Type} [Waitlist θ ν] [Waitlist.Listed θ ν]

theorem mem_push {w : θ} {id i : EntryId} {n : NodeId} {s : State ν} :
    i ∈ waiting ν (Waitlist.push w id n s) ↔ i = id ∨ i ∈ waiting ν w := by
  by_cases hmem : id ∈ waiting ν w
  · rw [push_known w id n s hmem]
    constructor
    · exact .inr
    · rintro (rfl | hi)
      · exact hmem
      · exact hi
  · rw [(push_new w id n s hmem).mem_iff, List.mem_cons]

instance : Waitlist.Exact θ ν where
  contains_push w id i n s := by rw [contains_iff (ν := ν), contains_iff (ν := ν), mem_push]
  contains_remove w id i := by
    rw [contains_iff (ν := ν), contains_iff (ν := ν), remove_eq, List.mem_filter, decide_eq_true_eq,
      and_comm]

instance : Waitlist.Faithful θ ν where
  push_self w id n s := (Waitlist.Exact.contains_push w id id n s).2 (.inl rfl)
  push_other w id i n s h := (Waitlist.Exact.contains_push w id i n s).2 (.inr h)
  pop_other w i h := by
    rw [contains_iff (ν := ν)] at h ⊢
    cases hpop : (Frontier.pop w).1 with
    | none =>
      rw [pop_none w hpop] at h
      cases h
    | some id =>
      rw [(pop_some w id hpop).mem_iff, List.mem_cons] at h
      exact h.imp_left fun hi => congrArg some hi.symm
  remove_other w id i h hi := (Waitlist.Exact.contains_remove (ν := ν) w id i).2 ⟨hi, h⟩

end Waitlist.Listed

instance {ν : Type} : Waitlist.Faithful (AnyFrontier ν) ν where
  push_self w id n s := by
    cases w with
    | simple l => exact Waitlist.Faithful.push_self l id n s
    | sticky l => exact Waitlist.Faithful.push_self l id n s
    | keyed l => exact Waitlist.Faithful.push_self l id n s
  push_other w id i n s h := by
    cases w with
    | simple l => exact Waitlist.Faithful.push_other l id i n s h
    | sticky l => exact Waitlist.Faithful.push_other l id i n s h
    | keyed l => exact Waitlist.Faithful.push_other l id i n s h
  pop_other w i h := by
    cases w with
    | simple l => exact @Waitlist.Faithful.pop_other SimpleWaitlist ν _ _ l i h
    | sticky l => exact @Waitlist.Faithful.pop_other SimpleWaitlist ν _ _ l i h
    | keyed l => exact @Waitlist.Faithful.pop_other (KeyedWaitlist ν) ν _ _ l i h
  remove_other w id i h hi := by
    cases w with
    | simple l => exact @Waitlist.Faithful.remove_other SimpleWaitlist ν _ _ l id i h hi
    | sticky l => exact h
    | keyed l => exact @Waitlist.Faithful.remove_other (KeyedWaitlist ν) ν _ _ l id i h hi

/-! ## Reached sets -/

namespace ReachedSet

variable {ν ρ θ : Type} [Waitlist θ ν] [Waitlist.Listed θ ν] {r r' : ReachedSet ν ρ θ}
  {id : EntryId}

/-- The entries that wait. -/
def queue (r : ReachedSet ν ρ θ) : List EntryId := Waitlist.Listed.waiting ν r.frontier

theorem isWaiting_iff_mem : r.isWaiting id = true ↔ id ∈ r.queue :=
  Waitlist.Listed.contains_iff r.frontier id

theorem waiting_eq_length (r : ReachedSet ν ρ θ) : r.waiting = r.queue.length :=
  Waitlist.Listed.size_eq r.frontier

theorem queue_ofFrontier {frontier : θ} (h : Frontier.size frontier = 0) (p : Program) :
    (ofFrontier p frontier : ReachedSet ν ρ θ).queue = [] :=
  List.length_eq_zero_iff.1 ((waiting_eq_length (ofFrontier p frontier)).symm.trans h)

theorem hasWaiting_eq_false : r.hasWaiting = false ↔ r.queue = [] := by
  simp [hasWaiting, waiting_eq_length]

theorem not_isWaiting (h : r.hasWaiting = false) (id : EntryId) : r.isWaiting id = false := by
  refine Bool.eq_false_iff.2 fun hw => ?_
  have hmem := isWaiting_iff_mem.1 hw
  rw [hasWaiting_eq_false.1 h] at hmem
  cases hmem

/-- Only an empty frontier has nothing to pop. -/
theorem pop_ne_none (h : r.hasWaiting = true) : r.pop ≠ (none, r') := by
  intro hpop
  have hempty : r.queue = [] := Waitlist.Listed.pop_none r.frontier (congrArg Prod.fst hpop)
  rw [hasWaiting_eq_false.2 hempty] at h
  cases h

theorem queue_pop (h : r.pop = (some id, r')) : r.queue.Perm (id :: r'.queue) := by
  have hr' : r' = r.pop.2 := by rw [h]
  rw [hr']
  exact Waitlist.Listed.pop_some r.frontier id (congrArg Prod.fst h)

theorem waiting_pop (h : r.pop = (some id, r')) : r.waiting = r'.waiting + 1 := by
  rw [waiting_eq_length, waiting_eq_length, (queue_pop h).length_eq, List.length_cons]

theorem queue_add [LeafValue ν] {e : Entry ν ρ} (h : r.add e = .ok (id, r')) :
    r'.queue.Perm (id :: r.queue) ∨ r'.queue = r.queue := by
  obtain ⟨-, -, rfl, rfl⟩ := add_eq_ok h
  by_cases hmem : r.store.nextId ∈ r.queue
  · exact .inr (Waitlist.Listed.push_known r.frontier _ e.location e.state hmem)
  · exact .inl (Waitlist.Listed.push_new r.frontier _ e.location e.state hmem)

theorem queue_remove (r : ReachedSet ν ρ θ) (id : EntryId) :
    (r.remove id).2.queue.Sublist r.queue := by
  unfold remove
  split
  · exact .refl _
  · show (Waitlist.Listed.waiting ν (Frontier.remove r.frontier id).2).Sublist r.queue
    rw [Waitlist.Listed.remove_eq]
    exact List.filter_sublist

end ReachedSet

end ProgramAnalysis
