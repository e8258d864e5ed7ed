import ProgramAnalysis.Proofs.Store
import ProgramAnalysis.Reached.Basic
/-!
Reached sets and their frontiers.

`Made` are the reached sets that the operations can produce, and `Sound` is what all of them share:
the indices of the store agree with its entries, and every entry is at a location of the program.

Of a frontier the exploration only needs that nothing which waits gets lost (`Waitlist.Faithful`).
If it is also exact (`Waitlist.Exact`), a removed entry does not wait any more.
-/

namespace ProgramAnalysis

/-! ## Frontiers that lose nothing -/

/-- An entry that was pushed waits until it is popped or removed. -/
class Waitlist.Faithful (θ ν : Type) [Waitlist θ ν] : Prop where
  push_self : ∀ (w : θ) (id : EntryId) (n : NodeId) (s : State ν),
    Frontier.contains (Waitlist.push w id n s) id = true
  push_other : ∀ (w : θ) (id i : EntryId) (n : NodeId) (s : State ν),
    Frontier.contains w i = true → Frontier.contains (Waitlist.push w id n s) i = true
  pop_other : ∀ (w : θ) (i : EntryId), Frontier.contains w i = true →
    (Frontier.pop w).1 = some i ∨ Frontier.contains (Frontier.pop w).2 i = true
  remove_other : ∀ (w : θ) (id i : EntryId), Frontier.contains w i = true → i ≠ id →
    Frontier.contains (Frontier.remove w id).2 i = true

/-! ## Exact frontiers -/

/-- What waits after a push and after a removal is what the caller expects. -/
class Waitlist.Exact (θ ν : Type) [Waitlist θ ν] : Prop where
  contains_push : ∀ (w : θ) (id i : EntryId) (n : NodeId) (s : State ν),
    Frontier.contains (Waitlist.push w id n s) i = true ↔ i = id ∨ Frontier.contains w i = true
  contains_remove : ∀ (w : θ) (id i : EntryId),
    Frontier.contains (Frontier.remove w id).2 i = true ↔ i ≠ id ∧ Frontier.contains w i = true

namespace ReachedSet

variable {ν ρ θ : Type} {r r' : ReachedSet ν ρ θ} {e : Entry ν ρ} {j : EntryId}

/-! ## What the operations do -/

/-- Without the entry the set is left as it is, and otherwise the precision is replaced. -/
theorem setPrecision_cases (r : ReachedSet ν ρ θ) (id : EntryId) (p : Precision ρ) :
    r.get? id = none ∧ (∃ err, r.setPrecision id p = (.error err, r)) ∨
      (∃ e, r.get? id = some e) ∧
        r.setPrecision id p = (.ok (), { r with store := r.store.setPrecision id p }) := by
  unfold setPrecision
  cases hid : r.get? id with
  | none => exact .inl ⟨rfl, _, rfl⟩
  | some e => exact .inr ⟨⟨e, rfl⟩, rfl⟩

theorem updatePrecision_eq_ok {id : EntryId} {p : Precision ρ}
    (h : r.updatePrecision id p = .ok r') :
    (∃ e, r.get? id = some e) ∧ r' = { r with store := r.store.setPrecision id p } := by
  unfold updatePrecision at h
  rcases r.setPrecision_cases id p with ⟨-, err, hset⟩ | ⟨hid, hset⟩ <;> rw [hset] at h <;> cases h
  exact ⟨hid, rfl⟩

section Frontier

variable [Frontier θ]

@[simp] theorem remove_store (r : ReachedSet ν ρ θ) (id : EntryId) :
    (r.remove id).2.store = r.store.erase id := by
  unfold remove
  cases h : r.get? id with
  | none =>
    have h : r.store.get? id = none := h
    simp [Store.erase, h]
  | some e => rfl

@[simp] theorem remove_program (r : ReachedSet ν ρ θ) (id : EntryId) :
    (r.remove id).2.program = r.program := by
  unfold remove
  split <;> rfl

theorem get?_remove (r : ReachedSet ν ρ θ) (id j : EntryId) :
    (r.remove id).2.get? j = if j = id then none else r.get? j := by
  show (r.remove id).2.store.get? j = _
  rw [remove_store, Store.get?_erase]
  rfl

theorem get?_remove_eq_some {id : EntryId} :
    (r.remove id).2.get? j = some e ↔ j ≠ id ∧ r.get? j = some e := by
  rw [get?_remove]
  split
  · next hj => simp [hj]
  · next hj => simp [hj]

theorem remove_eq_self {id : EntryId} (h : r.get? id = none) : (r.remove id).2 = r := by
  unfold remove
  rw [h]

theorem removeAll_append (r : ReachedSet ν ρ θ) (ids : List EntryId) (id : EntryId) :
    r.removeAll (ids ++ [id]) = ((r.removeAll ids).remove id).2 :=
  List.foldl_append

theorem get?_removeAll (r : ReachedSet ν ρ θ) (ids : List EntryId) (j : EntryId) :
    (r.removeAll ids).get? j = if j ∈ ids then none else r.get? j := by
  induction ids generalizing r with
  | nil => simp [removeAll]
  | cons id ids ih =>
    show ((r.remove id).2.removeAll ids).get? j = _
    rw [ih, get?_remove]
    by_cases hj : j = id <;> by_cases hm : j ∈ ids <;> simp [hj, hm]

theorem removeAll_program (r : ReachedSet ν ρ θ) (ids : List EntryId) :
    (r.removeAll ids).program = r.program := by
  induction ids generalizing r with
  | nil => rfl
  | cons id ids ih => exact (ih (r.remove id).2).trans (remove_program r id)

theorem counted_remove (h : r.store.Counted) (id : EntryId) : (r.remove id).2.store.Counted := by
  rw [remove_store]
  exact h.erase id

theorem counted_removeAll (h : r.store.Counted) (ids : List EntryId) :
    (r.removeAll ids).store.Counted := by
  induction ids generalizing r with
  | nil => exact h
  | cons id ids ih => exact ih (counted_remove h id)

end Frontier

section Waitlist

variable [Waitlist θ ν]

@[simp] theorem reschedule_store (r : ReachedSet ν ρ θ) (id : EntryId) :
    (r.reschedule id).store = r.store := by
  unfold reschedule
  split <;> rfl

@[simp] theorem reschedule_program (r : ReachedSet ν ρ θ) (id : EntryId) :
    (r.reschedule id).program = r.program := by
  unfold reschedule
  split <;> rfl

theorem get?_reschedule (r : ReachedSet ν ρ θ) (id j : EntryId) :
    (r.reschedule id).get? j = r.get? j := by
  show (r.reschedule id).store.get? j = _
  rw [reschedule_store]
  rfl

/-- The set with an entry added and scheduled, whatever the tests say. -/
def grown (r : ReachedSet ν ρ θ) (e : Entry ν ρ) : ReachedSet ν ρ θ :=
  { r with
    store := r.store.insert e
    frontier := Waitlist.push r.frontier r.store.nextId e.location e.state }

/-- An entry is refused and the set left as it is, or both tests succeed and the set grows. -/
theorem offer_cases [LeafValue ν] (r : ReachedSet ν ρ θ) (e : Entry ν ρ) :
    (r.program.contains e.location = false ∨ r.store.contains e.state = true) ∧
        (∃ err, r.offer e = (.error err, r)) ∨
      (r.program.contains e.location = true ∧ r.store.contains e.state = false) ∧
        r.offer e = (.ok r.store.nextId, r.grown e) := by
  unfold offer
  split
  · next hl => exact .inl ⟨.inl (by simpa using hl), _, rfl⟩
  · split
    · next hc => exact .inl ⟨.inr hc, _, rfl⟩
    · next hl hc => exact .inr ⟨⟨by simpa using hl, by simpa using hc⟩, rfl⟩

/-- What a successful addition has tested, and what it gives. -/
theorem add_eq_ok [LeafValue ν] {id : EntryId} (h : r.add e = .ok (id, r')) :
    r.program.contains e.location = true ∧ r.store.contains e.state = false ∧
      id = r.store.nextId ∧ r' = r.grown e := by
  unfold add at h
  rcases r.offer_cases e with ⟨-, err, hoffer⟩ | ⟨⟨hl, hc⟩, hoffer⟩ <;> rw [hoffer] at h <;> cases h
  exact ⟨hl, hc, rfl, rfl⟩

/-- An addition succeeds when both tests do. -/
theorem exists_add [LeafValue ν] (hl : r.program.contains e.location = true)
    (hc : r.store.contains e.state = false) : ∃ r', r.add e = .ok (r.store.nextId, r') := by
  simp [add, offer, hl, hc, Except.map]

theorem get?_add [LeafValue ν] {id : EntryId} (h : r.add e = .ok (id, r')) (j : EntryId) :
    r'.get? j = if j = id then some e else r.get? j := by
  obtain ⟨-, -, rfl, rfl⟩ := add_eq_ok h
  exact Store.get?_insert r.store e j

theorem counted_add [LeafValue ν] {id : EntryId} (hc : r.store.Counted)
    (h : r.add e = .ok (id, r')) : r'.store.Counted := by
  obtain ⟨-, -, -, rfl⟩ := add_eq_ok h
  exact hc.insert e

theorem get?_of_add [LeafValue ν] {id : EntryId} (h : r.add e = .ok (id, r')) :
    r.get? id = none := by
  obtain ⟨-, -, rfl, -⟩ := add_eq_ok h
  exact Store.get?_nextId r.store

/-- An entry is the one that was added, or was there before. -/
theorem new_or_old_of_add [LeafValue ν] {f : Entry ν ρ} {id : EntryId} (h : r.add e = .ok (id, r'))
    (hf : r'.get? j = some f) : j = id ∧ f = e ∨ r.get? j = some f := by
  rw [get?_add h] at hf
  split at hf
  · next hj => exact .inl ⟨hj, (Option.some.inj hf).symm⟩
  · exact .inr hf

/-- An addition leaves the other entries. -/
theorem get?_add_of_some [LeafValue ν] {id : EntryId} (h : r.add e = .ok (id, r')) (j : EntryId)
    (f : Entry ν ρ) (hf : r.get? j = some f) : r'.get? j = some f := by
  have hne : j ≠ id := by
    rintro rfl
    rw [get?_of_add h] at hf
    cases hf
  rw [get?_add h, if_neg hne]
  exact hf

end Waitlist

/-! ## What keeps waiting -/

section Faithful

variable [Waitlist θ ν] [Waitlist.Faithful θ ν]

theorem isWaiting_of_add [LeafValue ν] {id : EntryId} (h : r.add e = .ok (id, r')) :
    r'.isWaiting id = true := by
  obtain ⟨-, -, rfl, rfl⟩ := add_eq_ok h
  exact Waitlist.Faithful.push_self r.frontier r.store.nextId e.location e.state

theorem isWaiting_add [LeafValue ν] {id : EntryId} (h : r.add e = .ok (id, r'))
    (hj : r.isWaiting j = true) : r'.isWaiting j = true := by
  obtain ⟨-, -, rfl, rfl⟩ := add_eq_ok h
  exact Waitlist.Faithful.push_other r.frontier r.store.nextId j e.location e.state hj

theorem isWaiting_remove {id : EntryId} (hj : r.isWaiting j = true) (hne : j ≠ id) :
    (r.remove id).2.isWaiting j = true := by
  unfold remove
  split
  · exact hj
  · exact @Waitlist.Faithful.remove_other θ ν _ _ r.frontier id j hj hne

theorem isWaiting_reschedule_self {id : EntryId} (h : r.get? id = some e) :
    (r.reschedule id).isWaiting id = true := by
  unfold reschedule
  rw [h]
  exact Waitlist.Faithful.push_self r.frontier id e.location e.state

theorem isWaiting_reschedule (id : EntryId) (hj : r.isWaiting j = true) :
    (r.reschedule id).isWaiting j = true := by
  unfold reschedule
  split
  · next e _ => exact Waitlist.Faithful.push_other r.frontier id j e.location e.state hj
  · exact hj

theorem isWaiting_pop (hj : r.isWaiting j = true) : r.pop.1 = some j ∨ r.pop.2.isWaiting j = true :=
  @Waitlist.Faithful.pop_other θ ν _ _ r.frontier j hj

end Faithful

section Exact

variable [Waitlist θ ν] [Waitlist.Exact θ ν]

theorem isWaiting_reschedule_iff {id : EntryId} (h : r.get? id = some e) :
    (r.reschedule id).isWaiting j = true ↔ j = id ∨ r.isWaiting j = true := by
  unfold reschedule
  rw [h]
  exact Waitlist.Exact.contains_push r.frontier id j e.location e.state

theorem isWaiting_remove_iff {id : EntryId} :
    (r.remove id).2.isWaiting j = true ↔ r.isWaiting j = true ∧ (j ≠ id ∨ r.get? id = none) := by
  unfold remove
  cases h : r.get? id with
  | none => simp
  | some e =>
    show Frontier.contains (Frontier.remove r.frontier id).2 j = true ↔ _
    rw [@Waitlist.Exact.contains_remove θ ν]
    simp [isWaiting, and_comm]

end Exact

/-- Only entries of the set wait. -/
def Scheduled [Frontier θ] (r : ReachedSet ν ρ θ) : Prop :=
  ∀ k, r.isWaiting k = true → ∃ e, r.get? k = some e

theorem isWaiting_removeAll_iff [Waitlist θ ν] [Waitlist.Exact θ ν] (h : r.Scheduled)
    (ids : List EntryId) :
    (r.removeAll ids).isWaiting j = true ↔ r.isWaiting j = true ∧ j ∉ ids := by
  induction ids generalizing r with
  | nil => simp [removeAll]
  | cons id ids ih =>
    have hremove : ∀ {k}, (r.remove id).2.isWaiting k = true ↔ r.isWaiting k = true ∧ k ≠ id := by
      intro k
      rw [isWaiting_remove_iff]
      refine and_congr_right fun hk => ⟨?_, .inl⟩
      rintro (hne | hnone)
      · exact hne
      · rintro rfl
        obtain ⟨e, he⟩ := h k hk
        rw [hnone] at he
        cases he
    have hlater : (r.remove id).2.Scheduled := by
      intro k hk
      obtain ⟨hk, hne⟩ := hremove.1 hk
      rw [get?_remove, if_neg hne]
      exact h k hk
    show ((r.remove id).2.removeAll ids).isWaiting j = true ↔ _
    rw [ih hlater, hremove, List.mem_cons, not_or, and_assoc]

/-! ## Soundness -/

/-- The store is sound, and every entry is at a location of the program. -/
structure Sound (r : ReachedSet ν ρ θ) : Prop where
  store : r.store.Sound
  located : ∀ id e, r.get? id = some e → r.program.contains e.location = true

namespace Sound

variable (h : r.Sound)

include h

theorem of_store (hs : r'.store = r.store) (hp : r'.program = r.program) : r'.Sound := by
  refine ⟨hs ▸ h.store, fun id e he => ?_⟩
  rw [hp]
  exact h.located id e (by rw [get?, ← hs]; exact he)

theorem pop [Frontier θ] {next : Option EntryId} (hpop : r.pop = (next, r')) : r'.Sound := by
  obtain rfl : r' = r.pop.2 := by rw [hpop]
  exact h.of_store rfl rfl

theorem add [LeafValue ν] [Waitlist θ ν] {id : EntryId} (ha : r.add e = .ok (id, r')) :
    r'.Sound := by
  have hget := get?_add ha
  obtain ⟨hl, hc, rfl, rfl⟩ := add_eq_ok ha
  refine ⟨h.store.insert hc, fun j f hj => ?_⟩
  rw [hget] at hj
  split at hj
  · cases hj
    exact hl
  · exact h.located j f hj

theorem remove [Frontier θ] (id : EntryId) : (r.remove id).2.Sound := by
  refine ⟨by rw [remove_store]; exact h.store.erase id, fun j f hj => ?_⟩
  rw [get?_remove] at hj
  split at hj
  · cases hj
  · rw [remove_program]
    exact h.located j f hj

theorem removeAll [Frontier θ] (ids : List EntryId) : (r.removeAll ids).Sound := by
  induction ids generalizing r with
  | nil => exact h
  | cons id ids ih => exact ih (h.remove id)

theorem updatePrecision {id : EntryId} {p : Precision ρ} (hu : r.updatePrecision id p = .ok r') :
    r'.Sound := by
  obtain ⟨-, rfl⟩ := updatePrecision_eq_ok hu
  refine ⟨h.store.setPrecision id p, fun j f hj => ?_⟩
  have hj : (r.store.setPrecision id p).get? j = some f := hj
  rw [Store.get?_setPrecision] at hj
  split at hj
  · obtain ⟨e, he, rfl⟩ := Option.map_eq_some_iff.1 hj
    exact h.located j e he
  · exact h.located j f hj

end Sound

theorem sound_ofFrontier (program : Program) (frontier : θ) :
    (ofFrontier program frontier : ReachedSet ν ρ θ).Sound :=
  ⟨Store.sound_empty, fun id e h => by
    rw [get?, ofFrontier, Store.get?_empty] at h
    cases h⟩

/-- The reached sets that the operations produce. -/
inductive Made [LeafValue ν] [Waitlist θ ν] : ReachedSet ν ρ θ → Prop where
  | ofFrontier (program : Program) (frontier : θ) : Made (.ofFrontier program frontier)
  | add {r r' e id} :
      Made r → r.add e = .ok (id, r') → Made r'
  | pop {r : ReachedSet ν ρ θ} : Made r → Made r.pop.2
  | reschedule {r : ReachedSet ν ρ θ} (id : EntryId) : Made r → Made (r.reschedule id)
  | remove {r : ReachedSet ν ρ θ} (id : EntryId) : Made r → Made (r.remove id).2
  | updatePrecision {r r' id p} :
      Made r → r.updatePrecision id p = .ok r' → Made r'
  | clear {r : ReachedSet ν ρ θ} : Made r → Made r.clear

theorem Made.sound [LeafValue ν] [Waitlist θ ν] (h : r.Made) : r.Sound := by
  induction h with
  | ofFrontier program frontier => exact sound_ofFrontier program frontier
  | add _ ha ih => exact ih.add ha
  | pop _ ih => exact ih.of_store rfl rfl
  | reschedule id _ ih => exact ih.of_store (reschedule_store _ id) (reschedule_program _ id)
  | remove id _ ih => exact ih.remove id
  | updatePrecision _ hu ih => exact ih.updatePrecision hu
  | clear _ _ => exact (sound_ofFrontier _ _).of_store rfl rfl

end ReachedSet

end ProgramAnalysis
