import ProgramAnalysis.Proofs.Lockstep
/-!
Reached sets that differ in the names of handles only.

Two stores match under a naming when their slots do, one by one, and so do their indices. Adding and
removing matching entries keeps this, so reached sets with the same queue and matching stores are
coupled in the sense of `Bond.Couples`: a pure analysis expands an entry alike in both.
-/

namespace ProgramAnalysis

variable {ν ρ ω : Type} {T U : Naming}

/-! ## Matching stores -/

theorem forall₂_getElem? {α β : Type} {R : α → β → Prop} {l : List α} {l' : List β}
    (h : List.Forall₂ R l l') (i : Nat) : Option.Rel R l[i]? l'[i]? := by
  induction h generalizing i with
  | nil => exact .none
  | cons hab _ ih =>
    cases i with
    | zero => exact .some hab
    | succ i => exact ih i

theorem forall₂_set {α β : Type} {R : α → β → Prop} {l : List α} {l' : List β} {a : α} {b : β}
    (h : List.Forall₂ R l l') (hab : R a b) (i : Nat) :
    List.Forall₂ R (l.set i a) (l'.set i b) := by
  induction h generalizing i with
  | nil => exact .nil
  | cons hhead hrest ih =>
    cases i with
    | zero => exact .cons hab hrest
    | succ i => exact .cons hhead (ih i)

namespace Index

variable {β : Type}

/-- The keys stand for each other, and the values are the same. -/
def Matches (T : Naming) (m n : Index Handle β) : Prop :=
  List.Forall₂ (fun p q => T p.1 q.1 ∧ p.2 = q.2) m.pairs n.pairs

variable {m n : Index Handle β} {h k : Handle}

namespace Matches

variable (hmn : m.Matches T n) (hT : T.OneToOne) (hk : T h k)

include hmn hT hk

theorem get? : m.get? h = n.get? k := by
  obtain ⟨l⟩ := m
  obtain ⟨l'⟩ := n
  unfold Index.get?
  dsimp only [Matches] at hmn ⊢
  induction hmn with
  | nil => rfl
  | @cons p q _ _ hpq _ ih =>
    obtain ⟨hkey, hvalue⟩ := hpq
    unfold lookup
    rw [ih, hvalue]
    simp only [hT.eq_iff hkey hk]

theorem insert (b : β) : (m.insert h b).Matches T (n.insert k b) := by
  obtain ⟨l⟩ := m
  obtain ⟨l'⟩ := n
  unfold Index.insert
  dsimp only [Matches] at hmn ⊢
  induction hmn with
  | nil => exact .cons ⟨hk, rfl⟩ .nil
  | @cons p q _ _ hpq hrest ih =>
    unfold replace
    simp only [hT.eq_iff hpq.1 hk]
    split
    · exact .cons ⟨hk, rfl⟩ hrest
    · exact .cons hpq ih

theorem erase : (m.erase h).Matches T (n.erase k) := by
  refine List.rel_filter ?_ hmn
  intro p q hpq
  simp only [decide_eq_true_eq, ne_eq, hT.eq_iff hpq.1 hk]

end Matches

end Index

namespace Store

/-- The slots are related one by one by `R`, and the stores are indexed alike, with the handles of
the two sides standing for each other. -/
structure Corresponds (R : Entry ν ρ → Entry ν ρ → Prop) (T : Naming) (s t : Store ν ρ) : Prop where
  slots : List.Forall₂ (Option.Rel R) s.slots.toList t.slots.toList
  size : s.size = t.size
  byPlace : s.byPlace = t.byPlace
  byHandle : s.byHandle.Matches T t.byHandle
  last : s.last = t.last

section

variable {R R' : Entry ν ρ → Entry ν ρ → Prop} {s t : Store ν ρ}

theorem corresponds_empty (R : Entry ν ρ → Entry ν ρ → Prop) (T : Naming) :
    (empty : Store ν ρ).Corresponds R T empty :=
  ⟨.nil, rfl, rfl, .nil, rfl⟩

section

variable (h : s.Corresponds R T t)

include h

theorem Corresponds.mono (hR : ∀ e f, R e f → R' e f) (hT : ∀ h k, T h k → U h k) :
    s.Corresponds R' U t := by
  refine { h with slots := h.slots.imp ?_, byHandle := h.byHandle.imp fun p q hpq => ?_ }
  · intro a b hab
    cases hab with
    | some he => exact .some (hR _ _ he)
    | none => exact .none
  · exact ⟨hT _ _ hpq.1, hpq.2⟩

theorem Corresponds.nextId : s.nextId = t.nextId := by
  unfold Store.nextId
  rw [← Array.length_toList, ← Array.length_toList, h.slots.length_eq]

theorem Corresponds.get? (id : EntryId) : Option.Rel R (s.get? id) (t.get? id) := by
  have hslot := forall₂_getElem? h.slots id.index
  unfold Store.get?
  rw [Array.getElem?_toList, Array.getElem?_toList] at hslot
  revert hslot
  rcases s.slots[id.index]? with _ | a <;> rcases t.slots[id.index]? with _ | b <;> intro hslot <;>
    cases hslot
  · exact .none
  · next hab => exact hab

theorem Corresponds.candidates (p : Place) : s.candidates p = t.candidates p := by
  unfold Store.candidates
  rw [h.byPlace]

theorem Corresponds.contains (hT : T.OneToOne) {x y : State ν} (hxy : T x.handle y.handle) :
    s.contains x = t.contains y := by
  unfold Store.contains Store.find?
  rw [h.byHandle.get? hT hxy]

theorem Corresponds.insert (hT : T.OneToOne) {e f : Entry ν ρ} (he : R e f)
    (hplace : e.place = f.place) (hhandle : T e.state.handle f.state.handle) :
    (s.insert e).Corresponds R T (t.insert f) where
  slots := by
    show List.Forall₂ _ (s.slots.push _).toList (t.slots.push _).toList
    rw [Array.toList_push, Array.toList_push]
    exact List.rel_append h.slots (.cons (.some he) .nil)
  size := congrArg (· + 1) h.size
  byPlace := by
    show s.byPlace.insert e.place _ = t.byPlace.insert f.place _
    rw [h.byPlace, hplace, h.candidates, h.nextId]
  byHandle := by
    show (s.byHandle.insert _ s.nextId).Matches T (t.byHandle.insert _ t.nextId)
    rw [h.nextId]
    exact h.byHandle.insert hT hhandle _
  last := congrArg some h.nextId

theorem Corresponds.erase (hT : T.OneToOne) (hplace : ∀ e f, R e f → e.place = f.place)
    (hhandle : ∀ e f, R e f → T e.state.handle f.state.handle) (id : EntryId) :
    (s.erase id).Corresponds R T (t.erase id) := by
  have hentry := h.get? id
  unfold Store.erase
  rcases hs : s.get? id with _ | e <;> rcases ht : t.get? id with _ | f <;>
    rw [hs, ht] at hentry <;> cases hentry
  · exact h
  next he =>
  refine ⟨?_, congrArg (· - 1) h.size, ?_, h.byHandle.erase hT (hhandle e f he), ?_⟩
  · show List.Forall₂ _ (s.slots.setIfInBounds _ _).toList (t.slots.setIfInBounds _ _).toList
    rw [Array.toList_setIfInBounds, Array.toList_setIfInBounds]
    exact forall₂_set h.slots .none _
  · show unplace s.byPlace e.place id = unplace t.byPlace f.place id
    rw [h.byPlace, hplace e f he]
  · show (if s.last = some id then none else s.last) = if t.last = some id then none else t.last
    rw [h.last]

end

end

/-- The stores differ in their handles only, and these stand for each other. -/
abbrev Matches (T : Naming) (s t : Store ν ρ) : Prop := s.Corresponds (Entry.Matches T) T t

theorem Matches.mono {s t : Store ν ρ} (h : s.Matches T t) (hT : ∀ h k, T h k → U h k) :
    s.Matches U t :=
  Corresponds.mono h (fun _ _ he => he.mono hT) hT

end Store

/-! ## Twins -/

/-- The two sides have the same queue, and their stores match. -/
structure Twins (interned : Handle → Prop) (c : Pairing) (w : World ω)
    (r : ReachedSet ν ρ SimpleWaitlist) (w' : World ω) (r' : ReachedSet ν ρ SimpleWaitlist) :
    Prop where
  spans : c.handles.Spans interned w w'
  entries : ∀ i j, c.entries i j ↔ i = j
  program : r.program = r'.program
  frontier : r.frontier = r'.frontier
  store : r.store.Matches c.handles r'.store

variable {interned : Handle → Prop} {c : Pairing} {w w' : World ω}
  {r r' : ReachedSet ν ρ SimpleWaitlist}

namespace Twins

variable (h : Twins interned c w r w' r')

include h

theorem remove (id : EntryId) : Twins interned c w (r.remove id).2 w' (r'.remove id).2 where
  spans := h.spans
  entries := h.entries
  program := by rw [ReachedSet.remove_program, ReachedSet.remove_program, h.program]
  frontier := by
    have hentry : Option.Rel _ (r.get? id) (r'.get? id) := h.store.get? id
    unfold ReachedSet.remove
    revert hentry
    rcases r.get? id with _ | e <;> rcases r'.get? id with _ | f <;> intro hentry <;> cases hentry
    · exact h.frontier
    · show (Frontier.remove r.frontier id).2 = (Frontier.remove r'.frontier id).2
      rw [h.frontier]
  store := by
    rw [ReachedSet.remove_store, ReachedSet.remove_store]
    exact h.store.erase h.spans.toOneToOne (fun _ _ he => he.place)
      (fun _ _ he => he.state.handle) id

theorem add [LeafValue ν] {e f : Entry ν ρ} (he : e.Matches c.handles f) {i j : EntryId}
    {r₁ r₁' : ReachedSet ν ρ SimpleWaitlist} (hadd : r.add e = .ok (i, r₁))
    (hadd' : r'.add f = .ok (j, r₁')) : Twins interned c w r₁ w' r₁' := by
  obtain ⟨-, -, -, rfl⟩ := ReachedSet.add_eq_ok hadd
  obtain ⟨-, -, -, rfl⟩ := ReachedSet.add_eq_ok hadd'
  refine ⟨h.spans, h.entries, h.program, ?_,
    h.store.insert h.spans.toOneToOne he he.place he.state.handle⟩
  show r.frontier.push r.store.nextId = r'.frontier.push r'.store.nextId
  rw [h.frontier, h.store.nextId]

theorem pop {id : Option EntryId} {r₁ : ReachedSet ν ρ SimpleWaitlist} (hpop : r.pop = (id, r₁)) :
    ∃ r₁', r'.pop = (id, r₁') ∧ Twins interned c w r₁ w' r₁' := by
  refine ⟨r'.pop.2, Prod.ext ?_ rfl, h.spans, h.entries, ?_, ?_, ?_⟩
  · show (Frontier.pop r'.frontier).1 = id
    rw [← h.frontier]
    exact congrArg Prod.fst hpop
  · obtain rfl : r₁ = r.pop.2 := by rw [hpop]
    exact h.program
  · obtain rfl : r₁ = r.pop.2 := by rw [hpop]
    show (Frontier.pop r.frontier).2 = (Frontier.pop r'.frontier).2
    rw [h.frontier]
  · obtain rfl : r₁ = r.pop.2 := by rw [hpop]
    exact h.store

theorem hasWaiting : r.hasWaiting = r'.hasWaiting := by
  unfold ReachedSet.hasWaiting ReachedSet.waiting
  rw [h.frontier]

end Twins

theorem twins_couples [LeafValue ν] (interned : Handle → Prop) :
    Bond.Couples (Twins interned : Bond ν ρ ω SimpleWaitlist) interned (fun _ => True)
      Store.Matches where
  spans h := h.spans
  grow h hgrows hspans _ _ := { h with spans := hspans, store := h.store.mono hgrows.old }
  program h := h.program
  seen h := h.store
  stays h hT := h.mono hT
  candidates h _ := by
    rw [h.store.candidates]
    exact List.forall₂_same.2 fun id _ => (h.entries id id).2 rfl
  entry h hij := by
    obtain rfl := (h.entries _ _).1 hij
    exact h.store.get? _
  partition _ _ _ := trivial
  contains h hst := h.store.contains h.spans.toOneToOne hst.handle
  remove h hij := by
    obtain rfl := (h.entries _ _).1 hij
    exact h.remove _
  add h he _ hadd hadd' := ⟨_, le_refl (α := Pairing) _, h.add he hadd hadd'⟩

end ProgramAnalysis
