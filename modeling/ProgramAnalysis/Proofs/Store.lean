import ProgramAnalysis.Reached.Store
/-!
The two indices of the store.

`Store.Sound` says that they agree with the entries: the index by handle finds exactly the entry
that holds a state, and the list of a place has exactly the entries at it. Adding a state that is
not there, removing an entry and changing a precision keep this. Of an operation, later proofs use
only what it does to `get?`, and of the indices that they are sound.
-/

namespace ProgramAnalysis

namespace Store

variable {ν ρ : Type} {s : Store ν ρ} {e : Entry ν ρ} {x : State ν}

/-! ## What the operations do to the entries -/

theorem get?_empty (id : EntryId) : (empty : Store ν ρ).get? id = none := by
  simp [get?, empty]

theorem get?_nextId (s : Store ν ρ) : s.get? s.nextId = none := by
  simp [get?, nextId]

theorem get?_insert (s : Store ν ρ) (e : Entry ν ρ) (id : EntryId) :
    (s.insert e).get? id = if id = s.nextId then some e else s.get? id := by
  have hid : id = s.nextId ↔ id.index = s.slots.size := by
    obtain ⟨i⟩ := id
    simp [nextId]
  by_cases h : id.index = s.slots.size
  · rw [if_pos (hid.2 h)]
    simp [get?, insert, h]
  · rw [if_neg (mt hid.1 h)]
    simp [get?, insert, Array.getElem?_push, h]

theorem eq_iff_index {id j : EntryId} : j = id ↔ id.index = j.index := by
  obtain ⟨i⟩ := id
  obtain ⟨k⟩ := j
  simp [eq_comm]

theorem get?_erase (s : Store ν ρ) (id j : EntryId) :
    (s.erase id).get? j = if j = id then none else s.get? j := by
  unfold erase
  split
  · next h =>
    split
    · next e => rw [e, h]
    · rfl
  · next e h =>
    by_cases he : id.index = j.index
    · rw [if_pos (eq_iff_index.2 he)]
      simp only [get?, Array.getElem?_setIfInBounds, he, if_true]
      split <;> rfl
    · rw [if_neg (mt eq_iff_index.1 he)]
      simp [get?, he]

theorem get?_setPrecision (s : Store ν ρ) (id j : EntryId) (p : Precision ρ) :
    (s.setPrecision id p).get? j =
      if j = id then (s.get? j).map fun e => { e with precision := p } else s.get? j := by
  by_cases he : id.index = j.index
  · rw [if_pos (eq_iff_index.2 he)]
    simp only [get?, setPrecision, Array.getElem?_modify, he, if_true]
    rcases s.slots[j.index]? with _ | _ | e <;> rfl
  · rw [if_neg (mt eq_iff_index.1 he)]
    simp [get?, setPrecision, Array.getElem?_modify, he]

/-! ## What they do to the indices -/

theorem byHandle_insert (s : Store ν ρ) (e : Entry ν ρ) (h : Handle) :
    (s.insert e).byHandle.get? h =
      if e.state.handle = h then some s.nextId else s.byHandle.get? h :=
  Index.get?_insert ..

theorem byHandle_erase {id : EntryId} (he : s.get? id = some e) (h : Handle) :
    (s.erase id).byHandle.get? h = if e.state.handle = h then none else s.byHandle.get? h := by
  simp [erase, he]

theorem candidates_insert (s : Store ν ρ) (e : Entry ν ρ) (p : Place) :
    (s.insert e).candidates p =
      if e.place = p then s.candidates p ++ [s.nextId] else s.candidates p := by
  by_cases h : e.place = p <;> simp [candidates, insert, h]

theorem candidates_erase {id : EntryId} (h : s.get? id = some e) (p : Place) :
    (s.erase id).candidates p =
      if e.place = p then (s.candidates p).filter (· ≠ id) else s.candidates p := by
  simp only [candidates, erase, h, unplace]
  cases hp : s.byPlace.get? e.place with
  | none => by_cases he : e.place = p <;> simp_all
  | some ids =>
    by_cases he : e.place = p
    · subst he
      rw [if_pos rfl, hp]
      dsimp only
      split
      · next h => simpa using List.isEmpty_iff.1 h
      · simp
    · dsimp only
      split <;> simp [he]

/-! ## Soundness -/

/-- The indices agree with the entries. -/
structure Sound (s : Store ν ρ) : Prop where
  /-- A handle is found exactly where it is held. -/
  handles : ∀ h id, s.byHandle.get? h = some id ↔ ∃ e, s.get? id = some e ∧ e.state.handle = h
  /-- The list of a place has exactly the entries there. -/
  places : ∀ p id, id ∈ s.candidates p ↔ ∃ e, s.get? id = some e ∧ e.place = p

theorem sound_empty : (empty : Store ν ρ).Sound where
  handles h id := by
    rw [get?_empty]
    simp [empty, Index.get?_empty]
  places p id := by
    rw [get?_empty]
    simp [candidates, empty, Index.get?_empty]

section

variable {s : Store ν ρ} (hs : s.Sound)

include hs

theorem Sound.find?_eq_some {id : EntryId} :
    s.find? x = some id ↔ ∃ e, s.get? id = some e ∧ e.state.handle = x.handle :=
  hs.handles x.handle id

theorem Sound.find?_eq_none :
    s.find? x = none ↔ ∀ id e, s.get? id = some e → e.state.handle ≠ x.handle := by
  constructor
  · intro h id e he hx
    have := hs.find?_eq_some.2 ⟨e, he, hx⟩
    rw [h] at this
    cases this
  · intro h
    cases hf : s.find? x with
    | none => rfl
    | some id =>
      obtain ⟨e, he, hx⟩ := hs.find?_eq_some.1 hf
      exact absurd hx (h id e he)

theorem Sound.contains_iff :
    s.contains x = true ↔ ∃ id e, s.get? id = some e ∧ e.state.handle = x.handle := by
  simp only [contains, Option.isSome_iff_exists, hs.find?_eq_some]

/-- No two entries hold the same state. -/
theorem Sound.eq_of_handle {i j : EntryId} {f : Entry ν ρ} (hi : s.get? i = some e)
    (hj : s.get? j = some f) (h : e.state.handle = f.state.handle) : i = j := by
  have h1 := hs.find?_eq_some.2 ⟨e, hi, h⟩
  have h2 := hs.find?_eq_some.2 ⟨f, hj, rfl⟩
  exact Option.some.inj (h1.symm.trans h2)

theorem Sound.mem_statesAt {p : Place} :
    x ∈ s.statesAt p ↔ ∃ id e, s.get? id = some e ∧ e.place = p ∧ e.state = x := by
  simp only [statesAt, List.mem_filterMap, Option.map_eq_some_iff, hs.places]
  constructor
  · rintro ⟨id, ⟨e, he, hp⟩, f, hf, hx⟩
    rw [he] at hf
    cases hf
    exact ⟨id, e, he, hp, hx⟩
  · rintro ⟨id, e, he, hp, hx⟩
    exact ⟨id, ⟨e, he, hp⟩, e, he, hx⟩

theorem Sound.insert (he : s.contains e.state = false) : (s.insert e).Sound where
  handles h id := by
    have hnew := s.get?_nextId
    have hno : ∀ id f, s.get? id = some f → f.state.handle ≠ e.state.handle := by
      apply hs.find?_eq_none.1
      simpa [contains] using he
    have hold := hs.handles h id
    rw [byHandle_insert, get?_insert]
    by_cases hh : e.state.handle = h
    · rw [if_pos hh]
      by_cases hi : id = s.nextId
      · rw [if_pos hi]
        exact ⟨fun _ => ⟨e, rfl, hh⟩, fun _ => by rw [hi]⟩
      · rw [if_neg hi]
        refine ⟨fun h => absurd (Option.some.inj h).symm hi, ?_⟩
        rintro ⟨f, hf, hfh⟩
        exact absurd (hfh.trans hh.symm) (hno id f hf)
    · rw [if_neg hh, hold]
      by_cases hi : id = s.nextId
      · rw [if_pos hi, hi, hnew]
        simp [hh]
      · rw [if_neg hi]
  places p id := by
    have hnew := s.get?_nextId
    have hold := hs.places p id
    rw [candidates_insert, get?_insert]
    by_cases hi : id = s.nextId
    · subst hi
      simp only [hnew] at hold
      by_cases hp : e.place = p <;> simp [hp]
      simpa using hold
    · by_cases hp : e.place = p <;> simp [hp, hi, hold]

theorem Sound.erase (id : EntryId) : (s.erase id).Sound := by
  cases he : s.get? id with
  | none =>
    have : s.erase id = s := by simp [Store.erase, he]
    rwa [this]
  | some e =>
    constructor
    · intro h j
      rw [byHandle_erase he, get?_erase]
      by_cases hh : e.state.handle = h
      · rw [if_pos hh]
        refine ⟨fun h => absurd h (by simp), ?_⟩
        rintro ⟨f, hf, hfh⟩
        by_cases hj : j = id
        · simp [hj] at hf
        · rw [if_neg hj] at hf
          exact absurd (hs.eq_of_handle hf he (hfh.trans hh.symm)) hj
      · rw [if_neg hh, hs.handles h j]
        by_cases hj : j = id
        · subst hj
          simp [he, hh]
        · rw [if_neg hj]
    · intro p j
      rw [candidates_erase he, get?_erase]
      have hold := hs.places p j
      by_cases hj : j = id
      · subst hj
        by_cases hp : e.place = p
        · simp [hp]
        · simp only [hp, if_false, hold, he, if_true]
          simp [hp]
      · by_cases hp : e.place = p <;> simp [hp, hj, hold]

theorem Sound.setPrecision (id : EntryId) (p : Precision ρ) : (s.setPrecision id p).Sound where
  handles h j := by
    refine (hs.handles h j).trans ?_
    rw [get?_setPrecision]
    by_cases hj : j = id
    · rw [if_pos hj]
      cases s.get? j <;> simp
    · rw [if_neg hj]
  places q j := by
    refine (hs.places q j).trans ?_
    rw [get?_setPrecision]
    by_cases hj : j = id
    · rw [if_pos hj]
      cases s.get? j <;> simp [Entry.place]
    · rw [if_neg hj]

end

/-! ## Counting -/

theorem mem_entries {id : EntryId} : (id, e) ∈ s.entries ↔ s.get? id = some e := by
  obtain ⟨k⟩ := id
  simp only [entries, List.mem_filterMap, Prod.exists, Option.map_eq_some_iff, Prod.mk.injEq,
    EntryId.mk.injEq, get?]
  constructor
  · rintro ⟨slot, i, hi, f, rfl, rfl, rfl⟩
    rw [List.mem_zipIdx_iff_getElem?] at hi
    have hi : s.slots[i]? = some (some f) := by simpa using hi
    rw [hi]
    rfl
  · intro he
    refine ⟨some e, k, List.mem_zipIdx_iff_getElem?.2 ?_, e, rfl, rfl, rfl⟩
    simpa using Option.join_eq_some_iff.1 he

theorem nodup_entries (s : Store ν ρ) : (s.entries.map Prod.fst).Nodup := by
  have hindex : s.slots.toList.zipIdx.Pairwise fun p q => p.2 ≠ q.2 := by
    refine List.pairwise_map.1 ?_
    rw [List.zipIdx_map_snd]
    exact List.nodup_range'
  rw [List.Nodup, List.pairwise_map, entries, List.pairwise_filterMap]
  refine hindex.imp ?_
  rintro ⟨slot, i⟩ ⟨slot', j⟩ hne p hp q hq hsame
  obtain ⟨e, -, rfl⟩ := Option.map_eq_some_iff.1 hp
  obtain ⟨f, -, rfl⟩ := Option.map_eq_some_iff.1 hq
  exact hne (EntryId.mk.inj hsame)

theorem entries_nodup (s : Store ν ρ) : s.entries.Nodup :=
  List.Pairwise.of_map Prod.fst (fun _ _ hne heq => hne (congrArg Prod.fst heq)) s.nodup_entries

theorem entries_insert (s : Store ν ρ) (e : Entry ν ρ) :
    (s.insert e).entries = s.entries ++ [(s.nextId, e)] := by
  simp [entries, Store.insert, List.zipIdx_append, nextId]

theorem entries_erase {id : EntryId} (he : s.get? id = some e) :
    s.entries.Perm ((id, e) :: (s.erase id).entries) := by
  have hnot : (id, e) ∉ (s.erase id).entries := by
    rw [mem_entries, get?_erase, if_pos rfl]
    simp
  have hnodup : ((id, e) :: (s.erase id).entries).Nodup :=
    List.nodup_cons.2 ⟨hnot, entries_nodup _⟩
  refine (List.perm_ext_iff_of_nodup s.entries_nodup hnodup).2 ?_
  rintro ⟨j, f⟩
  rw [List.mem_cons, mem_entries, mem_entries, get?_erase]
  by_cases hj : j = id
  · subst hj
    rw [he]
    simp [eq_comm]
  · simp [hj]

theorem numbered_set (l : List (Option (Entry ν ρ))) (i k : Nat) :
    ((l.set i none).zipIdx k).filterMap (fun (slot, i) => slot.map fun e => (EntryId.mk i, e)) =
      ((l.zipIdx k).filterMap fun (slot, i) => slot.map fun e => (EntryId.mk i, e)).filter
        fun q => q.1 ≠ ⟨k + i⟩ := by
  induction l generalizing i k with
  | nil => rfl
  | cons slot l ih =>
    cases i with
    | zero =>
      -- All that follows has larger numbers.
      have hrest : ((l.zipIdx (k + 1)).filterMap
          fun (slot, i) => slot.map fun e => (EntryId.mk i, e)).filter (fun q => q.1 ≠ ⟨k⟩) =
          (l.zipIdx (k + 1)).filterMap fun (slot, i) => slot.map fun e => (EntryId.mk i, e) := by
        refine List.filter_eq_self.2 fun q hq => decide_eq_true fun hk => ?_
        obtain ⟨⟨slot', j⟩, hmem, hj⟩ := List.mem_filterMap.1 hq
        obtain ⟨e, -, rfl⟩ := Option.map_eq_some_iff.1 hj
        have hle := List.le_snd_of_mem_zipIdx hmem
        have hjk : j = k := EntryId.mk.inj hk
        omega
      rw [List.set_cons_zero, List.zipIdx_cons, List.zipIdx_cons, List.filterMap_cons,
        List.filterMap_cons]
      cases slot with
      | none => exact hrest.symm
      | some e =>
        refine Eq.trans ?_ (List.filter_cons_of_neg (by simp)).symm
        exact hrest.symm
    | succ i =>
      have hshift : k + 1 + i = k + (i + 1) := by omega
      rw [List.set_cons_succ, List.zipIdx_cons, List.zipIdx_cons, List.filterMap_cons,
        List.filterMap_cons, ih i (k + 1), hshift]
      cases slot with
      | none => rfl
      | some e => simp

theorem entries_erase_eq_filter (s : Store ν ρ) (id : EntryId) :
    (s.erase id).entries = s.entries.filter fun q => q.1 ≠ id := by
  cases he : s.get? id with
  | none =>
    have hself : s.erase id = s := by simp [Store.erase, he]
    rw [hself, eq_comm, List.filter_eq_self]
    rintro ⟨j, f⟩ hf
    rw [decide_eq_true_eq]
    rintro rfl
    rw [mem_entries.1 hf] at he
    cases he
  | some e =>
    unfold entries
    simp only [Store.erase, he, Array.toList_setIfInBounds]
    rw [numbered_set s.slots.toList id.index 0, Nat.zero_add]

theorem states_insert (s : Store ν ρ) (e : Entry ν ρ) :
    (s.insert e).states = s.states ++ [e.state] := by
  unfold states
  rw [entries_insert, List.map_append]
  rfl

theorem states_erase {id : EntryId} (he : s.get? id = some e) :
    s.states.Perm (e.state :: (s.erase id).states) := by
  have hperm := (entries_erase he).map fun q => q.2.state
  rw [List.map_cons] at hperm
  exact hperm

/-- The number of entries that is kept along is right. -/
def Counted (s : Store ν ρ) : Prop := s.size = s.slots.toList.countP Option.isSome

theorem counted_empty : (empty : Store ν ρ).Counted := rfl

theorem Counted.insert (h : s.Counted) (e : Entry ν ρ) : (s.insert e).Counted := by
  unfold Counted at h ⊢
  simp [Store.insert, h]

theorem Counted.erase (h : s.Counted) (id : EntryId) : (s.erase id).Counted := by
  unfold Counted at h ⊢
  unfold Store.erase
  split
  · exact h
  · next e he =>
    have hslot : s.slots[id.index]? = some (some e) := Option.join_eq_some_iff.1 he
    obtain ⟨hlt, hget⟩ := Array.getElem?_eq_some_iff.1 hslot
    simp only [Array.toList_setIfInBounds]
    rw [List.countP_set (by simpa using hlt), h]
    simp [hget]

theorem Counted.setPrecision (h : s.Counted) (id : EntryId) (p : Precision ρ) :
    (s.setPrecision id p).Counted := by
  have hmodify : ∀ (l : List (Option (Entry ν ρ))) (i : Nat) (f : Entry ν ρ → Entry ν ρ),
      (l.modify i (Option.map f)).countP Option.isSome = l.countP Option.isSome := by
    intro l
    induction l with
    | nil => simp
    | cons slot rest ih =>
      intro i f
      cases i with
      | zero => simp [List.countP_cons]
      | succ i => simp [List.countP_cons, ih]
  unfold Counted at h ⊢
  rw [Store.setPrecision, Array.toList_modify, hmodify]
  exact h

end Store

end ProgramAnalysis
