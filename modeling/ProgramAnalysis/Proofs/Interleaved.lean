import ProgramAnalysis.Proofs.Lockstep
import ProgramAnalysis.Proofs.Separable
/-!
A reached set that holds one partition beside another one that holds nothing else.

The first side has entries in the partition, which correspond to those of the second side, and
strangers, which are in other partitions. The states of strangers have handles that stand for
nothing on the second side, so looking for a state by its handle never finds one of them. This is
`Interleaved`. It is kept when corresponding entries are added or removed on both sides, which makes
it a coupling in the sense of `Bond.Couples`, and also when strangers come and go on the first.
-/

namespace ProgramAnalysis

variable {ν ρ ω θ : Type} {w w' : World ω} {interned : Handle → Prop} {r : ReachedSet ν ρ θ}

/-! ## The entries of a partition -/

namespace Store

/-- The numbers of the entries in a partition, in the order in which they were added. -/
def idsIn (s : Store ν ρ) (part : Partition) : List EntryId :=
  (s.entries.filter fun q => q.2.partition = part).map Prod.fst

/-- The entries in a partition, in the order in which they were added. -/
def entriesIn (s : Store ν ρ) (part : Partition) : List (Entry ν ρ) :=
  (s.entries.filter fun q => q.2.partition = part).map Prod.snd

theorem idsIn_insert (s : Store ν ρ) (e : Entry ν ρ) (part : Partition) :
    (s.insert e).idsIn part =
      if e.partition = part then s.idsIn part ++ [s.nextId] else s.idsIn part := by
  unfold idsIn
  rw [entries_insert, List.filter_append, List.map_append]
  split
  · next h => simp [h]
  · next h => simp [h]

theorem idsIn_erase (s : Store ν ρ) (id : EntryId) (part : Partition) :
    (s.erase id).idsIn part = (s.idsIn part).filter fun i => i ≠ id := by
  unfold idsIn
  rw [entries_erase_eq_filter, List.filter_map, List.filter_filter, List.filter_filter]
  simp only [Function.comp_apply, Bool.and_comm]

theorem mem_idsIn {s : Store ν ρ} {part : Partition} {id : EntryId} :
    id ∈ s.idsIn part ↔ ∃ e, s.get? id = some e ∧ e.partition = part := by
  simp only [idsIn, List.mem_map, List.mem_filter, decide_eq_true_eq, Prod.exists, mem_entries]
  constructor
  · rintro ⟨j, e, ⟨he, hpart⟩, rfl⟩
    exact ⟨e, he, hpart⟩
  · rintro ⟨e, he, hpart⟩
    exact ⟨id, e, ⟨he, hpart⟩, rfl⟩

theorem entriesIn_eq_filterMap (s : Store ν ρ) (part : Partition) :
    s.entriesIn part = (s.idsIn part).filterMap s.get? := by
  unfold entriesIn idsIn
  rw [List.filterMap_map, ← List.filterMap_eq_map]
  refine List.filterMap_congr fun q hq => ?_
  exact (mem_entries.1 (List.mem_filter.1 hq).1).symm

theorem slots_insert (s : Store ν ρ) (e : Entry ν ρ) : (s.insert e).slots.size = s.slots.size + 1 :=
  Array.size_push _

theorem slots_erase (s : Store ν ρ) (id : EntryId) : (s.erase id).slots.size = s.slots.size := by
  unfold erase
  split
  · rfl
  · exact Array.size_setIfInBounds

end Store

theorem ReachedSet.remove_frontier [Frontier θ] {id : EntryId} {e : Entry ν ρ}
    (he : r.get? id = some e) : (r.remove id).2.frontier = (Frontier.remove r.frontier id).2 := by
  unfold remove
  rw [he]

/-! ## Larger pairings -/

namespace Pairing

/-- The pairing with one more pair of entries. -/
def pair (c : Pairing) (i j : EntryId) : Pairing :=
  { c with entries := fun a b => c.entries a b ∨ a = i ∧ b = j }

/-- The pairing with one more stranger. -/
def welcome (c : Pairing) (i : EntryId) : Pairing :=
  { c with strangers := fun a => c.strangers a ∨ a = i }

theorem within_pair (c : Pairing) (i j : EntryId) : c.Within (c.pair i j) :=
  ⟨fun _ _ hk => hk, fun _ _ hab => .inl hab, fun _ ha => ha⟩

theorem within_welcome (c : Pairing) (i : EntryId) : c.Within (c.welcome i) :=
  ⟨fun _ _ hk => hk, fun _ _ hab => hab, fun _ ha => .inl ha⟩

end Pairing

/-! ## Strangers -/

/-- The handle of the state was drawn, and it stands for nothing. -/
def Alien (T : Naming) (w : World ω) (s : State ν) : Prop :=
  s.handle.serial < w.next.serial ∧ ∀ k, ¬T s.handle k

theorem Alien.later {T : Naming} {w₁ : World ω} {s : State ν} (h : Alien T w s)
    (hle : w.next.serial ≤ w₁.next.serial) : Alien T w₁ s :=
  ⟨Nat.lt_of_lt_of_le h.1 hle, h.2⟩

theorem alien_of_drew {T : Naming} {w₁ : World ω} {s : State ν} (hspans : T.Spans interned w w')
    (h : w.Drew w₁ s.handle) : Alien T w₁ s :=
  ⟨h.2, fun _ hk => Nat.not_lt_of_le h.1 (hspans.below hk).1⟩

/-- The first side holds the entries of the partition, which are those of the second side, and
strangers in other partitions. -/
structure Interleaved [Waitlist θ ν] [Waitlist.Separable θ ν] (interned : Handle → Prop)
    (part : Partition) (c : Pairing) (w : World ω) (r : ReachedSet ν ρ θ) (w' : World ω)
    (r' : ReachedSet ν ρ θ) : Prop where
  spans : c.handles.Spans interned w w'
  program : r.program = r'.program
  sound : r.Sound
  sound' : r'.Sound
  bounded : ∀ i j, c.entries i j →
    i.index < r.store.slots.size ∧ j.index < r'.store.slots.size
  strangers : ∀ i, c.strangers i → i.index < r.store.slots.size
  oneToOne : ∀ i j i' j', c.entries i j → c.entries i' j' → (i = i' ↔ j = j')
  apart : ∀ i j, c.entries i j → ¬c.strangers i
  entry : ∀ i j, c.entries i j → Option.Rel (Entry.Matches c.handles) (r.get? i) (r'.get? j)
  own : ∀ i j e, c.entries i j → r.get? i = some e → e.partition = part
  others : ∀ i e, r.get? i = some e → (∃ j, c.entries i j) ∨
    c.strangers i ∧ e.partition ≠ part ∧ Alien c.handles w e.state
  all : ∀ j f, r'.get? j = some f → ∃ i, c.entries i j
  candidates : ∀ l, List.Forall₂ c.entries (r.store.candidates ⟨l, part⟩)
    (r'.store.candidates ⟨l, part⟩)
  ids : List.Forall₂ c.entries (r.store.idsIn part) (r'.store.idsIn part)
  frontier : Waitlist.Separable.Splits ν c.entries c.strangers r.frontier r'.frontier

namespace Interleaved

open ReachedSet

variable [Waitlist θ ν] [Waitlist.Separable θ ν] {interned : Handle → Prop} {part : Partition}
  {c : Pairing} {w w' : World ω} {r r' r₁ r₁' : ReachedSet ν ρ θ} {i j : EntryId} {e f : Entry ν ρ}

variable (h : Interleaved interned part c w r w' r')

include h

theorem later {w₁ : World ω} (hle : w.next.serial ≤ w₁.next.serial) :
    Interleaved interned part c w₁ r w' r' :=
  { h with
    spans := h.spans.later hle (Nat.le_refl _)
    others := fun i e he => (h.others i e he).imp_right fun ⟨hi, hpart, halien⟩ =>
      ⟨hi, hpart, halien.later hle⟩ }

/-- An entry in another partition is a stranger. -/
theorem stranger (he : r.get? i = some e) (hpart : e.partition ≠ part) :
    c.strangers i ∧ ∀ a b, c.entries a b → a ≠ i := by
  rcases h.others i e he with ⟨j, hij⟩ | ⟨hi, -, -⟩
  · exact absurd (h.own i j e hij he) hpart
  · refine ⟨hi, ?_⟩
    rintro a b hab rfl
    exact h.apart a b hab hi

/-- What is paired with an entry is an entry that matches it. -/
theorem match_right (hij : c.entries i j) (he : r.get? i = some e) :
    ∃ f, r'.get? j = some f ∧ e.Matches c.handles f := by
  have hentry := h.entry i j hij
  rw [he] at hentry
  revert hentry
  rcases r'.get? j with _ | f <;> intro hentry <;> cases hentry
  next hef => exact ⟨f, rfl, hef⟩

theorem match_left (hij : c.entries i j) (hf : r'.get? j = some f) :
    ∃ e, r.get? i = some e ∧ e.Matches c.handles f := by
  have hentry := h.entry i j hij
  rw [hf] at hentry
  revert hentry
  rcases r.get? i with _ | e <;> intro hentry <;> cases hentry
  next hef => exact ⟨e, rfl, hef⟩

theorem contains {s t : State ν} (hst : s.Matches c.handles t) :
    r.store.contains s = r'.store.contains t := by
  have heq := h.spans.toOneToOne
  rw [Bool.eq_iff_iff, h.sound.store.contains_iff, h.sound'.store.contains_iff]
  constructor
  · rintro ⟨i, e, he, hhandle⟩
    rcases h.others i e he with ⟨j, hij⟩ | ⟨-, -, halien⟩
    · obtain ⟨f, hf, hef⟩ := h.match_right hij he
      exact ⟨j, f, hf, (heq.eq_iff hef.state.handle hst.handle).1 hhandle⟩
    · exact absurd (hhandle ▸ hst.handle) (halien.2 _)
  · rintro ⟨j, f, hf, hhandle⟩
    obtain ⟨i, hij⟩ := h.all j f hf
    obtain ⟨e, he, hef⟩ := h.match_left hij hf
    exact ⟨i, e, he, (heq.eq_iff hef.state.handle hst.handle).2 hhandle⟩

/-! ## Removals -/

/-- What is paired is taken out on both sides. -/
theorem remove_pair (hij : c.entries i j) (he : r.get? i = some e) (hf : r'.get? j = some f)
    (hef : e.Matches c.handles f) :
    Interleaved interned part c w (r.remove i).2 w' (r'.remove j).2 := by
  have hiff : ∀ a b, c.entries a b → (a = i ↔ b = j) := fun a b hab => h.oneToOne a b i j hab hij
  have hne : ∀ a b, c.entries a b → (decide (a ≠ i) = true ↔ decide (b ≠ j) = true) := by
    intro a b hab
    rw [decide_eq_true_iff, decide_eq_true_iff, Ne, hiff a b hab]
  exact
    { h with
      program := by rw [remove_program, remove_program, h.program]
      sound := h.sound.remove i
      sound' := h.sound'.remove j
      bounded := by
        rw [remove_store, remove_store, Store.slots_erase, Store.slots_erase]
        exact h.bounded
      strangers := by
        rw [remove_store, Store.slots_erase]
        exact h.strangers
      entry := by
        intro a b hab
        rw [get?_remove, get?_remove]
        simp only [hiff a b hab]
        split
        · exact .none
        · exact h.entry a b hab
      own := fun a b e hab he => h.own a b e hab (get?_remove_eq_some.1 he).2
      others := fun a e he => h.others a e (get?_remove_eq_some.1 he).2
      all := fun b f hf => h.all b f (get?_remove_eq_some.1 hf).2
      candidates := by
        intro l
        rw [remove_store, remove_store, Store.candidates_erase he,
          Store.candidates_erase hf, hef.place]
        split
        · exact List.rel_filter (fun a b hab => hne a b hab) (h.candidates l)
        · exact h.candidates l
      ids := by
        rw [remove_store, remove_store, Store.idsIn_erase, Store.idsIn_erase]
        exact List.rel_filter (fun a b hab => hne a b hab) h.ids
      frontier := by
        rw [remove_frontier he, remove_frontier hf]
        exact Waitlist.Separable.remove h.frontier hiff }

theorem remove (hij : c.entries i j) :
    Interleaved interned part c w (r.remove i).2 w' (r'.remove j).2 := by
  rcases he : r.get? i with _ | e
  -- An entry that is missing is missing on both sides, and nothing changes.
  · have hf : r'.get? j = none := by
      refine Option.eq_none_iff_forall_ne_some.2 fun f hf => ?_
      obtain ⟨e, he', -⟩ := h.match_left hij hf
      rw [he] at he'
      cases he'
    rw [remove_eq_self he, remove_eq_self hf]
    exact h
  · obtain ⟨f, hf, hef⟩ := h.match_right hij he
    exact h.remove_pair hij he hf hef

theorem remove_stranger (he : r.get? i = some e) (hpart : e.partition ≠ part) :
    Interleaved interned part c w (r.remove i).2 w' r' :=
  { h with
    program := by rw [remove_program, h.program]
    sound := h.sound.remove i
    bounded := by
      rw [remove_store, Store.slots_erase]
      exact h.bounded
    strangers := by
      rw [remove_store, Store.slots_erase]
      exact h.strangers
    entry := by
      intro a b hab
      rw [get?_remove, if_neg ((h.stranger he hpart).2 a b hab)]
      exact h.entry a b hab
    own := fun a b e hab he => h.own a b e hab (get?_remove_eq_some.1 he).2
    others := fun a e he => h.others a e (get?_remove_eq_some.1 he).2
    candidates := by
      intro l
      rw [remove_store, Store.candidates_erase he,
        if_neg fun hplace => hpart (congrArg Place.partition hplace)]
      exact h.candidates l
    ids := by
      rw [remove_store, Store.idsIn_erase, List.filter_eq_self.2]
      · exact h.ids
      · intro a ha
        obtain ⟨f, hf, hfpart⟩ := Store.mem_idsIn.1 ha
        refine decide_eq_true ?_
        rintro rfl
        obtain rfl := Option.some.inj (he.symm.trans hf)
        exact hpart hfpart
    frontier := by
      rw [remove_frontier he]
      exact Waitlist.Separable.remove_stranger h.frontier (h.stranger he hpart).2 }

/-! ## Additions -/

/-- The number of the next entry is not paired, and it does not wait. -/
theorem unknown :
    (∀ i j, c.entries i j → i ≠ r.store.nextId) ∧ ¬c.strangers r.store.nextId ∧
      Frontier.contains r.frontier r.store.nextId = false := by
  have hentries : ∀ i j, c.entries i j → i ≠ r.store.nextId := by
    rintro i j hij rfl
    exact Nat.lt_irrefl _ (h.bounded _ j hij).1
  have hstrangers : ¬c.strangers r.store.nextId := fun hi => Nat.lt_irrefl _ (h.strangers _ hi)
  refine ⟨hentries, hstrangers, Bool.eq_false_iff.2 fun hwaits => ?_⟩
  rcases Waitlist.Separable.known h.frontier hwaits with ⟨j, hij⟩ | hi
  · exact hentries _ j hij rfl
  · exact hstrangers hi

theorem unknown' :
    (∀ i j, c.entries i j → j ≠ r'.store.nextId) ∧
      Frontier.contains r'.frontier r'.store.nextId = false := by
  have hentries : ∀ i j, c.entries i j → j ≠ r'.store.nextId := by
    rintro i j hij rfl
    exact Nat.lt_irrefl _ (h.bounded i _ hij).2
  refine ⟨hentries, Bool.eq_false_iff.2 fun hwaits => ?_⟩
  obtain ⟨i, hij⟩ := Waitlist.Separable.known' h.frontier hwaits
  exact hentries i _ hij rfl

/-- An entry of the partition is added on both sides. -/
theorem add [LeafValue ν] (hef : e.Matches c.handles f) (hpart : e.partition = part)
    (hadd : r.add e = .ok (i, r₁)) (hadd' : r'.add f = .ok (j, r₁')) :
    ∃ d, c.Within d ∧ Interleaved interned part d w r₁ w' r₁' := by
  obtain ⟨hnew, hstranger, hwaits⟩ := h.unknown
  obtain ⟨hnew', hwaits'⟩ := h.unknown'
  have hsound := h.sound.add hadd
  have hsound' := h.sound'.add hadd'
  have hget := get?_add hadd
  have hget' := get?_add hadd'
  obtain ⟨-, -, rfl, rfl⟩ := add_eq_ok hadd
  obtain ⟨-, -, rfl, rfl⟩ := add_eq_ok hadd'
  have hwithin := c.within_pair r.store.nextId r'.store.nextId
  have hpair : (c.pair r.store.nextId r'.store.nextId).entries r.store.nextId r'.store.nextId :=
    .inr ⟨rfl, rfl⟩
  refine ⟨c.pair r.store.nextId r'.store.nextId, hwithin, ?_⟩
  exact
    { h with
      sound := hsound
      sound' := hsound'
      bounded := by
        intro a b hab
        dsimp only [grown]
        rw [Store.slots_insert, Store.slots_insert]
        rcases hab with hab | ⟨rfl, rfl⟩
        · have := h.bounded a b hab
          omega
        · exact ⟨Nat.lt_succ_self _, Nat.lt_succ_self _⟩
      strangers := by
        intro a ha
        dsimp only [grown]
        rw [Store.slots_insert]
        exact Nat.lt_succ_of_lt (h.strangers a ha)
      oneToOne := by
        rintro a b a' b' (hab | ⟨rfl, rfl⟩) (hab' | ⟨rfl, rfl⟩)
        · exact h.oneToOne a b a' b' hab hab'
        · exact iff_of_false (hnew a b hab) (hnew' a b hab)
        · exact iff_of_false (hnew a' b' hab').symm (hnew' a' b' hab').symm
        · exact iff_of_true rfl rfl
      apart := by
        rintro a b (hab | ⟨rfl, rfl⟩)
        · exact h.apart a b hab
        · exact hstranger
      entry := by
        intro a b hab
        rw [hget, hget']
        rcases hab with hab | ⟨rfl, rfl⟩
        · rw [if_neg (hnew a b hab), if_neg (hnew' a b hab)]
          exact h.entry a b hab
        · rw [if_pos rfl, if_pos rfl]
          exact .some hef
      own := by
        intro a b e' hab he'
        rcases new_or_old_of_add hadd he' with ⟨-, rfl⟩ | hold
        · exact hpart
        · rcases hab with hab | ⟨rfl, rfl⟩
          · exact h.own a b e' hab hold
          · rw [get?_of_add hadd] at hold
            cases hold
      others := by
        intro a e' he'
        rcases new_or_old_of_add hadd he' with ⟨rfl, -⟩ | hold
        · exact .inl ⟨_, hpair⟩
        · exact (h.others a e' hold).imp_left fun ⟨b, hab⟩ => ⟨b, .inl hab⟩
      all := by
        intro b f' hf'
        rcases new_or_old_of_add hadd' hf' with ⟨rfl, -⟩ | hold
        · exact ⟨_, hpair⟩
        · obtain ⟨a, hab⟩ := h.all b f' hold
          exact ⟨a, .inl hab⟩
      candidates := by
        intro l
        dsimp only [grown]
        rw [Store.candidates_insert, Store.candidates_insert, hef.place]
        split
        · exact List.rel_append ((h.candidates l).imp hwithin.entries) (.cons hpair .nil)
        · exact (h.candidates l).imp hwithin.entries
      ids := by
        dsimp only [grown]
        rw [Store.idsIn_insert, Store.idsIn_insert, if_pos hpart, if_pos (hef.partition ▸ hpart)]
        exact List.rel_append (h.ids.imp hwithin.entries) (.cons hpair .nil)
      frontier := by
        have hsplits := Waitlist.Separable.mono h.frontier hwithin.entries hwithin.strangers
        dsimp only [grown]
        rw [hef.location]
        exact Waitlist.Separable.push hsplits hpair hwaits hwaits' hef.state.1 }

/-- An entry of another partition is added on the first side. -/
theorem add_stranger [LeafValue ν] (halien : Alien c.handles w e.state) (hpart : e.partition ≠ part)
    (hadd : r.add e = .ok (i, r₁)) : Interleaved interned part (c.welcome i) w r₁ w' r' := by
  obtain ⟨hnew, -, hwaits⟩ := h.unknown
  have hsound := h.sound.add hadd
  have hget := get?_add hadd
  obtain ⟨-, -, rfl, rfl⟩ := add_eq_ok hadd
  have hwithin := c.within_welcome r.store.nextId
  exact
    { h with
      sound := hsound
      bounded := by
        intro a b hab
        dsimp only [grown]
        rw [Store.slots_insert]
        exact (h.bounded a b hab).imp_left Nat.lt_succ_of_lt
      strangers := by
        dsimp only [grown]
        rw [Store.slots_insert]
        rintro a (ha | rfl)
        · exact Nat.lt_succ_of_lt (h.strangers a ha)
        · exact Nat.lt_succ_self _
      apart := by
        rintro a b hab (ha | rfl)
        · exact h.apart a b hab ha
        · exact hnew _ b hab rfl
      entry := by
        intro a b hab
        rw [hget, if_neg (hnew a b hab)]
        exact h.entry a b hab
      own := by
        intro a b e' hab he'
        rcases new_or_old_of_add hadd he' with ⟨rfl, -⟩ | hold
        · exact absurd rfl (hnew _ b hab)
        · exact h.own a b e' hab hold
      others := by
        intro a e' he'
        rcases new_or_old_of_add hadd he' with ⟨rfl, rfl⟩ | hold
        · exact .inr ⟨.inr rfl, hpart, halien⟩
        · exact (h.others a e' hold).imp_right fun ⟨ha, hother⟩ => ⟨.inl ha, hother⟩
      candidates := by
        intro l
        dsimp only [grown]
        rw [Store.candidates_insert, if_neg fun hplace => hpart (congrArg Place.partition hplace)]
        exact h.candidates l
      ids := by
        dsimp only [grown]
        rw [Store.idsIn_insert, if_neg hpart]
        exact h.ids
      frontier := by
        have hsplits := Waitlist.Separable.mono h.frontier hwithin.entries hwithin.strangers
        exact Waitlist.Separable.push_stranger hsplits (.inr rfl) hwaits }

/-! ## The next entry -/

/-- What the first side takes off its frontier is a stranger, or what the second side takes off. -/
theorem pop (hpop : r.pop = (some i, r₁)) :
    c.strangers i ∧ Interleaved interned part c w r₁ w' r' ∨
      ∃ j r₁', c.entries i j ∧ r'.pop = (some j, r₁') ∧
        Interleaved interned part c w r₁ w' r₁' := by
  obtain rfl : r₁ = r.pop.2 := by rw [hpop]
  have hi : (Frontier.pop r.frontier).1 = some i := congrArg Prod.fst hpop
  rcases Waitlist.Separable.pop h.frontier hi with ⟨hstranger, hsplits⟩ | ⟨j, hij, hj, hsplits⟩
  · exact .inl ⟨hstranger, { h with frontier := hsplits, sound := h.sound.of_store rfl rfl }⟩
  · refine .inr ⟨j, r'.pop.2, hij, Prod.ext hj rfl, ?_⟩
    exact { h with
      frontier := hsplits
      sound := h.sound.of_store rfl rfl
      sound' := h.sound'.of_store rfl rfl }

/-- If nothing waits on the first side, nothing waits on the second. -/
theorem idle (hidle : r.hasWaiting = false) : r'.hasWaiting = false := by
  have hsize : Frontier.size r.frontier = 0 := not_not.1 (of_decide_eq_false hidle)
  exact decide_eq_false (not_not.2 (Waitlist.Separable.empty h.frontier hsize))

/-! ## The coupling -/

theorem grow {T : Naming} {w₁ w₁' : World ω} (hgrows : c.handles.Grows T w w₁ w' w₁')
    (hspans : T.Spans interned w₁ w₁') (hle : w.next.serial ≤ w₁.next.serial) :
    Interleaved interned part { c with handles := T } w₁ r w₁' r' := by
  refine { h with spans := hspans, entry := ?_, others := ?_ }
  · intro i j hij
    have hentry := h.entry i j hij
    revert hentry
    rcases r.get? i with _ | e <;> rcases r'.get? j with _ | f <;> intro hentry <;> cases hentry
    · exact .none
    · next hef => exact .some (hef.mono hgrows.old)
  · intro i e he
    refine (h.others i e he).imp_right fun ⟨hi, hpart, hlt, halien⟩ => ⟨hi, hpart, ?_, ?_⟩
    · exact Nat.lt_of_lt_of_le hlt hle
    · intro k hk
      -- The handle of a stranger was drawn before, so it is not among the new ones.
      rcases hgrows.new _ k hk with hold | ⟨hdrew, -⟩
      · exact halien k hold
      · exact Nat.not_lt_of_le hdrew.1 hlt

end Interleaved

theorem interleaved_couples [LeafValue ν] [Waitlist θ ν] [Waitlist.Separable θ ν]
    (interned : Handle → Prop) (part : Partition) :
    Bond.Couples (Interleaved interned part : Bond ν ρ ω θ) interned (fun p => p = part)
      fun _ _ _ => True where
  spans h := h.spans
  grow h hgrows hspans hle _ := h.grow hgrows hspans hle
  program h := h.program
  seen _ := trivial
  stays _ _ := trivial
  candidates h hown := by
    obtain rfl := hown
    exact h.candidates _
  entry h hij := h.entry _ _ hij
  partition h hij he := h.own _ _ _ hij he
  contains h hst := h.contains hst
  remove h hij := h.remove hij
  add h hef hown hadd hadd' := h.add hef hown hadd hadd'

/-- Nothing is reached yet. -/
theorem interleaved_empty [Waitlist θ ν] [Waitlist.Separable θ ν]
    (hw : ∀ h, interned h → h.serial < w.next.serial)
    (hw' : ∀ h, interned h → h.serial < w'.next.serial) (program : Program) (part : Partition)
    {u v : θ} (hsplits : Waitlist.Separable.Splits ν (fun _ _ => False) (fun _ => False) u v) :
    Interleaved interned part ⟨.ofInterned interned, fun _ _ => False, fun _ => False⟩ w
      (.ofFrontier program u : ReachedSet ν ρ θ) w' (.ofFrontier program v) where
  spans := Naming.spans_ofInterned hw hw'
  program := rfl
  sound := ReachedSet.sound_ofFrontier program u
  sound' := ReachedSet.sound_ofFrontier program v
  bounded _ _ hij := hij.elim
  strangers _ hi := hi.elim
  oneToOne _ _ _ _ hij := hij.elim
  apart _ _ hij := hij.elim
  entry _ _ hij := hij.elim
  own _ _ _ hij := hij.elim
  others i e he := by
    rw [ReachedSet.get?, ReachedSet.ofFrontier, Store.get?_empty] at he
    cases he
  all j f hf := by
    rw [ReachedSet.get?, ReachedSet.ofFrontier, Store.get?_empty] at hf
    cases hf
  candidates _ := .nil
  ids := .nil
  frontier := hsplits

/-- The entries of the partition match, in the order in which they were added. -/
theorem Interleaved.entriesIn [Waitlist θ ν] [Waitlist.Separable θ ν] {part : Partition}
    {c : Pairing} {r' : ReachedSet ν ρ θ} (h : Interleaved interned part c w r w' r') :
    List.Forall₂ (Entry.Matches c.handles) (r.store.entriesIn part) (r'.store.entriesIn part) := by
  rw [Store.entriesIn_eq_filterMap, Store.entriesIn_eq_filterMap]
  exact List.rel_filterMap (fun i j hij => h.entry i j hij) h.ids

end ProgramAnalysis
