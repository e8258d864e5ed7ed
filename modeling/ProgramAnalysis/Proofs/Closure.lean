import ProgramAnalysis.Proofs.FactsContract
import ProgramAnalysis.Proofs.Frontiers
import ProgramAnalysis.Proofs.Programs
import ProgramAnalysis.Proofs.Run
import ProgramAnalysis.Proofs.Successors
/-!
No work is lost.

An entry is closed when every successor of it is dropped by the adjustment or lies below an entry at
its place. A run that starts with every entry waiting has, at each visit of its loop head and
however it ends, only closed entries besides those that wait (`closed_unless_waiting`).

The argument is about one expansion. While the adjusted successors are admitted one after the other,
the reached set only grows (`Grows`): what was covered stays covered, and an entry that does not
wait was there before. The expanded entry is closed apart from the successors that are still to be
admitted (`Progress`).
-/

namespace ProgramAnalysis.Exploration

variable {ν ρ ω θ : Type} [LeafValue ν]

/-! ## Closed entries -/

/-- An entry at the place lies above the state. -/
def Covered (order : StateOrder ν) (r : ReachedSet ν ρ θ) (place : Place) (s : State ν) : Prop :=
  ∃ id e, r.get? id = some e ∧ e.place = place ∧ order.le s e.state

/-- Every successor of the entry is dropped or covered. -/
def Closed (x : Exploration ν ρ ω) (order : StateOrder ν) (valid : World ω → Prop)
    (r : ReachedSet ν ρ θ) (e : Entry ν ρ) : Prop :=
  Traced x valid e (x.program.leaving e.location) fun g s =>
    Adjusts x valid e.precision s fun t =>
      Covered order r ⟨t.location?.getD (s.location?.getD g.target), e.partition⟩ t

/-- Every entry that does not wait is closed. -/
def Settled [Frontier θ] (x : Exploration ν ρ ω) (order : StateOrder ν) (valid : World ω → Prop)
    (r : ReachedSet ν ρ θ) : Prop :=
  ∀ id e, r.get? id = some e → r.isWaiting id = false → Closed x order valid r e

theorem Closed.mono {x : Exploration ν ρ ω} {order : StateOrder ν} {valid : World ω → Prop}
    {r r' : ReachedSet ν ρ θ} {e : Entry ν ρ} (h : Closed x order valid r e)
    (hr : ∀ place s, Covered order r place s → Covered order r' place s) :
    Closed x order valid r' e :=
  Traced.mono h fun _ _ hs => hs.mono fun _ ht => hr _ _ ht

/-! ## Handles that were drawn -/

section

/-- The handles of the reached states were drawn before. -/
def Below (r : ReachedSet ν ρ θ) (w : World ω) : Prop :=
  ∀ id f, r.get? id = some f → f.state.handle.serial < w.next.serial

/-- The successors `todo` have handles of their own. They were drawn before, and no entry has one of
them. -/
structure NewHandles (todo : Successors ν ρ) (w : World ω) (r : ReachedSet ν ρ θ) : Prop where
  nodup : (todo.map fun q => q.1.state.handle).Nodup
  drawn : ∀ q ∈ todo, q.1.state.handle.serial < w.next.serial
  unheld : ∀ q ∈ todo, ∀ id f, r.get? id = some f → f.state.handle ≠ q.1.state.handle

variable {w w' : World ω} {r r' : ReachedSet ν ρ θ} {e : Entry ν ρ} {id i : EntryId}
  {todo : Successors ν ρ} {q : Adjustment ν ρ × NodeId}

omit [LeafValue ν] in
theorem Below.later (h : Below r w) (hle : w.next.serial ≤ w'.next.serial) : Below r w' :=
  fun id f hf => Nat.lt_of_lt_of_le (h id f hf) hle

omit [LeafValue ν] in
theorem NewHandles.later (h : NewHandles todo w r) (hle : w.next.serial ≤ w'.next.serial) :
    NewHandles todo w' r :=
  { h with drawn := fun q hq => Nat.lt_of_lt_of_le (h.drawn q hq) hle }

omit [LeafValue ν] in
/-- The handles were drawn since `w`. -/
theorem NewHandles.start
    (h : Fresh w.next.serial w' (todo.map fun q => q.1.state.handle)) (hb : Below r w) :
    NewHandles todo w' r where
  nodup := h.nodup
  drawn q hq := (h.drawn _ (List.mem_map.2 ⟨q, hq, rfl⟩)).2
  unheld q hq id f hf heq := by
    have h1 := (h.drawn q.1.state.handle (List.mem_map.2 ⟨q, hq, rfl⟩)).1
    have h2 := hb id f hf
    rw [heq] at h2
    omega

omit [LeafValue ν] in
theorem NewHandles.tail (h : NewHandles (q :: todo) w r) : NewHandles todo w r where
  nodup := (List.nodup_cons.1 h.nodup).2
  drawn p hp := h.drawn p (List.mem_cons_of_mem q hp)
  unheld p hp := h.unheld p (List.mem_cons_of_mem q hp)

omit [LeafValue ν] in
theorem NewHandles.not_contains (h : NewHandles (q :: todo) w r) (hs : r.Sound) :
    ¬ r.store.contains q.1.state = true := by
  intro hc
  obtain ⟨id, f, hf, hfh⟩ := hs.store.contains_iff.1 hc
  exact h.unheld q List.mem_cons_self id f hf hfh

variable [Waitlist θ ν]

theorem Below.add (h : Below r w) (ha : r.add e = .ok (id, r'))
    (hlt : e.state.handle.serial < w.next.serial) : Below r' w := by
  intro j f hf
  rcases ReachedSet.new_or_old_of_add ha hf with ⟨-, rfl⟩ | hf
  · exact hlt
  · exact h j f hf

omit [LeafValue ν] in
theorem Below.remove (h : Below r w) (id : EntryId) : Below (r.remove id).2 w :=
  fun j f hf => h j f (ReachedSet.get?_remove_eq_some.1 hf).2

theorem NewHandles.add (h : NewHandles (q :: todo) w r) (ha : r.add e = .ok (id, r'))
    (he : e.state = q.1.state) : NewHandles todo w r' := by
  refine { h.tail with unheld := fun p hp j f hf => ?_ }
  rcases ReachedSet.new_or_old_of_add ha hf with ⟨-, rfl⟩ | hf
  · rw [he]
    exact fun heq => (List.nodup_cons.1 h.nodup).1 (List.mem_map.2 ⟨p, hp, heq.symm⟩)
  · exact h.tail.unheld p hp j f hf

/-- An entry is replaced by one with a handle that was just drawn. -/
theorem NewHandles.replace (h : NewHandles todo w r) (hdrew : w.Drew w' e.state.handle)
    (ha : (r.remove id).2.add e = .ok (i, r')) : NewHandles todo w' r' := by
  obtain ⟨hge, hlt⟩ := hdrew
  refine { h.later (Nat.le_of_lt (Nat.lt_of_le_of_lt hge hlt)) with
    unheld := fun q hq j f hf => ?_ }
  rcases ReachedSet.new_or_old_of_add ha hf with ⟨-, rfl⟩ | hf
  · intro heq
    have hold := h.drawn q hq
    rw [heq] at hge
    omega
  · exact h.unheld q hq j f (ReachedSet.get?_remove_eq_some.1 hf).2

end

/-! ## Growth of the reached set -/

section

variable [Waitlist θ ν] {order : StateOrder ν} {r r' : ReachedSet ν ρ θ}

/-- What was covered stays covered, and an entry that does not wait was there before. -/
structure Grows (order : StateOrder ν) (r r' : ReachedSet ν ρ θ) : Prop where
  covered : ∀ place s, Covered order r place s → Covered order r' place s
  old : ∀ id e, r'.get? id = some e → r'.isWaiting id = false →
    r.get? id = some e ∧ r.isWaiting id = false

omit [LeafValue ν] in
theorem Grows.refl (r : ReachedSet ν ρ θ) : Grows order r r :=
  ⟨fun _ _ h => h, fun _ _ he hw => ⟨he, hw⟩⟩

omit [LeafValue ν] in
theorem Grows.trans {r'' : ReachedSet ν ρ θ} (h : Grows order r r') (h' : Grows order r' r'') :
    Grows order r r'' := by
  refine ⟨fun place s hs => h'.covered place s (h.covered place s hs), fun id e he hw => ?_⟩
  obtain ⟨he', hw'⟩ := h'.old id e he hw
  exact h.old id e he' hw'

theorem covered_of_add {e : Entry ν ρ} {id : EntryId} (h : r.add e = .ok (id, r')) :
    Covered order r' e.place e.state :=
  ⟨id, e, by rw [ReachedSet.get?_add h, if_pos rfl], rfl, order.refl e.state⟩

variable [Waitlist.Faithful θ ν]

theorem Grows.add {e : Entry ν ρ} {id : EntryId} (h : r.add e = .ok (id, r')) :
    Grows order r r' := by
  constructor
  · rintro place s ⟨j, f, hf, hplace, hle⟩
    exact ⟨j, f, ReachedSet.get?_add_of_some h j f hf, hplace, hle⟩
  · intro j f hf hw
    rcases ReachedSet.new_or_old_of_add h hf with ⟨rfl, -⟩ | hf
    · rw [ReachedSet.isWaiting_of_add h] at hw
      cases hw
    · refine ⟨hf, Bool.eq_false_iff.2 fun hj => ?_⟩
      rw [ReachedSet.isWaiting_add h hj] at hw
      cases hw

/-- An entry may be replaced by one at the same place that lies above it. -/
theorem Grows.replace {id i : EntryId} {e f : Entry ν ρ} (he : r.get? id = some e)
    (hplace : f.place = e.place) (hle : order.le e.state f.state)
    (h : (r.remove id).2.add f = .ok (i, r')) : Grows order r r' := by
  have hadd : Grows order (r.remove id).2 r' := .add h
  constructor
  · rintro place s ⟨j, g, hg, hgp, hgs⟩
    by_cases hj : j = id
    · subst hj
      cases he.symm.trans hg
      refine ⟨i, f, by rw [ReachedSet.get?_add h, if_pos rfl], hplace.trans hgp, ?_⟩
      exact order.trans hgs hle
    · have hg' := ReachedSet.get?_remove_eq_some.2 ⟨hj, hg⟩
      exact hadd.covered place s ⟨j, g, hg', hgp, hgs⟩
  · intro j g hg hw
    obtain ⟨hg, hw⟩ := hadd.old j g hg hw
    obtain ⟨hne, hg⟩ := ReachedSet.get?_remove_eq_some.1 hg
    refine ⟨hg, Bool.eq_false_iff.2 fun hj => ?_⟩
    rw [ReachedSet.isWaiting_remove hj hne] at hw
    cases hw

/-! ## One expansion -/

variable {x : Exploration ν ρ ω} {valid : World ω → Prop} {e : Entry ν ρ} {r₀ r₁ : ReachedSet ν ρ θ}
  {m : Machine ν ρ ω θ}

/-- The state of an expansion of `e` that started from `r₀`, when `todo` is still to be admitted. -/
structure Progress (x : Exploration ν ρ ω) (order : StateOrder ν) (valid : World ω → Prop)
    (e : Entry ν ρ) (r₀ : ReachedSet ν ρ θ) (todo : Successors ν ρ) (w : World ω)
    (r : ReachedSet ν ρ θ) : Prop extends NewHandles todo w r where
  world : valid w
  sound : r.Sound
  below : Below r w
  grows : Grows order r₀ r
  traced : Traced x valid e (x.program.leaving e.location) fun g s =>
    Adjusts x valid e.precision s fun t =>
      Covered order r ⟨t.location?.getD (s.location?.getD g.target), e.partition⟩ t ∨
      ∃ b, (b, t.location?.getD (s.location?.getD g.target)) ∈ todo ∧ t.Alike b.state

namespace Progress

variable {r₀ : ReachedSet ν ρ θ} {todo : Successors ν ρ} {a : Adjustment ν ρ}
  {l : NodeId} {w w' : World ω}

omit [Waitlist.Faithful θ ν] in
theorem start {out : Successors ν ρ}
    (h : Adjusted x valid w.next.serial e [] out w') (hs : r.Sound) (hb : Below r w) :
    Progress x order valid e r out w' r where
  toNewHandles := .start h.fresh hb
  world := h.world
  sound := hs
  below := hb.later h.supply
  grows := .refl r
  traced := h.traced.mono fun g s hs => by
    rcases hs with ⟨_, hs, _⟩ | hs
    · cases hs
    · exact hs.mono fun t ht => .inr ht

omit [Waitlist.Faithful θ ν] in
theorem later (h : Progress x order valid e r₀ todo w r) (hw : valid w')
    (hle : w.next.serial ≤ w'.next.serial) : Progress x order valid e r₀ todo w' r :=
  { h with
    toNewHandles := h.toNewHandles.later hle
    world := hw
    below := h.below.later hle }

omit [Waitlist.Faithful θ ν] in
/-- The reached set may grow, as long as it takes no handle of a successor that is to follow, and a
successor that is covered need not be admitted. -/
theorem step {todo' : Successors ν ρ} (h : Progress x order valid e r₀ todo w r)
    (hnew : NewHandles todo' w r') (hgrows : Grows order r r') (hsound : r'.Sound)
    (hbelow : Below r' w)
    (hdone : ∀ q ∈ todo, q ∈ todo' ∨ Covered order r' ⟨q.2, e.partition⟩ q.1.state) :
    Progress x order valid e r₀ todo' w r' where
  toNewHandles := hnew
  world := h.world
  sound := hsound
  below := hbelow
  grows := h.grows.trans hgrows
  traced := h.traced.mono fun g s hs => hs.mono fun t ht => by
    rcases ht with ht | ⟨b, hb, htb⟩
    · exact .inl (hgrows.covered _ _ ht)
    · rcases hdone _ hb with hb | ⟨id, f, hf, hplace, hle⟩
      · exact .inr ⟨b, hb, htb⟩
      · exact .inl ⟨id, f, hf, hplace, order.trans (order.of_alike htb) hle⟩

omit [Waitlist.Faithful θ ν] in
theorem cover (h : Progress x order valid e r₀ ((a, l) :: todo) w r)
    (hc : Covered order r ⟨l, e.partition⟩ a.state) : Progress x order valid e r₀ todo w r := by
  refine h.step h.toNewHandles.tail (.refl r) h.sound h.below ?_
  intro q hq
  rcases List.mem_cons.1 hq with rfl | hq
  · exact .inr hc
  · exact .inl hq

theorem add {id : EntryId} (h : Progress x order valid e r₀ ((a, l) :: todo) w r)
    (ha : r.add ⟨a.state, a.precision, l, e.partition⟩ = .ok (id, r')) :
    Progress x order valid e r₀ todo w r' := by
  refine h.step (h.toNewHandles.add ha rfl) (.add ha) (h.sound.add ha)
    (h.below.add ha (h.drawn (a, l) (by simp))) ?_
  intro q hq
  rcases List.mem_cons.1 hq with rfl | hq
  · exact .inr (covered_of_add ha)
  · exact .inl hq

/-- A reached state is replaced by one above it that has a new handle. -/
theorem replace {id i : EntryId} {f g : Entry ν ρ} (h : Progress x order valid e r₀ todo w r)
    (hf : r.get? id = some f) (hplace : g.place = f.place) (hle : order.le f.state g.state)
    (hdrew : w.Drew w' g.state.handle) (hw : valid w') (ha : (r.remove id).2.add g = .ok (i, r')) :
    Progress x order valid e r₀ todo w' r' := by
  have hsupply : w.next.serial ≤ w'.next.serial := by
    obtain ⟨h1, h2⟩ := hdrew
    omega
  exact (h.later hw hsupply).step (h.toNewHandles.replace hdrew ha) (.replace hf hplace hle ha)
    ((h.sound.remove id).add ha) (((h.below.later hsupply).remove id).add ha hdrew.2)
    fun q hq => .inl hq

omit [Waitlist.Faithful θ ν] in
theorem closed (h : Progress x order valid e r₀ [] w r) : Closed x order valid r e :=
  h.traced.mono fun g s hs => hs.mono fun t ht => by
    rcases ht with ht | ⟨_, hb, _⟩
    · exact ht
    · cases hb

end Progress

/-- What an expansion of `e` from `r₀` leaves behind when it ends before its time. -/
def Halted (x : Exploration ν ρ ω) (order : StateOrder ν) (valid : World ω → Prop) (e : Entry ν ρ)
    (r₀ : ReachedSet ν ρ θ) : Ending → View ν ρ ω θ
  | .crashed _, _, _, _ => True
  | .done _ false, _, r, _ => Grows order r₀ r ∧ Closed x order valid r e
  | _, _, r, _ => Grows order r₀ r

theorem merging (lawful : x.analysis.Lawful order valid) (s : State ν) (p : Precision ρ)
    (place : Place) (r₀ : ReachedSet ν ρ θ) (todo : Successors ν ρ) :
    MergePass x s p place (fun _ w r _ => Progress x order valid e r₀ todo w r)
      (Halted x order valid e r₀) where
  sound _ _ _ _ h := h.sound
  gone _ _ _ _ _ h _ := h
  same _ _ w r t f merged w' h _ _ hx _ := by
    obtain ⟨hw', hle⟩ := (lawful.merge_keeps s f.state p).of_run h.world hx
    exact h.later hw' hle
  replaced _ _ w r t f merged w' i r' h hf hplace hx hne ha := by
    have hw' := ((lawful.merge_keeps s f.state p).of_run h.world hx).1
    have hle := lawful.merge_above s f.state p w merged w' h.world hx
    have hdrew := (lawful.merge_fresh s f.state p w merged w' h.world hx).resolve_left hne
    exact h.replace (g := ⟨merged, p, place.location, place.partition⟩) hf hplace.symm hle hdrew hw'
      ha
  vanished id _ w r t f merged w' h hf _ hx hne hc := by
    -- A handle that was just drawn is not held by any entry.
    have hdrew := (lawful.merge_fresh s f.state p w merged w' h.world hx).resolve_left hne
    obtain ⟨j, g, hg, hgh⟩ := (h.sound.remove id).store.contains_iff.1 hc
    have h1 := h.below j g (ReachedSet.get?_remove_eq_some.1 hg).2
    have h2 := hdrew.1
    rw [hgh] at h1
    omega
  failed _ _ _ _ _ _ _ _ h _ _ _ := h.grows
  crashed _ _ _ _ := trivial

theorem admission (lawful : x.analysis.Lawful order valid) (r₀ : ReachedSet ν ρ θ) :
    Admission x e.partition (fun todo w r _ => Progress x order valid e r₀ todo w r)
      (Halted x order valid e r₀) where
  merging a l todo _ := merging lawful a.state a.precision ⟨l, e.partition⟩ r₀ ((a, l) :: todo)
  covered a l todo w r t w' h hx := by
    obtain ⟨hw', hle⟩ := (lawful.stop_keeps _ _ _).of_run h.world hx
    obtain ⟨s, hs, hsa⟩ := lawful.stop_below _ _ _ w w' h.world hx
    obtain ⟨id, f, hf, hplace, rfl⟩ := h.sound.store.mem_statesAt.1 hs
    exact (h.later hw' hle).cover ⟨id, f, hf, hplace, hsa⟩
  known a l todo w r t w' h _ hc := absurd hc (h.toNewHandles.not_contains h.sound)
  added a l todo w r t w' id r' h hx ha _ := by
    obtain ⟨hw', hle⟩ := (lawful.stop_keeps _ _ _).of_run h.world hx
    exact (h.later hw' hle).add ha
  found a l todo w r t w' id r' h hx ha _ := by
    obtain ⟨hw', hle⟩ := (lawful.stop_keeps _ _ _).of_run h.world hx
    have hadd := (h.later hw' hle).add ha
    refine ⟨hadd, ?_⟩
    cases todo with
    | nil => exact ⟨hadd.grows, hadd.closed⟩
    | cons _ _ => exact hadd.grows
  refused _ _ _ _ _ _ _ _ h _ _ := h.grows
  failed _ _ _ _ _ _ _ _ h _ := h.grows
  crashed _ _ _ _ _ _ _ _ _ _ := trivial

/-- The expansion of an entry closes it, or ends in a way that has it expanded once more. -/
theorem expand_closes (lawful : x.analysis.Lawful order valid) {id : EntryId}
    (he : m.reached.get? id = some e) (hw : valid m.meter.world) (hs : m.reached.Sound)
    (hb : Below m.reached m.meter.world) :
    Triple (fun m' => m' = m) (x.expand id)
      (fun _ => Machine.Meets fun w r _ => Progress x order valid e m.reached [] w r)
      (fun ending => Machine.Meets (Halted x order valid e m.reached ending)) := by
  refine expand_triple he ?_ (admission lawful m.reached)
  refine .weaken (successors_adjusted lawful m.reached.store e hw) ?_ ?_ ?_
  · rintro _ rfl
    rfl
  · intro out m' h
    exact .start h hs hb
  · intro ending m' h
    match ending, h with
    | .crashed _, _ => trivial
    | .failed _, _ => exact .refl _
    | .done _ true, _ => exact .refl _
    | .done _ false, h => cases h.2

/-! ## Whole runs -/

/-- What holds at each visit of the loop head. -/
structure SettledWf (x : Exploration ν ρ ω) (order : StateOrder ν) (valid : World ω → Prop)
    (m : Machine ν ρ ω θ) : Prop where
  world : valid m.meter.world
  sound : m.reached.Sound
  below : Below m.reached m.meter.world
  settled : Settled x order valid m.reached

namespace Settled

variable (h : Settled x order valid r₀)

include h

/-- After an expansion, all entries that do not wait are closed, apart from the expanded one. -/
theorem grow {next : Option EntryId} {j : EntryId} {f : Entry ν ρ} (hpop : r₀.pop = (next, r₁))
    (hgrows : Grows order r₁ r) (hf : r.get? j = some f) (hw : r.isWaiting j = false)
    (hj : next ≠ some j) : Closed x order valid r f := by
  obtain ⟨hf₁, hw₁⟩ := hgrows.old j f hf hw
  have hr₁ : r₁ = r₀.pop.2 := by rw [hpop]
  have hw₀ : r₀.isWaiting j = false := by
    refine Bool.eq_false_iff.2 fun hw₀ => ?_
    rcases ReachedSet.isWaiting_pop hw₀ with hp | hp
    · rw [hpop] at hp
      exact hj hp
    · rw [← hr₁, hw₁] at hp
      cases hp
  subst hr₁
  exact (h j f hf₁ hw₀).mono fun place s hs => hgrows.covered place s hs

theorem putBack {id : EntryId} (hpop : r₀.pop = (some id, r₁)) (hgrows : Grows order r₁ r) :
    Settled x order valid (r.reschedule id) := by
  intro j f hf hw
  have hw' : r.isWaiting j = false := by
    refine Bool.eq_false_iff.2 fun hj => ?_
    rw [ReachedSet.isWaiting_reschedule id hj] at hw
    cases hw
  rw [ReachedSet.get?_reschedule] at hf
  have hne : some id ≠ some j := by
    rintro ⟨⟩
    rw [ReachedSet.isWaiting_reschedule_self hf] at hw
    cases hw
  refine (h.grow hpop hgrows hf hw' hne).mono ?_
  rintro place s ⟨i, g, hg, hgs⟩
  exact ⟨i, g, by rw [ReachedSet.get?_reschedule]; exact hg, hgs⟩

theorem close {id : EntryId} (hpop : r₀.pop = (some id, r₁)) (he : r₁.get? id = some e)
    (hgrows : Grows order r₁ r) (hclosed : Closed x order valid r e) : Settled x order valid r := by
  intro j f hf hw
  by_cases hj : j = id
  · subst hj
    cases he.symm.trans (hgrows.old j f hf hw).1
    exact hclosed
  · exact h.grow hpop hgrows hf hw fun heq => hj (Option.some.inj heq).symm

end Settled

/-- One step keeps this, and it ends with closed entries besides those that wait. -/
theorem SettledWf.step (lawful : x.analysis.Lawful order valid) (h : SettledWf x order valid m) :
    (x.step m).Meets (SettledWf x order valid) fun result m' =>
      (∀ c, result ≠ .error (.crash c)) → Settled x order valid m'.reached := by
  refine step_rule (fun _ => h.settled) (fun _ _ => h.settled) (fun _ => h.settled) ?_ ?_
  · intro _ r hpop
    have hr : r = m.reached.pop.2 := by rw [hpop]
    refine ⟨h.world, h.sound.pop hpop, hr ▸ h.below, ?_⟩
    intro j f hf hw
    exact h.settled.grow hpop (.refl r) hf hw (by simp)
  · intro id r hpop
    have hr : r = m.reached.pop.2 := by rw [hpop]
    refine expand_rule (fun _ _ _ => h.settled.putBack hpop (.refl r)) fun e he => ?_
    refine .weaken (expand_closes (m := popped m r) lawful he h.world (h.sound.pop hpop)
      (hr ▸ h.below)) (fun _ hm => hm) ?_ ?_
    · intro _ m' hm
      exact ⟨hm.world, hm.sound, hm.below, h.settled.close hpop he hm.grows hm.closed⟩
    · intro ending m' hm
      match ending, hm with
      | .crashed c, _ => exact fun hc => absurd rfl (hc c)
      | .failed _, hm => exact fun _ => h.settled.putBack hpop hm
      | .done _ true, hm => exact fun _ => h.settled.putBack hpop hm
      | .done _ false, hm => exact fun _ => h.settled.close hpop he hm.1 hm.2

/-- No work is lost: when a run starts with every entry waiting, then at each visit of its loop
head, and however it ends, every entry that does not wait is closed. -/
theorem closed_unless_waiting (lawful : x.analysis.Lawful order valid) {m₀ : Machine ν ρ ω θ}
    (made : m₀.reached.Made) (world : valid m₀.meter.world)
    (below : Below m₀.reached m₀.meter.world)
    (waiting : ∀ id e, m₀.reached.get? id = some e → m₀.reached.isWaiting id = true) :
    (∀ m, Visits x m₀ m → Settled x order valid m.reached) ∧
    ∀ fuel result m, x.run fuel m₀ = some (result, m) → (∀ c, result ≠ .error (.crash c)) →
      Settled x order valid m.reached := by
  have start : SettledWf x order valid m₀ := by
    refine ⟨world, made.sound, below, fun id e he hw => ?_⟩
    rw [waiting id e he] at hw
    cases hw
  refine ⟨fun m hm => ?_, fun fuel result m hrun => ?_⟩
  · exact (hm.invariant (fun _ _ h => h.step lawful) start).settled
  · exact run_rule (fun _ _ h => h.step lawful) start hrun

end

/-- A program that goes round at its entry any number of times before it leaves. -/
def loop : Program := .ofPairs 0 [(0, 0), (0, 1)]

/-- The facts of the loop, joined at each location. -/
def loopFacts : Exploration FactValue Level Facts.Notes where
  program := loop
  analysis := Facts.analysis { merge := .join }
  isTarget _ := false
  options := {}
  token := ⟨0⟩

def loopEntry : Entry FactValue Level :=
  ⟨Facts.make {} ⟨0⟩ .empty none, .plain ⟨1⟩, ⟨0⟩, .whole⟩

def loopStart : Machine FactValue Level Facts.Notes SimpleWaitlist where
  meter := ⟨⟨⟨2⟩, .empty, ⟨0⟩, ⟨0⟩, ({}, .sep)⟩, {}⟩
  reached := ⟨loop, Store.empty.insert loopEntry, ⟨.breadthFirst, [⟨0⟩]⟩⟩
  targets := []

theorem eq_of_loopStart {id : EntryId} {e : Entry FactValue Level}
    (he : loopStart.reached.get? id = some e) : id = ⟨0⟩ ∧ e = loopEntry := by
  have he : (Store.empty.insert loopEntry).get? id = some e := he
  rw [Store.get?_insert, Store.get?_empty] at he
  split at he
  · next hid =>
    cases he
    exact ⟨hid, rfl⟩
  · cases he

/-- The entry of the loop is merged with its own successor while it is expanded. -/
theorem loop_closed_unless_waiting :
    (loopFacts.run 10 loopStart).map (fun p => (p.1.toOption, p.2.meter.counters.merges)) =
      some (some .exhausted, 2) ∧
    (∀ m, Visits loopFacts loopStart m →
      Settled loopFacts Facts.inclusion (fun _ => True) m.reached) ∧
    ∀ fuel result m, loopFacts.run fuel loopStart = some (result, m) →
      (∀ c, result ≠ .error (.crash c)) →
      Settled loopFacts Facts.inclusion (fun _ => True) m.reached := by
  have hadd : (ReachedSet.ofFrontier loop (SimpleWaitlist.ofOrder .breadthFirst)).add loopEntry =
      .ok (⟨0⟩, loopStart.reached) := rfl
  refine ⟨by decide +kernel,
    closed_unless_waiting (Facts.lawful rfl rfl rfl rfl rfl) (.add (.ofFrontier _ _) hadd) trivial
      ?_ ?_⟩
  · intro id e he
    obtain ⟨-, rfl⟩ := eq_of_loopStart he
    decide
  · intro id e he
    obtain ⟨rfl, -⟩ := eq_of_loopStart he
    decide

end ProgramAnalysis.Exploration
