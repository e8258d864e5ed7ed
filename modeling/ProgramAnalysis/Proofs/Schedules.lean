import ProgramAnalysis.Proofs.FactsOrder
/-!
For a monotone analysis that joins, the order of the expansions does not matter.

A property of states at places is preserved when transfers and joins keep it. The run of such an
analysis stays within every preserved property that its seed has, and a run that ends as exhausted
has one entry at a place and all successors of entries below entries (`Saturated`). Such a set
gives a preserved property itself: to lie below its entry at the place. So the result of one
exhausted run bounds every other run from the same seed, whatever their frontiers are.
-/

namespace ProgramAnalysis

variable {ν ρ ω θ : Type}

/-! ## Monotone analyses -/

/-- On the states of `D` the order is reflexive, and a join is the least upper bound and in `D`. -/
structure Domain.Lattice (d : Domain ν) (D : State ν → Prop) : Prop extends d.Bounding where
  refl : ∀ s, D s → d.Le s s
  least : ∀ s r m t h h', D s → D r → D t → (d.join s r).run.run h = (.ok m, h') → d.Le s t →
    d.Le r t → d.Le m t
  inside : ∀ s r m h h', D s → D r → (d.join s r).run.run h = (.ok m, h') → D m

/-- On the states of `D` and the precisions of `K` the transfer always answers, with states of `D`,
and a successor of the smaller of two states lies below one of the larger at the same location. -/
structure Analysis.Monotone [LeafValue ν] (a : Analysis ν ρ ω) (D : State ν → Prop)
    (K : Precision ρ → Prop) : Prop where
  total : ∀ s p g w, D s → K p →
    ∃ next w', (a.transfer.successors s [] p g).run.run w = (.ok next, w')
  inside : ∀ s p g next, D s → K p → Answers (a.transfer.successors s [] p g) next →
    ∀ t ∈ next, D t
  mono : ∀ s t p q g next next', D s → D t → K p → K q → a.domain.Le s t →
    Answers (a.transfer.successors s [] p g) next →
    Answers (a.transfer.successors t [] q g) next' →
    ∀ u ∈ next, ∃ v ∈ next',
      v.location?.getD g.target = u.location?.getD g.target ∧ a.domain.Le u v

namespace Exploration

open ReachedSet

variable [LeafValue ν] {x : Exploration ν ρ ω}

/-- Joins and transfers within the program keep the property, which only states of `D` have. -/
structure Preserved (x : Exploration ν ρ ω) (D : State ν → Prop) (K : Precision ρ → Prop)
    (part : Partition) (B : Place → State ν → Prop) : Prop where
  inside : ∀ place s, B place s → D s
  join : ∀ place s r m h h', B place s → B place r →
    (x.analysis.domain.join s r).run.run h = (.ok m, h') → B place m
  transfer : ∀ l s p g next, B ⟨l, part⟩ s → K p → g ∈ x.program.leaving l →
    ProgramAnalysis.Answers (x.analysis.transfer.successors s [] p g) next →
    ∀ t ∈ next, B ⟨t.location?.getD g.target, part⟩ t

/-- All successors of the entry along the edges have the property at their places. -/
def Follows (x : Exploration ν ρ ω) (e : Entry ν ρ) (edges : List ProgramEdge)
    (Q : Place → State ν → Prop) : Prop :=
  ∀ g ∈ edges, ∃ next,
    ProgramAnalysis.Answers (x.transfer e g) next ∧
    ∀ t ∈ next, Q ⟨t.location?.getD g.target, e.partition⟩ t

theorem Follows.mono {e : Entry ν ρ} {edges : List ProgramEdge} {Q Q' : Place → State ν → Prop}
    (h : Follows x e edges Q) (hQ : ∀ place t, Q place t → Q' place t) : Follows x e edges Q' := by
  intro g hg
  obtain ⟨next, hnext, hall⟩ := h g hg
  exact ⟨next, hnext, fun t ht => hQ _ _ (hall t ht)⟩

/-! ## The successors of an entry -/

section

variable {x : Exploration ν ρ ω} {D : State ν → Prop} {K : Precision ρ → Prop}
  {B : Place → State ν → Prop} {e : Entry ν ρ} {n : Nat}

/-- What the transfer stage of an expansion has given after the edges `done`. -/
structure Branches (x : Exploration ν ρ ω) (B : Place → State ν → Prop) (n : Nat) (e : Entry ν ρ)
    (done : List ProgramEdge) (raw : Batch ν) (w : World ω) : Prop where
  supply : n ≤ w.next.serial
  fresh : Fresh n w (raw.map fun q => q.1.handle)
  fixed : ∀ q ∈ raw, q.1.location?.getD q.2 = q.2
  inside : ∀ q ∈ raw, B ⟨q.2, e.partition⟩ q.1
  follows : Follows x e done fun place t => (t, place.location) ∈ raw

theorem branches_gathering (monotone : x.analysis.Monotone D K) (forward : x.analysis.Forward)
    (fresh : x.analysis.Fresh) (preserved : Preserved x D K e.partition B) (hK : K e.precision)
    (hB : B e.place e.state) (n : Nat) :
    Gathering x e (x.program.leaving e.location) (Branches x B n e)
      (fun ending _ => Inexhausted ending) where
  got done g rest raw w next w' hall hT hx := by
    have hle := ((forward.transfer e.state e.precision g).of_run trivial hx).2
    obtain ⟨hnodup, hdrew⟩ := fresh.transfer _ _ _ w next w' hx
    refine ⟨Nat.le_trans hT.supply hle, ?_, fun q hq => ?_, fun q hq => ?_, fun g' hg' => ?_⟩
    · exact hT.fresh.branch hT.supply hle hnodup hdrew
    · rcases List.mem_append.1 hq with hq | hq
      · exact hT.fixed q hq
      · obtain ⟨s, -, rfl⟩ := List.mem_map.1 hq
        cases s.location? with
        | none => rfl
        | some l => rfl
    · rcases List.mem_append.1 hq with hq | hq
      · exact hT.inside q hq
      · obtain ⟨s, hs, rfl⟩ := List.mem_map.1 hq
        exact preserved.transfer e.location e.state e.precision g next hB hK (by rw [hall]; simp)
          ⟨w, w', hx⟩ s hs
    · rcases List.mem_append.1 hg' with hg' | hg'
      · exact hT.follows.mono (fun _ _ ht => List.mem_append_left _ ht) g' hg'
      · rw [List.mem_singleton.1 hg']
        refine ⟨next, ⟨w, w', hx⟩, fun t ht => List.mem_append_right _ ?_⟩
        exact List.mem_map.2 ⟨t, ht, rfl⟩
  dropped done g rest raw w err w' _ _ hx _ := by
    obtain ⟨next, w'', hok⟩ :=
      monotone.total e.state e.precision g w (preserved.inside _ _ hB) hK
    rw [hok] at hx
    cases hx
  refused _ _ _ _ _ err _ _ _ _ _ := inexhausted_of_early (.ofError err)
  cancelled _ _ _ _ _ := by simp [Inexhausted]
  crashed _ _ _ _ _ _ _ _ _ _ := by simp [Inexhausted]

theorem successors_branches (monotone : x.analysis.Monotone D K) (forward : x.analysis.Forward)
    (fresh : x.analysis.Fresh) (static : x.analysis.adjuster = .static)
    (preserved : Preserved x D K e.partition B) (hK : K e.precision) (hB : B e.place e.state)
    (store : Store ν ρ) (w₀ : World ω) :
    Triple (fun m => m.world = w₀) (x.successors store e)
      (fun out m => Branches x B w₀.next.serial e (x.program.leaving e.location)
        (out.map fun q => (q.1.state, q.2)) m.world ∧ ∀ q ∈ out, q.1.precision = e.precision)
      (fun ending _ => Inexhausted ending) := by
  refine .weaken (successors_unchanged
    (branches_gathering monotone forward fresh preserved hK hB w₀.next.serial)
    fun raw w hT q hq => ⟨hT.fixed q hq, by rw [adjustment, static]; rfl⟩) ?_ (fun _ _ hm => hm)
    fun _ _ hm => hm
  intro m hm
  rw [hm]
  exact ⟨Nat.le_refl _, ⟨List.nodup_nil, by simp⟩, by simp, by simp, fun g hg => by cases hg⟩

end

/-! ## Entries that grow -/

/-- An entry at the place lies above the state. -/
def Held (d : Domain ν) (r : ReachedSet ν ρ θ) (place : Place) (s : State ν) : Prop :=
  ∃ id e, r.get? id = some e ∧ e.place = place ∧ d.Le s e.state

/-- The entry is in the partition, its precision is in `K`, and its state has the property. -/
structure Kept (K : Precision ρ → Prop) (part : Partition) (B : Place → State ν → Prop)
    (e : Entry ν ρ) : Prop where
  partition : e.partition = part
  precision : K e.precision
  state : B e.place e.state

section

variable [Waitlist θ ν] {d : Domain ν} {r r' : ReachedSet ν ρ θ} {place : Place} {s : State ν}
  {e f : Entry ν ρ} {id i : EntryId}

theorem Held.add (h : Held d r place s) (ha : r.add e = .ok (id, r')) : Held d r' place s := by
  obtain ⟨j, f, hf, hplace, hle⟩ := h
  exact ⟨j, f, get?_add_of_some ha j f hf, hplace, hle⟩

/-- An entry may be replaced by one above it. -/
theorem Held.replace (hd : d.Bounding) (h : Held d r place s) (hf : r.get? id = some f)
    (hplace : e.place = f.place) (hle : d.Le f.state e.state)
    (ha : (r.remove id).2.add e = .ok (i, r')) : Held d r' place s := by
  obtain ⟨j, g, hg, hgp, hgs⟩ := h
  by_cases hj : j = id
  · subst hj
    cases hf.symm.trans hg
    exact ⟨i, e, by rw [get?_add ha, if_pos rfl], hplace.trans hgp,
      hd.trans _ _ _ hgs hle⟩
  · have hold : Held d (r.remove id).2 place s :=
      ⟨j, g, get?_remove_eq_some.2 ⟨hj, hg⟩, hgp, hgs⟩
    exact hold.add ha

/-- Each place has one entry at most. -/
def Single (r : ReachedSet ν ρ θ) : Prop :=
  ∀ i j e f, r.get? i = some e → r.get? j = some f → e.place = f.place → i = j

theorem Single.add (h : Single r) (ha : r.add e = .ok (id, r'))
    (hvacant : ∀ j f, r.get? j = some f → f.place ≠ e.place) : Single r' := by
  intro i j f g hf hg hplace
  rcases new_or_old_of_add ha hf with ⟨hi, rfl⟩ | hf <;>
    rcases new_or_old_of_add ha hg with ⟨hj, rfl⟩ | hg
  · exact hi.trans hj.symm
  · exact absurd hplace.symm (hvacant j g hg)
  · exact absurd hplace (hvacant i f hf)
  · exact h i j f g hf hg hplace

omit [LeafValue ν] in
theorem Single.remove (h : Single r) (id : EntryId) : Single (r.remove id).2 := by
  have hold : ∀ j f, (r.remove id).2.get? j = some f → r.get? j = some f := fun j f hf =>
    (get?_remove_eq_some.1 hf).2
  intro i j e f he hf
  exact h i j e f (hold i e he) (hold j f hf)

omit [LeafValue ν] in
/-- Without its only entry, a place is vacant. -/
theorem Single.vacant (h : Single r) (he : r.get? id = some e) :
    ∀ j f, (r.remove id).2.get? j = some f → f.place ≠ e.place := by
  intro j f hf hplace
  obtain ⟨hj, hf⟩ := get?_remove_eq_some.1 hf
  exact hj (h j id f e hf he hplace)

end

/-! ## One expansion -/

section

variable [Waitlist θ ν]

/-- What holds at each visit of the loop head and during an expansion. The seed is covered, and so are
all successors of the entries that neither wait nor are busy. -/
structure Rising (x : Exploration ν ρ ω) (K : Precision ρ → Prop) (part : Partition)
    (B : Place → State ν → Prop) (seed : Entry ν ρ) (busy : Entry ν ρ → Prop) (w : World ω)
    (r : ReachedSet ν ρ θ) : Prop where
  sound : r.Sound
  below : Below r w
  single : Single r
  kept : ∀ id f, r.get? id = some f → Kept K part B f
  seeded : Held x.analysis.domain r seed.place seed.state
  settled : ∀ id f, r.get? id = some f → r.isWaiting id = false →
    busy f ∨ Follows x f (x.program.leaving f.location) (Held x.analysis.domain r)

/-- The state of an expansion of `e`, when `todo` is still to be admitted. -/
structure Filing (x : Exploration ν ρ ω) (K : Precision ρ → Prop) (B : Place → State ν → Prop)
    (seed e : Entry ν ρ) (todo : Successors ν ρ) (w : World ω)
    (r : ReachedSet ν ρ θ) : Prop extends NewHandles todo w r where
  rising : Rising x K e.partition B seed (fun f => f = e) w r
  listed : ∀ q ∈ todo, Kept K e.partition B ⟨q.1.state, q.1.precision, q.2, e.partition⟩
  pending : Follows x e (x.program.leaving e.location) fun place t =>
    Held x.analysis.domain r place t ∨ ∃ a, (a, place.location) ∈ todo ∧ a.state = t

variable {x : Exploration ν ρ ω} {D : State ν → Prop} {K : Precision ρ → Prop} {part : Partition}
  {B : Place → State ν → Prop} {seed e f g : Entry ν ρ} {busy : Entry ν ρ → Prop}
  {w w' : World ω} {r r' : ReachedSet ν ρ θ} {id i : EntryId}
  {todo : Successors ν ρ} {a : Adjustment ν ρ} {l : NodeId}

theorem Rising.later (h : Rising x K part B seed busy w r) (hle : w.next.serial ≤ w'.next.serial) :
    Rising x K part B seed busy w' r :=
  { h with below := h.below.later hle }

theorem Filing.later (h : Filing x K B seed e todo w r) (hle : w.next.serial ≤ w'.next.serial) :
    Filing x K B seed e todo w' r :=
  { h with toNewHandles := h.toNewHandles.later hle, rising := h.rising.later hle }

/-- The set may change to one in which everything is still covered and an entry is old, or new and
waiting. -/
theorem Rising.step (h : Rising x K part B seed busy w r) (hsound : r'.Sound) (hsingle : Single r')
    (hheld : ∀ place s, Held x.analysis.domain r place s → Held x.analysis.domain r' place s)
    (hnew : ∀ j f, r'.get? j = some f →
      r.get? j = some f ∧ (r'.isWaiting j = false → r.isWaiting j = false) ∨
      Kept K part B f ∧ f.state.handle.serial < w.next.serial ∧ r'.isWaiting j = true) :
    Rising x K part B seed busy w r' where
  sound := hsound
  below j f hf := by
    rcases hnew j f hf with ⟨hf, -⟩ | ⟨-, hlt, -⟩
    · exact h.below j f hf
    · exact hlt
  single := hsingle
  kept j f hf := by
    rcases hnew j f hf with ⟨hf, -⟩ | ⟨hkept, -⟩
    · exact h.kept j f hf
    · exact hkept
  seeded := hheld _ _ h.seeded
  settled j f hf hw := by
    rcases hnew j f hf with ⟨hf, hold⟩ | ⟨-, -, hwait⟩
    · rcases h.settled j f hf (hold hw) with hbusy | hclosed
      · exact .inl hbusy
      · exact .inr (hclosed.mono hheld)
    · rw [hwait] at hw
      cases hw

variable [Waitlist.Faithful θ ν]

theorem Rising.add (h : Rising x K part B seed busy w r) (ha : r.add f = .ok (id, r'))
    (hvacant : ∀ j g, r.get? j = some g → g.place ≠ f.place) (hkept : Kept K part B f)
    (hlt : f.state.handle.serial < w.next.serial) : Rising x K part B seed busy w r' := by
  refine h.step (h.sound.add ha) (h.single.add ha hvacant) (fun _ _ hs => hs.add ha) fun j g hg => ?_
  rcases new_or_old_of_add ha hg with ⟨rfl, rfl⟩ | hg
  · exact .inr ⟨hkept, hlt, isWaiting_of_add ha⟩
  · refine .inl ⟨hg, fun hw => Bool.eq_false_iff.2 fun hj => ?_⟩
    rw [isWaiting_add ha hj] at hw
    cases hw

theorem Rising.replace (hd : x.analysis.domain.Bounding) (h : Rising x K part B seed busy w r)
    (hf : r.get? id = some f) (hplace : g.place = f.place)
    (hle : x.analysis.domain.Le f.state g.state) (ha : (r.remove id).2.add g = .ok (i, r'))
    (hkept : Kept K part B g) (hlt : g.state.handle.serial < w.next.serial) :
    Rising x K part B seed busy w r' := by
  refine h.step ((h.sound.remove id).add ha) ((h.single.remove id).add ha ?_)
    (fun _ _ hs => hs.replace hd hf hplace hle ha) fun j k hk => ?_
  · rw [hplace]
    exact h.single.vacant hf
  · rcases new_or_old_of_add ha hk with ⟨rfl, rfl⟩ | hk
    · exact .inr ⟨hkept, hlt, isWaiting_of_add ha⟩
    · obtain ⟨hne, hk⟩ := get?_remove_eq_some.1 hk
      refine .inl ⟨hk, fun hw => Bool.eq_false_iff.2 fun hj => ?_⟩
      rw [isWaiting_add ha (isWaiting_remove hj hne)] at hw
      cases hw

omit [Waitlist.Faithful θ ν] in
/-- The rest of the successors stays pending when the set grows. -/
theorem Filing.step {todo' : Successors ν ρ} (h : Filing x K B seed e todo w r)
    (hsub : todo' ⊆ todo) (hnew : NewHandles todo' w r')
    (hrising : Rising x K e.partition B seed (fun f => f = e) w r')
    (hheld : ∀ place s, Held x.analysis.domain r place s → Held x.analysis.domain r' place s)
    (hdone : ∀ q ∈ todo, q ∈ todo' ∨
      Held x.analysis.domain r' ⟨q.2, e.partition⟩ q.1.state) : Filing x K B seed e todo' w r' where
  toNewHandles := hnew
  rising := hrising
  listed q hq := h.listed q (hsub hq)
  pending := by
    intro g hg
    obtain ⟨next, hanswers, hnext⟩ := h.pending g hg
    refine ⟨next, hanswers, fun t ht => ?_⟩
    rcases hnext t ht with hheldt | ⟨a, ha, hat⟩
    · exact .inl (hheld _ _ hheldt)
    · rcases hdone _ ha with hmem | hheldt
      · exact .inr ⟨a, hmem, hat⟩
      · rw [hat] at hheldt
        exact .inl hheldt

theorem filing_joins (lattice : x.analysis.domain.Lattice D)
    (preserved : Preserved x D K e.partition B) :
    Joins x e.partition fun todo w (r : ReachedSet ν ρ θ) => Filing x K B seed e todo w r where
  sound _ _ _ h := h.rising.sound
  below _ _ _ h := h.rising.below
  later _ _ _ _ h hle := h.later hle
  grown a l todo w r id f merged w' i r' h hf hplace hnot hle hupper hdrew hjoin ha := by
    have hsupply : w.next.serial ≤ w'.next.serial := by
      obtain ⟨h1, h2⟩ := hdrew
      omega
    have hlisted := h.listed (a, l) (by simp)
    have hkept : Kept K e.partition B ⟨merged, a.precision, l, e.partition⟩ := by
      refine ⟨rfl, hlisted.precision, ?_⟩
      refine preserved.join ⟨l, e.partition⟩ a.state f.state merged _ _ hlisted.state ?_ hjoin
      rw [← hplace]
      exact (h.rising.kept id f hf).state
    have hplace : (⟨merged, a.precision, l, e.partition⟩ : Entry ν ρ).place = f.place := hplace.symm
    have hrising := (h.later hsupply).rising.replace lattice.toBounding hf hplace hle ha hkept hdrew.2
    exact (h.later hsupply).step (List.Subset.refl _) (h.toNewHandles.replace hdrew ha) hrising
      (fun _ _ hs => hs.replace lattice.toBounding hf hplace hle ha) fun q hq => .inl hq
  covered a l todo w r id f h hf hplace hle := by
    refine h.step (List.subset_cons_self _ _) h.toNewHandles.tail h.rising (fun _ _ hs => hs)
      fun q hq => ?_
    rcases List.mem_cons.1 hq with rfl | hq
    · exact .inr ⟨id, f, hf, hplace, hle⟩
    · exact .inl hq
  known a l todo w r h hc := absurd hc (h.toNewHandles.not_contains h.rising.sound)
  added a l todo w r id r' h hvacant ha := by
    have hlisted := h.listed (a, l) (by simp)
    have hrefl : x.analysis.domain.Le a.state a.state :=
      lattice.refl _ (preserved.inside _ _ hlisted.state)
    refine h.step (List.subset_cons_self _ _) (h.toNewHandles.add ha rfl)
      (h.rising.add ha hvacant hlisted (h.drawn (a, l) (by simp))) (fun _ _ hs => hs.add ha)
      fun q hq => ?_
    rcases List.mem_cons.1 hq with rfl | hq
    · exact .inr ⟨id, _, by rw [get?_add ha, if_pos rfl], rfl, hrefl⟩
    · exact .inl hq

/-! ## Whole runs -/

/-- A set that is the result of an exhausted run: all successors of entries are covered. -/
structure Saturated (x : Exploration ν ρ ω) (K : Precision ρ → Prop) (part : Partition)
    (B : Place → State ν → Prop) (seed : Entry ν ρ) (r : ReachedSet ν ρ θ) : Prop where
  single : Single r
  kept : ∀ id f, r.get? id = some f → Kept K part B f
  seeded : Held x.analysis.domain r seed.place seed.state
  closed : ∀ id f, r.get? id = some f →
    Follows x f (x.program.leaving f.location) (Held x.analysis.domain r)

/-- The popped entry is the only one that stops to wait. -/
theorem Rising.pop (h : Rising x K part B seed (fun _ => False) w r) (hpop : r.pop = (some id, r'))
    (he : r'.get? id = some e) : Rising x K part B seed (fun f => f = e) w r' := by
  obtain rfl : r' = r.pop.2 := by rw [hpop]
  refine ⟨h.sound.of_store rfl rfl, h.below, h.single, h.kept, h.seeded, fun j f hf hw => ?_⟩
  by_cases hj : j = id
  · subst hj
    exact .inl (Option.some.inj (hf.symm.trans he))
  · have hold : r.isWaiting j = false := by
      refine Bool.eq_false_iff.2 fun hw₀ => ?_
      rcases isWaiting_pop hw₀ with hp | hp
      · rw [hpop] at hp
        exact hj (Option.some.inj hp).symm
      · rw [hw] at hp
        cases hp
    exact .inr ((h.settled j f hf hold).resolve_left not_false)

omit [Waitlist.Faithful θ ν] in
theorem Filing.start {out : Successors ν ρ}
    (h : Rising x K e.partition B seed (fun f => f = e) w r) (hK : K e.precision)
    (hbranches : Branches x B w.next.serial e (x.program.leaving e.location)
      (out.map fun q => (q.1.state, q.2)) w')
    (hprecision : ∀ q ∈ out, q.1.precision = e.precision) : Filing x K B seed e out w' r where
  toNewHandles := .start (by simpa [Function.comp_def] using hbranches.fresh) h.below
  rising := h.later hbranches.supply
  listed q hq := by
    refine ⟨rfl, ?_, hbranches.inside (q.1.state, q.2) (List.mem_map.2 ⟨q, hq, rfl⟩)⟩
    rw [hprecision q hq]
    exact hK
  pending := by
    refine hbranches.follows.mono fun place t ht => .inr ?_
    obtain ⟨q, hq, heq⟩ := List.mem_map.1 ht
    obtain ⟨rfl, hl⟩ := Prod.mk.inj heq
    rw [← hl]
    exact ⟨q.1, hq, rfl⟩

omit [Waitlist.Faithful θ ν] in
theorem Filing.finish (h : Filing x K B seed e [] w r) :
    Rising x K e.partition B seed (fun _ => False) w r := by
  refine { h.rising with settled := fun id f hf hw => .inr ?_ }
  rcases h.rising.settled id f hf hw with rfl | hclosed
  · refine h.pending.mono fun place t ht => ?_
    rcases ht with hheld | ⟨_, hmem, -⟩
    · exact hheld
    · cases hmem
  · exact hclosed

variable (joining : x.analysis.Joining) (lattice : x.analysis.domain.Lattice D)
  (monotone : x.analysis.Monotone D K) (forward : x.analysis.Forward) (fresh : x.analysis.Fresh)
  (static : x.analysis.adjuster = .static) {m : Machine ν ρ ω θ}

include joining lattice monotone forward fresh static

/-- An expansion covers all successors of its entry. -/
theorem Rising.expand (preserved : Preserved x D K part B)
    (h : Rising x K part B seed (fun _ => False) m.meter.world m.reached)
    (hpop : m.reached.pop = (some id, r)) :
    Triple (fun m' => m' = popped m r) (x.expand id)
      (fun _ m' => Rising x K part B seed (fun _ => False) m'.meter.world m'.reached)
      (fun ending _ => Inexhausted ending) := by
  refine expand_rule (fun _ _ => by simp [Inexhausted]) fun e he => ?_
  have hrising := h.pop hpop he
  have hkept := hrising.kept id e he
  obtain rfl := hkept.partition
  have hjoins : Joins x e.partition fun todo w (r : ReachedSet ν ρ θ) =>
      Filing x K B seed e todo w r := filing_joins lattice preserved
  refine .post (expand_intake he ?_ (hjoins.intake joining lattice.toBounding))
    fun _ m' hm => hm.finish
  refine .weaken (successors_branches monotone forward fresh static preserved hkept.precision
    hkept.state r.store m.meter.world) ?_ ?_ fun _ _ hm => hm
  · rintro _ rfl
    rfl
  · rintro out n ⟨hbranches, hprecision⟩
    exact .start hrising hkept.precision hbranches hprecision

variable [Waitlist.Listed θ ν]

/-- A run from the seed that ends as exhausted leaves a saturated set, within every preserved
property that the seed has. -/
theorem exhausted_saturated (preserved : Preserved x D K part B) {m₀ : Machine ν ρ ω θ}
    {frontier : θ} {fuel : Nat}
    (hadd : (ReachedSet.ofFrontier x.program frontier).add seed = .ok (id, m₀.reached))
    (hseed : Kept K part B seed) (hdrawn : seed.state.handle.serial < m₀.meter.world.next.serial)
    (hrun : x.run fuel m₀ = some (.ok .exhausted, m)) : Saturated x K part B seed m.reached := by
  have hget : ∀ j f, m₀.reached.get? j = some f → j = id ∧ f = seed := by
    intro j f hf
    rcases new_or_old_of_add hadd hf with hnew | hold
    · exact hnew
    · cases hold
  have start : Rising x K part B seed (fun _ => False) m₀.meter.world m₀.reached := by
    refine ⟨(sound_ofFrontier x.program frontier).add hadd, fun j f hf => ?_,
      fun i j e f he hf _ => ?_, fun j f hf => ?_, ?_, fun j f hf hw => ?_⟩
    · rw [(hget j f hf).2]
      exact hdrawn
    · rw [(hget i e he).1, (hget j f hf).1]
    · rw [(hget j f hf).2]
      exact hseed
    · have hrefl := lattice.refl _ (preserved.inside _ _ hseed.state)
      exact ⟨id, seed, by rw [get?_add hadd, if_pos rfl], rfl, hrefl⟩
    · rw [(hget j f hf).1, isWaiting_of_add hadd] at hw
      cases hw
  have step : ∀ m, Visits x m₀ m →
      Rising x K part B seed (fun _ => False) m.meter.world m.reached →
      (x.step m).Meets
        (fun m => Rising x K part B seed (fun _ => False) m.meter.world m.reached)
        (fun result m => result = .ok .exhausted → Saturated x K part B seed m.reached) := by
    intro m _ h
    refine step_rule (fun hend => by cases hend) ?_ (fun hend => by cases hend)
      (fun hw r hpop => absurd hpop (pop_ne_none hw)) fun id r hpop => ?_
    · intro hempty _
      refine ⟨h.single, h.kept, h.seeded, fun j f hf => ?_⟩
      exact (h.settled j f hf (not_isWaiting hempty j)).resolve_left not_false
    · exact .fail (h.expand joining lattice monotone forward fresh static preserved hpop)
        fun ending m' hend => cut_of_inexhausted id hend m'
  exact run_rule step start hrun rfl

end

/-- To lie below the entry of a saturated set is a preserved property. -/
theorem Saturated.preserved {D : State ν → Prop} {K : Precision ρ → Prop} {part : Partition}
    {seed : Entry ν ρ} {r : ReachedSet ν ρ θ} (h : Saturated x K part (fun _ => D) seed r)
    (lattice : x.analysis.domain.Lattice D) (monotone : x.analysis.Monotone D K) :
    Preserved x D K part fun place s => D s ∧ Held x.analysis.domain r place s where
  inside _ _ hs := hs.1
  join := by
    rintro place s t m n n' ⟨hs, i, e, he, hep, hse⟩ ⟨ht, j, f, hf, hfp, htf⟩ hjoin
    -- The two entries are the only one at the place.
    obtain rfl := h.single i j e f he hf (hep.trans hfp.symm)
    cases he.symm.trans hf
    refine ⟨lattice.inside s t m n n' hs ht hjoin, i, e, he, hep, ?_⟩
    exact lattice.least s t m e.state n n' hs ht (h.kept i e he).state hjoin hse htf
  transfer := by
    rintro l s p g next ⟨hs, i, e, he, hep, hse⟩ hp hg hnext t ht
    have hkept := h.kept i e he
    have hl : e.location = l := congrArg Place.location hep
    obtain ⟨next', hnext', hheld⟩ := h.closed i e he g (by rw [hl]; exact hg)
    obtain ⟨u, hu, hlocation, htu⟩ := monotone.mono s e.state p e.precision g next next' hs
      hkept.state hp hkept.precision hse hnext hnext' t ht
    obtain ⟨j, f, hf, hfp, huf⟩ := hheld u hu
    refine ⟨monotone.inside s p g next hs hp hnext t ht, j, f, hf, ?_, ?_⟩
    · rw [hfp, hlocation, hkept.partition]
    · exact lattice.trans _ _ _ htu huf

/-- A run that starts with the seed alone on some frontier ends as exhausted, with `m`. -/
structure Exhausts [Waitlist θ ν] (x : Exploration ν ρ ω) (seed : Entry ν ρ)
    (m₀ m : Machine ν ρ ω θ) : Prop where
  seeded : ∃ frontier id,
    (ReachedSet.ofFrontier x.program frontier).add seed = .ok (id, m₀.reached)
  drawn : seed.state.handle.serial < m₀.meter.world.next.serial
  ended : ∃ fuel, x.run fuel m₀ = some (.ok .exhausted, m)

section

variable {x : Exploration ν ρ ω} {D : State ν → Prop} {K : Precision ρ → Prop} {θ₁ θ₂ : Type}
  [Waitlist θ₁ ν] [Waitlist.Faithful θ₁ ν] [Waitlist.Listed θ₁ ν]
  [Waitlist θ₂ ν] [Waitlist.Faithful θ₂ ν] [Waitlist.Listed θ₂ ν]
  {e₁ e₂ : Entry ν ρ} {m₁ m₁' : Machine ν ρ ω θ₁} {m₂ m₂' : Machine ν ρ ω θ₂}

section

variable (joining : x.analysis.Joining) (lattice : x.analysis.domain.Lattice D)
  (monotone : x.analysis.Monotone D K) (forward : x.analysis.Forward) (fresh : x.analysis.Fresh)
  (static : x.analysis.adjuster = .static)

include joining lattice monotone forward fresh static

theorem Exhausts.saturated {B : Place → State ν → Prop} {part : Partition}
    (preserved : Preserved x D K part B) (h : Exhausts x e₁ m₁ m₁') (hkept : Kept K part B e₁) :
    Saturated x K part B e₁ m₁'.reached := by
  obtain ⟨frontier, id, hadd⟩ := h.seeded
  obtain ⟨fuel, hrun⟩ := h.ended
  exact exhausted_saturated joining lattice monotone forward fresh static preserved hadd hkept h.drawn
    hrun

/-- A run stays below a saturated set that lies above its seed. -/
theorem Exhausts.below (h : Exhausts x e₁ m₁ m₁') {r : ReachedSet ν ρ θ}
    (hr : Saturated x K e₁.partition (fun _ => D) e₂ r) (hplace : e₁.place = e₂.place)
    (hle : x.analysis.domain.Le e₁.state e₂.state) (hD : D e₁.state) (hK : K e₁.precision)
    {id : EntryId} {f : Entry ν ρ} (hf : m₁'.reached.get? id = some f) :
    Held x.analysis.domain r f.place f.state := by
  have hseed : Held x.analysis.domain r e₁.place e₁.state := by
    obtain ⟨j, g, hg, hgp, hgs⟩ := hr.seeded
    exact ⟨j, g, hg, hgp.trans hplace.symm, lattice.trans _ _ _ hle hgs⟩
  have hresult := h.saturated joining lattice monotone forward fresh static
    (hr.preserved lattice monotone) ⟨rfl, hK, hD, hseed⟩
  exact (hresult.kept id f hf).state.2

end

/-- Two exhausted runs from equivalent seeds have entries at the same places, with equivalent states,
whatever their frontiers are. -/
theorem exhausted_runs_agree (joining : x.analysis.Joining)
    (lattice : x.analysis.domain.Lattice D) (monotone : x.analysis.Monotone D K)
    (forward : x.analysis.Forward) (fresh : x.analysis.Fresh)
    (static : x.analysis.adjuster = .static) (h₁ : Exhausts x e₁ m₁ m₁')
    (h₂ : Exhausts x e₂ m₂ m₂') (hplace : e₁.place = e₂.place)
    (hle₁ : x.analysis.domain.Le e₁.state e₂.state) (hle₂ : x.analysis.domain.Le e₂.state e₁.state)
    (hD₁ : D e₁.state) (hD₂ : D e₂.state) (hK₁ : K e₁.precision) (hK₂ : K e₂.precision) :
    (∀ place, (∃ id f, m₁'.reached.get? id = some f ∧ f.place = place) ↔
      ∃ id f, m₂'.reached.get? id = some f ∧ f.place = place) ∧
    ∀ i j f g, m₁'.reached.get? i = some f → m₂'.reached.get? j = some g → f.place = g.place →
      x.analysis.domain.Le f.state g.state ∧ x.analysis.domain.Le g.state f.state := by
  have hpart : e₂.partition = e₁.partition := (congrArg Place.partition hplace).symm
  have inside : Preserved x D K e₁.partition fun _ => D :=
    ⟨fun _ _ hs => hs, fun _ s r m h h' hs hr => lattice.inside s r m h h' hs hr,
      fun _ s p g next hs hp _ => monotone.inside s p g next hs hp⟩
  have hsat₁ := h₁.saturated joining lattice monotone forward fresh static inside ⟨rfl, hK₁, hD₁⟩
  have hsat₂ := h₂.saturated joining lattice monotone forward fresh static inside ⟨hpart, hK₂, hD₂⟩
  have hbelow₁ : ∀ i f, m₁'.reached.get? i = some f →
      Held x.analysis.domain m₂'.reached f.place f.state := fun i f hf =>
    h₁.below joining lattice monotone forward fresh static hsat₂ hplace hle₁ hD₁ hK₁ hf
  have hbelow₂ : ∀ j g, m₂'.reached.get? j = some g →
      Held x.analysis.domain m₁'.reached g.place g.state := fun j g hg =>
    h₂.below joining lattice monotone forward fresh static (hpart ▸ hsat₁) hplace.symm hle₂ hD₂ hK₂
      hg
  refine ⟨fun place => ⟨?_, ?_⟩, fun i j f g hf hg hfg => ⟨?_, ?_⟩⟩
  · rintro ⟨i, f, hf, rfl⟩
    obtain ⟨j, g, hg, hgf, -⟩ := hbelow₁ i f hf
    exact ⟨j, g, hg, hgf⟩
  · rintro ⟨j, g, hg, rfl⟩
    obtain ⟨i, f, hf, hfg, -⟩ := hbelow₂ j g hg
    exact ⟨i, f, hf, hfg⟩
  · obtain ⟨k, g', hg', hplace', hle⟩ := hbelow₁ i f hf
    obtain rfl := hsat₂.single k j g' g hg' hg (hplace'.trans hfg)
    cases hg.symm.trans hg'
    exact hle
  · obtain ⟨k, f', hf', hplace', hle⟩ := hbelow₂ j g hg
    obtain rfl := hsat₁.single k i f' f hf' hf (hplace'.trans hfg.symm)
    cases hf.symm.trans hf'
    exact hle

end

end Exploration

namespace Facts

variable {spec : Spec}

/-- Sets of facts with inclusion and union. -/
theorem lattice (horder : spec.order = .subset) (hjoin : spec.join = .union) :
    (domain spec).Lattice fun s => ∃ v, s.leaf? = some v :=
  { bounding horder hjoin with
    refl := by
      rintro s ⟨v, hs⟩
      exact (le_iff horder).2 ⟨v, v, hs, hs, rfl, fun _ hk => hk⟩
    least := fun s r m t h h' _ _ _ hrun hst hrt => join_least horder hjoin hrun hst hrt
    inside := by
      intro s r m h h' _ hr hrun
      obtain ⟨v, w, -, -, -, ⟨rfl, -⟩ | ⟨rfl, -⟩⟩ := join_eq_ok hjoin hrun
      · exact hr
      · exact ⟨_, rfl⟩ }

/-- A transfer without rules adds the fact of the edge. -/
theorem monotone (htransfer : spec.transfer = []) (horder : spec.order = .subset) :
    (analysis spec).Monotone (fun s => ∃ v, s.leaf? = some v) fun p => ∃ l, p.level = .ok l where
  total := by
    rintro s p g w ⟨v, hs⟩ ⟨l, hp⟩
    have hrun := run_successors htransfer s p g w
    rw [asLeaf_of_leaf? hs, hp] at hrun
    exact ⟨_, _, hrun⟩
  inside := by
    rintro s p g next ⟨v, hs⟩ ⟨l, hp⟩ ⟨w, w', hrun⟩ t ht
    have hrun : (successors spec s [] p g).run.run w = (.ok next, w') := hrun
    rw [run_successors htransfer, asLeaf_of_leaf? hs, hp] at hrun
    cases hrun
    rw [List.mem_singleton.1 ht]
    exact ⟨_, rfl⟩
  mono := by
    rintro s t p q g next next' ⟨v, hs⟩ ⟨u, ht⟩ ⟨l, hp⟩ ⟨l', hq⟩ hle ⟨w, w', hrun⟩ ⟨z, z', hrun'⟩
    have hrun : (successors spec s [] p g).run.run w = (.ok next, w') := hrun
    have hrun' : (successors spec t [] q g).run.run z = (.ok next', z') := hrun'
    obtain ⟨v', u', hs', ht', hvu⟩ := (le_iff horder).1 hle
    cases hs.symm.trans hs'
    cases ht.symm.trans ht'
    rw [run_successors htransfer, asLeaf_of_leaf? hs, hp] at hrun
    rw [run_successors htransfer, asLeaf_of_leaf? ht, hq] at hrun'
    cases hrun
    cases hrun'
    intro s₁ hs₁
    rw [List.mem_singleton.1 hs₁]
    refine ⟨_, List.mem_singleton.2 rfl, rfl, (le_iff horder).2 ⟨_, _, rfl, rfl, rfl, fun k hk => ?_⟩⟩
    obtain ⟨hmem, hlt⟩ := FactSet.mem_visible.1 hk
    refine FactSet.mem_visible.2 ⟨FactSet.mem_insertAll.2 ?_, hlt⟩
    rcases FactSet.mem_insertAll.1 hmem with hmem | hmem
    · -- Nothing is erased.
      have hv : k ∈ v.facts.members := (List.mem_filter.1 hmem).1
      have hu := (FactSet.mem_visible.1 (hvu.2 k (FactSet.mem_visible.2 ⟨hv, hlt⟩))).1
      exact .inl (List.mem_filter.2 ⟨hu, rfl⟩)
    · exact .inr hmem

end Facts

namespace Exploration

/-- The entry of the loop, drawn in another world. -/
def lateEntry : Entry FactValue Level :=
  ⟨Facts.make {} ⟨7⟩ .empty none, .plain ⟨8⟩, ⟨0⟩, .whole⟩

/-- A start of the loop that takes the exit before it goes round once more. -/
def lateStart : Machine FactValue Level Facts.Notes (KeyedWaitlist FactValue) where
  meter := ⟨⟨⟨9⟩, .empty, ⟨0⟩, ⟨0⟩, ({}, .sep)⟩, {}⟩
  reached := ⟨loop, Store.empty.insert lateEntry, (KeyedWaitlist.ofKey (fun n _ => -(n.index : Int))
    .depthFirst).push ⟨0⟩ ⟨0⟩ lateEntry.state⟩
  targets := []

/-- The second run expands the exit twice, and the results agree. -/
theorem loop_runs_agree : ∃ m₁ m₂, Exhausts loopFacts loopEntry loopStart m₁ ∧
    m₁.meter.counters.iterations = 3 ∧ Exhausts loopFacts lateEntry lateStart m₂ ∧
    m₂.meter.counters.iterations = 4 ∧
    (∀ place, (∃ id f, m₁.reached.get? id = some f ∧ f.place = place) ↔
      ∃ id f, m₂.reached.get? id = some f ∧ f.place = place) ∧
    ∀ i j f g, m₁.reached.get? i = some f → m₂.reached.get? j = some g → f.place = g.place →
      loopFacts.analysis.domain.Le f.state g.state ∧
        loopFacts.analysis.domain.Le g.state f.state := by
  obtain ⟨m₁, hrun₁, hcount₁⟩ := exhausted_of_any (loopFacts.run 10 loopStart)
    (fun m => decide (m.meter.counters.iterations = 3)) (by decide +kernel)
  obtain ⟨m₂, hrun₂, hcount₂⟩ := exhausted_of_any (loopFacts.run 10 lateStart)
    (fun m => decide (m.meter.counters.iterations = 4)) (by decide +kernel)
  have h₁ : Exhausts loopFacts loopEntry loopStart m₁ :=
    ⟨⟨.ofOrder .breadthFirst, ⟨0⟩, rfl⟩, by decide, 10, hrun₁⟩
  have h₂ : Exhausts loopFacts lateEntry lateStart m₂ :=
    ⟨⟨.ofKey (fun n _ => -(n.index : Int)) .depthFirst, ⟨0⟩, rfl⟩, by decide, 10, hrun₂⟩
  have lawful : loopFacts.analysis.Lawful Facts.inclusion fun _ => True :=
    Facts.lawful rfl rfl rfl rfl rfl
  exact ⟨m₁, m₂, h₁, of_decide_eq_true hcount₁, h₂, of_decide_eq_true hcount₂,
    exhausted_runs_agree (Facts.joining rfl rfl) (Facts.lattice rfl rfl) (Facts.monotone rfl rfl)
      (Facts.forward rfl rfl rfl rfl rfl) lawful.fresh rfl h₁ h₂ rfl rfl rfl ⟨_, rfl⟩ ⟨_, rfl⟩
      ⟨_, rfl⟩ ⟨_, rfl⟩⟩

end Exploration

end ProgramAnalysis
