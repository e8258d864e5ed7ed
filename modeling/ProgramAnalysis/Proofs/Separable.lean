import ProgramAnalysis.Proofs.Contract
import ProgramAnalysis.Proofs.Frontiers
/-!
Frontiers with strangers in between.

What waits in one exploration may be what waits in another one, in the same order, and strangers
besides (`SublistRel`). A policy is separable (`Waitlist.Separable`) if it keeps this: an entry and
its counterpart can be scheduled and unscheduled together, a stranger alone, and what comes next is
a stranger, or else an entry and its counterpart come next on both sides. Newest first, oldest first
and smallest key first are all separable. A new ticket is the youngest, so where it is put among the
tickets of its key depends on the order alone.
-/

namespace ProgramAnalysis

variable {α β : Type} {R R' : α → β → Prop} {S S' : α → Prop} {l : List α} {l' : List β}

/-! ## Lists with strangers -/

/-- The first list is the second one, element by element along `R`, with strangers in between. -/
inductive SublistRel (R : α → β → Prop) (S : α → Prop) : List α → List β → Prop where
  | nil : SublistRel R S [] []
  | pair {a b l l'} :
      R a b → SublistRel R S l l' → SublistRel R S (a :: l) (b :: l')
  | skip {a l l'} : S a → SublistRel R S l l' → SublistRel R S (a :: l) l'

namespace SublistRel

theorem mono (h : SublistRel R S l l') (hR : ∀ a b, R a b → R' a b) (hS : ∀ a, S a → S' a) :
    SublistRel R' S' l l' := by
  induction h with
  | nil => exact .nil
  | pair hab _ ih => exact .pair (hR _ _ hab) ih
  | skip ha _ ih => exact .skip (hS _ ha) ih

theorem append {k : List α} {k' : List β} (h : SublistRel R S l l') (hk : SublistRel R S k k') :
    SublistRel R S (l ++ k) (l' ++ k') := by
  induction h with
  | nil => exact hk
  | pair hab _ ih => exact .pair hab ih
  | skip ha _ ih => exact .skip ha ih

theorem filter {p : α → Bool} {q : β → Bool} (h : SublistRel R S l l')
    (hpq : ∀ a b, R a b → p a = q b) : SublistRel R S (l.filter p) (l'.filter q) := by
  induction h with
  | nil => exact .nil
  | pair hab _ ih =>
    rw [List.filter_cons, List.filter_cons, hpq _ _ hab]
    split
    · exact .pair hab ih
    · exact ih
  | skip ha _ ih =>
    rw [List.filter_cons]
    split
    · exact .skip ha ih
    · exact ih

/-- Only strangers are taken out. -/
theorem filter_left {p : α → Bool} (h : SublistRel R S l l') (hp : ∀ a b, R a b → p a = true) :
    SublistRel R S (l.filter p) l' := by
  have hkept := h.filter (q := fun _ => true) hp
  have hall : l'.filter (fun _ => true) = l' := List.filter_eq_self.2 fun _ _ => rfl
  rwa [hall] at hkept

theorem eq_nil (h : SublistRel R S [] l') : l' = [] := by
  cases h
  rfl

variable {a : α}

theorem of_mem_left (h : SublistRel R S l l') (ha : a ∈ l) : (∃ b, R a b) ∨ S a := by
  induction h with
  | nil => cases ha
  | pair hab _ ih =>
    rcases List.mem_cons.1 ha with rfl | ha
    · exact .inl ⟨_, hab⟩
    · exact ih ha
  | skip hs _ ih =>
    rcases List.mem_cons.1 ha with rfl | ha
    · exact .inr hs
    · exact ih ha

theorem of_mem_right (h : SublistRel R S l l') {b : β} (hb : b ∈ l') : ∃ a ∈ l, R a b := by
  induction h with
  | nil => cases hb
  | pair hab _ ih =>
    rcases List.mem_cons.1 hb with rfl | hb
    · exact ⟨_, List.mem_cons_self, hab⟩
    · obtain ⟨a, ha, hr⟩ := ih hb
      exact ⟨a, List.mem_cons_of_mem _ ha, hr⟩
  | skip _ _ ih =>
    obtain ⟨a, ha, hr⟩ := ih hb
    exact ⟨a, List.mem_cons_of_mem _ ha, hr⟩

/-- The first element is a stranger, or it is the counterpart of the first one. -/
theorem of_cons (h : SublistRel R S (a :: l) l') :
    S a ∧ SublistRel R S l l' ∨ ∃ b k', l' = b :: k' ∧ R a b ∧ SublistRel R S l k' := by
  cases h with
  | pair hab h => exact .inr ⟨_, _, rfl, hab, h⟩
  | skip ha h => exact .inl ⟨ha, h⟩

/-- The last element is a stranger, or it is the counterpart of the last one. -/
theorem of_concat (h : SublistRel R S (l ++ [a]) l') :
    S a ∧ SublistRel R S l l' ∨ ∃ b k', l' = k' ++ [b] ∧ R a b ∧ SublistRel R S l k' := by
  induction l generalizing l' with
  | nil =>
    cases h with
    | pair hab h =>
      cases h
      exact .inr ⟨_, [], rfl, hab, .nil⟩
    | skip ha h => exact .inl ⟨ha, h⟩
  | cons head l ih =>
    cases h with
    | pair hab h =>
      rcases ih h with ⟨ha, h⟩ | ⟨b, k', rfl, hb, h⟩
      · exact .inl ⟨ha, .pair hab h⟩
      · exact .inr ⟨b, _ :: k', rfl, hb, .pair hab h⟩
    | skip hs h =>
      rcases ih h with ⟨ha, h⟩ | ⟨b, k', rfl, hb, h⟩
      · exact .inl ⟨ha, .skip hs h⟩
      · exact .inr ⟨b, k', rfl, hb, .skip hs h⟩

end SublistRel

/-! ## Separable frontiers -/

/-- Of two frontiers that split along a correspondence of entries and some strangers, the policy
keeps that they do. -/
class Waitlist.Separable (θ ν : Type) [Waitlist θ ν] where
  Splits : (EntryId → EntryId → Prop) → (EntryId → Prop) → θ → θ → Prop
  mono : ∀ {R R' S S'} {u v : θ}, Splits R S u v → (∀ i j, R i j → R' i j) →
    (∀ i, S i → S' i) → Splits R' S' u v
  known : ∀ {R S} {u v : θ} {i : EntryId}, Splits R S u v → Frontier.contains u i = true →
    (∃ j, R i j) ∨ S i
  known' : ∀ {R S} {u v : θ} {j : EntryId}, Splits R S u v → Frontier.contains v j = true →
    ∃ i, R i j
  push : ∀ {R S} {u v : θ} {i j : EntryId} {n : NodeId} {s t : State ν}, Splits R S u v → R i j →
    Frontier.contains u i = false → Frontier.contains v j = false → s.Alike t →
    Splits R S (Waitlist.push u i n s) (Waitlist.push v j n t)
  push_stranger : ∀ {R S} {u v : θ} {i : EntryId} {n : NodeId} {s : State ν}, Splits R S u v →
    S i → Frontier.contains u i = false → Splits R S (Waitlist.push u i n s) v
  remove : ∀ {R S} {u v : θ} {i j : EntryId}, Splits R S u v →
    (∀ a b, R a b → (a = i ↔ b = j)) →
    Splits R S (Frontier.remove u i).2 (Frontier.remove v j).2
  remove_stranger : ∀ {R S} {u v : θ} {i : EntryId}, Splits R S u v → (∀ a b, R a b → a ≠ i) →
    Splits R S (Frontier.remove u i).2 v
  pop : ∀ {R S} {u v : θ} {i : EntryId}, Splits R S u v → (Frontier.pop u).1 = some i →
    S i ∧ Splits R S (Frontier.pop u).2 v ∨
      ∃ j, R i j ∧ (Frontier.pop v).1 = some j ∧ Splits R S (Frontier.pop u).2 (Frontier.pop v).2
  empty : ∀ {R S} {u v : θ}, Splits R S u v → Frontier.size u = 0 → Frontier.size v = 0

/-- What is left of a list when an element and its counterpart are taken out of both. -/
theorem SublistRel.remove {R : EntryId → EntryId → Prop} {S : EntryId → Prop} {l l' : List EntryId}
    {i j : EntryId} (h : SublistRel R S l l') (hij : ∀ a b, R a b → (a = i ↔ b = j)) :
    SublistRel R S (l.filter fun a => a ≠ i) (l'.filter fun b => b ≠ j) := by
  refine h.filter fun a b hab => ?_
  rw [decide_eq_decide, Ne, hij a b hab]

namespace SimpleWaitlist

variable {R : EntryId → EntryId → Prop} {S : EntryId → Prop} {u v : SimpleWaitlist}

/-- Both queues are in the same order, with strangers in between on the first one. -/
def Splits (R : EntryId → EntryId → Prop) (S : EntryId → Prop) (u v : SimpleWaitlist) : Prop :=
  u.order = v.order ∧ SublistRel R S u.queue v.queue

theorem queue_push {w : SimpleWaitlist} {i : EntryId} (h : w.contains i = false) :
    w.push i = { w with queue := w.queue ++ [i] } := by
  unfold push
  rw [h]
  rfl

theorem Splits.pop (h : Splits R S u v) {i : EntryId} (hpop : u.next? = some i) :
    S i ∧ Splits R S u.pop.2 v ∨
      ∃ j, R i j ∧ v.next? = some j ∧ Splits R S u.pop.2 v.pop.2 := by
  obtain ⟨horder, hqueue⟩ := h
  obtain ⟨order, queue⟩ := u
  obtain ⟨order', queue'⟩ := v
  obtain rfl : order = order' := horder
  cases order with
  | depthFirst =>
    obtain ⟨rest, rfl⟩ := List.getLast?_eq_some_iff.1 hpop
    rcases hqueue.of_concat with ⟨hi, hrest⟩ | ⟨j, rest', hqueue', hij, hrest⟩
    · refine .inl ⟨hi, rfl, ?_⟩
      simpa [SimpleWaitlist.pop] using hrest
    · obtain rfl : queue' = rest' ++ [j] := hqueue'
      refine .inr ⟨j, hij, ?_, rfl, ?_⟩
      · simp [next?]
      · simpa [SimpleWaitlist.pop] using hrest
  | breadthFirst =>
    obtain ⟨rest, rfl⟩ := List.head?_eq_some_iff.1 hpop
    rcases hqueue.of_cons with ⟨hi, hrest⟩ | ⟨j, rest', hqueue', hij, hrest⟩
    · exact .inl ⟨hi, rfl, hrest⟩
    · obtain rfl : queue' = j :: rest' := hqueue'
      exact .inr ⟨j, hij, rfl, rfl, hrest⟩

end SimpleWaitlist

instance {ν : Type} : Waitlist.Separable SimpleWaitlist ν where
  Splits := SimpleWaitlist.Splits
  mono h hR hS := ⟨h.1, h.2.mono hR hS⟩
  known h hi := h.2.of_mem_left (SimpleWaitlist.contains_iff.1 hi)
  known' h hj := by
    obtain ⟨i, -, hij⟩ := h.2.of_mem_right (SimpleWaitlist.contains_iff.1 hj)
    exact ⟨i, hij⟩
  push {R S u v i j n s t} h hij hi hj _ := by
    show SimpleWaitlist.Splits R S (u.push i) (v.push j)
    rw [SimpleWaitlist.queue_push hi, SimpleWaitlist.queue_push hj]
    exact ⟨h.1, h.2.append (.pair hij .nil)⟩
  push_stranger {R S u v i n s} h hS hi := by
    show SimpleWaitlist.Splits R S (u.push i) v
    rw [SimpleWaitlist.queue_push hi]
    refine ⟨h.1, ?_⟩
    have hnew : SublistRel R S (u.queue ++ [i]) (v.queue ++ []) := h.2.append (.skip hS .nil)
    rwa [List.append_nil] at hnew
  remove h hij := ⟨h.1, h.2.remove hij⟩
  remove_stranger h hR := ⟨h.1, h.2.filter_left fun a b hab => decide_eq_true (hR a b hab)⟩
  pop h hpop := h.pop hpop
  empty {R S u v} h hu := by
    have hqueue := h.2
    rw [List.eq_nil_of_length_eq_zero (show u.queue.length = 0 from hu)] at hqueue
    exact congrArg List.length hqueue.eq_nil

/-! ## Smallest key first -/

namespace Ticket

variable {order : Order} {t u v : Ticket}

theorem before_trans (htu : t.before order u = true) (huv : u.before order v = true) :
    t.before order v = true := by
  cases order <;> simp [before] at htu huv ⊢ <;> omega

/-- Whether a ticket comes before an older one depends on their keys alone. -/
theorem before_congr {t' u' : Ticket} (h : u.stamp < t.stamp) (h' : u'.stamp < t'.stamp)
    (ht : t.key = t'.key) (hu : u.key = u'.key) : t.before order u = t'.before order u' := by
  unfold before
  rw [ht, hu]
  cases order with
  | depthFirst => simp [h, h']
  | breadthFirst => simp [Nat.lt_asymm h, Nat.lt_asymm h']

/-- An older ticket comes first unless the newer one does. -/
theorem before_of_older (h : u.stamp < t.stamp) (hbefore : t.before order u ≠ true) :
    u.before order t = true := by
  cases order <;> simp [before] at hbefore ⊢ <;> omega

end Ticket

namespace KeyedWaitlist

variable {ν : Type} {R : EntryId → EntryId → Prop} {S : EntryId → Prop} {u v : KeyedWaitlist ν}
  {order : Order} {t t' : Ticket} {l l' : List Ticket}

/-- Corresponding tickets have the same key. -/
def Counterpart (R : EntryId → EntryId → Prop) (a b : Ticket) : Prop := R a.id b.id ∧ a.key = b.key

/-- The tickets are in the order in which they will be taken. -/
abbrev Ordered (order : Order) (l : List Ticket) : Prop :=
  l.Pairwise fun a b => a.before order b = true

theorem place_front (h : ∀ a ∈ l, t.before order a = true) : place order t l = t :: l := by
  cases l with
  | nil => rfl
  | cons a l =>
    unfold place
    rw [if_pos (h a List.mem_cons_self)]

theorem ordered_place (h : Ordered order l) (hnew : ∀ a ∈ l, a.stamp < t.stamp) :
    Ordered order (place order t l) := by
  induction l with
  | nil => exact List.pairwise_singleton _ _
  | cons a l ih =>
    obtain ⟨ha, hl⟩ := List.pairwise_cons.1 h
    unfold place
    split
    · next hbefore =>
      refine List.pairwise_cons.2 ⟨fun b hb => ?_, h⟩
      rcases List.mem_cons.1 hb with rfl | hb
      · exact hbefore
      · exact Ticket.before_trans hbefore (ha b hb)
    · next hbefore =>
      refine List.pairwise_cons.2 ⟨fun b hb => ?_, ih hl fun b hb => hnew b (.tail a hb)⟩
      rcases mem_place.1 hb with rfl | hb
      · exact Ticket.before_of_older (hnew a List.mem_cons_self) hbefore
      · exact ha b hb

theorem sublistRel_place (h : SublistRel (Counterpart R) (fun a => S a.id) l l')
    (ht : Counterpart R t t') (hordered : Ordered order l) (hl : ∀ a ∈ l, a.stamp < t.stamp)
    (hl' : ∀ b ∈ l', b.stamp < t'.stamp) :
    SublistRel (Counterpart R) (fun a => S a.id) (place order t l) (place order t' l') := by
  induction h with
  | nil => exact .pair ht .nil
  | @pair a b l l' hab hrest ih =>
    unfold place
    rw [Ticket.before_congr (hl a List.mem_cons_self) (hl' b List.mem_cons_self) ht.2 hab.2]
    split
    · exact .pair ht (.pair hab hrest)
    · exact .pair hab (ih (List.pairwise_cons.1 hordered).2 (fun c hc => hl c (.tail a hc))
        fun c hc => hl' c (.tail b hc))
  | @skip a l l' ha hrest ih =>
    obtain ⟨hafter, hordered⟩ := List.pairwise_cons.1 hordered
    show SublistRel _ _ (if t.before order a then t :: a :: l else a :: place order t l) _
    split
    · next hbefore =>
      -- Whatever comes after the stranger comes after the new ticket too.
      have hfront : place order t' l' = t' :: l' := by
        refine place_front fun b hb => ?_
        obtain ⟨c, hc, -, hcb⟩ := hrest.of_mem_right hb
        rw [← Ticket.before_congr (hl c (.tail a hc)) (hl' b hb) ht.2 hcb]
        exact Ticket.before_trans hbefore (hafter c hc)
      rw [hfront]
      exact .pair ht (.skip ha hrest)
    · exact .skip ha (ih hordered (fun c hc => hl c (.tail a hc)) hl')

theorem sublistRel_place_stranger (h : SublistRel (Counterpart R) (fun a => S a.id) l l')
    (ht : S t.id) :
    SublistRel (Counterpart R) (fun a => S a.id) (place order t l) l' := by
  induction h with
  | nil => exact .skip ht .nil
  | pair hab hrest ih =>
    unfold place
    split
    · exact .skip ht (.pair hab hrest)
    · exact .pair hab ih
  | skip ha hrest ih =>
    unfold place
    split
    · exact .skip ht (.skip ha hrest)
    · exact .skip ha ih

/-- Both have the same key, which does not look at handles, and the same order; the tickets
correspond, with those of strangers in between on the first side. -/
structure Splits (R : EntryId → EntryId → Prop) (S : EntryId → Prop) (u v : KeyedWaitlist ν) :
    Prop where
  key : u.key = v.key
  pure : ∀ n s t, s.Alike t → u.key n s = u.key n t
  order : u.order = v.order
  tickets : SublistRel (Counterpart R) (fun a => S a.id) u.tickets v.tickets
  ordered : Ordered u.order u.tickets
  stamps : ∀ a ∈ u.tickets, a.stamp ≤ u.pushes
  stamps' : ∀ b ∈ v.tickets, b.stamp ≤ v.pushes

theorem tickets_push {w : KeyedWaitlist ν} {i : EntryId} (h : w.contains i = false) (n : NodeId)
    (s : State ν) : w.push i n s = { w with
      tickets := place w.order ⟨i, w.key n s, w.pushes + 1⟩ w.tickets
      pushes := w.pushes + 1 } := by
  unfold push
  rw [h]
  rfl

theorem stamps_place {pushes : Nat} (h : ∀ a ∈ l, a.stamp ≤ pushes) (ht : t.stamp = pushes + 1) :
    ∀ a ∈ place order t l, a.stamp ≤ pushes + 1 := by
  intro a ha
  rcases mem_place.1 ha with rfl | ha
  · exact Nat.le_of_eq ht
  · exact Nat.le_succ_of_le (h a ha)

end KeyedWaitlist

instance {ν : Type} : Waitlist.Separable (KeyedWaitlist ν) ν where
  Splits := KeyedWaitlist.Splits
  mono h hR hS := { h with
    tickets := h.tickets.mono (fun _ _ hab => ⟨hR _ _ hab.1, hab.2⟩) fun _ ha => hS _ ha }
  known h hi := by
    obtain ⟨a, ha, rfl⟩ := KeyedWaitlist.contains_iff.1 hi
    rcases h.tickets.of_mem_left ha with ⟨b, hab⟩ | hS
    · exact .inl ⟨b.id, hab.1⟩
    · exact .inr hS
  known' h hj := by
    obtain ⟨b, hb, rfl⟩ := KeyedWaitlist.contains_iff.1 hj
    obtain ⟨a, -, hab⟩ := h.tickets.of_mem_right hb
    exact ⟨a.id, hab.1⟩
  push {R S u v i j n s t} h hij hi hj hst := by
    show KeyedWaitlist.Splits R S (u.push i n s) (v.push j n t)
    rw [KeyedWaitlist.tickets_push hi, KeyedWaitlist.tickets_push hj]
    have hnew : ∀ a ∈ u.tickets, a.stamp < u.pushes + 1 := fun a ha =>
      Nat.lt_succ_of_le (h.stamps a ha)
    have hkey : u.key n s = v.key n t := by rw [h.pure n s t hst, h.key]
    refine { h with
      tickets := ?_
      ordered := KeyedWaitlist.ordered_place h.ordered hnew
      stamps := KeyedWaitlist.stamps_place h.stamps rfl
      stamps' := KeyedWaitlist.stamps_place h.stamps' rfl }
    dsimp only
    rw [← h.order]
    exact KeyedWaitlist.sublistRel_place h.tickets ⟨hij, hkey⟩ h.ordered hnew fun b hb =>
      Nat.lt_succ_of_le (h.stamps' b hb)
  push_stranger {R S u v i n s} h hS hi := by
    show KeyedWaitlist.Splits R S (u.push i n s) v
    rw [KeyedWaitlist.tickets_push hi]
    exact { h with
      tickets := KeyedWaitlist.sublistRel_place_stranger h.tickets hS
      ordered := KeyedWaitlist.ordered_place h.ordered fun a ha => Nat.lt_succ_of_le (h.stamps a ha)
      stamps := KeyedWaitlist.stamps_place h.stamps rfl }
  remove {R S u v i j} h hij := by
    refine { h with
      tickets := h.tickets.filter fun a b hab => ?_
      ordered := h.ordered.filter _
      stamps := fun a ha => h.stamps a (List.mem_filter.1 ha).1
      stamps' := fun b hb => h.stamps' b (List.mem_filter.1 hb).1 }
    rw [decide_eq_decide, Ne, hij _ _ hab.1]
  remove_stranger h hR := { h with
    tickets := h.tickets.filter_left fun a b hab => decide_eq_true (hR _ _ hab.1)
    ordered := h.ordered.filter _
    stamps := fun a ha => h.stamps a (List.mem_filter.1 ha).1 }
  pop {R S u v i} h hpop := by
    have hhead : u.tickets.head?.map Ticket.id = some i := hpop
    obtain ⟨a, ha, rfl⟩ := Option.map_eq_some_iff.1 hhead
    obtain ⟨rest, hrest⟩ := List.head?_eq_some_iff.1 ha
    have htail : u.pop.2 = { u with tickets := rest } := by
      unfold KeyedWaitlist.pop
      rw [hrest]
      rfl
    have htickets := h.tickets
    have hordered := h.ordered
    have hstamps := h.stamps
    rw [hrest] at htickets hordered hstamps
    have hordered := (List.pairwise_cons.1 hordered).2
    have hstamps : ∀ b ∈ rest, b.stamp ≤ u.pushes := fun b hb =>
      hstamps b (List.mem_cons_of_mem _ hb)
    show S a.id ∧ KeyedWaitlist.Splits R S u.pop.2 v ∨ ∃ j, R a.id j ∧
      v.tickets.head?.map Ticket.id = some j ∧ KeyedWaitlist.Splits R S u.pop.2 v.pop.2
    rw [htail]
    rcases htickets.of_cons with ⟨hS, htickets⟩ | ⟨b, rest', hrest', hab, htickets⟩
    · exact .inl ⟨hS, { h with tickets := htickets, ordered := hordered, stamps := hstamps }⟩
    · refine .inr ⟨b.id, hab.1, by rw [hrest']; rfl, { h with
        tickets := ?_
        ordered := hordered
        stamps := hstamps
        stamps' := fun c hc => h.stamps' c (List.mem_of_mem_tail hc) }⟩
      show SublistRel _ _ rest v.tickets.tail
      rw [hrest']
      exact htickets
  empty {R S u v} h hu := by
    have htickets := h.tickets
    rw [List.eq_nil_of_length_eq_zero (show u.tickets.length = 0 from hu)] at htickets
    exact congrArg List.length htickets.eq_nil

end ProgramAnalysis
