import Mathlib.Algebra.GroupWithZero.Nat
import ProgramAnalysis.Proofs.WaitlistHistories
import ProgramAnalysis.Reached.Indexed
/-!
Waitlists with an index track the arrivals like plain lists.

A queue with the set of its members does so with a constant key. Slots do so for every key as long
as fewer than 2^64 entries have been pushed: ties that are made from a 64-bit counter, counted up or
down, then order the slots like tickets (`SlotWaitlist.compare_slotOf_eq_lt`), and no two of them
are equal.

So slots serve their callers as they should and cannot be told from tickets, and with a constant key
they cannot be told from a queue (`SlotWaitlist.keyed_replies_exact`).
-/

namespace ProgramAnalysis

open Waitlist

/-! ## A queue and its members -/

namespace DequeWaitlist

variable {ν : Type} {w : DequeWaitlist} {c : Int} {order : Order} {waiting : List Arrival}
  {id : EntryId}

/-- The queue alone. -/
def toSimple (w : DequeWaitlist) : SimpleWaitlist := ⟨w.order, w.queue⟩

/-- The queue holds the arrivals that wait, and the members are those. -/
structure Holds (c : Int) (order : Order) (waiting : List Arrival) (w : DequeWaitlist) : Prop where
  queue : w.toSimple.Holds c order waiting
  members_iff : ∀ id, w.members.contains id = true ↔ id ∈ ids waiting

theorem holds_empty (c : Int) (order : Order) : (ofOrder order).Holds c order [] :=
  ⟨⟨rfl, rfl, by simp, .nil⟩, fun id => by simp [ofOrder, Index.contains, Index.get?_empty]⟩

theorem pop_eq (w : DequeWaitlist) : w.pop.1 = w.toSimple.pop.1 ∧
    w.pop.2.toSimple = w.toSimple.pop.2 ∧
    w.pop.2.members = w.pop.1.elim w.members w.members.erase := by
  obtain ⟨order, queue, members⟩ := w
  cases order with
  | depthFirst =>
    rcases List.eq_nil_or_concat queue with rfl | ⟨rest, id, rfl⟩
    · exact ⟨rfl, rfl, rfl⟩
    · simp [pop, takeEnd, toSimple, SimpleWaitlist.pop, SimpleWaitlist.next?]
  | breadthFirst => cases queue <;> exact ⟨rfl, rfl, rfl⟩

namespace Holds

theorem push_new (hw : w.Holds c order waiting) (hid : id ∉ ids waiting) :
    (w.push id).Holds c order (waiting ++ [⟨id, c⟩]) := by
  have hnew : w.members.contains id = false := Bool.eq_false_iff.2 (mt (hw.members_iff id).1 hid)
  have hqueue := hw.queue.push_new hid
  rw [SimpleWaitlist.queue_push (Bool.eq_false_iff.2 (mt hw.queue.contains_iff.1 hid))] at hqueue
  unfold push
  rw [hnew]
  refine ⟨hqueue, fun i => ?_⟩
  simp [Index.contains_insert_iff, hw.members_iff, or_comm]

theorem remove (hw : w.Holds c order waiting) (id : EntryId) :
    (w.remove id).1 = w.contains id ∧ (w.remove id).2.Holds c order (without id waiting) := by
  unfold DequeWaitlist.remove contains
  split
  · next hold =>
    refine ⟨hold.symm, hw.queue.remove id, fun i => ?_⟩
    rw [Index.contains_erase_iff, hw.members_iff, mem_ids_without]
  · next hnew =>
    rw [without_eq_self (mt (hw.members_iff id).2 hnew)]
    exact ⟨(Bool.eq_false_iff.2 hnew).symm, hw⟩

theorem pop (hw : w.Holds c order waiting) : ∃ after,
    Serves (fun (_ : NodeId) (_ : State ν) => c) order waiting (.pop, .popped w.pop.1) after ∧
      w.pop.2.Holds c order after := by
  obtain ⟨hnext, hrest, hmembers⟩ := w.pop_eq
  obtain ⟨after, hserves, hafter⟩ := @SimpleWaitlist.Holds.pop ν _ _ _ _ hw.queue
  rw [← hrest] at hafter
  rw [← hnext] at hserves
  refine ⟨after, hserves, hafter, fun i => ?_⟩
  rw [hmembers]
  revert hserves
  cases w.pop.1 with
  | none =>
    rintro ⟨⟩
    exact hw.members_iff i
  | some id =>
    rintro ⟨⟩
    rw [mem_ids_without, ← hw.members_iff]
    exact Index.contains_erase_iff

end Holds

theorem tracks (c : Int) (order : Order) :
    Tracks (fun (_ : NodeId) (_ : State ν) => c) order fun _ => Holds c order where
  contains id hw := hw.members_iff id
  size hw := hw.queue.size
  spare hw := hw
  push_known _ _ hw hid := if_pos ((hw.members_iff _).2 hid)
  push_new _ _ hw hid := hw.push_new hid
  pop hw := hw.pop
  remove id hw := hw.remove id
  clear {_ _ w} hw := by
    have horder : w.order = order := hw.queue.order_eq
    rw [← horder]
    exact holds_empty c w.order

/-- Nothing can be told from the replies about the set. -/
theorem transcript_eq_simple (order : Order) (calls : List (Call ν)) :
    transcript (ofOrder order) calls = transcript (SimpleWaitlist.ofOrder order) calls :=
  (tracks 0 order).transcript_eq (SimpleWaitlist.tracks 0 order) calls (holds_empty 0 order)
    (holds_empty 0 order).queue

end DequeWaitlist

/-! ## Slots and tickets -/

namespace SlotWaitlist

variable {ν : Type} {key : NodeId → State ν → Int} {order : Order} {t u : Ticket} {l : List Ticket}
  {room : Nat} {waiting : List Arrival} {w : SlotWaitlist ν} {id : EntryId}

/-- The slot that stands for a ticket. -/
def slotOf (order : Order) (t : Ticket) : Slot := ⟨t.key, Slot.tieOf order (.ofNat t.stamp)⟩

theorem toNat_tieOf {stamp : Nat} (h : stamp < 2 ^ 64) :
    (Slot.tieOf order (.ofNat stamp)).toNat =
      if order = .depthFirst then stamp else 2 ^ 64 - 1 - stamp := by
  have hstamp : (UInt64.ofNat stamp).toNat = stamp := UInt64.toNat_ofNat_of_lt h
  have hlast : Slot.lastTie.toNat = 2 ^ 64 - 1 := rfl
  cases order with
  | depthFirst => exact hstamp
  | breadthFirst =>
    have hle : UInt64.ofNat stamp ≤ Slot.lastTie := by
      rw [UInt64.le_iff_toNat_le, hstamp, hlast]
      omega
    rw [Slot.tieOf, UInt64.toNat_sub_of_le _ _ hle, hstamp, hlast]
    rfl

theorem Slot.compare_eq_lt {a b : Slot} :
    compare a b = .lt ↔ a.key < b.key ∨ a.key = b.key ∧ b.tie.toNat < a.tie.toNat := by
  rw [← UInt64.lt_iff_toNat_lt, ← Int.compare_eq_lt, ← Int.compare_eq_eq,
    ← compareOfLessAndEq_eq_lt]
  exact Ordering.then_eq_lt

theorem Slot.compare_eq_eq {a b : Slot} : compare a b = .eq ↔ a = b := by
  have hlex : compare a b = .eq ↔ compare a.key b.key = .eq ∧ compare b.tie a.tie = .eq :=
    Ordering.then_eq_eq
  rw [hlex, Std.compare_eq_iff_eq, Std.compare_eq_iff_eq]
  obtain ⟨key, tie⟩ := a
  obtain ⟨key', tie'⟩ := b
  rw [Slot.mk.injEq, @eq_comm _ tie']

theorem slotOf_inj (ht : t.stamp < 2 ^ 64) (hu : u.stamp < 2 ^ 64)
    (h : slotOf order t = slotOf order u) : t.stamp = u.stamp := by
  have htie := congrArg (fun slot => slot.tie.toNat) h
  simp only [slotOf, toNat_tieOf ht, toNat_tieOf hu] at htie
  split at htie <;> omega

/-- The slots come in the order of the tickets. -/
theorem compare_slotOf_eq_lt (ht : t.stamp < 2 ^ 64) (hu : u.stamp < 2 ^ 64) :
    compare (slotOf order t) (slotOf order u) = .lt ↔ t.before order u = true := by
  rw [Slot.compare_eq_lt, slotOf, slotOf, toNat_tieOf ht, toNat_tieOf hu]
  cases order with
  | depthFirst => simp [Ticket.before]
  | breadthFirst =>
    simp [Ticket.before]
    omega

/-- The item that stands for a ticket. -/
abbrev itemOf (order : Order) (t : Ticket) : Slot × EntryId := (slotOf order t, t.id)

/-- Tickets that were given out one after the other. -/
structure Stamped (w : SlotWaitlist ν) (l : List Ticket) : Prop where
  aged : Ticket.Aged l
  upTo : ∀ t ∈ l, t.stamp ≤ w.counter.toNat

theorem Stamped.stamp_lt (h : w.Stamped l) (ht : t ∈ l) : t.stamp < 2 ^ 64 :=
  Nat.lt_of_le_of_lt (h.upTo t ht) w.counter.toNat_lt

theorem Stamped.eq_of_slotOf_eq (h : w.Stamped l) (ht : t ∈ l) (hu : u ∈ l)
    (heq : slotOf order t = slotOf order u) : t = u := by
  have hnodup : (l.map Ticket.stamp).Nodup :=
    List.pairwise_map.2 (h.aged.imp fun hlt => Nat.ne_of_lt hlt)
  exact List.inj_on_of_nodup_map hnodup ht hu (slotOf_inj (h.stamp_lt ht) (h.stamp_lt hu) heq)

/-- The slot of a ticket is that of no other one. -/
theorem Stamped.compare_slotOf_eq_eq (h : w.Stamped l) (honce : (l.map Ticket.id).Nodup)
    (ht : t ∈ l) (hu : u ∈ l) :
    compare (slotOf order t) (slotOf order u) = .eq ↔ u.id = t.id := by
  rw [Slot.compare_eq_eq]
  exact ⟨fun heq => h.eq_of_slotOf_eq ht hu heq ▸ rfl,
    fun heq => List.inj_on_of_nodup_map honce hu ht heq ▸ rfl⟩

theorem Stamped.snoc {w' : SlotWaitlist ν} (h : w.Stamped l) (ht : w.counter.toNat < t.stamp)
    (hcounter : w'.counter.toNat = t.stamp) : w'.Stamped (l ++ [t]) := by
  refine ⟨List.pairwise_append.2 ⟨h.aged, List.pairwise_singleton _ _, fun u hu v hv => ?_⟩,
    fun u hu => ?_⟩
  · rw [List.mem_singleton.1 hv]
    exact Nat.lt_of_le_of_lt (h.upTo u hu) ht
  · rw [hcounter]
    rcases List.mem_append.1 hu with hu | hu
    · exact Nat.le_trans (h.upTo u hu) (Nat.le_of_lt ht)
    · exact Nat.le_of_eq (congrArg Ticket.stamp (List.mem_singleton.1 hu))

/-- The items are those of tickets with the arrivals that wait, the index leads back from entries to
slots, and the counter does not run over before the room is used up. -/
structure Keeps (key : NodeId → State ν → Int) (order : Order) (room : Nat)
    (waiting : List Arrival) (w : SlotWaitlist ν) : Prop where
  key_eq : w.key = key
  order_eq : w.order = order
  room_lt : w.counter.toNat + room < 2 ^ 64
  once : (ids waiting).Nodup
  index_iff : ∀ id slot, w.index.get? id = some slot ↔ (slot, id) ∈ w.items.pairs
  items : ∃ l, w.Stamped l ∧ l.map Ticket.arrival = waiting ∧
    w.items.pairs.Perm (l.map (itemOf order))

theorem keeps_empty (hkey : w.key = key) (horder : w.order = order)
    (hroom : w.counter.toNat + room < 2 ^ 64) : Keeps key order room [] w.clear :=
  ⟨hkey, horder, hroom, .nil, fun id slot => by simp [clear, Index.get?_empty, OrderedMap.empty],
    [], ⟨.nil, by simp⟩, rfl, .nil⟩

namespace Keeps

section

variable (hw : Keeps key order room waiting w)

include hw

theorem perm : (w.items.pairs.map Prod.snd).Perm (ids waiting) := by
  obtain ⟨l, -, rfl, hperm⟩ := hw.items
  rw [Ticket.ids_arrival]
  simpa [Function.comp_def] using hperm.map Prod.snd

theorem contains_iff : w.contains id = true ↔ id ∈ ids waiting := by
  rw [contains, Index.contains_iff, ← hw.perm.mem_iff, List.mem_map]
  simp [hw.index_iff]

theorem push_known (hid : id ∈ ids waiting) (n : NodeId) (s : State ν) : w.push id n s = w :=
  if_pos (hw.contains_iff.2 hid)

theorem remove (id : EntryId) :
    (w.remove id).1 = w.contains id ∧
      Keeps key order room (without id waiting) (w.remove id).2 := by
  have hcontains : w.contains id = true ↔ id ∈ ids waiting := hw.contains_iff
  unfold contains Index.contains at hcontains
  unfold SlotWaitlist.remove contains Index.contains
  cases hslot : w.index.get? id with
  | none =>
    rw [hslot] at hcontains
    rw [without_eq_self (mt hcontains.2 Bool.false_ne_true)]
    exact ⟨rfl, hw⟩
  | some slot =>
    have hmem := (hw.index_iff id slot).1 hslot
    obtain ⟨l, hstamped, rfl, hperm⟩ := hw.items
    obtain ⟨t, ht, heq⟩ := List.mem_map.1 (hperm.mem_iff.1 hmem)
    obtain ⟨rfl, rfl⟩ := Prod.mk.inj heq
    have honce : (l.map Ticket.id).Nodup := Ticket.ids_arrival l ▸ hw.once
    refine ⟨rfl, { hw with
      once := hw.once.sublist (List.filter_sublist.map _)
      index_iff := fun i slot' => ?_
      items := ⟨l.filter fun u => u.id ≠ t.id, ⟨hstamped.aged.filter _, fun u hu =>
        hstamped.upTo u (List.mem_filter.1 hu).1⟩, ?_, ?_⟩ }⟩
    · simp only [Index.get?_erase, OrderedMap.erase, List.mem_filter, decide_eq_true_eq,
        ← hw.index_iff i slot']
      by_cases hi : t.id = i
      · subst hi
        simp +contextual [hslot, Slot.compare_eq_eq]
      · simp only [hi, if_false, iff_self_and]
        intro hget hcompare
        obtain ⟨u, hu, heq⟩ := List.mem_map.1 (hperm.mem_iff.1 ((hw.index_iff i slot').1 hget))
        obtain ⟨rfl, rfl⟩ := Prod.mk.inj heq
        exact hi ((hstamped.compare_slotOf_eq_eq honce ht hu).1 hcompare).symm
    · rw [without, List.filter_map]
      rfl
    · refine (hperm.filter _).trans (.of_eq ?_)
      rw [List.filter_map]
      exact congrArg _ (List.filter_congr fun u hu => decide_eq_decide.2
        (not_congr (hstamped.compare_slotOf_eq_eq honce ht hu)))

/-- The first item is that of the foremost arrival. -/
theorem foremost {q : Slot × EntryId} {rest : List (Slot × EntryId)}
    (hitems : w.items.pairs = q :: rest) : ∃ a, Foremost order a waiting ∧ a.id = q.2 := by
  obtain ⟨l, hstamped, rfl, hperm⟩ := hw.items
  have hascending := w.items.ascending
  rw [hitems] at hperm hascending
  obtain ⟨t, ht, rfl⟩ := List.mem_map.1 (hperm.mem_iff.1 List.mem_cons_self)
  refine ⟨t.arrival, Ticket.foremost hstamped.aged ht fun u hu hne => ?_, rfl⟩
  have hmem := hperm.mem_iff.2 (List.mem_map.2 ⟨u, hu, rfl⟩)
  rcases List.mem_cons.1 hmem with heq | hmem
  · exact absurd (hstamped.eq_of_slotOf_eq hu ht (Prod.mk.inj heq).1) hne
  · exact (compare_slotOf_eq_lt (hstamped.stamp_lt ht) (hstamped.stamp_lt hu)).1
      ((List.pairwise_cons.1 hascending).1 _ hmem)

theorem pop : ∃ after, Serves key order waiting (.pop, .popped w.pop.1) after ∧
    Keeps key order room after w.pop.2 := by
  unfold SlotWaitlist.pop
  cases hitems : w.items.pairs with
  | nil =>
    have hfirst : w.items.popFirst = (none, w.items.popFirst.2) :=
      Prod.ext (congrArg List.head? hitems) rfl
    obtain rfl : waiting = [] := by simpa [hitems] using hw.perm
    rw [hfirst]
    exact ⟨[], .idle, hw⟩
  | cons q rest =>
    obtain ⟨slot, id⟩ := q
    have hfirst : w.items.popFirst = (some (slot, id), w.items.popFirst.2) :=
      Prod.ext (congrArg List.head? hitems) rfl
    obtain ⟨a, hforemost, rfl⟩ := hw.foremost hitems
    have hindex : w.index.get? a.id = some slot := (hw.index_iff _ _).2 (by simp [hitems])
    have hremove := (hw.remove a.id).2
    unfold SlotWaitlist.remove at hremove
    rw [hindex] at hremove
    rw [hfirst, ← OrderedMap.erase_first hitems]
    exact ⟨_, .popped hforemost, hremove⟩

end

/-- A new entry gets the slot of the youngest ticket. -/
theorem push_eq (hw : Keeps key order (room + 1) waiting w) (hid : id ∉ ids waiting) (n : NodeId)
    (s : State ν) (ht : t = ⟨id, key n s, w.counter.toNat + 1⟩) :
    (w.counter + 1).toNat = t.stamp ∧ w.push id n s = { w with
      items := w.items.insert (slotOf order t) id
      index := w.index.insert id (slotOf order t)
      counter := w.counter + 1 } := by
  have hnew : w.index.contains id = false := Bool.eq_false_iff.2 (mt hw.contains_iff.1 hid)
  have hcounter : (w.counter + 1).toNat = w.counter.toNat + 1 := by
    have hroom := hw.room_lt
    rw [UInt64.toNat_add]
    refine Nat.mod_eq_of_lt ?_
    show w.counter.toNat + 1 < 2 ^ 64
    omega
  subst ht
  refine ⟨hcounter, ?_⟩
  unfold push
  rw [hnew, hw.key_eq, hw.order_eq, slotOf, ← hcounter, UInt64.ofNat_toNat]
  rfl

theorem push_new (hw : Keeps key order (room + 1) waiting w) (hid : id ∉ ids waiting) (n : NodeId)
    (s : State ν) : Keeps key order room (waiting ++ [⟨id, key n s⟩]) (w.push id n s) := by
  obtain ⟨t, ht⟩ : ∃ t : Ticket, t = ⟨id, key n s, w.counter.toNat + 1⟩ := ⟨_, rfl⟩
  obtain ⟨hcounter, hpush⟩ := hw.push_eq hid n s ht
  have hindex : w.index.get? id = none :=
    Option.not_isSome_iff_eq_none.1 (mt hw.contains_iff.1 hid)
  have honce := nodup_arrived hw.once hid (key n s)
  have hroom := hw.room_lt
  obtain ⟨l, hstamped, rfl, hperm⟩ := hw.items
  have hnext : w.counter.toNat < t.stamp := ht ▸ Nat.lt_succ_self _
  have hlt : t.stamp < 2 ^ 64 := hcounter ▸ (w.counter + 1).toNat_lt
  have hfresh : ∀ q ∈ w.items.pairs, compare (slotOf order t) q.1 ≠ .eq := by
    intro q hq heq
    obtain ⟨u, hu, rfl⟩ := List.mem_map.1 (hperm.mem_iff.1 hq)
    have hstamp := slotOf_inj hlt (hstamped.stamp_lt hu) (Slot.compare_eq_eq.1 heq)
    exact absurd (hstamped.upTo u hu) (Nat.not_le.2 (hstamp ▸ hnext))
  have hput := OrderedMap.put_perm (b := id) hfresh
  rw [hpush]
  refine ⟨hw.key_eq, hw.order_eq, ?_, honce, fun i slot => ?_, l ++ [t],
    hstamped.snoc hnext hcounter, ?_, ?_⟩
  · show (w.counter + 1).toNat + room < 2 ^ 64
    rw [hcounter, ht]
    show w.counter.toNat + 1 + room < 2 ^ 64
    omega
  · rw [Index.get?_insert]
    refine Iff.trans ?_ hput.mem_iff.symm
    rw [List.mem_cons, ← hw.index_iff]
    by_cases hi : id = i
    · subst hi
      simp [hindex, eq_comm]
    · simp [hi, Ne.symm hi]
  · rw [List.map_append, ht]
    rfl
  · rw [List.map_append]
    refine hput.trans ((hperm.cons _).trans ?_)
    rw [ht]
    exact (List.perm_append_singleton _ _).symm

end Keeps

theorem tracks (key : NodeId → State ν → Int) (order : Order) :
    Tracks key order (Keeps key order) where
  contains _ hw := hw.contains_iff
  size {_ _ w} hw := by
    show w.items.pairs.length = _
    simpa using hw.perm.length_eq
  spare hw := { hw with room_lt := Nat.lt_of_succ_lt hw.room_lt }
  push_known n s hw hid := hw.push_known hid n s
  push_new n s hw hid := hw.push_new hid n s
  pop hw := hw.pop
  remove id hw := hw.remove id
  clear hw := keeps_empty hw.key_eq hw.order_eq hw.room_lt

theorem keeps_ofKey (key : NodeId → State ν → Int) (order : Order) (h : room < 2 ^ 64) :
    Keeps key order room [] (ofKey key order) :=
  keeps_empty (w := ofKey key order) rfl rfl (by simpa [ofKey] using h)

/-- For fewer than 2^64 pushes slots cannot be told from tickets. -/
theorem transcript_eq_tickets (key : NodeId → State ν → Int) (order : Order)
    (calls : List (Call ν)) (hpushes : pushCount calls < 2 ^ 64) :
    transcript (ofKey key order) calls = transcript (KeyedWaitlist.ofKey key order) calls :=
  (tracks key order).transcript_eq (KeyedWaitlist.tracks key order) calls
    (keeps_ofKey key order hpushes) (KeyedWaitlist.keeps_nil rfl rfl rfl)

/-- Whatever a waitlist with slots is asked to do, it gives the right replies as long as there are
fewer than 2^64 pushes. Afterwards the entries wait that should, each once, items and index agree,
and to push one of the entries again changes nothing. With a constant key it replies as a queue with
its members does. -/
theorem keyed_replies_exact (key : NodeId → State ν → Int) (order : Order) (calls : List (Call ν))
    (hpushes : pushCount calls < 2 ^ 64) :
    (∃ waiting, ServesAll key order [] (transcript (ofKey key order) calls) waiting ∧
      (ids waiting).Nodup ∧
      ((performAll (ofKey key order) calls).items.pairs.map Prod.snd).Perm (ids waiting) ∧
      (∀ id slot, (performAll (ofKey key order) calls).index.get? id = some slot ↔
        (slot, id) ∈ (performAll (ofKey key order) calls).items.pairs) ∧
      ∀ id ∈ ids waiting, ∀ n s,
        (performAll (ofKey key order) calls).push id n s = performAll (ofKey key order) calls) ∧
    ∀ c : Int, transcript (ofKey (fun _ _ => c) order : SlotWaitlist ν) calls =
      transcript (DequeWaitlist.ofOrder order) calls := by
  constructor
  · obtain ⟨waiting, hserves, hkeeps⟩ :=
      (tracks key order).serves calls (keeps_ofKey key order hpushes)
    exact ⟨waiting, hserves, hkeeps.once, hkeeps.perm, hkeeps.index_iff, fun id hid n s =>
      hkeeps.push_known hid n s⟩
  · intro c
    exact (tracks _ order).transcript_eq (DequeWaitlist.tracks c order) calls
      (keeps_ofKey _ order hpushes) (DequeWaitlist.holds_empty c order)

/-- Four entries at the locations 1, 0, 1 and 1, the second pushed twice. Two are taken out, the
first one is pushed again, and all others go before it. -/
def mixedCalls : List (Call Unit) :=
  let state : State Unit := .leaf ⟨0⟩ ()
  [.push ⟨0⟩ ⟨1⟩ state, .push ⟨1⟩ ⟨0⟩ state, .push ⟨2⟩ ⟨1⟩ state, .push ⟨1⟩ ⟨0⟩ state,
    .push ⟨3⟩ ⟨1⟩ state, .pop, .remove ⟨0⟩, .push ⟨0⟩ ⟨1⟩ state, .pop, .size, .pop, .pop, .pop]

theorem mixedCalls_replies_exact :
    let key : NodeId → State Unit → Int := fun n _ => n.index
    pushCount mixedCalls < 2 ^ 64 ∧
      (transcript (ofKey key .breadthFirst) mixedCalls).map Prod.snd =
        [.done, .done, .done, .done, .done, .popped (some ⟨1⟩), .told true, .done,
          .popped (some ⟨2⟩), .counted 2, .popped (some ⟨3⟩), .popped (some ⟨0⟩), .popped none] ∧
      (∃ waiting, ServesAll key .breadthFirst []
        (transcript (ofKey key .breadthFirst) mixedCalls) waiting) ∧
      transcript (ofKey (fun _ _ => 0) .breadthFirst : SlotWaitlist Unit) mixedCalls =
        transcript (DequeWaitlist.ofOrder .breadthFirst) mixedCalls := by
  have hpushes : pushCount mixedCalls < 2 ^ 64 := by decide
  obtain ⟨⟨waiting, hserves, -⟩, -⟩ :=
    keyed_replies_exact (fun n (_ : State Unit) => n.index) .breadthFirst mixedCalls hpushes
  exact ⟨hpushes, rfl, ⟨waiting, hserves⟩,
    (keyed_replies_exact (fun _ _ => 0) .breadthFirst mixedCalls hpushes).2 0⟩

end SlotWaitlist

end ProgramAnalysis
