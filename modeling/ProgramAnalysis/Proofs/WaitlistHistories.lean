import Mathlib.Data.List.Nodup
import ProgramAnalysis.Proofs.Separable
/-!
Waitlists as their callers see them.

What a waitlist owes its callers is told with the arrivals that wait, the oldest first, each with
the key that it had when it was pushed (`Serves`). A pop takes an arrival with the smallest key, and
among equal keys the newest or the oldest one. This leaves no choice (`ServesAll.unique`), so any
two waitlists that track the arrivals (`Tracks`) give the same replies.

A keyed waitlist tracks them, whatever it is asked to do. So does a simple waitlist if all keys are
the same.
-/

namespace ProgramAnalysis

namespace Waitlist

variable {θ ν : Type}

/-! ## Transcripts -/

/-- One use of an operation of a waitlist. -/
inductive Call (ν : Type) where
  | push (id : EntryId) (n : NodeId) (s : State ν)
  | pop
  | remove (id : EntryId)
  | contains (id : EntryId)
  | size
  | clear

/-- What a call replies. -/
inductive Reply where
  | done
  | popped (id : Option EntryId)
  | told (answer : Bool)
  | counted (size : Nat)

/-- Calls with their replies, the oldest first. -/
abbrev Transcript (ν : Type) := List (Call ν × Reply)

section

variable [Waitlist θ ν]

/-- Carries a call out. -/
def perform (w : θ) : Call ν → Reply × θ
  | .push id n s => (.done, Waitlist.push w id n s)
  | .pop => (.popped (Frontier.pop w).1, (Frontier.pop w).2)
  | .remove id => (.told (Frontier.remove w id).1, (Frontier.remove w id).2)
  | .contains id => (.told (Frontier.contains w id), w)
  | .size => (.counted (Frontier.size w), w)
  | .clear => (.done, Frontier.clear w)

/-- Carries calls out one after the other. -/
def performAll : θ → List (Call ν) → θ
  | w, [] => w
  | w, c :: calls => performAll (perform w c).2 calls

/-- The calls with what they reply. -/
def transcript : θ → List (Call ν) → Transcript ν
  | _, [] => []
  | w, c :: calls => (c, (perform w c).1) :: transcript (perform w c).2 calls

theorem map_fst_transcript (w : θ) (calls : List (Call ν)) :
    (transcript w calls).map Prod.fst = calls := by
  induction calls generalizing w with
  | nil => rfl
  | cons c calls ih => exact congrArg (c :: ·) (ih _)

end

/-- The number of pushes among some calls. -/
def pushCount : List (Call ν) → Nat
  | [] => 0
  | .push .. :: calls => pushCount calls + 1
  | _ :: calls => pushCount calls

/-! ## What a waitlist owes its callers -/

/-- An entry that waits, with the key that it had when it was pushed. -/
structure Arrival where
  id : EntryId
  key : Int

/-- The entries that wait. -/
abbrev ids (waiting : List Arrival) : List EntryId := waiting.map Arrival.id

def without (id : EntryId) (waiting : List Arrival) : List Arrival :=
  waiting.filter fun a => a.id ≠ id

theorem mem_ids_without {id i : EntryId} {waiting : List Arrival} :
    i ∈ ids (without id waiting) ↔ i ≠ id ∧ i ∈ ids waiting := by
  rw [ids, without, List.mem_map, List.mem_map]
  constructor
  · rintro ⟨a, ha, rfl⟩
    obtain ⟨hmem, hne⟩ := List.mem_filter.1 ha
    exact ⟨of_decide_eq_true hne, a, hmem, rfl⟩
  · rintro ⟨hne, a, hmem, rfl⟩
    exact ⟨a, List.mem_filter.2 ⟨hmem, decide_eq_true hne⟩, rfl⟩

theorem without_eq_self {id : EntryId} {waiting : List Arrival} (h : id ∉ ids waiting) :
    without id waiting = waiting :=
  List.filter_eq_self.2 fun _ ha => decide_eq_true fun heq => h (List.mem_map.2 ⟨_, ha, heq⟩)

/-- Whether an arrival with the key `b` is taken before an older one with the key `a`. -/
def Overtakes (order : Order) (b a : Int) : Prop := if order = .depthFirst then b ≤ a else b < a

/-- The arrival overtakes all older ones, and no newer one overtakes it. -/
def Foremost (order : Order) (a : Arrival) (waiting : List Arrival) : Prop :=
  ∃ older newer, waiting = older ++ a :: newer ∧ (∀ b ∈ older, Overtakes order a.key b.key) ∧
    ∀ b ∈ newer, ¬ Overtakes order b.key a.key

/-- The right reply to a call, and what waits before and after it. -/
inductive Serves (key : NodeId → State ν → Int) (order : Order) :
    List Arrival → Call ν × Reply → List Arrival → Prop where
  | arrived {waiting id} (n : NodeId) (s : State ν) :
      id ∉ ids waiting → Serves key order waiting (.push id n s, .done) (waiting ++ [⟨id, key n s⟩])
  | known {waiting id} (n : NodeId) (s : State ν) :
      id ∈ ids waiting → Serves key order waiting (.push id n s, .done) waiting
  | popped {waiting a} : Foremost order a waiting →
      Serves key order waiting (.pop, .popped (some a.id)) (without a.id waiting)
  | idle : Serves key order [] (.pop, .popped none) []
  | removed {waiting id answer} :
      (answer = true ↔ id ∈ ids waiting) →
      Serves key order waiting (.remove id, .told answer) (without id waiting)
  | contained {waiting id answer} :
      (answer = true ↔ id ∈ ids waiting) →
      Serves key order waiting (.contains id, .told answer) waiting
  | counted {waiting : List Arrival} {size} : size = waiting.length →
      Serves key order waiting (.size, .counted size) waiting
  | cleared (waiting : List Arrival) : Serves key order waiting (.clear, .done) []

/-- The right replies to calls, and what waits before and after them. -/
inductive ServesAll (key : NodeId → State ν → Int) (order : Order) :
    List Arrival → Transcript ν → List Arrival → Prop where
  | nil (waiting : List Arrival) : ServesAll key order waiting [] waiting
  | cons {waiting waiting' waiting'' e h} :
      Serves key order waiting e waiting' → ServesAll key order waiting' h waiting'' →
      ServesAll key order waiting (e :: h) waiting''

variable {key : NodeId → State ν → Int} {order : Order} {waiting after after' : List Arrival}

theorem Foremost.unique {a b : Arrival} (ha : Foremost order a waiting)
    (hb : Foremost order b waiting) : a = b := by
  obtain ⟨older, newer, rfl, holder, hnewer⟩ := ha
  obtain ⟨older', newer', heq, holder', hnewer'⟩ := hb
  -- The older of two such arrivals is overtaken, by the place of the newer one, and by its own not.
  rcases List.append_eq_append_iff.1 heq with ⟨l, rfl, hl⟩ | ⟨l, rfl, hl⟩
  · cases l with
    | nil => exact (List.cons.inj hl).1
    | cons c l =>
      obtain ⟨rfl, rfl⟩ := List.cons.inj hl
      exact absurd (holder' a (by simp)) (hnewer b (by simp))
  · cases l with
    | nil => exact (List.cons.inj hl).1.symm
    | cons c l =>
      obtain ⟨rfl, rfl⟩ := List.cons.inj hl
      exact absurd (holder b (by simp)) (hnewer' a (by simp))

theorem Serves.unique {c : Call ν} {r r' : Reply} (h : Serves key order waiting (c, r) after)
    (h' : Serves key order waiting (c, r') after') : r = r' ∧ after = after' := by
  cases h with
  | arrived n s hnew =>
    cases h' with
    | arrived => exact ⟨rfl, rfl⟩
    | known _ _ hold => exact absurd hold hnew
  | known n s hold =>
    cases h' with
    | arrived _ _ hnew => exact absurd hold hnew
    | known => exact ⟨rfl, rfl⟩
  | popped ha =>
    cases h' with
    | popped hb =>
      cases ha.unique hb
      exact ⟨rfl, rfl⟩
    | idle =>
      obtain ⟨older, newer, heq, -⟩ := ha
      simp at heq
  | idle =>
    cases h' with
    | popped hb =>
      obtain ⟨older, newer, heq, -⟩ := hb
      simp at heq
    | idle => exact ⟨rfl, rfl⟩
  | removed hid =>
    cases h' with
    | removed hid' => exact ⟨congrArg Reply.told (Bool.eq_iff_iff.2 (hid.trans hid'.symm)), rfl⟩
  | contained hid =>
    cases h' with
    | contained hid' => exact ⟨congrArg Reply.told (Bool.eq_iff_iff.2 (hid.trans hid'.symm)), rfl⟩
  | counted hsize =>
    cases h' with
    | counted hsize' => exact ⟨congrArg Reply.counted (hsize.trans hsize'.symm), rfl⟩
  | cleared =>
    cases h'
    exact ⟨rfl, rfl⟩

/-- The same calls have the same replies. -/
theorem ServesAll.unique {h h' : Transcript ν} (hh : ServesAll key order waiting h after)
    (hh' : ServesAll key order waiting h' after') (hcalls : h.map Prod.fst = h'.map Prod.fst) :
    h = h' := by
  induction hh generalizing h' with
  | nil => simpa using hcalls.symm
  | @cons _ _ _ e h hserves _ ih =>
    cases hh' with
    | nil => simp at hcalls
    | @cons _ _ _ e' h' hserves' hrest' =>
      obtain ⟨c, r⟩ := e
      obtain ⟨c', r'⟩ := e'
      obtain ⟨rfl, htail⟩ : c = c' ∧ h.map Prod.fst = h'.map Prod.fst := by simpa using hcalls
      obtain ⟨rfl, rfl⟩ := hserves.unique hserves'
      rw [ih hrest' htail]

/-! ## Waitlists that track the arrivals -/

/-- `View` says which arrivals wait on a waitlist that can take some more pushes, and each operation
does to them what it owes. -/
structure Tracks [Waitlist θ ν] (key : NodeId → State ν → Int) (order : Order)
    (View : Nat → List Arrival → θ → Prop) : Prop where
  contains : ∀ {room waiting w} (id : EntryId), View room waiting w →
    (Frontier.contains w id = true ↔ id ∈ ids waiting)
  size : ∀ {room waiting w}, View room waiting w → Frontier.size w = waiting.length
  spare : ∀ {room waiting w}, View (room + 1) waiting w → View room waiting w
  push_known : ∀ {room waiting w id} (n : NodeId) (s : State ν), View room waiting w →
    id ∈ ids waiting → Waitlist.push w id n s = w
  push_new : ∀ {room waiting w id} (n : NodeId) (s : State ν), View (room + 1) waiting w →
    id ∉ ids waiting → View room (waiting ++ [⟨id, key n s⟩]) (Waitlist.push w id n s)
  pop : ∀ {room waiting w}, View room waiting w → ∃ after,
    Serves key order waiting (.pop, .popped (Frontier.pop w).1) after ∧
      View room after (Frontier.pop w).2
  remove : ∀ {room waiting w} (id : EntryId), View room waiting w →
    (Frontier.remove w id).1 = Frontier.contains w id ∧
      View room (without id waiting) (Frontier.remove w id).2
  clear : ∀ {room waiting w}, View room waiting w → View room [] (Frontier.clear w)

namespace Tracks

variable {θ' : Type} [Waitlist θ ν] [Waitlist θ' ν] {View : Nat → List Arrival → θ → Prop}
  {View' : Nat → List Arrival → θ' → Prop} {w : θ} {w' : θ'}

/-- One call. -/
theorem perform (h : Tracks key order View) (c : Call ν) {calls : List (Call ν)}
    (hw : View (pushCount (c :: calls)) waiting w) : ∃ after,
    Serves key order waiting (c, (perform w c).1) after ∧
      View (pushCount calls) after (Waitlist.perform w c).2 := by
  cases c with
  | push id n s =>
    have hw : View (pushCount calls + 1) waiting w := hw
    by_cases hid : id ∈ ids waiting
    · refine ⟨waiting, .known n s hid, ?_⟩
      show View (pushCount calls) waiting (Waitlist.push w id n s)
      rw [h.push_known n s hw hid]
      exact h.spare hw
    · exact ⟨_, .arrived n s hid, h.push_new n s hw hid⟩
  | pop => exact h.pop hw
  | remove id =>
    obtain ⟨hanswer, hrest⟩ := h.remove id hw
    refine ⟨_, .removed ?_, hrest⟩
    rw [hanswer]
    exact h.contains id hw
  | contains id => exact ⟨waiting, .contained (h.contains id hw), hw⟩
  | size => exact ⟨waiting, .counted (h.size hw), hw⟩
  | clear => exact ⟨[], .cleared waiting, h.clear hw⟩

/-- Many calls. -/
theorem serves (h : Tracks key order View) (calls : List (Call ν))
    (hw : View (pushCount calls) waiting w) : ∃ after,
    ServesAll key order waiting (transcript w calls) after ∧ View 0 after (performAll w calls) := by
  induction calls generalizing waiting w with
  | nil => exact ⟨waiting, .nil waiting, hw⟩
  | cons c calls ih =>
    obtain ⟨between, hserves, hbetween⟩ := h.perform c hw
    obtain ⟨after, hall, hafter⟩ := ih hbetween
    exact ⟨after, .cons hserves hall, hafter⟩

/-- Waitlists on which the same arrivals wait cannot be told apart. -/
theorem transcript_eq (h : Tracks key order View) (h' : Tracks key order View')
    (calls : List (Call ν)) (hw : View (pushCount calls) waiting w)
    (hw' : View' (pushCount calls) waiting w') : transcript w calls = transcript w' calls := by
  obtain ⟨after, hserves, -⟩ := h.serves calls hw
  obtain ⟨after', hserves', -⟩ := h'.serves calls hw'
  exact hserves.unique hserves'
    ((map_fst_transcript w calls).trans (map_fst_transcript w' calls).symm)

end Tracks

theorem nodup_arrived {id : EntryId} (h : (ids waiting).Nodup) (hnew : id ∉ ids waiting) (k : Int) :
    (ids (waiting ++ [⟨id, k⟩])).Nodup := by
  rw [ids, List.map_append, List.map_singleton, (List.perm_append_singleton _ _).nodup_iff]
  exact List.nodup_cons.2 ⟨hnew, h⟩

/-- An element that is there once goes, and the others stay. -/
theorem filter_ne_of_nodup {α : Type} {f : α → EntryId} {before after : List α} {a : α}
    (h : ((before ++ a :: after).map f).Nodup) :
    (before ++ a :: after).filter (fun b => f b ≠ f a) = before ++ after := by
  rw [List.map_append, List.map_cons, List.nodup_middle, ← List.map_append] at h
  have hkept : ∀ b ∈ before ++ after, f b ≠ f a := fun b hb heq =>
    (List.nodup_cons.1 h).1 (List.mem_map.2 ⟨b, hb, heq⟩)
  calc (before ++ a :: after).filter (fun b => f b ≠ f a)
      = (before ++ after).filter (fun b => f b ≠ f a) := by simp
    _ = before ++ after := List.filter_eq_self.2 fun b hb => decide_eq_true (hkept b hb)

end Waitlist

/-! ## Smallest key first -/

namespace Ticket

variable {order : Order} {t u : Ticket}

/-- The newer of two tickets comes first if it overtakes the older one, which does otherwise. -/
theorem before_older (h : t.stamp < u.stamp) :
    (u.before order t = true ↔ Waitlist.Overtakes order u.key t.key) ∧
      (t.before order u = true ↔ ¬ Waitlist.Overtakes order u.key t.key) := by
  cases order <;> simp [before, Waitlist.Overtakes] <;> omega

def arrival (t : Ticket) : Waitlist.Arrival := ⟨t.id, t.key⟩

theorem ids_arrival (l : List Ticket) : Waitlist.ids (l.map arrival) = l.map Ticket.id :=
  List.map_map

/-- The tickets are sorted by their stamps, the oldest first. -/
abbrev Aged (l : List Ticket) : Prop := l.Pairwise fun t u => t.stamp < u.stamp

/-- The ticket that comes before all others is that of the foremost arrival. -/
theorem foremost {l : List Ticket} (haged : Aged l) (ht : t ∈ l)
    (hfirst : ∀ u ∈ l, u ≠ t → t.before order u = true) :
    Waitlist.Foremost order t.arrival (l.map arrival) := by
  obtain ⟨older, newer, rfl⟩ := List.append_of_mem ht
  obtain ⟨-, hnewer, holder⟩ := List.pairwise_append.1 haged
  refine ⟨older.map arrival, newer.map arrival, by simp, ?_, ?_⟩
  · intro b hb
    obtain ⟨u, hu, rfl⟩ := List.mem_map.1 hb
    have hage := holder u hu t List.mem_cons_self
    exact (before_older hage).1.1 (hfirst u (by simp [hu]) fun heq => by simp [heq] at hage)
  · intro b hb
    obtain ⟨u, hu, rfl⟩ := List.mem_map.1 hb
    have hage := (List.pairwise_cons.1 hnewer).1 u hu
    exact (before_older hage).2.1 (hfirst u (by simp [hu]) fun heq => by simp [heq] at hage)

end Ticket

namespace KeyedWaitlist

open Waitlist

variable {ν : Type} {key : NodeId → State ν → Int} {order : Order} {waiting : List Arrival}
  {w : KeyedWaitlist ν}

/-- The tickets are those of the arrivals that wait, in the order in which they have to come. Sorted
by their stamps, they are in the order of the arrivals. -/
structure Keeps (key : NodeId → State ν → Int) (order : Order) (waiting : List Arrival)
    (w : KeyedWaitlist ν) : Prop where
  key_eq : w.key = key
  order_eq : w.order = order
  ordered : Ordered order w.tickets
  once : (ids waiting).Nodup
  stamped : ∀ t ∈ w.tickets, t.stamp ≤ w.pushes
  aged : ∃ l : List Ticket, l.Perm w.tickets ∧ Ticket.Aged l ∧ l.map Ticket.arrival = waiting

theorem keeps_nil (hkey : w.key = key) (horder : w.order = order) (hnil : w.tickets = []) :
    Keeps key order [] w := by
  refine ⟨hkey, horder, hnil ▸ .nil, .nil, fun t ht => ?_, [], hnil ▸ .nil, .nil, rfl⟩
  simp [hnil] at ht

namespace Keeps

section

variable (hw : Keeps key order waiting w)

include hw

theorem perm : (w.tickets.map Ticket.id).Perm (ids waiting) := by
  obtain ⟨l, hperm, -, rfl⟩ := hw.aged
  rw [Ticket.ids_arrival]
  exact (hperm.map Ticket.id).symm

theorem contains_iff {id : EntryId} : w.contains id = true ↔ id ∈ ids waiting := by
  rw [KeyedWaitlist.contains_iff, ← List.mem_map, hw.perm.mem_iff]

theorem push_known {id : EntryId} (hid : id ∈ ids waiting) (n : NodeId) (s : State ν) :
    w.push id n s = w := by
  unfold push
  rw [if_pos (hw.contains_iff.2 hid)]

/-- A new entry gets the youngest ticket. -/
theorem push_new {id : EntryId} (hid : id ∉ ids waiting) (n : NodeId) (s : State ν) :
    Keeps key order (waiting ++ [⟨id, key n s⟩]) (w.push id n s) := by
  have hcontains : w.contains id = false := Bool.eq_false_iff.2 (mt hw.contains_iff.1 hid)
  have holder : ∀ t ∈ w.tickets, t.stamp < w.pushes + 1 := fun t ht =>
    Nat.lt_succ_of_le (hw.stamped t ht)
  rw [tickets_push hcontains, hw.key_eq, hw.order_eq]
  obtain ⟨l, hperm, haged, rfl⟩ := hw.aged
  refine ⟨rfl, rfl, ordered_place hw.ordered holder, nodup_arrived hw.once hid _,
    stamps_place hw.stamped rfl, l ++ [⟨id, key n s, w.pushes + 1⟩], ?_, ?_, List.map_append⟩
  · exact (List.perm_append_singleton _ l).trans ((hperm.cons _).trans (place_perm ..).symm)
  · refine List.pairwise_append.2 ⟨haged, List.pairwise_singleton _ _, fun t ht u hu => ?_⟩
    rw [List.mem_singleton.1 hu]
    exact holder t (hperm.mem_iff.1 ht)

theorem remove (id : EntryId) : Keeps key order (without id waiting) (w.remove id).2 := by
  obtain ⟨l, hperm, haged, rfl⟩ := hw.aged
  refine ⟨hw.key_eq, hw.order_eq, hw.ordered.filter _, hw.once.sublist (List.filter_sublist.map _),
    fun t ht => hw.stamped t (List.mem_filter.1 ht).1, l.filter fun t => t.id ≠ id,
    hperm.filter _, haged.filter _, ?_⟩
  rw [without, List.filter_map]
  rfl

/-- The first ticket is that of the foremost arrival. -/
theorem foremost {first : Ticket} {rest : List Ticket} (htickets : w.tickets = first :: rest) :
    Foremost order first.arrival waiting := by
  obtain ⟨l, hperm, haged, rfl⟩ := hw.aged
  have hordered := hw.ordered
  rw [htickets] at hperm hordered
  refine Ticket.foremost haged (hperm.mem_iff.2 List.mem_cons_self) fun t ht hne => ?_
  exact (List.pairwise_cons.1 hordered).1 t
    ((List.mem_cons.1 (hperm.mem_iff.1 ht)).resolve_left hne)

theorem pop : ∃ after,
    Serves key order waiting (.pop, .popped w.pop.1) after ∧ Keeps key order after w.pop.2 := by
  cases htickets : w.tickets with
  | nil =>
    obtain rfl : waiting = [] := by simpa [htickets] using hw.perm
    refine ⟨[], ?_, keeps_nil hw.key_eq hw.order_eq (by simp [KeyedWaitlist.pop, htickets])⟩
    simpa [KeyedWaitlist.pop, htickets] using .idle
  | cons first rest =>
    have honce := hw.perm.nodup_iff.2 hw.once
    rw [htickets] at honce
    have hrest : w.tickets.filter (fun t => t.id ≠ first.id) = w.tickets.tail := by
      rw [htickets]
      exact @filter_ne_of_nodup _ Ticket.id [] rest first honce
    have hremove := hw.remove first.id
    have hanswer : w.pop.1 = some first.id := by simp [KeyedWaitlist.pop, htickets]
    rw [hanswer]
    unfold KeyedWaitlist.remove at hremove
    rw [hrest] at hremove
    exact ⟨_, .popped (hw.foremost htickets), hremove⟩

end

end Keeps

theorem tracks (key : NodeId → State ν → Int) (order : Order) :
    Tracks key order fun _ => Keeps key order where
  contains _ hw := hw.contains_iff
  size {_ _ w} hw := by
    show w.tickets.length = _
    simpa using hw.perm.length_eq
  spare hw := hw
  push_known n s hw hid := hw.push_known hid n s
  push_new n s hw hid := hw.push_new hid n s
  pop hw := hw.pop
  remove id hw := ⟨rfl, hw.remove id⟩
  clear hw := keeps_nil hw.key_eq hw.order_eq rfl

end KeyedWaitlist

/-! ## Newest or oldest first -/

namespace SimpleWaitlist

open Waitlist

variable {ν : Type} {c : Int} {order : Order} {waiting : List Arrival} {w : SimpleWaitlist}

/-- The queue holds the arrivals that wait, which have the same key. -/
structure Holds (c : Int) (order : Order) (waiting : List Arrival) (w : SimpleWaitlist) : Prop where
  order_eq : w.order = order
  queue_eq : w.queue = ids waiting
  same : ∀ a ∈ waiting, a.key = c
  once : (ids waiting).Nodup

namespace Holds

theorem contains_iff (hw : Holds c order waiting w) {id : EntryId} :
    w.contains id = true ↔ id ∈ ids waiting := by
  rw [SimpleWaitlist.contains_iff, hw.queue_eq]

theorem size (hw : Holds c order waiting w) : w.queue.length = waiting.length := by
  simp [hw.queue_eq]

theorem push_new (hw : Holds c order waiting w) {id : EntryId} (hid : id ∉ ids waiting) :
    Holds c order (waiting ++ [⟨id, c⟩]) (w.push id) := by
  rw [queue_push (Bool.eq_false_iff.2 (mt hw.contains_iff.1 hid))]
  refine ⟨hw.order_eq, by simp [hw.queue_eq], fun a ha => ?_, nodup_arrived hw.once hid c⟩
  rcases List.mem_append.1 ha with ha | ha
  · exact hw.same a ha
  · rw [List.mem_singleton.1 ha]

theorem remove (hw : Holds c order waiting w) (id : EntryId) :
    Holds c order (without id waiting) (w.remove id).2 := by
  refine ⟨hw.order_eq, ?_, fun a ha => hw.same a (List.mem_filter.1 ha).1,
    hw.once.sublist (List.filter_sublist.map _)⟩
  show w.queue.filter (fun x => x ≠ id) = _
  rw [hw.queue_eq, ids, List.filter_map]
  rfl

/-- The arrival at the end from which the order takes is the foremost one. -/
theorem taken {older newer : List Arrival} {a : Arrival}
    (hw : Holds c order (older ++ a :: newer) w)
    (hend : if order = .depthFirst then newer = [] else older = []) : ∃ after,
    Serves (fun (_ : NodeId) (_ : State ν) => c) order (older ++ a :: newer)
      (.pop, .popped (some a.id)) after ∧ Holds c order after ⟨order, ids (older ++ newer)⟩ := by
  have hsame : ∀ b ∈ older ++ newer, b.key = a.key := fun b hb =>
    (hw.same b (by grind)).trans (hw.same a (by simp)).symm
  refine ⟨_, .popped ⟨older, newer, rfl, fun b hb => ?_, fun b hb => ?_⟩, ?_⟩
  · rw [hsame b (by simp [hb]), Overtakes]
    split
    · exact Int.le_refl _
    · simp_all
  · rw [hsame b (by simp [hb]), Overtakes]
    split
    · simp_all
    · exact Int.lt_irrefl _
  · have hremove := hw.remove a.id
    rw [without, filter_ne_of_nodup hw.once] at hremove ⊢
    exact ⟨rfl, rfl, hremove.same, hremove.once⟩

theorem pop (hw : Holds c order waiting w) : ∃ after,
    Serves (fun (_ : NodeId) (_ : State ν) => c) order waiting (.pop, .popped w.pop.1) after ∧
      Holds c order after w.pop.2 := by
  obtain ⟨order', queue⟩ := w
  obtain ⟨rfl, rfl, hsame, honce⟩ := id hw
  cases order' with
  | depthFirst =>
    rcases List.eq_nil_or_concat waiting with rfl | ⟨older, a, rfl⟩
    · exact ⟨[], .idle, hw⟩
    · rw [List.concat_eq_append] at hw ⊢
      simpa [SimpleWaitlist.pop, next?] using hw.taken (ν := ν) rfl
  | breadthFirst =>
    cases waiting with
    | nil => exact ⟨[], .idle, hw⟩
    | cons a newer => exact @taken ν c _ _ [] newer a hw rfl

end Holds

theorem tracks (c : Int) (order : Order) :
    Tracks (fun (_ : NodeId) (_ : State ν) => c) order fun _ => Holds c order where
  contains _ hw := hw.contains_iff
  size hw := hw.size
  spare hw := hw
  push_known _ _ hw hid := if_pos (hw.contains_iff.2 hid)
  push_new _ _ hw hid := hw.push_new hid
  pop hw := hw.pop
  remove id hw := ⟨rfl, hw.remove id⟩
  clear hw := ⟨hw.order_eq, rfl, by simp, .nil⟩

end SimpleWaitlist

end ProgramAnalysis
