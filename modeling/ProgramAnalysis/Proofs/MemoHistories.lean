import ProgramAnalysis.Proofs.Triple
import ProgramAnalysis.Wrapper.Memo
/-!
Remembered answers as their callers see them.

An event is a call of a memo with its answer, and whether the analysis inside was asked. The events
alone tell what is known: the results of the calls with the same handles that succeeded since
everything was forgotten last (`Known`). A `History` asks the analysis inside exactly if nothing is
known. Otherwise it answers what is known, and the analysis inside sees nothing of it.

Whatever calls are made of a memo, they make up such a history, whatever analysis is inside: its
tables hold what is known and count the events (`Tables.Reflects`).
-/

namespace ProgramAnalysis

/-! ## One look-up -/

namespace Cache

variable {κ β : Type} [DecidableEq κ] {c c' : Cache κ β} {k : κ}

theorem find?_insert (c : Cache κ β) (k a : κ) (b : β) :
    (c.insert k b).find? a = if k = a then some b else c.find? a := by
  unfold find? insert
  by_cases h : k = a
  · simp [h]
  · have hsame : ∀ q : κ × β, (!decide (q.1 = k) && decide (q.1 = a)) = decide (q.1 = a) := by
      intro q
      by_cases hq : q.1 = a
      · simp [hq, Ne.symm h]
      · simp [hq]
    simp [h, hsame]

/-- The cache after a call with the key `k`, for which it then remembers `found`. -/
structure After (c : Cache κ β) (k : κ) (asked : Bool) (found : Option β) (c' : Cache κ β) :
    Prop where
  find?_eq : ∀ a, c'.find? a = if k = a then found else c.find? a
  hits_eq : c'.hits = c.hits + if asked then 0 else 1
  misses_eq : c'.misses = c.misses + if asked then 1 else 0

theorem get_of_some {b : β} (h : c.find? k = some b) :
    ∃ c', c.get k = (some b, c') ∧ c.After k false (some b) c' := by
  refine ⟨{ c with hits := c.hits + 1 }, by simp [get, h], fun a => ?_, rfl, rfl⟩
  split
  · next hk => exact hk ▸ h
  · rfl

theorem get_of_none (h : c.find? k = none) :
    ∃ c', c.get k = (none, c') ∧ c.After k true none c' := by
  refine ⟨{ c with misses := c.misses + 1 }, by simp [get, h], fun a => ?_, rfl, rfl⟩
  split
  · next hk => exact hk ▸ h
  · rfl

theorem After.insert (h : c.After k true none c') (b : β) :
    c.After k true (some b) (c'.insert k b) := by
  refine ⟨fun a => ?_, h.hits_eq, h.misses_eq⟩
  rw [find?_insert, h.find?_eq]
  split <;> rfl

end Cache

namespace Memo

variable {ν ρ ω κ β : Type}

/-- The world of the analysis inside together with the tables. -/
def joined (u : World ω) (t : Tables ν ρ) : World (ω × Tables ν ρ) := u.withMemory (u.memory, t)

section Remembered

variable [DecidableEq κ] (part : Slot (Tables ν ρ) (Cache κ β)) (k : κ) (x : Action ω β)
  (u : World ω) (t : Tables ν ρ)

theorem run_lookup : (Action.ofEffect (lookup (Slot.snd.comp part) k)).run.run (joined u t) =
    (.ok ((part.get t).get k).1, joined u (part.set ((part.get t).get k).2 t)) := rfl

theorem run_focused : (x.focus .fst).run.run (joined u t) =
    ((x.run.run u).1, joined (x.run.run u).2 t) := rfl

variable {part}

/-- A remembered result is given without asking; otherwise a success is remembered. -/
theorem run_remembered (hget : ∀ c t, part.get (part.set c t) = c)
    (hset : ∀ c c' t, part.set c (part.set c' t) = part.set c t) :
    (∃ b c', (part.get t).find? k = some b ∧ (part.get t).After k false (some b) c' ∧
      (remembered (Slot.snd.comp part) k (x.focus .fst)).run.run (joined u t) =
        (.ok b, joined u (part.set c' t))) ∨
    (part.get t).find? k = none ∧ ∃ c', (part.get t).After k true (x.run.run u).1.toOption c' ∧
      (remembered (Slot.snd.comp part) k (x.focus .fst)).run.run (joined u t) =
        ((x.run.run u).1, joined (x.run.run u).2 (part.set c' t)) := by
  unfold remembered
  rw [run_bind_of_ok (run_lookup part k u t)]
  cases hfind : (part.get t).find? k with
  | some b =>
    obtain ⟨c', hc, hafter⟩ := Cache.get_of_some hfind
    rw [hc]
    exact .inl ⟨b, c', rfl, hafter, rfl⟩
  | none =>
    obtain ⟨c', hc, hafter⟩ := Cache.get_of_none hfind
    rw [hc]
    refine .inr ⟨rfl, ?_⟩
    have hrun := run_focused x u (part.set c' t)
    rcases hx : x.run.run u with ⟨f | b, u'⟩ <;> rw [hx] at hrun
    · exact ⟨c', hafter, run_bind_of_error hrun⟩
    · refine ⟨c'.insert k b, hafter.insert b, (run_bind_of_ok hrun).trans ?_⟩
      show (Except.ok b, joined u' (part.set ((part.get (part.set c' t)).insert k b)
        (part.set c' t))) = _
      rw [hget, hset]

end Remembered

/-! ## Calls -/

/-- One use of a memo. -/
inductive Call (ν ρ : Type) where
  | merge (s r : State ν) (p : Precision ρ)
  | adjust (s : State ν) (p : Precision ρ) (around : Surroundings ν ρ)
  | clear

/-- What an operator gives. -/
inductive Result (ν ρ : Type) where
  | merged (s : State ν)
  | adjusted (adjustment : Option (Adjustment ν ρ))

/-- The operators whose results are remembered. -/
inductive Operator where
  | merge
  | adjust
deriving DecidableEq

/-- By what a result is remembered. -/
inductive Key where
  | merge (k : MergeKey)
  | adjust (k : AdjustKey)
deriving DecidableEq

def Key.operator : Key → Operator
  | merge _ => .merge
  | adjust _ => .adjust

/-- The handles by which the result of a call is remembered. -/
def Call.key? : Call ν ρ → Option Key
  | merge s r p => some (.merge (p.handle, s.handle, r.handle))
  | adjust s p _ => some (.adjust (p.handle, s.handle))
  | clear => none

/-- What a call answers; there is no answer to `clear`. -/
abbrev Answer (ν ρ : Type) := Option (Except Failure (Result ν ρ))

/-- What an operator did, with its result told as one. -/
def told (result : β → Result ν ρ) (x : Except Failure β × World ω) : Answer ν ρ × World ω :=
  (some (x.1.map result), x.2)

/-- Asks the operators of an analysis. -/
def ask (a : Analysis ν ρ ω) (w : World ω) : Call ν ρ → Answer ν ρ × World ω
  | .merge s r p => told .merged ((a.merger.merge s r p).run.run w)
  | .adjust s p around => told .adjusted ((a.adjuster.adjust s p around).run.run w)
  | .clear => (none, w)

/-- Carries out a call of the memo around an analysis. -/
def perform (a : Analysis ν ρ ω) (w : World (ω × Tables ν ρ)) :
    Call ν ρ → Answer ν ρ × World (ω × Tables ν ρ)
  | .clear => (none, { w with memory := (w.memory.1, w.memory.2.clear) })
  | c => ask (analysis a) w c

/-- Carries out calls one after the other, and lists them with their answers. -/
def performAll (a : Analysis ν ρ ω) : World (ω × Tables ν ρ) → List (Call ν ρ) →
    List (Call ν ρ × Answer ν ρ) × World (ω × Tables ν ρ)
  | w, [] => ([], w)
  | w, c :: calls =>
    let x := perform a w c
    let y := performAll a x.2 calls
    ((c, x.1) :: y.1, y.2)

/-! ## Histories -/

/-- A call with its answer, and whether the analysis inside was asked. -/
structure Event (ν ρ : Type) where
  call : Call ν ρ
  answer : Answer ν ρ
  asked : Bool

namespace Event

variable (o : Operator) (e : Event ν ρ)

/-- What the call succeeded with. -/
def result? : Option (Result ν ρ) := e.answer.bind Except.toOption

/-- The calls of an operator that did not ask the analysis inside. -/
def isHit : Bool := e.call.key?.map Key.operator = some o && !e.asked

/-- The calls of an operator that asked the analysis inside. -/
def isMiss : Bool := e.call.key?.map Key.operator = some o && e.asked

end Event

/-- A call with this key succeeded with this result, and nothing was forgotten since. -/
def Known (h : List (Event ν ρ)) (k : Key) (b : Result ν ρ) : Prop :=
  ∃ before e after, h = before ++ e :: after ∧ e.call.key? = some k ∧ e.result? = some b ∧
    ∀ g ∈ after, g.call ≠ .clear

/-- What may happen after the events `h`, with the world of the analysis inside. It is asked exactly
if nothing is known, and otherwise what is known is the answer. -/
inductive Step (a : Analysis ν ρ ω) (h : List (Event ν ρ)) (w : World ω) :
    Event ν ρ → World ω → Prop where
  | replayed {c : Call ν ρ} {k b} : c.key? = some k →
      (∀ b', Known h k b' ↔ b' = b) → Step a h w ⟨c, some (.ok b), false⟩ w
  | asked {c : Call ν ρ} {k} : c.key? = some k → (∀ b, ¬ Known h k b) →
      Step a h w ⟨c, (ask a w c).1, true⟩ (ask a w c).2
  | cleared : Step a h w ⟨.clear, none, false⟩ w

/-- Events one after the other, from one world of the analysis inside to another. -/
inductive History (a : Analysis ν ρ ω) (w : World ω) : List (Event ν ρ) → World ω → Prop where
  | nil : History a w [] w
  | snoc {h e u u'} : History a w h u → Step a h u e u' → History a w (h ++ [e]) u'

theorem known_concat {h : List (Event ν ρ)} {e : Event ν ρ} {k : Key} {b : Result ν ρ} :
    Known (h ++ [e]) k b ↔
      (e.call.key? = some k ∧ e.result? = some b) ∨ Known h k b ∧ e.call ≠ .clear := by
  constructor
  · rintro ⟨before, g, after, heq, hkey, hresult, hkept⟩
    rcases List.eq_nil_or_concat after with rfl | ⟨rest, last, rfl⟩
    · obtain ⟨-, rfl⟩ := List.append_singleton_inj.1 heq
      exact .inl ⟨hkey, hresult⟩
    · rw [List.concat_eq_append, ← List.cons_append, ← List.append_assoc] at heq
      obtain ⟨rfl, rfl⟩ := List.append_singleton_inj.1 heq
      refine .inr ⟨⟨before, g, rest, rfl, hkey, hresult, fun f hf => hkept f ?_⟩, hkept e ?_⟩
      · simp [hf]
      · simp
  · rintro (⟨hkey, hresult⟩ | ⟨⟨before, g, after, rfl, hkey, hresult, hkept⟩, hnot⟩)
    · exact ⟨h, e, [], rfl, hkey, hresult, by simp⟩
    · refine ⟨before, g, after ++ [e], by simp, hkey, hresult, fun f hf => ?_⟩
      rcases List.mem_append.1 hf with hf | hf
      · exact hkept f hf
      · rw [List.mem_singleton.1 hf]
        exact hnot

/-! ## Tables -/

namespace Tables

variable {t t' : Tables ν ρ} {h : List (Event ν ρ)} {asked : Bool} {result : Option (Result ν ρ)}

/-- The result that is remembered for a key. -/
def find? (t : Tables ν ρ) : Key → Option (Result ν ρ)
  | .merge k => (t.merges.find? k).map .merged
  | .adjust k => (t.adjustments.find? k).map .adjusted

def hits (t : Tables ν ρ) : Operator → Nat
  | .merge => t.merges.hits
  | .adjust => t.adjustments.hits

def misses (t : Tables ν ρ) : Operator → Nat
  | .merge => t.merges.misses
  | .adjust => t.adjustments.misses

/-- The tables after a call with the key `k`, for which they then remember `found`. -/
structure After (t : Tables ν ρ) (k : Key) (asked : Bool) (found : Option (Result ν ρ))
    (t' : Tables ν ρ) : Prop where
  find?_eq : ∀ k', t'.find? k' = if k = k' then found else t.find? k'
  hits_eq : ∀ o, t'.hits o = t.hits o + if k.operator = o ∧ asked = false then 1 else 0
  misses_eq : ∀ o, t'.misses o = t.misses o + if k.operator = o ∧ asked = true then 1 else 0

theorem after_merge {k : MergeKey} {found : Option (State ν)} {c : Cache MergeKey (State ν)}
    (hc : t.merges.After k asked found c) (hresult : found.map .merged = result) :
    t.After (.merge k) asked result { t with merges := c } := by
  subst hresult
  refine ⟨fun k' => ?_, fun o => ?_, fun o => ?_⟩
  · cases k' with
    | merge k' => by_cases hk : k = k' <;> simp [find?, hc.find?_eq, hk]
    | adjust k' => simp [find?]
  · cases o <;> cases asked <;> simp [hits, hc.hits_eq, Key.operator]
  · cases o <;> cases asked <;> simp [misses, hc.misses_eq, Key.operator]

theorem after_adjust {k : AdjustKey} {found : Option (Option (Adjustment ν ρ))}
    {c : Cache AdjustKey (Option (Adjustment ν ρ))} (hc : t.adjustments.After k asked found c)
    (hresult : found.map .adjusted = result) :
    t.After (.adjust k) asked result { t with adjustments := c } := by
  subst hresult
  refine ⟨fun k' => ?_, fun o => ?_, fun o => ?_⟩
  · cases k' with
    | merge k' => simp [find?]
    | adjust k' => by_cases hk : k = k' <;> simp [find?, hc.find?_eq, hk]
  · cases o <;> cases asked <;> simp [hits, hc.hits_eq, Key.operator]
  · cases o <;> cases asked <;> simp [misses, hc.misses_eq, Key.operator]

/-- The tables hold what is known and count the events. -/
structure Reflects (h : List (Event ν ρ)) (t : Tables ν ρ) : Prop where
  known_iff : ∀ k b, t.find? k = some b ↔ Known h k b
  hits_eq : ∀ o, t.hits o = h.countP (Event.isHit o)
  misses_eq : ∀ o, t.misses o = h.countP (Event.isMiss o)

theorem reflects_empty : Reflects [] (empty : Tables ν ρ) where
  known_iff k b := by
    constructor
    · cases k <;> exact fun h => nomatch h
    · rintro ⟨before, e, after, heq, -⟩
      simp at heq
  hits_eq o := by cases o <;> rfl
  misses_eq o := by cases o <;> rfl

namespace Reflects

/-- One call of an operator. -/
theorem concat (ht : Reflects h t) {e : Event ν ρ} {k : Key} (hk : e.call.key? = some k)
    (hafter : t.After k e.asked e.result? t')
    (hold : ∀ b, t.find? k = some b → e.result? = some b) : Reflects (h ++ [e]) t' := by
  have hclear : e.call ≠ .clear := fun heq => by simp [heq, Call.key?] at hk
  refine ⟨fun k' b => ?_, fun o => ?_, fun o => ?_⟩
  · rw [hafter.find?_eq, known_concat, ← ht.known_iff]
    by_cases hkey : k = k'
    · subst hkey
      rw [if_pos rfl]
      exact ⟨fun hb => .inl ⟨hk, hb⟩, fun hb => hb.elim And.right fun hb => hold b hb.1⟩
    · have hother : e.call.key? ≠ some k' := fun hk' => hkey (Option.some.inj (hk.symm.trans hk'))
      simp [hkey, hother, hclear]
  · rw [hafter.hits_eq, ht.hits_eq, List.countP_append, List.countP_singleton]
    simp [Event.isHit, hk]
  · rw [hafter.misses_eq, ht.misses_eq, List.countP_append, List.countP_singleton]
    simp [Event.isMiss, hk]

/-- Nothing is known after a clearing, and the counts stay. -/
theorem clear (ht : Reflects h t) : Reflects (h ++ [⟨.clear, none, false⟩]) t.clear := by
  refine ⟨fun k b => ?_, fun o => ?_, fun o => ?_⟩
  · have hnone : t.clear.find? k = none := by cases k <;> rfl
    rw [hnone, known_concat]
    simp [Call.key?]
  · rw [List.countP_append, ← ht.hits_eq]
    cases o <;> rfl
  · rw [List.countP_append, ← ht.misses_eq]
    cases o <;> rfl

end Reflects

end Tables

/-! ## Sequences of calls -/

section

variable (a : Analysis ν ρ ω) {h : List (Event ν ρ)} {w u : World ω} {t : Tables ν ρ}

theorem toOption_map (result : β → Result ν ρ) (x : Except Failure β) :
    x.toOption.map result = (x.map result).toOption := by
  cases x <;> rfl

/-- What a call of an operator does. -/
theorem perform_of_key {c : Call ν ρ} {k : Key} (hk : c.key? = some k) (u : World ω)
    (t : Tables ν ρ) :
    (∃ b t', t.find? k = some b ∧ t.After k false (some b) t' ∧
      perform a (joined u t) c = (some (.ok b), joined u t')) ∨
    t.find? k = none ∧ ∃ t', t.After k true ((ask a u c).1.bind Except.toOption) t' ∧
      perform a (joined u t) c = ((ask a u c).1, joined (ask a u c).2 t') := by
  cases c with
  | merge s r p =>
    cases hk
    rcases @run_remembered ν ρ ω _ _ _ ⟨Tables.merges, fun c t => { t with merges := c }⟩
      (p.handle, s.handle, r.handle) (a.merger.merge s r p) u t (fun _ _ => rfl)
      fun _ _ _ => rfl with ⟨b, c, hfind, hc, hrun⟩ | ⟨hfind, c, hc, hrun⟩
    · exact .inl ⟨.merged b, _, congrArg (Option.map Result.merged) hfind,
        Tables.after_merge hc rfl, congrArg (told .merged) hrun⟩
    · exact .inr ⟨congrArg (Option.map Result.merged) hfind, _,
        Tables.after_merge hc (toOption_map .merged _), congrArg (told .merged) hrun⟩
  | adjust s p around =>
    cases hk
    rcases @run_remembered ν ρ ω _ _ _ ⟨Tables.adjustments, fun c t => { t with adjustments := c }⟩
      (p.handle, s.handle) (a.adjuster.adjust s p around) u t (fun _ _ => rfl)
      fun _ _ _ => rfl with ⟨b, c, hfind, hc, hrun⟩ | ⟨hfind, c, hc, hrun⟩
    · exact .inl ⟨.adjusted b, _, congrArg (Option.map Result.adjusted) hfind,
        Tables.after_adjust hc rfl, congrArg (told .adjusted) hrun⟩
    · exact .inr ⟨congrArg (Option.map Result.adjusted) hfind, _,
        Tables.after_adjust hc (toOption_map .adjusted _), congrArg (told .adjusted) hrun⟩
  | clear => cases hk

/-- One call. -/
theorem perform_step (ht : t.Reflects h) (u : World ω) (c : Call ν ρ) :
    ∃ e u' t', perform a (joined u t) c = (e.answer, joined u' t') ∧ e.call = c ∧
      Step a h u e u' ∧ t'.Reflects (h ++ [e]) := by
  cases hk : c.key? with
  | none =>
    cases c with
    | clear => exact ⟨⟨.clear, none, false⟩, u, t.clear, rfl, rfl, .cleared, ht.clear⟩
    | merge | adjust => cases hk
  | some k =>
    rcases perform_of_key a hk u t with ⟨b, t', hfind, hafter, hrun⟩ | ⟨hfind, t', hafter, hrun⟩
    · refine ⟨⟨c, some (.ok b), false⟩, u, t', hrun, rfl, .replayed hk fun b' => ?_, ?_⟩
      · rw [← ht.known_iff, hfind, Option.some_inj, eq_comm]
      · exact ht.concat hk hafter fun b' hb' => hfind.symm.trans hb'
    · refine ⟨⟨c, (ask a u c).1, true⟩, _, t', hrun, rfl, .asked hk fun b hb => ?_, ?_⟩
      · rw [← ht.known_iff, hfind] at hb
        cases hb
      · exact ht.concat hk hafter fun b hb => by simp [hfind] at hb

/-- Calls after a history continue it. -/
theorem performAll_history (calls : List (Call ν ρ)) : ∀ {h : List (Event ν ρ)} {u : World ω}
    {t : Tables ν ρ}, History a w h u → t.Reflects h →
    ∃ events u' t', performAll a (joined u t) calls =
        (events.map fun e => (e.call, e.answer), joined u' t') ∧
      History a w (h ++ events) u' ∧ t'.Reflects (h ++ events) := by
  induction calls with
  | nil =>
    intro h u t hh ht
    exact ⟨[], u, t, rfl, by rwa [List.append_nil], by rwa [List.append_nil]⟩
  | cons c calls ih =>
    intro h u t hh ht
    obtain ⟨e, u₁, t₁, hrun, rfl, hstep, ht₁⟩ := perform_step a ht u c
    obtain ⟨events, u₂, t₂, hruns, hh₂, ht₂⟩ := ih (hh.snoc hstep) ht₁
    rw [List.append_assoc] at hh₂ ht₂
    refine ⟨e :: events, u₂, t₂, ?_, hh₂, ht₂⟩
    simp only [performAll, hrun, hruns, List.map_cons]

end

/-- Any sequence of calls of a fresh memo is a history: each merge or adjustment is answered by the
analysis inside if no result for its handles is known, and otherwise by that result and without
asking. The two tables count just these two kinds of calls, and forgetting resets no count. -/
theorem memo_replays_exactly (a : Analysis ν ρ ω) (w : World ω) (calls : List (Call ν ρ)) :
    ∃ events w' t, performAll a (joined w .empty) calls =
        (events.map fun e => (e.call, e.answer), joined w' t) ∧
      History a w events w' ∧
      ∀ o, t.hits o = events.countP (Event.isHit o) ∧
        t.misses o = events.countP (Event.isMiss o) := by
  obtain ⟨events, w', t, hruns, hh, ht⟩ :=
    performAll_history a calls (.nil (w := w)) Tables.reflects_empty
  exact ⟨events, w', t, hruns, hh, fun o => ⟨ht.hits_eq o, ht.misses_eq o⟩⟩

end Memo

end ProgramAnalysis
