import Mathlib.Data.Multiset.DershowitzManna
import ProgramAnalysis.Proofs.Closure
import ProgramAnalysis.Proofs.MonitorOperators
/-!
A limit on the length of paths makes every run end.

The budget of a state is what its path has left. A transfer, also one that is merged afterwards,
leads to states with a smaller budget than the one that was expanded, whatever the analysis inside
computes. So an iteration takes one budget off the frontier and puts smaller ones there, any number
of them; entries that get lost on the way do no harm. The budgets that wait form a multiset that
goes down in the order of Dershowitz and Manna.
-/

namespace ProgramAnalysis

/-! ## Budgets of states -/

namespace Monitor

variable {ν ρ ω : Type} {limit : Nat} {s : State ν}

/-- One more than the number of steps that the path of the state may still take; nothing if no step
leads on from it. -/
def budget (limit : Nat) : State ν → Nat
  | .monitored _ _ pathLength none => limit + 1 - pathLength + 1
  | _ => 0

theorem budget_congr {t : State ν} (h : path? s = path? t) : budget limit s = budget limit t := by
  have hpath : ∀ s : State ν, budget limit s = (path? s).elim 0 fun q =>
      q.2.elim (limit + 1 - q.1 + 1) fun _ => 0 := by
    intro s
    cases s with
    | monitored _ _ k x => cases x <;> rfl
    | _ => rfl
  rw [hpath, hpath, h]

theorem budget_live {k : Nat} (h : path? s = some (k, none)) : budget limit s = limit + 1 - k + 1 :=
  budget_congr (t := .monitored ⟨0⟩ s k none) h

theorem budget_longer {limits : Limits} (hlimit : limits.pathLength = some limit) {s' : State ν}
    {k : Nat} {pauses : Duration} (hs : path? s = some (k, none))
    (hs' : path? s' = some (k + 1, limits.exhaustion (k + 1) pauses)) :
    budget limit s' < budget limit s := by
  rw [budget_live hs]
  cases hx : limits.exhaustion (k + 1) pauses with
  | some x =>
    rw [hx] at hs'
    have hzero : budget limit s' = 0 := budget_congr (t := .monitored ⟨0⟩ s' _ (some x)) hs'
    omega
  | none =>
    -- The path is not over the limit, so there was one step left.
    have hwithin : limits.overlong (k + 1) = none := (Option.or_eq_none_iff.1 hx).1
    unfold Limits.overlong at hwithin
    rw [hlimit] at hwithin
    have hle : k + 1 ≤ limit := by simpa using hwithin
    rw [hx] at hs'
    rw [budget_live hs']
    omega

end Monitor

namespace Exploration

variable {ν ρ ω θ : Type} [LeafValue ν]

/-! ## Budgets of entries -/

/-- The budget of the entry with a number. -/
def budgetOf (limit : Nat) (r : ReachedSet ν ρ θ) (id : EntryId) : Nat :=
  (r.get? id).elim 0 fun e => Monitor.budget limit e.state

section

variable [Waitlist θ ν] [Waitlist.Listed θ ν] {limit k : Nat} {r r' : ReachedSet ν ρ θ}

/-- The budgets that wait. -/
def budgets (limit : Nat) (r : ReachedSet ν ρ θ) : Multiset Nat :=
  Multiset.map (budgetOf limit r) r.queue

/-- Of the budgets from `k` on, no more wait than before. -/
def Spends (limit k : Nat) (r r' : ReachedSet ν ρ θ) : Prop :=
  ∀ b, k ≤ b → (r'.queue.countP fun id => budgetOf limit r' id = b) ≤
    r.queue.countP fun id => budgetOf limit r id = b

omit [LeafValue ν] in
theorem Spends.refl (r : ReachedSet ν ρ θ) : Spends limit k r r := fun _ _ => Nat.le_refl _

omit [LeafValue ν] in
theorem Spends.trans {r'' : ReachedSet ν ρ θ} (h : Spends limit k r r')
    (h' : Spends limit k r' r'') : Spends limit k r r'' :=
  fun b hb => Nat.le_trans (h' b hb) (h b hb)

theorem Spends.add {e : Entry ν ρ} {id : EntryId} (h : r.add e = .ok (id, r'))
    (he : Monitor.budget limit e.state < k) : Spends limit k r r' := by
  have hnew : budgetOf limit r' id = Monitor.budget limit e.state := by
    unfold budgetOf
    rw [ReachedSet.get?_add h, if_pos rfl]
    rfl
  have hold : ∀ j, j ≠ id → budgetOf limit r' j = budgetOf limit r j := by
    intro j hj
    unfold budgetOf
    rw [ReachedSet.get?_add h, if_neg hj]
  intro b hb
  have hcount : (r.queue.countP fun j => budgetOf limit r' j = b) ≤
      r.queue.countP fun j => budgetOf limit r j = b := by
    refine List.countP_mono_left fun j _ hj => ?_
    have hj : budgetOf limit r' j = b := of_decide_eq_true hj
    have hne : j ≠ id := by
      rintro rfl
      omega
    rw [hold j hne] at hj
    exact decide_eq_true hj
  rcases ReachedSet.queue_add h with hq | hq
  · have hid : ¬ budgetOf limit r' id = b := by omega
    rw [hq.countP_eq, List.countP_cons_of_neg (by simpa using hid)]
    exact hcount
  · rw [hq]
    exact hcount

omit [LeafValue ν] in
theorem Spends.remove (r : ReachedSet ν ρ θ) (id : EntryId) (hk : 0 < k) :
    Spends limit k r (r.remove id).2 := by
  intro b hb
  refine Nat.le_trans (List.Sublist.countP_le (ReachedSet.queue_remove r id)) ?_
  refine List.countP_mono_left fun j _ hj => ?_
  have hj : budgetOf limit (r.remove id).2 j = b := of_decide_eq_true hj
  unfold budgetOf at hj
  rw [ReachedSet.get?_remove] at hj
  split at hj
  · have hj : 0 = b := hj
    omega
  · exact decide_eq_true hj

omit [LeafValue ν] in
/-- A budget that was taken off weighs more than all the smaller ones that came. -/
theorem Spends.lt {id : EntryId} {r₀ : ReachedSet ν ρ θ} (hpop : r₀.pop = (some id, r))
    (h : Spends limit (budgetOf limit r id) r r') :
    (budgets limit r').IsDershowitzMannaLT (budgets limit r₀) := by
  have hr : r = r₀.pop.2 := by rw [hpop]
  have hstart : budgets limit r₀ = budgetOf limit r id ::ₘ budgets limit r := by
    have hsame : budgetOf limit r₀ = budgetOf limit r := by
      rw [hr]
      rfl
    unfold budgets
    rw [hsame, Multiset.coe_eq_coe.2 (ReachedSet.queue_pop hpop), ← Multiset.cons_coe,
      Multiset.map_cons]
  have hcount : ∀ (u : ReachedSet ν ρ θ) b, (budgets limit u).count b =
      u.queue.countP fun j => budgetOf limit u j = b := by
    intro u b
    unfold budgets
    rw [Multiset.map_coe, Multiset.coe_count, List.count, List.countP_map]
    rfl
  have hkept : (budgets limit r').filter (budgetOf limit r id ≤ ·) ≤ budgets limit r := by
    refine Multiset.le_iff_count.2 fun b => ?_
    rw [Multiset.count_filter]
    split
    · next hb =>
      rw [hcount, hcount]
      exact h b hb
    · exact Nat.zero_le _
  obtain ⟨lost, hlost⟩ := Multiset.le_iff_exists_add.1 hkept
  refine ⟨_, (budgets limit r').filter (¬ budgetOf limit r id ≤ ·), budgetOf limit r id ::ₘ lost,
    Multiset.cons_ne_zero, (Multiset.filter_add_not _ _).symm, ?_, fun b hb => ?_⟩
  · rw [hstart, Multiset.add_cons, ← hlost]
  · refine ⟨budgetOf limit r id, Multiset.mem_cons_self _ _, ?_⟩
    exact Nat.lt_of_not_le (Multiset.mem_filter.1 hb).2

/-! ## One expansion -/

/-- The state of an expansion of an entry with budget `k` that started from `r₀`, when `todo` is
still to be admitted. -/
structure Spending (limit k : Nat) (r₀ : ReachedSet ν ρ θ) (todo : Successors ν ρ)
    (r : ReachedSet ν ρ θ) : Prop where
  sound : r.Sound
  spends : Spends limit k r₀ r
  smaller : ∀ q ∈ todo, Monitor.budget limit q.1.state < k

variable {x : Exploration ν ρ (ω × Monitor.Counts)} {limits : Monitor.Limits} {a : Analysis ν ρ ω}
  {r₀ : ReachedSet ν ρ θ} {todo : Successors ν ρ}

omit [Waitlist θ ν] [Waitlist.Listed θ ν] in
theorem passes_smaller (hx : x.analysis = Monitor.analysis limits a)
    (hlimit : limits.pathLength = some limit) (store : Store ν ρ) (e : Entry ν ρ)
    (w₀ : World (ω × Monitor.Counts)) :
    Passes x store e w₀ (fun _ _ => True)
      (fun s _ => Monitor.budget limit s < Monitor.budget limit e.state) where
  refl _ := trivial
  trans _ _ _ _ _ := trivial
  stays _ _ _ h _ := h
  transfer g _ w r w' _ hrun := by
    rw [Exploration.transfer, hx] at hrun
    refine ⟨trivial, fun next hr => ?_⟩
    rw [hr] at hrun
    intro s' hs'
    obtain ⟨k, pauses, hk, hk'⟩ := (Monitor.transfer_gives limits a.transfer _ _ _ _).ok hrun s' hs'
    exact Monitor.budget_longer hlimit hk hk'
  adjust s w r w' hrun := by
    rw [Exploration.adjustment, hx] at hrun
    refine ⟨trivial, fun b hr hs => ?_⟩
    rw [hr] at hrun
    rwa [Monitor.budget_congr ((Monitor.adjust_gives a.adjuster s e.precision _).ok hrun b rfl)]
  fallback s err w r w' hrun := by
    rw [hx] at hrun
    refine ⟨trivial, fun b hr hs => ?_⟩
    rw [hr] at hrun
    rwa [Monitor.budget_congr ((Monitor.fallback_gives a.adjuster s e.precision err).ok hrun b rfl)]

theorem spending_merging (hx : x.analysis = Monitor.analysis limits a) (b : Adjustment ν ρ)
    (l : NodeId) (part : Partition) :
    MergePass x b.state b.precision ⟨l, part⟩
      (fun _ _ r _ => Spending limit k r₀ ((b, l) :: todo) r) (fun _ _ _ _ => True) where
  sound _ _ _ _ h := h.sound
  gone _ _ _ _ _ h _ := h
  same _ _ _ _ _ _ _ _ h _ _ _ _ := h
  replaced id _ w r t e merged w' i r' h he _ hrun hne hadd := by
    rw [hx] at hrun
    have hb : Monitor.budget limit b.state < k := h.smaller (b, l) (by simp)
    have hk : 0 < k := by omega
    have hmerged : Monitor.budget limit merged < k := by
      rcases (Monitor.merge_gives a.merger b.state e.state b.precision).ok hrun with
        hm | ⟨j, j', hj, -, hm⟩
      · exact absurd (congrArg State.handle hm) hne
      · rw [Monitor.budget_live hj] at hb
        rw [Monitor.budget_live hm]
        omega
    refine ⟨(h.sound.remove id).add hadd, ?_, h.smaller⟩
    exact (h.spends.trans (.remove r id hk)).trans (.add hadd hmerged)
  vanished id _ w r t e merged w' h _ _ _ _ _ := by
    have hb : Monitor.budget limit b.state < k := h.smaller (b, l) (by simp)
    have hk : 0 < k := by omega
    exact ⟨h.sound.remove id, h.spends.trans (.remove r id hk), h.smaller⟩
  failed _ _ _ _ _ _ _ _ _ _ _ _ := trivial
  crashed _ _ _ _ := trivial

theorem spending_admission (hx : x.analysis = Monitor.analysis limits a) (part : Partition) :
    Admission x part (fun todo _ r _ => Spending limit k r₀ todo r) (fun _ _ _ _ => True) := by
  have later : ∀ {q : Adjustment ν ρ × NodeId} {todo} {r : ReachedSet ν ρ θ},
      Spending limit k r₀ (q :: todo) r → Spending limit k r₀ todo r :=
    fun h => ⟨h.sound, h.spends, fun q hq => h.smaller q (List.mem_cons_of_mem _ hq)⟩
  have added : ∀ {b : Adjustment ν ρ} {l : NodeId} {todo} {r r' : ReachedSet ν ρ θ} {id : EntryId},
      Spending limit k r₀ ((b, l) :: todo) r →
      r.add ⟨b.state, b.precision, l, part⟩ = .ok (id, r') → Spending limit k r₀ todo r' := by
    intro b l todo r r' id h hadd
    have hb : Monitor.budget limit b.state < k := h.smaller (b, l) (by simp)
    exact ⟨h.sound.add hadd, h.spends.trans (.add hadd hb), (later h).smaller⟩
  exact
    { merging := fun b l _ _ => spending_merging hx b l part
      covered := fun _ _ _ _ _ _ _ h _ => later h
      known := fun _ _ _ _ _ _ _ h _ _ => later h
      added := fun _ _ _ _ _ _ _ _ _ h _ hadd _ => added h hadd
      found := fun _ _ _ _ _ _ _ _ _ h _ hadd _ => ⟨added h hadd, trivial⟩
      refused := fun _ _ _ _ _ _ _ _ _ _ _ => trivial
      failed := fun _ _ _ _ _ _ _ _ _ _ => trivial
      crashed := fun _ _ _ _ _ _ _ _ _ _ => trivial }

/-! ## Whole runs -/

/-- One step that goes on makes the budgets that wait smaller. -/
theorem step_spends (hx : x.analysis = Monitor.analysis limits a)
    (hlimit : limits.pathLength = some limit) {m : Machine ν ρ (ω × Monitor.Counts) θ}
    (hsound : m.reached.Sound) :
    (x.step m).Meets
      (fun m' => m'.reached.Sound ∧
        (budgets limit m'.reached).IsDershowitzMannaLT (budgets limit m.reached))
      fun _ _ => True := by
  refine step_rule trivial (fun _ => trivial) trivial
    (fun hw r hpop => absurd hpop (ReachedSet.pop_ne_none hw)) fun id r hpop => ?_
  refine expand_rule (fun _ _ => trivial) fun e he => ?_
  have hbudget : budgetOf limit r id = Monitor.budget limit e.state := by
    have he : r.get? id = some e := he
    unfold budgetOf
    rw [he]
    rfl
  have hsucc := (passes_smaller hx hlimit r.store e m.meter.world).triple
  refine .weaken (expand_triple he
    (P := fun todo _ r' _ => Spending limit (Monitor.budget limit e.state) r todo r')
    (E := fun _ _ _ _ => True) ?_ (spending_admission hx e.partition)) (fun _ hm => hm) ?_
    fun ending m' _ => cut_of_true id ending m'
  · refine .weaken hsucc (fun n hn => by rw [hn]; rfl) (fun out n hout => ?_) fun _ _ h => h
    exact ⟨hsound.pop hpop, .refl r, hout.2⟩
  · intro _ m' hm
    exact ⟨hm.sound, Spends.lt hpop (hbudget ▸ hm.spends)⟩

/-- A run with a limit on the length of paths ends, whatever the analysis inside does and whatever
the states are that it starts from. -/
theorem run_ends_within_budget (hx : x.analysis = Monitor.analysis limits a)
    (hlimit : limits.pathLength = some limit) (m₀ : Machine ν ρ (ω × Monitor.Counts) θ)
    (made : m₀.reached.Made) : ∃ fuel result m, x.run fuel m₀ = some (result, m) :=
  run_ends Multiset.wellFounded_isDershowitzMannaLT (fun m => budgets limit m.reached)
    (fun _ hm => step_spends hx hlimit hm) m₀ made.sound

end

/-- The facts of the loop, where a state is replaced by a copy of itself whenever it is met again. -/
def restless : Exploration FactValue Level Facts.Notes :=
  { loopFacts with analysis := Facts.analysis { merge := .fresh } }

/-- The same with at most two steps on a path. -/
def rested : Exploration FactValue Level (Facts.Notes × Monitor.Counts) where
  program := loop
  analysis := Monitor.analysis { pathLength := some 2 } restless.analysis
  isTarget _ := false
  options := {}
  token := ⟨0⟩

def restedEntry : Entry FactValue Level :=
  { loopEntry with state := .monitored ⟨2⟩ loopEntry.state 0 none }

def restedStart : Machine FactValue Level (Facts.Notes × Monitor.Counts) SimpleWaitlist where
  meter := ⟨⟨⟨3⟩, .empty, ⟨0⟩, ⟨0⟩, (({}, .sep), .zero)⟩, {}⟩
  reached := ⟨loop, Store.empty.insert restedEntry, ⟨.breadthFirst, [⟨0⟩]⟩⟩
  targets := []

/-- Without the limit the copies of the entry keep coming. -/
theorem rested_run_ends :
    (restless.run 40 loopStart).isNone = true ∧
    ∃ fuel result m, rested.run fuel restedStart = some (result, m) := by
  have hadd : (ReachedSet.ofFrontier loop (SimpleWaitlist.ofOrder .breadthFirst)).add restedEntry =
      .ok (⟨0⟩, restedStart.reached) := rfl
  exact ⟨by decide +kernel, run_ends_within_budget rfl rfl restedStart (.add (.ofFrontier _ _) hadd)⟩

end Exploration

end ProgramAnalysis
