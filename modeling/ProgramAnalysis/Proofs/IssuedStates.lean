import ProgramAnalysis.Proofs.BudgetedSteps
import ProgramAnalysis.Proofs.Closure
/-!
The states that a monitored analysis issues keep to the budget.

`Issued` closes the initial states under the operators: each call is made on states that were issued
before, in any world, so it does not matter what was called in between. Under a limit on the length
of paths a state that was issued has a path within the limit and is not exhausted, or its path is
one step too long and it ran out of this very budget (`Within`). Each operator keeps to this, since
it counts on by one, takes the greater of two lengths, or copies what it finds (`path?`).
-/

namespace ProgramAnalysis

variable {ν ρ ω : Type}

/-- The states that the operators of an analysis give, from the initial states on. -/
inductive Analysis.Issued (a : Analysis ν ρ ω) : State ν → Prop where
  | initial {n part w w' s} :
      (a.initialState n part).run.run w = (.ok s, w') → Issued a s
  | successor {s t siblings next p e w w'} : Issued a s →
      (a.transfer.successors s siblings p e).run.run w = (.ok next, w') → t ∈ next → Issued a t
  | strengthened {s t siblings next p e w w'} : Issued a s →
      (a.transfer.strengthen s siblings e p).run.run w = (.ok (some next), w') → t ∈ next →
      Issued a t
  | merged {s r t p w w'} : Issued a s → Issued a r →
      (a.merger.merge s r p).run.run w = (.ok t, w') → Issued a t
  | joined {s r t h h'} : Issued a s → Issued a r →
      (a.domain.join s r).run.run h = (.ok t, h') → Issued a t
  | adjusted {s p around b w w'} : Issued a s →
      (a.adjuster.adjust s p around).run.run w = (.ok (some b), w') → Issued a b.state
  | rescued {s p err b w w'} :
      Issued a s → (a.adjuster.fallback s p err).run.run w = (.ok (some b), w') → Issued a b.state

namespace Monitor

variable {limit : Nat} {s r : State ν}

/-- The path is within the limit, or it has gone one step beyond it and used up the budget. -/
def Within (limit : Nat) (s : State ν) : Prop :=
  ∃ k x, path? s = some (k, x) ∧
    (x = none ∧ k ≤ limit ∨ x = some (.pathLength limit) ∧ k = limit + 1)

/-- One step after a path within the limit. -/
theorem within_next {k : Nat} {pauses : Duration} {t : State ν} (hs : Within limit s)
    (hk : path? s = some (k, none))
    (ht : path? t = some (k + 1, (Limits.ofLength limit).exhaustion (k + 1) pauses)) :
    Within limit t := by
  obtain ⟨j, x, hj, hx⟩ := hs
  cases hk.symm.trans hj
  have hle : k ≤ limit := by simpa using hx
  rw [exhaustion_ofLength] at ht
  refine ⟨_, _, ht, ?_⟩
  by_cases hnext : k + 1 ≤ limit
  · exact .inl ⟨overrun_eq_none.2 hnext, hnext⟩
  · exact .inr ⟨if_pos (by omega), by omega⟩

/-- The longer of two paths. -/
theorem within_max {k k' : Nat} {x : Option Exhaustion} {t : State ν} (hs : Within limit s)
    (hr : Within limit r) (hk : path? s = some (k, x)) (hk' : path? r = some (k', x))
    (ht : path? t = some (max k k', x)) : Within limit t := by
  obtain ⟨_, _, hj, hx⟩ := hs
  cases hk.symm.trans hj
  obtain ⟨_, _, hj', hx'⟩ := hr
  cases hk'.symm.trans hj'
  refine ⟨_, _, ht, ?_⟩
  rcases hx with ⟨rfl, hle⟩ | ⟨rfl, rfl⟩
  · exact .inl ⟨rfl, Nat.max_le.2 ⟨hle, by simpa using hx'⟩⟩
  · refine .inr ⟨rfl, ?_⟩
    have hk' : k' = limit + 1 := by simpa using hx'
    rw [hk', Nat.max_self]

theorem within_congr (h : path? s = path? r) (hr : Within limit r) : Within limit s := by
  unfold Within
  rw [h]
  exact hr

theorem Within.eq_monitored (h : Within limit s) : ∃ k w j x, s = .monitored k w j x := by
  obtain ⟨j, x, hs, -⟩ := h
  cases s with
  | monitored k w => exact ⟨k, w, _, _, rfl⟩
  | _ => cases hs

variable [LeafValue ν]

/-- The analysis under a limit on the length of paths. -/
def limited (limit : Nat) (a : Analysis ν ρ ω) : Analysis ν ρ (ω × Counts) :=
  analysis (.ofLength limit) a

/-- Whatever is called, what is given keeps to the budget. -/
theorem within_of_issued {a : Analysis ν ρ ω} (h : (limited limit a).Issued s) :
    Within limit s := by
  induction h with
  | initial hrun =>
    exact ⟨0, none, (initialState_gives _ a _ _).ok hrun, .inl ⟨rfl, Nat.zero_le _⟩⟩
  | successor _ hrun ht ih =>
    obtain ⟨k, pauses, hk, ht⟩ := (transfer_gives _ a.transfer _ _ _ _).ok hrun _ ht
    exact within_next ih hk ht
  | strengthened _ hrun ht ih =>
    exact within_congr ((strengthen_gives _ a.transfer _ _ _ _).ok hrun _ rfl _ ht) ih
  | merged _ _ hrun ihs ihr =>
    rcases (merge_gives a.merger _ _ _).ok hrun with rfl | ⟨k, k', hk, hk', ht⟩
    · exact ihr
    · exact within_max ihs ihr hk hk' ht
  | joined _ _ hrun ihs ihr =>
    obtain ⟨k, k', x, hk, hk', ht⟩ := (join_gives a.domain _ _).ok hrun
    exact within_max ihs ihr hk hk' ht
  | adjusted _ hrun ih => exact within_congr ((adjust_gives a.adjuster _ _ _).ok hrun _ rfl) ih
  | rescued _ hrun ih => exact within_congr ((fallback_gives a.adjuster _ _ _).ok hrun _ rfl) ih

theorem merge_exhausted (m : Merge ν ρ ω) (p : Precision ρ) (w : World (ω × Counts))
    (hs : Within limit s) (hr : Within limit r) (h : exhaustion? s ≠ none ∨ exhaustion? r ≠ none) :
    ((merger m).merge s r p).run.run w = (.ok r, w) := by
  obtain ⟨k, u, j, x, rfl⟩ := hs.eq_monitored
  obtain ⟨k', u', j', x', rfl⟩ := hr.eq_monitored
  have hexhausted : (x.isSome || x'.isSome) = true := by
    simpa [Option.isSome_iff_ne_none] using h
  unfold merger
  dsimp only
  rw [run_bind_of_ok (run_asMonitored k u j x w), run_bind_of_ok (run_asMonitored k' u' j' x' w),
    if_pos hexhausted]
  rfl

theorem join_apart (d : Domain ν) (n : Handle) (hs : Within limit s) (hr : Within limit r)
    (h : exhaustion? s ≠ exhaustion? r) : ((domain d).join s r).run.run n =
      (.error (.undefined "join" "exhausted and live monitor states"), n) := by
  obtain ⟨k, u, j, x, rfl⟩ := hs.eq_monitored
  obtain ⟨k', u', j', x', rfl⟩ := hr.eq_monitored
  have hx : x ≠ x' := h
  have hread : ∀ k u j x, (Alloc.ofExcept (State.monitored k u j x : State ν).asMonitored).run.run
      n = (.ok ⟨u, j, x⟩, n) := fun _ _ _ _ => rfl
  unfold domain
  dsimp only
  rw [run_bind_of_ok (hread k u j x), run_bind_of_ok (hread k' u' j' x'), if_pos hx]
  rfl

theorem stop_congr (st : Stop ν ρ ω) (p : Precision ρ) (hs : Within limit s)
    {rs rs' : List (State ν)} (hrs : ∀ r ∈ rs, Within limit r) (hrs' : ∀ r ∈ rs', Within limit r)
    (h : (rs.filter fun r => exhaustion? r = exhaustion? s) =
      rs'.filter fun r => exhaustion? r = exhaustion? s) :
    (stopper st).stop s rs p = (stopper st).stop s rs' p := by
  obtain ⟨k, u, j, x, rfl⟩ := hs.eq_monitored
  have hpath : ∀ {rs : List (State ν)}, (∀ r ∈ rs, Within limit r) →
      ∀ r ∈ rs, (path? r).isSome = true := by
    intro rs hrs r hr
    obtain ⟨_, _, hp, -⟩ := hrs r hr
    rw [hp]
    rfl
  have hcompared : comparable x rs = comparable x rs' := by
    rw [comparable_eq x (hpath hrs), comparable_eq x (hpath hrs')]
    rw [exhaustion?_monitored] at h
    rw [h]
  show Action.ofExcept (comparable x rs) >>= _ = Action.ofExcept (comparable x rs') >>= _
  rw [hcompared]

/-- Every state that is issued under a limit on the length of paths is live and within the limit, or
it has used up this budget by one step. An exhausted state has no successors and is never merged,
states that ran out of different budgets have no join, and whether a state is covered is decided by
those alone that ran out of the same budget. -/
theorem issued_states_within_budget (a : Analysis ν ρ ω) (limit : Nat) :
    (∀ s, (limited limit a).Issued s → ∃ k x, path? s = some (k, x) ∧
      (x = none ∧ k ≤ limit ∨ x = some (.pathLength limit) ∧ k = limit + 1)) ∧
    (∀ s siblings p e w, (limited limit a).Issued s → exhaustion? s ≠ none →
      ((limited limit a).transfer.successors s siblings p e).run.run w = (.ok [], w)) ∧
    (∀ s r p w, (limited limit a).Issued s → (limited limit a).Issued r →
      exhaustion? s ≠ none ∨ exhaustion? r ≠ none →
      ((limited limit a).merger.merge s r p).run.run w = (.ok r, w)) ∧
    (∀ s r n, (limited limit a).Issued s → (limited limit a).Issued r →
      exhaustion? s ≠ exhaustion? r →
      ((limited limit a).domain.join s r).run.run n =
        (.error (.undefined "join" "exhausted and live monitor states"), n)) ∧
    ∀ s rs rs' p, (limited limit a).Issued s → (∀ r ∈ rs, (limited limit a).Issued r) →
      (∀ r ∈ rs', (limited limit a).Issued r) →
      (rs.filter fun r => exhaustion? r = exhaustion? s) =
        (rs'.filter fun r => exhaustion? r = exhaustion? s) →
      (limited limit a).stopper.stop s rs p = (limited limit a).stopper.stop s rs' p := by
  refine ⟨fun s hs => within_of_issued hs, fun s siblings p e w hs hx => ?_,
    fun s r p w hs hr => merge_exhausted a.merger p w (within_of_issued hs) (within_of_issued hr),
    fun s r n hs hr => join_apart a.domain n (within_of_issued hs) (within_of_issued hr),
    fun s rs rs' p hs hrs hrs' => stop_congr a.stopper p (within_of_issued hs)
      (fun r hr => within_of_issued (hrs r hr)) fun r hr => within_of_issued (hrs' r hr)⟩
  obtain ⟨k, u, j, x, rfl⟩ := (within_of_issued hs).eq_monitored
  obtain ⟨y, rfl⟩ := Option.ne_none_iff_exists'.1 hx
  exact transfer_exhausted y

/-- The locations of the loop, where no step may be taken. -/
def rooted : Analysis FactValue Level (Unit × Counts) :=
  limited 0 (Location.analysis Exploration.loop ⟨0⟩)

def rootedWorld : World (Unit × Counts) := ⟨⟨2⟩, .empty, ⟨0⟩, ⟨0⟩, ((), .zero)⟩

/-- The successor along the loop is exhausted. -/
theorem rooted_issued_within_budget : ∃ s t : State FactValue, rooted.Issued s ∧ rooted.Issued t ∧
    path? s = some (0, none) ∧ path? t = some (1, some (.pathLength 0)) ∧
    (∀ siblings p e w, (rooted.transfer.successors t siblings p e).run.run w = (.ok [], w)) ∧
    (∀ p w, (rooted.merger.merge t s p).run.run w = (.ok s, w)) ∧
    ∀ n, (rooted.domain.join t s).run.run n =
      (.error (.undefined "join" "exhausted and live monitor states"), n) := by
  obtain ⟨-, hfinal, hmerge, hjoin, -⟩ :=
    issued_states_within_budget (ν := FactValue) (ρ := Level)
      (Location.analysis Exploration.loop ⟨0⟩) 0
  let s : State FactValue := .monitored ⟨2⟩ (.location ⟨0⟩ ⟨0⟩) 0 none
  let t : State FactValue := .monitored ⟨3⟩ (.location ⟨0⟩ ⟨0⟩) 1 (some (.pathLength 0))
  obtain ⟨w, hstart⟩ : ∃ w, (rooted.initialState ⟨0⟩ .whole).run.run rootedWorld = (.ok s, w) :=
    ⟨_, rfl⟩
  obtain ⟨w', hstep⟩ : ∃ w', (rooted.transfer.successors s [] (.plain ⟨0⟩)
      ⟨⟨0⟩, .statement, ⟨0⟩, ⟨0⟩, none⟩).run.run { rootedWorld with next := ⟨3⟩ } = (.ok [t], w') :=
    ⟨_, rfl⟩
  have hs : rooted.Issued s := .initial hstart
  have ht : rooted.Issued t := .successor hs hstep (List.mem_singleton.2 rfl)
  exact ⟨s, t, hs, ht, rfl, rfl, fun siblings p e w => hfinal t siblings p e w ht (by simp [t]),
    fun p w => hmerge t s p w ht hs (.inl (by simp [t])),
    fun n => hjoin t s n ht hs (by simp [s, t])⟩

end Monitor

end ProgramAnalysis
