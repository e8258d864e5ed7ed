import ProgramAnalysis.Proofs.Triple
import ProgramAnalysis.Wrapper.Monitor
/-!
What the operators of a monitored analysis do, in terms of those of the analysis inside.

The analysis inside runs in the part of the world that is its own. The monitor adds its decoration
to what it answers, with new handles, and hands on its failures. Whatever is inside, the decoration
of an answer is told by the decorations of the states that were asked about (`path?`).
-/

namespace ProgramAnalysis

namespace Monitor

variable {ν ρ ω ε α : Type} {w : World (ω × Counts)}

/-- The world as the analysis inside sees it. -/
def inside (w : World (ω × Counts)) : World ω := w.withMemory w.memory.1

/-- The world when the analysis inside has left it as `w₁`. -/
def outside (w : World (ω × Counts)) (w₁ : World ω) : World (ω × Counts) :=
  w₁.withMemory (w₁.memory, w.memory.2)

theorem run_inside {x : ExceptT ε (Effect ω) α} {r : Except ε α} {w₁ : World ω}
    (h : x.run.run (inside w) = (r, w₁)) :
    (ExceptT.mk (Effect.focus .fst x.run)).run.run w = (r, outside w w₁) := by
  show ((x.run.run (inside w)).1, outside w (x.run.run (inside w)).2) = _
  rw [h]

theorem run_action {x : Action ω α} {r : Except Failure α} {w₁ : World ω}
    (h : x.run.run (inside w) = (r, w₁)) : (x.focus .fst).run.run w = (r, outside w w₁) :=
  run_inside h

/-- The states, each decorated with its path and a handle of its own. -/
def decorated (k : Nat) (x : Option Exhaustion) : Handle → List (State ν) → List (State ν)
  | _, [] => []
  | h, s :: rest => .monitored h s k x :: decorated k x h.next rest

theorem run_wrapAll (k : Nat) (x : Option Exhaustion) (states : List (State ν)) (h : Handle) :
    (wrapAll k x states).run.run h =
      (.ok (decorated k x h states), ⟨h.serial + states.length⟩) := by
  induction states generalizing h with
  | nil => rfl
  | cons s rest ih =>
    have hwrap : (wrap s k x).run.run h = (.ok (.monitored h s k x), h.next) := rfl
    have hserial : h.next.serial + rest.length = h.serial + (rest.length + 1) := by
      show h.serial + 1 + rest.length = _
      omega
    unfold wrapAll
    rw [run_bind_of_ok hwrap, run_bind_of_ok (ih h.next), hserial]
    rfl

variable [LeafValue ν] {f : Failure}

theorem run_asMonitored (h : Handle) (s : State ν) (k : Nat) (x : Option Exhaustion) (w : World ω) :
    (Action.ofExcept (State.monitored h s k x).asMonitored).run.run w = (.ok ⟨s, k, x⟩, w) :=
  rfl

theorem run_now (w : World ω) : (Action.ofEffect Effect.now).run.run w = (.ok w.clock, w) := rfl

theorem run_remember (f : Counts → Counts) (w : World (ω × Counts)) :
    (Action.remember .snd f).run.run w =
      (.ok (), { w with memory := (w.memory.1, f w.memory.2) }) :=
  rfl

omit [LeafValue ν] in
theorem run_ofAlloc_wrapAll (k : Nat) (x : Option Exhaustion) (states : List (State ν))
    (w : World ω) :
    (Action.ofAlloc (wrapAll k x states)).run.run w =
      (.ok (decorated k x w.next states),
        { w with next := ⟨w.next.serial + states.length⟩ }) := by
  have h := run_wrapAll k x states w.next
  show (((wrapAll k x states).run.run w.next).1.mapError Failure.error,
    { w with next := ((wrapAll k x states).run.run w.next).2 }) = _
  rw [h]
  rfl

section Transfer

variable {limits : Limits} {t : Transfer ν ρ ω} {h : Handle} {s : State ν} {k : Nat}
  {siblings : List (State ν)} {p : Precision ρ} {e : ProgramEdge} {w : World (ω × Counts)}
  {w₁ : World ω}

theorem transfer_of_ok (limits : Limits) (h : Handle) (k : Nat) {next : List (State ν)}
    (hrun : (t.successors s siblings p e).run.run (inside w) = (.ok next, w₁)) :
    ∃ c, ((transfer limits t).successors (.monitored h s k none) siblings p e).run.run w =
      (.ok (decorated (k + 1) (limits.exhaustion (k + 1) ⟨w₁.clock.nanos - w.clock.nanos⟩)
        w₁.next next),
        { w₁ with next := ⟨w₁.next.serial + next.length⟩, memory := (w₁.memory, c) }) := by
  refine Exists.intro ?_ ?_
  rotate_left
  · unfold transfer
    dsimp only
    rw [run_bind_of_ok (run_asMonitored h s k none w), if_neg (by simp),
      run_bind_of_ok (run_now w), run_bind_of_ok (run_action hrun),
      run_bind_of_ok (run_now (outside w w₁)), run_bind_of_ok (run_remember _ _)]
    exact run_ofAlloc_wrapAll _ _ _ _

theorem transfer_of_error
    (hrun : (t.successors s siblings p e).run.run (inside w) = (.error f, w₁)) :
    ((transfer limits t).successors (.monitored h s k none) siblings p e).run.run w =
      (.error f, outside w w₁) := by
  unfold transfer
  dsimp only
  rw [run_bind_of_ok (run_asMonitored h s k none w), if_neg (by simp), run_bind_of_ok (run_now w)]
  exact run_bind_of_error (run_action hrun)

theorem transfer_exhausted (y : Exhaustion) :
    ((transfer limits t).successors (.monitored h s k (some y)) siblings p e).run.run w =
      (.ok [], w) := by
  rfl

end Transfer

section Merge

variable {m : Merge ν ρ ω} {h h' : Handle} {s r : State ν} {k k' : Nat} {p : Precision ρ}

theorem merge_live : (merger m).merge (.monitored h s k none) (.monitored h' r k' none) p =
    (m.merge s r p).focus .fst >>= fun merged =>
      if merged.handle = r.handle then pure (.monitored h' r k' none)
      else Action.ofAlloc (wrap merged (max k k') none) :=
  rfl

end Merge

section Stop

variable {st : Stop ν ρ ω} {h : Handle} {s : State ν} {k : Nat} {x : Option Exhaustion}
  {rs : List (State ν)} {p : Precision ρ} {w : World (ω × Counts)} {w₁ : World ω}

/-- The covering states are compared inside, if they ran out of the same budget. -/
theorem stop_of_run {inner : List (State ν)} {o : Except Failure Bool}
    (hrs : comparable x rs = .ok inner) (hrun : (st.stop s inner p).run.run (inside w) = (o, w₁)) :
    ((stopper st).stop (.monitored h s k x) rs p).run.run w = (o, outside w w₁) := by
  have hinner : (Action.ofExcept (comparable x rs) : Action (ω × Counts) _).run.run w =
      (.ok inner, w) := by
    rw [hrs]
    rfl
  unfold stopper
  dsimp only
  rw [run_bind_of_ok (run_asMonitored h s k x w), run_bind_of_ok hinner]
  exact run_action hrun

end Stop

section Adjust

variable {ad : Adjuster ν ρ ω} {h : Handle} {s : State ν} {k : Nat} {x : Option Exhaustion}
  {p : Precision ρ} {around : Surroundings ν ρ} {a : Adjustment ν ρ} {current : Monitored ν}

/-- What an adjustment inside can look at. -/
def unwrappedView (around : Surroundings ν ρ) : Surroundings ν ρ :=
  { around with view := fun r => unwrapped (around.view r) }

omit [LeafValue ν] in
theorem run_rewrap_same (hsame : a.state.handle = current.wrapped.handle) (w : World ω) :
    (rewrap s current a).run w = ({ a with state := s }, w) := by
  unfold rewrap
  rw [if_pos hsame]
  rfl

omit [LeafValue ν] in
theorem run_rewrap_new (hnew : a.state.handle ≠ current.wrapped.handle) (w : World ω) :
    (rewrap s current a).run w =
      ({ a with state := .monitored w.next a.state current.pathLength current.exhaustion },
        { w with next := w.next.next }) := by
  unfold rewrap
  rw [if_neg hnew]
  rfl

theorem adjust_monitored : (adjuster ad).adjust (.monitored h s k x) p around =
    (ad.adjust s p (unwrappedView around)).focus .fst >>= fun
      | none => pure none
      | some a => some <$> Action.ofEffect (rewrap (.monitored h s k x) ⟨s, k, x⟩ a) :=
  rfl

end Adjust

/-! ## Paths -/

section Paths

variable {s r : State ν} {siblings : List (State ν)} {p : Precision ρ} {e : ProgramEdge}

omit [LeafValue ν]

/-- The length of the path of a monitored state, and the budget that it ran out of. -/
def path? : State ν → Option (Nat × Option Exhaustion)
  | .monitored _ _ k x => some (k, x)
  | _ => none

/-- The budget that a state ran out of. -/
def exhaustion? (s : State ν) : Option Exhaustion := (path? s).bind Prod.snd

@[simp]
theorem exhaustion?_monitored (h : Handle) (w : State ν) (k : Nat) (x : Option Exhaustion) :
    exhaustion? (.monitored h w k x) = x := rfl

theorem wrap_gives (w : State ν) (k : Nat) (x : Option Exhaustion) :
    Gives (wrap w k x) fun s => ∃ h, s = .monitored h w k x :=
  .bind (.any _) fun h _ => .pure ⟨h, rfl⟩

theorem wrapAll_gives (k : Nat) (x : Option Exhaustion) (states : List (State ν)) :
    Gives (wrapAll k x states) fun out => ∀ s ∈ out, path? s = some (k, x) := by
  induction states with
  | nil => exact .pure fun s hs => by cases hs
  | cons w rest ih =>
    unfold wrapAll
    refine .bind (wrap_gives w k x) fun s hs => .bind ih fun out hout => .pure ?_
    obtain ⟨h, rfl⟩ := hs
    exact List.forall_mem_cons.2 ⟨rfl, hout⟩

theorem rewrap_gives {ε : Type} {current : Monitored ν}
    (h : path? s = some (current.pathLength, current.exhaustion)) (a : Adjustment ν ρ) :
    Gives (ExceptT.mk do return .ok (← rewrap s current a) : ExceptT ε (Effect ω) (Adjustment ν ρ))
      fun b => path? b.state = path? s := by
  refine .ofEffect fun w => ?_
  unfold rewrap
  split
  · rfl
  · exact h.symm

variable [LeafValue ν]

theorem eq_of_asMonitored {m : Monitored ν} (h : s.asMonitored = .ok m) :
    ∃ handle, s = .monitored handle m.wrapped m.pathLength m.exhaustion := by
  cases s with
  | monitored handle w len x =>
    cases h
    exact ⟨handle, rfl⟩
  | _ => cases h

theorem path?_of_asMonitored {m : Monitored ν} (h : s.asMonitored = .ok m) :
    path? s = some (m.pathLength, m.exhaustion) := by
  obtain ⟨handle, rfl⟩ := eq_of_asMonitored h
  rfl

theorem transfer_gives (limits : Limits) (t : Transfer ν ρ ω) (s : State ν)
    (siblings : List (State ν)) (p : Precision ρ) (e : ProgramEdge) :
    Gives ((transfer limits t).successors s siblings p e) fun next => ∀ s' ∈ next, ∃ k pauses,
      path? s = some (k, none) ∧ path? s' = some (k + 1, limits.exhaustion (k + 1) pauses) := by
  unfold transfer
  refine .bind (.ofExcept _) fun current hcurrent => ?_
  dsimp only
  split
  · exact .pure fun s' hs' => by cases hs'
  next hlive =>
  have hlive : current.exhaustion = none := by simpa using hlive
  refine .bind (.any _) fun start _ => .bind (.any _) fun next _ => .bind (.any _) fun stop _ =>
    .bind (.any _) fun _ _ => ?_
  refine .post (Gives.ofAlloc (wrapAll_gives _ _ next)) fun out _ hout => ?_
  rw [← hlive]
  exact fun s' hs' => ⟨_, _, path?_of_asMonitored hcurrent, hout s' hs'⟩

theorem strengthen_gives (limits : Limits) (t : Transfer ν ρ ω) (s : State ν)
    (siblings : List (State ν)) (e : ProgramEdge) (p : Precision ρ) :
    Gives ((transfer limits t).strengthen s siblings e p) fun o =>
      ∀ next, o = some next → ∀ s' ∈ next, path? s' = path? s := by
  unfold transfer
  refine .bind (.ofExcept _) fun current hcurrent => .bind (.any _) fun o _ => ?_
  cases o with
  | none => exact .pure fun _ h => by cases h
  | some states =>
    refine .bind (Gives.ofAlloc (wrapAll_gives _ _ states)) fun next hnext => .pure ?_
    rintro _ ⟨⟩
    rw [path?_of_asMonitored hcurrent]
    exact hnext

theorem merge_gives (m : Merge ν ρ ω) (s r : State ν) (p : Precision ρ) :
    Gives ((merger m).merge s r p) fun merged => merged = r ∨ ∃ k k',
      path? s = some (k, none) ∧ path? r = some (k', none) ∧
        path? merged = some (max k k', none) := by
  unfold merger
  refine .bind (.ofExcept _) fun x hx => .bind (.ofExcept _) fun y hy => ?_
  split
  · exact .pure (.inl rfl)
  next hlive =>
  have hboth : x.exhaustion = none ∧ y.exhaustion = none := by simpa using hlive
  refine .bind (.any _) fun w _ => ?_
  split
  · exact .pure (.inl rfl)
  refine .post (Gives.ofAlloc (wrap_gives w _ none)) fun merged _ hm => ?_
  obtain ⟨h', rfl⟩ := hm
  have hs := path?_of_asMonitored hx
  have hr := path?_of_asMonitored hy
  rw [hboth.1] at hs
  rw [hboth.2] at hr
  exact .inr ⟨_, _, hs, hr, rfl⟩

theorem join_gives (d : Domain ν) (s r : State ν) :
    Gives ((domain d).join s r) fun joined => ∃ k k' x, path? s = some (k, x) ∧
      path? r = some (k', x) ∧ path? joined = some (max k k', x) := by
  unfold domain
  refine .bind (.read _) fun x hx => .bind (.read _) fun y hy => ?_
  split
  · exact .bind (R := fun _ => False) (fun _ _ => trivial) fun _ h => h.elim
  next hsame =>
  refine .bind (.any _) fun w _ => ?_
  have hs := path?_of_asMonitored hx
  rw [Decidable.not_not.1 hsame] at hs
  refine .post (wrap_gives w _ _) ?_
  rintro _ _ ⟨h, rfl⟩
  exact ⟨_, _, _, hs, path?_of_asMonitored hy, rfl⟩

theorem adjust_gives (ad : Adjuster ν ρ ω) (s : State ν) (p : Precision ρ)
    (around : Surroundings ν ρ) :
    Gives ((adjuster ad).adjust s p around) fun o =>
      ∀ a, o = some a → path? a.state = path? s := by
  unfold adjuster
  refine .bind (.ofExcept _) fun current hcurrent => .bind (.any _) fun o _ => ?_
  cases o with
  | none => exact .pure fun a ha => by cases ha
  | some a =>
    refine .bind (rewrap_gives (path?_of_asMonitored hcurrent) a) fun b hb => .pure ?_
    rintro c ⟨⟩
    exact hb

theorem fallback_gives (ad : Adjuster ν ρ ω) (s : State ν) (p : Precision ρ) (err : Error) :
    Gives ((adjuster ad).fallback s p err) fun o =>
      ∀ a, o = some a → path? a.state = path? s := by
  unfold adjuster
  cases s with
  | monitored handle w len x =>
    refine .bind (.any _) fun o _ => ?_
    cases o with
    | none => exact .pure fun a ha => by cases ha
    | some a =>
      refine .bind (rewrap_gives rfl a) fun b hb => .pure ?_
      rintro c ⟨⟩
      exact hb
  | _ => exact .pure fun a ha => by cases ha

theorem initialState_gives (limits : Limits) (a : Analysis ν ρ ω) (n : NodeId) (part : Partition) :
    Gives ((analysis limits a).initialState n part) fun s => path? s = some (0, none) := by
  unfold analysis
  refine .bind (.any _) fun w _ => ?_
  refine .post (Gives.ofAlloc (wrap_gives w 0 none)) ?_
  rintro _ _ ⟨h, rfl⟩
  rfl

/-- A state is compared with those that ran out of the same budget. -/
theorem comparable_eq (x : Option Exhaustion) {rs : List (State ν)}
    (hrs : ∀ r ∈ rs, (path? r).isSome = true) :
    comparable x rs = .ok ((rs.filter fun r => exhaustion? r = x).map unwrapped) := by
  induction rs with
  | nil => rfl
  | cons r rest ih =>
    obtain ⟨hr, hrest⟩ := List.forall_mem_cons.1 hrs
    cases r with
    | monitored h w k y =>
      unfold comparable
      rw [ih hrest]
      show Except.ok (if y = x then _ else _) = _
      split
      · next hx =>
        rw [List.filter_cons_of_pos (by simp [hx])]
        rfl
      · next hx => rw [List.filter_cons_of_neg (by simp [hx])]
    | _ => cases hr

end Paths

end Monitor

end ProgramAnalysis
