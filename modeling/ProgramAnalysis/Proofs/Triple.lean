import ProgramAnalysis.World
/-!
Assertions about computations that change a state and can fail.

Operators, phases, stages and edits of the reachability graph all are of this kind. `Triple P x Q E`
says where `x` ends when it starts with `P`: with `Q` of its result, or with `E` of its failure. One
rule for each way to put computations together is enough; a proof about a function follows its text.
-/

namespace ProgramAnalysis

variable {ε σ α β : Type} {x : ExceptT ε (StateM σ) α} {f : α → ExceptT ε (StateM σ) β}
  {Q : α → Prop} {a : α} {s s' : σ}

/-- Started with `P`, the computation ends with `Q` or fails with `E`. -/
def Triple (P : σ → Prop) (x : ExceptT ε (StateM σ) α) (Q : α → σ → Prop) (E : ε → σ → Prop) :
    Prop :=
  ∀ s, P s → match x.run.run s with
    | (.ok a, s') => Q a s'
    | (.error e, s') => E e s'

theorem run_bind (x : ExceptT ε (StateM σ) α) (f : α → ExceptT ε (StateM σ) β) (s : σ) :
    (x >>= f).run.run s = match x.run.run s with
      | (.ok a, s') => (f a).run.run s'
      | (.error e, s') => (.error e, s') := by
  show ExceptT.bindCont f (x s).1 (x s).2 = match x s with
    | (.ok a, s') => f a s'
    | (.error e, s') => (.error e, s')
  rcases x s with ⟨_ | _, _⟩ <;> rfl

theorem run_bind_of_ok (h : x.run.run s = (.ok a, s')) :
    (x >>= f).run.run s = (f a).run.run s' := by
  rw [run_bind, h]

theorem run_bind_of_error {e : ε} (h : x.run.run s = (.error e, s')) :
    (x >>= f).run.run s = (.error e, s') := by
  rw [run_bind, h]

theorem run_focus {ω κ : Type} (slot : Slot ω κ) (x : ExceptT ε (Effect κ) α) (w : World ω) :
    (ExceptT.mk (Effect.focus slot x.run)).run.run w =
      ((x.run.run (w.withMemory (slot.get w.memory))).1,
        (x.run.run (w.withMemory (slot.get w.memory))).2.withMemory
          (slot.set (x.run.run (w.withMemory (slot.get w.memory))).2.memory w.memory)) :=
  rfl

/-- To see that a run ends well, and with a given answer, it is enough to evaluate a test of it. -/
theorem exists_ok_of_any (x : Except ε α × σ) (p : α → Bool) (h : x.1.toOption.any p = true) :
    ∃ a s, x = (.ok a, s) ∧ p a = true := by
  obtain ⟨_ | a, s⟩ := x
  · cases h
  · exact ⟨a, s, rfl, h⟩

namespace Triple

variable {P P' : σ → Prop} {Q : α → σ → Prop} {E : ε → σ → Prop}

theorem of_run (ok : ∀ s a s', P s → x.run.run s = (.ok a, s') → Q a s')
    (error : ∀ s e s', P s → x.run.run s = (.error e, s') → E e s') : Triple P x Q E := by
  intro s hs
  rcases h : x.run.run s with ⟨a | e, s'⟩
  · exact error s a s' hs h
  · exact ok s e s' hs h

theorem ok (h : Triple P x Q E) {s s' : σ} (hs : P s) (hx : x.run.run s = (.ok a, s')) :
    Q a s' := by
  have := h s hs
  rwa [hx] at this

theorem error (h : Triple P x Q E) {s s' : σ} {e : ε} (hs : P s)
    (hx : x.run.run s = (.error e, s')) : E e s' := by
  have := h s hs
  rwa [hx] at this

theorem weaken {Q' : α → σ → Prop} {E' : ε → σ → Prop} (h : Triple P x Q E) (pre : ∀ s, P' s → P s)
    (post : ∀ a s, Q a s → Q' a s) (fail : ∀ e s, E e s → E' e s) : Triple P' x Q' E' :=
  .of_run (fun s a _ hs hx => post a _ (h.ok (pre s hs) hx))
    (fun s e _ hs hx => fail e _ (h.error (pre s hs) hx))

theorem pre (h : Triple P x Q E) (pre : ∀ s, P' s → P s) :
    Triple P' x Q E := fun s hs => h s (pre s hs)

theorem post {Q' : α → σ → Prop} (h : Triple P x Q E) (post : ∀ a s, Q a s → Q' a s) :
    Triple P x Q' E :=
  h.weaken (fun _ hs => hs) post fun _ _ hs => hs

theorem fail {E' : ε → σ → Prop} (h : Triple P x Q E) (fail : ∀ e s, E e s → E' e s) :
    Triple P x Q E' :=
  h.weaken (fun _ hs => hs) (fun _ _ hs => hs) fail

/-- What holds before and is no part of the state may be used in the proof. -/
theorem assume {p : Prop} (h : p → Triple P x Q E) :
    Triple (fun s => p ∧ P s) x Q E := fun s hs => h hs.1 s hs.2

theorem pure (h : ∀ s, P s → Q a s) : Triple P (pure a : ExceptT ε (StateM σ) α) Q E :=
  fun s hs => h s hs

theorem throw {e : ε} (h : ∀ s, P s → E e s) : Triple P (throw e : ExceptT ε (StateM σ) α) Q E :=
  fun s hs => h s hs

theorem bind {R : α → σ → Prop} {Q : β → σ → Prop} (hx : Triple P x R E)
    (hf : ∀ a, Triple (R a) (f a) Q E) : Triple P (x >>= f) Q E := by
  intro s hs
  have h := hx s hs
  rw [run_bind]
  revert h
  rcases x.run.run s with ⟨e | a, s'⟩
  · exact id
  · exact hf a s'

theorem modify {f : σ → σ} {Q : Unit → σ → Prop} (h : ∀ s, P s → Q () (f s)) :
    Triple P (modify f : ExceptT ε (StateM σ) Unit) Q E :=
  fun s hs => h s hs

theorem modifyGet {f : σ → α × σ} (h : ∀ s, P s → Q (f s).1 (f s).2) :
    Triple P (modifyGet f : ExceptT ε (StateM σ) α) Q E :=
  fun s hs => h s hs

theorem get {Q : σ → σ → Prop} (h : ∀ s, P s → Q s s) :
    Triple P (get : ExceptT ε (StateM σ) σ) Q E :=
  fun s hs => h s hs

/-- A loop over a list; `I rest` holds when the elements of `rest` are still to come. -/
theorem forM {I : List α → σ → Prop} {f : α → ExceptT ε (StateM σ) Unit}
    (step : ∀ a rest, Triple (I (a :: rest)) (f a) (fun _ => I rest) E) (l : List α) :
    Triple (I l) (l.forM f) (fun _ => I []) E := by
  induction l with
  | nil => exact .pure fun _ hs => hs
  | cons a rest ih => exact .bind (step a rest) fun _ => ih

theorem ofExcept {ω : Type} {P : World ω → Prop} (r : Except Error α) :
    Triple P (Action.ofExcept r) (fun a w => r = .ok a ∧ P w) fun _ _ => True := by
  intro w hw
  cases r with
  | ok a => exact ⟨rfl, hw⟩
  | error e => trivial

end Triple

/-- Whatever comes of it, the computation keeps `I`. -/
abbrev Steady (I : σ → Prop) (x : ExceptT ε (StateM σ) α) : Prop :=
  Triple I x (fun _ => I) (fun _ => I)

theorem Steady.of_run {I : σ → Prop} (h : Steady I x) {answer : Except ε α} (hs : I s)
    (hx : x.run.run s = (answer, s')) : I s' := by
  cases answer with
  | ok a => exact Triple.ok h hs hx
  | error e => exact Triple.error h hs hx

/-! ## Answers -/

/-- Wherever the computation starts, its answer has `Q`. -/
def Gives (x : ExceptT ε (StateM σ) α) (Q : α → Prop) : Prop :=
  Triple (fun _ => True) x (fun a _ => Q a) fun _ _ => True

namespace Gives

theorem ok (h : Gives x Q) {s s' : σ} (hx : x.run.run s = (.ok a, s')) : Q a :=
  Triple.ok h trivial hx

theorem any (x : ExceptT ε (StateM σ) α) : Gives x fun _ => True :=
  .of_run (fun _ _ _ _ _ => trivial) fun _ _ _ _ _ => trivial

theorem pure (h : Q a) : Gives (pure a : ExceptT ε (StateM σ) α) Q :=
  Triple.pure fun _ _ => h

theorem bind {R : α → Prop} {Q : β → Prop} (hx : Gives x R) (hf : ∀ a, R a → Gives (f a) Q) :
    Gives (x >>= f) Q :=
  Triple.bind hx fun a s hs => hf a hs s trivial

/-- A computation that cannot fail. -/
theorem ofEffect {e : StateM σ α} (h : ∀ s, Q (e.run s).1) :
    Gives (ExceptT.mk do return .ok (← e) : ExceptT ε (StateM σ) α) Q :=
  fun s _ => h s

variable {ω : Type}

theorem ofExcept (r : Except Error α) : Gives (Action.ofExcept r : Action ω α) fun a => r = .ok a := by
  intro w _
  cases r with
  | ok a => exact rfl
  | error e => trivial

theorem read (r : Except Error α) : Gives (Alloc.ofExcept r) fun a => r = .ok a := by
  intro n _
  cases r with
  | ok a => exact rfl
  | error e => trivial

theorem ofAlloc {x : Alloc α} (h : Gives x Q) : Gives (Action.ofAlloc x : Action ω α) Q := by
  intro w _
  have hx := h w.next trivial
  have hrun : (Action.ofAlloc x : Action ω α).run.run w =
      ((x.run.run w.next).1.mapError .error, { w with next := (x.run.run w.next).2 }) := rfl
  rw [hrun]
  revert hx
  rcases x.run.run w.next with ⟨e | a, h⟩
  · exact fun _ => trivial
  · exact id

/-- A computation on a part of the memory answers as it does on that part alone. -/
theorem focus {κ : Type} (slot : Slot ω κ) {x : ExceptT ε (Effect κ) α} (h : Gives x Q) :
    Gives (ExceptT.mk (Effect.focus slot x.run) : ExceptT ε (Effect ω) α) Q := by
  intro w _
  have hx := h (w.withMemory (slot.get w.memory)) trivial
  rw [run_focus]
  revert hx
  rcases x.run.run (w.withMemory (slot.get w.memory)) with ⟨e | a, w'⟩
  · exact id
  · exact id

end Gives

end ProgramAnalysis
