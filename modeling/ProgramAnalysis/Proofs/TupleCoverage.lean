import ProgramAnalysis.Proofs.Upkeep
import ProgramAnalysis.Proofs.NestedOrder
/-!
A product covers its tuples by the componentwise order.

The stop operator of a product goes through the reached tuples, and for each of them through the
components, which judge with their own stop operators. If these ask nothing but the order about a
single reached state (`Analysis.AsksOrder`), as operators that look for one covering state and
operators that join the reached states do, the product decides as if it looked for one covering
tuple in its own order. The two are equal as computations: they give the same answer and the same
failure, also where a failure further on is hidden by what comes before it.
-/

namespace ProgramAnalysis

variable {ν ρ ω κ α β : Type} {a : Analysis ν ρ ω}

/-- The state is a tuple of `n` components. -/
def State.HasArity (s : State ν) (n : Nat) : Prop :=
  ∃ h cs anchor, s = .tuple h cs anchor ∧ cs.length = n

/-- The precision is a tuple of `n` components. -/
def Precision.HasArity (p : Precision ρ) (n : Nat) : Prop :=
  ∃ h ps, p = .tuple h ps ∧ ps.length = n

theorem Action.ofExcept_bind (x : Except Error α) (f : α → Except Error β) :
    (Action.ofExcept (x >>= f) : Action ω β) =
      Action.ofExcept x >>= fun a => Action.ofExcept (f a) := by
  cases x <;> rfl

/-! ## Single reached states -/

/-- About a single reached state, the stop operator asks the order and nothing else. -/
def Analysis.AsksOrder (a : Analysis ν ρ ω) : Prop :=
  ∀ s r p, a.stopper.stop s [r] p = Action.ofExcept (a.domain.leq s r)

theorem Domain.coveredBySome_singleton (d : Domain ν) (s r : State ν) :
    d.coveredBySome s [r] = d.leq s r := by
  unfold coveredBySome
  rcases d.leq s r with e | _ | _ <;> rfl

/-- The join of a single state is that state, and drawing no handle changes nothing. -/
theorem Analysis.asksOrder_of_standard
    (h : a.stopper = .sep a.domain ∨ a.stopper = .join a.domain) : a.AsksOrder := by
  intro s r p
  rcases h with h | h
  · rw [h]
    exact congrArg Action.ofExcept (a.domain.coveredBySome_singleton s r)
  · rw [h]
    rfl

theorem Analysis.AsksOrder.lifted (h : a.AsksOrder) :
    (a.focus (.fst : Slot (ω × κ) ω)).AsksOrder := by
  intro s r p
  show (a.stopper.stop s [r] p).focus .fst = Action.ofExcept (a.domain.leq s r)
  rw [h s r p]
  cases a.domain.leq s r <;> rfl

/-! ## Tuples -/

namespace Product

variable {rs : List (State ν)}

theorem coveredComponents_eq {as : List (Analysis ν ρ ω)} (hstop : ∀ a ∈ as, a.AsksOrder)
    {ss : List (State ν)} {ps : List (Precision ρ)} (hss : ss.length = as.length)
    (hrs : rs.length = as.length) (hps : ps.length = as.length) :
    coveredComponents as ss rs ps =
      Action.ofExcept (leqComponents (as.map Analysis.domain) ss rs) := by
  induction as generalizing ss rs ps with
  | nil =>
    cases List.length_eq_zero_iff.1 hss
    rfl
  | cons a as ih =>
    obtain ⟨s, ss, rfl⟩ := List.exists_cons_of_length_eq_add_one hss
    obtain ⟨r, rs, rfl⟩ := List.exists_cons_of_length_eq_add_one hrs
    obtain ⟨p, ps, rfl⟩ := List.exists_cons_of_length_eq_add_one hps
    have hrest := ih (fun b hb => hstop b (List.mem_cons_of_mem a hb)) (Nat.succ.inj hss)
      (Nat.succ.inj hrs) (Nat.succ.inj hps)
    unfold coveredComponents
    rw [hstop a List.mem_cons_self s r p, hrest]
    show _ = Action.ofExcept (a.domain.leq s r >>= fun below =>
      if below then leqComponents (as.map Analysis.domain) ss rs else .ok false)
    rcases a.domain.leq s r with e | _ | _ <;> rfl

variable [LeafValue ν] [LeafPrecision ρ]

theorem split_eq_ok_iff {n : Nat} {s : State ν} {p : Precision ρ}
    {parts : List (State ν) × List (Precision ρ)} :
    split n s p = .ok parts ↔
      s.HasArity n ∧ p.HasArity n ∧ parts = (s.components, p.components) := by
  constructor
  · intro h
    cases s with
    | tuple k cs anchor =>
      cases p with
      | tuple l ps =>
        have h : (if cs.length = n ∧ ps.length = n then Except.ok (cs, ps) else _) =
          Except.ok parts := h
        split at h
        · next hlength =>
          cases h
          exact ⟨⟨k, cs, anchor, rfl, hlength.1⟩, ⟨l, ps, rfl, hlength.2⟩, rfl⟩
        · cases h
      | _ => cases h
    | _ => cases h
  · rintro ⟨⟨k, cs, anchor, rfl, hcs⟩, ⟨l, ps, rfl, hps⟩, rfl⟩
    show (if cs.length = n ∧ ps.length = n then Except.ok (cs, ps) else _) = _
    rw [if_pos ⟨hcs, hps⟩]
    rfl

theorem stateOf_eq_ok_iff {n : Nat} {s : State ν} {cs : List (State ν)} :
    stateOf n s = .ok cs ↔ s.HasArity n ∧ cs = s.components := by
  constructor
  · intro h
    obtain ⟨k, anchor, rfl, hlength⟩ := eq_of_stateOf h
    exact ⟨⟨k, cs, anchor, rfl, hlength⟩, rfl⟩
  · rintro ⟨⟨k, ds, anchor, rfl, hds⟩, rfl⟩
    exact stateOf_tuple hds

variable {o : ProductOptions} {as : List (Analysis ν ρ ω)} {s : State ν} {p : Precision ρ}

theorem coveredBy_eq (hindex : o.locationIndex = none) (hstop : ∀ a ∈ as, a.AsksOrder)
    (hs : s.HasArity as.length) (hp : p.HasArity as.length) {r : State ν}
    (hr : r.HasArity as.length) :
    coveredBy o as s p r =
      Action.ofExcept ((domain o.locationIndex (as.map Analysis.domain)).leq s r) := by
  have hsize : (as.map Analysis.domain).length = as.length := List.length_map _
  have hunfold : coveredBy o as s p r =
      (Action.ofExcept (split as.length s p) >>= fun parts =>
        Action.ofExcept (stateOf as.length r) >>= fun rs =>
          if anchorsDiffer o.locationIndex parts.1 rs then pure false
          else coveredComponents as parts.1 rs parts.2) := rfl
  rw [hunfold, split_eq_ok_iff.2 ⟨hs, hp, rfl⟩, stateOf_eq_ok_iff.2 ⟨hr, rfl⟩, hindex]
  obtain ⟨h, ss, x, rfl, hss⟩ := hs
  obtain ⟨k, rs, y, rfl, hrs⟩ := hr
  obtain ⟨l, ps, rfl, hps⟩ := hp
  rw [leq_tuple (hss.trans hsize.symm) (hrs.trans hsize.symm)]
  exact coveredComponents_eq hstop hss hrs hps

theorem coveredBySome_eq (hindex : o.locationIndex = none) (hstop : ∀ a ∈ as, a.AsksOrder)
    (hs : s.HasArity as.length) (hp : p.HasArity as.length) (hrs : ∀ r ∈ rs, r.HasArity as.length) :
    coveredBySome o as s p rs =
      Action.ofExcept ((domain o.locationIndex (as.map Analysis.domain)).coveredBySome s rs) := by
  induction rs with
  | nil => rfl
  | cons r rs ih =>
    obtain ⟨hr, hrest⟩ := List.forall_mem_cons.1 hrs
    unfold coveredBySome Domain.coveredBySome
    rw [coveredBy_eq hindex hstop hs hp hr, ih hrest, Action.ofExcept_bind]
    refine bind_congr fun below => ?_
    cases below <;> rfl

theorem stop_analysis_eq (hindex : o.locationIndex = none) (hstop : ∀ a ∈ as, a.AsksOrder)
    (hs : s.HasArity as.length) (hp : p.HasArity as.length) (hrs : ∀ r ∈ rs, r.HasArity as.length) :
    (analysis o as).stopper.stop s rs p =
      Action.ofExcept ((analysis o as).domain.coveredBySome s rs) := by
  have hlifted : ∀ b ∈ as.map (Analysis.focus (.fst : Slot (ω × MergeMode) ω)), b.AsksOrder := by
    intro b hb
    obtain ⟨a, ha, rfl⟩ := List.mem_map.1 hb
    exact (hstop a ha).lifted
  have hsize : (as.map (Analysis.focus (.fst : Slot (ω × MergeMode) ω))).length = as.length :=
    List.length_map _
  have hdomains : (as.map (Analysis.focus (.fst : Slot (ω × MergeMode) ω))).map Analysis.domain =
      as.map Analysis.domain := List.map_map
  rw [← hsize] at hs hp hrs
  show coveredBySome o (as.map (Analysis.focus .fst)) s p rs = _
  rw [coveredBySome_eq hindex hlifted hs hp hrs, hdomains]
  rfl

/-- The stop operator of a product without a designated component, whose components look for one
covering state or join the reached states, is the operator that looks for one covering tuple. -/
theorem stop_eq_sep (o : ProductOptions) (as : List (Analysis ν ρ ω))
    (hindex : o.locationIndex = none)
    (hstop : ∀ a ∈ as, a.stopper = .sep a.domain ∨ a.stopper = .join a.domain)
    {s : State ν} {p : Precision ρ} {rs : List (State ν)} (hs : s.HasArity as.length)
    (hp : p.HasArity as.length) (hrs : ∀ r ∈ rs, r.HasArity as.length) :
    (analysis o as).stopper.stop s rs p = (Stop.sep (analysis o as).domain).stop s rs p :=
  stop_analysis_eq hindex (fun a ha => Analysis.asksOrder_of_standard (hstop a ha)) hs hp hrs

/-! ## An order that is undefined on some pairs -/

/-- Facts with the given order, and a stop operator on top of it. -/
def judge (order : Facts.OrderMode)
    (stopper : Domain FactValue → Stop FactValue Level Facts.Notes) :
    Analysis FactValue Level Facts.Notes :=
  { Facts.analysis { order := order } with stopper := stopper (Facts.domain { order := order }) }

def judges : List (Analysis FactValue Level Facts.Notes) :=
  [judge .subset .sep, judge .undefined .join]

def judged (h : Nat) (first second : List Nat) : State FactValue :=
  .tuple ⟨h⟩ [Facts.make {} ⟨h + 1⟩ (.ofList first) none,
    Facts.make {} ⟨h + 2⟩ (.ofList second) none] none

def judgedPrecision : Precision Level := .tuple ⟨3⟩ [.plain ⟨4⟩, .plain ⟨5⟩]

def judgeWorld : World (Facts.Notes × MergeMode) := ⟨⟨50⟩, .empty, ⟨0⟩, ⟨0⟩, (({}, .sep), .sep)⟩

/-- The second components are never comparable. Against the first reached tuple this goes unnoticed,
since its first component covers nothing; against the second one both operators fail. -/
theorem judges_stop_eq_sep :
    (((analysis {} judges).stopper.stop (judged 10 [1] [2])
      [judged 20 [3] [2], judged 30 [1, 3] [2], judged 40 [1] [2]] judgedPrecision).run.run
        judgeWorld).1 =
      .error (.error (.undefined "order" "facts\x7b2\x7d and facts\x7b2\x7d")) ∧
    (analysis {} judges).stopper.stop (judged 10 [1] [2])
        [judged 20 [3] [2], judged 30 [1, 3] [2], judged 40 [1] [2]] judgedPrecision =
      (Stop.sep (analysis {} judges).domain).stop (judged 10 [1] [2])
        [judged 20 [3] [2], judged 30 [1, 3] [2], judged 40 [1] [2]] judgedPrecision := by
  have harity : ∀ h first second, (judged h first second).HasArity judges.length :=
    fun h first second => ⟨_, _, _, rfl, rfl⟩
  refine ⟨by decide +kernel, stop_eq_sep {} judges rfl ?_ (harity _ _ _) ⟨_, _, rfl, rfl⟩ ?_⟩
  · intro a ha
    rcases List.mem_cons.1 ha with rfl | ha
    · exact .inl rfl
    · cases List.mem_singleton.1 ha
      exact .inr rfl
  · intro r hr
    simp only [List.mem_cons, List.not_mem_nil, or_false] at hr
    rcases hr with rfl | rfl | rfl <;> exact harity _ _ _

end Product

end ProgramAnalysis
