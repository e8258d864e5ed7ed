import Mathlib.Data.List.Forall2
import ProgramAnalysis.Proofs.FactsOrder
/-!
The transfer of a product loses no concrete state.

What the states of a component stand for is given by a `Meaning`. A component is sound in a product
if a concrete step out of a tuple ends in one of its successors, and if what it makes of its own
state, when it looks at a tuple, keeps every concrete state of that tuple. The product is then sound
as well: a concrete state is followed through the choice of successors, through every pass of the
components over the tuple and through all rounds, and there always is a tuple left that has it.
-/

namespace ProgramAnalysis

variable {ν ρ ω κ : Type} {cs : List (State ν)} {ts : List (Transfer ν ρ ω)} {e : ProgramEdge}
  {i : Nat}

/-- Which concrete states a state stands for. -/
abbrev Meaning (ν κ : Type) := State ν → κ → Prop

/-- A tuple stands for the concrete states that all of its components stand for. -/
def Meaning.All (γs : List (Meaning ν κ)) (cs : List (State ν)) (c : κ) : Prop :=
  List.Forall₂ (fun γ s => γ s c) γs cs

/-- A component with the number `i` loses no concrete state, given what the states of all components
stand for. -/
structure Transfer.Sound (t : Transfer ν ρ ω) (step : ProgramEdge → κ → κ → Prop)
    (γs : List (Meaning ν κ)) (i : Nat) (γ : Meaning ν κ) : Prop where
  successors : ∀ (cs : List (State ν)) (s : State ν) (c c' : κ) (p : Precision ρ) (e : ProgramEdge),
    Meaning.All γs cs c → cs[i]? = some s → step e c c' →
    Gives (t.successors s cs p e) fun next => ∃ u ∈ next, γ u c'
  strengthen : ∀ (cs : List (State ν)) (s : State ν) (c : κ) (p : Precision ρ) (e : ProgramEdge),
    Meaning.All γs cs c → cs[i]? = some s →
    Gives (t.strengthen s cs e p) fun answer =>
      ∀ states, answer = some states → ∃ u ∈ states, γ u c

variable {γ : Meaning ν κ} {γs : List (Meaning ν κ)} {ps : List (Precision ρ)} {t : Transfer ν ρ ω}
  {s : State ν}

theorem Transfer.Sound.focus {μ : Type} {a : Analysis ν ρ μ} {step : ProgramEdge → κ → κ → Prop}
    (h : a.transfer.Sound step γs i γ) (slot : Slot ω μ) :
    (a.focus slot).transfer.Sound step γs i γ where
  successors cs s c c' p e hcs hs hstep := (h.successors cs s c c' p e hcs hs hstep).focus slot
  strengthen cs s c p e hcs hs := (h.strengthen cs s c p e hcs hs).focus slot

namespace Meaning

theorem All.set {c : κ} {u : State ν} (h : All γs cs c) (hγ : γs[i]? = some γ) (hu : γ u c) :
    All γs (cs.set i u) c := by
  induction h generalizing i with
  | nil => exact .nil
  | cons hhead hrest ih =>
    cases i with
    | zero =>
      cases hγ
      exact .cons hu hrest
    | succ i => exact .cons hhead (ih hγ)

theorem All.get {c : κ} (h : All γs cs c) (hγ : γs[i]? = some γ) (hs : cs[i]? = some s) :
    γ s c := by
  induction h generalizing i with
  | nil => cases hγ
  | cons hhead _ ih =>
    cases i with
    | zero =>
      cases hγ
      cases hs
      exact hhead
    | succ i => exact ih hγ hs

end Meaning

namespace Product

section

variable {γs : List (Meaning ν κ)} {step : ProgramEdge → κ → κ → Prop} {c c' : κ}

/-! ## Choices -/

/-- One choice picks for each component the successor that has the concrete state. -/
theorem exists_choice {options : List (List (State ν))}
    (h : List.Forall₂ (fun γ next => ∃ u ∈ next, γ u c) γs options) :
    ∃ candidate ∈ choices options, Meaning.All γs candidate c := by
  induction h with
  | nil => exact ⟨[], List.mem_singleton.2 rfl, .nil⟩
  | cons hhead _ ih =>
    obtain ⟨u, hu, hγ⟩ := hhead
    obtain ⟨candidate, hmem, hall⟩ := ih
    refine ⟨u :: candidate, ?_, .cons hγ hall⟩
    exact List.mem_flatMap.2 ⟨u, hu, List.mem_map.2 ⟨candidate, hmem, rfl⟩⟩

/-- The successors of the components, from any component on. An empty answer would leave the concrete
successor without a state, so there is none. -/
theorem alternatives_gives {siblings : List (State ν)} {ss : List (State ν)}
    {δs : List (Meaning ν κ)} (hts : δs.length = ts.length) (hss : ss.length = ts.length)
    (hps : ps.length = ts.length)
    (h : ∀ (i : Nat) (t : Transfer ν ρ ω) (δ : Meaning ν κ) (s : State ν) (p : Precision ρ),
      ts[i]? = some t → δs[i]? = some δ → ss[i]? = some s → ps[i]? = some p →
      Gives (t.successors s siblings p e) fun next => ∃ u ∈ next, δ u c) :
    Gives (alternatives e siblings ts ss ps) fun answer => ∃ options, answer = some options ∧
      List.Forall₂ (fun δ next => ∃ u ∈ next, δ u c) δs options := by
  induction ts generalizing ss ps δs with
  | nil =>
    cases List.length_eq_zero_iff.1 hts
    exact .pure ⟨[], rfl, .nil⟩
  | cons t ts ih =>
    cases δs with
    | nil => cases hts
    | cons δ δs =>
    cases ss with
    | nil => cases hss
    | cons s ss =>
    cases ps with
    | nil => cases hps
    | cons p ps =>
    unfold alternatives
    refine .bind (h 0 t δ s p rfl rfl rfl rfl) fun next hnext => ?_
    split
    · next hempty =>
      obtain ⟨u, hu, -⟩ := hnext
      rw [List.isEmpty_iff.1 hempty] at hu
      cases hu
    · have hrest := ih (Nat.succ.inj hts) (Nat.succ.inj hss) (Nat.succ.inj hps)
        fun i => h (i + 1)
      refine .bind hrest fun answer hanswer => .pure ?_
      obtain ⟨options, rfl, hall⟩ := hanswer
      exact ⟨next :: options, rfl, .cons hnext hall⟩

/-! ## Strengthening -/

theorem concatEach_gives {α β : Type} {f : α → Action ω (List β)} {P : β → Prop} {l : List α}
    {a : α} (ha : a ∈ l) (h : Gives (f a) fun out => ∃ b ∈ out, P b) :
    Gives (concatEach f l) fun out => ∃ b ∈ out, P b := by
  induction l with
  | nil => cases ha
  | cons x rest ih =>
    unfold concatEach
    rcases List.mem_cons.1 ha with rfl | hrest
    · refine .bind h fun here hhere => .bind (.any _) fun more _ => .pure ?_
      obtain ⟨b, hb, hP⟩ := hhere
      exact ⟨b, List.mem_append_left more hb, hP⟩
    · refine .bind (.any _) fun here _ => .bind (ih hrest) fun more hmore => .pure ?_
      obtain ⟨b, hb, hP⟩ := hmore
      exact ⟨b, List.mem_append_right here hb, hP⟩

variable [LeafValue ν]

/-- Some tuple of the pass stands for the concrete state. -/
def Pass.Has (γs : List (Meaning ν κ)) (c : κ) (pass : Pass ν) : Prop :=
  ∃ cs ∈ pass.tuples, Meaning.All γs cs c

theorem strengthenOne_gives (ht : t.Sound step γs i γ) (hγ : γs[i]? = some γ) (p : Precision ρ)
    (hcs : Meaning.All γs cs c) : Gives (strengthenOne e t p i cs) (Pass.Has γs c) := by
  unfold strengthenOne
  split
  · exact .pure ⟨cs, List.mem_singleton.2 rfl, hcs⟩
  next old hold =>
  refine .bind (ht.strengthen cs old c p e hcs hold) fun answer hanswer => ?_
  cases answer with
  | none => exact .pure ⟨cs, List.mem_singleton.2 rfl, hcs⟩
  | some states =>
    obtain ⟨u, hu, hmeans⟩ := hanswer states rfl
    exact .pure ⟨cs.set i u, List.mem_map.2 ⟨u, hu, rfl⟩, hcs.set hγ hmeans⟩

theorem strengthenEach_gives (ht : t.Sound step γs i γ) (hγ : γs[i]? = some γ) (p : Precision ρ)
    {tuples : List (List (State ν))} (hmem : cs ∈ tuples) (hcs : Meaning.All γs cs c) :
    Gives (strengthenEach e t p i tuples) (Pass.Has γs c) := by
  induction tuples with
  | nil => cases hmem
  | cons first rest ih =>
    unfold strengthenEach
    rcases List.mem_cons.1 hmem with rfl | hrest
    · refine .bind (strengthenOne_gives ht hγ p hcs) fun here hhere => .bind (.any _) fun more _ =>
        .pure ?_
      obtain ⟨ds, hds, hall⟩ := hhere
      exact ⟨ds, List.mem_append_left more.tuples hds, hall⟩
    · refine .bind (.any _) fun here _ => .bind (ih hrest) fun more hmore => .pure ?_
      obtain ⟨ds, hds, hall⟩ := hmore
      exact ⟨ds, List.mem_append_right here.tuples hds, hall⟩

/-- The components with the numbers from `i` on lose no concrete state. -/
def SoundFrom (step : ProgramEdge → κ → κ → Prop) (γs : List (Meaning ν κ)) (i : Nat)
    (ts : List (Transfer ν ρ ω)) : Prop :=
  ∀ (j : Nat) (t : Transfer ν ρ ω), ts[j]? = some t →
    ∃ γ, γs[i + j]? = some γ ∧ t.Sound step γs (i + j) γ

omit [LeafValue ν] in
theorem SoundFrom.tail (h : SoundFrom step γs i (t :: ts)) : SoundFrom step γs (i + 1) ts := by
  intro j t' hj
  rw [Nat.add_right_comm]
  exact h (j + 1) t' hj

theorem strengthenPass_gives {tuples : List (List (State ν))} (hts : SoundFrom step γs i ts)
    (hmem : cs ∈ tuples) (hcs : Meaning.All γs cs c) :
    Gives (strengthenPass e ts ps i tuples) (Pass.Has γs c) := by
  induction ts generalizing ps i tuples cs with
  | nil =>
    unfold strengthenPass
    exact .pure ⟨cs, hmem, hcs⟩
  | cons t ts ih =>
    cases ps with
    | nil =>
      unfold strengthenPass
      exact .pure ⟨cs, hmem, hcs⟩
    | cons p ps =>
      unfold strengthenPass
      obtain ⟨γ, hγ, ht⟩ := hts 0 t rfl
      refine .bind (strengthenEach_gives ht hγ p hmem hcs) fun here hhere => ?_
      obtain ⟨ds, hds, hall⟩ := hhere
      exact .bind (ih hts.tail hds hall) fun later hlater => .pure hlater

/-- The rounds that follow a pass start from all of its tuples, or from those that have become targets;
the others stay as they are. -/
theorem settle_gives (ps : List (Precision ρ)) (hts : SoundFrom step γs 0 ts) (bound rounds : Nat)
    (hcs : Meaning.All γs cs c) :
    Gives (settle e ts ps bound rounds cs) fun out => ∃ ds ∈ out, Meaning.All γs ds c := by
  induction rounds generalizing cs with
  | zero => exact Triple.throw fun _ _ => trivial
  | succ rounds ih =>
    unfold settle
    refine .bind (strengthenPass_gives hts (List.mem_singleton.2 rfl) hcs) fun pass hhas => ?_
    obtain ⟨ds, hds, hall⟩ := hhas
    split
    · exact concatEach_gives (List.mem_reverse.2 hds) (ih hall)
    · dsimp only
      cases hagain : !State.anyTarget cs && State.anyTarget ds with
      | true =>
        have hmem : ds ∈ (pass.tuples.filter fun t => !State.anyTarget cs && State.anyTarget t).reverse :=
          List.mem_reverse.2 (List.mem_filter.2 ⟨hds, hagain⟩)
        refine .bind (concatEach_gives hmem (ih hall)) fun others hothers => .pure ?_
        obtain ⟨fs, hfs, hmeans⟩ := hothers
        exact ⟨fs, List.mem_append_right _ hfs, hmeans⟩
      | false =>
        refine .bind (.any _) fun others _ => .pure ?_
        refine ⟨ds, List.mem_append_left _ (List.mem_filter.2 ⟨hds, ?_⟩), hall⟩
        rw [hagain]
        rfl

theorem tuples_gives (index : Option Nat) (css : List (List (State ν))) :
    Gives (tuples index css : Action ω (List (State ν))) fun out =>
      ∀ cs ∈ css, ∃ s ∈ out, s.asTuple = .ok cs := by
  induction css with
  | nil => exact .pure fun cs hcs => by cases hcs
  | cons ds rest ih =>
    have htuple : Gives (tuple index ds) fun s : State ν => s.asTuple = .ok ds :=
      .bind (.any _) fun h _ => .pure rfl
    unfold tuples
    refine .bind (.ofAlloc htuple) fun s hs => .bind ih fun out hout => .pure fun cs hcs => ?_
    rcases List.mem_cons.1 hcs with rfl | hrest
    · exact ⟨s, List.mem_cons_self, hs⟩
    · obtain ⟨s', hs', htuple'⟩ := hout cs hrest
      exact ⟨s', List.mem_cons_of_mem s hs', htuple'⟩

theorem split_eq_ok [LeafPrecision ρ] {arity : Nat} {p : Precision ρ}
    (h : split arity s p = .ok (cs, ps)) :
    s.asTuple = .ok cs ∧ cs.length = arity ∧ ps.length = arity := by
  unfold split at h
  cases hs : s.asTuple with
  | error err =>
    rw [hs] at h
    cases h
  | ok cs' =>
    cases hp : p.asTuple with
    | error err =>
      rw [hs, hp] at h
      cases h
    | ok ps' =>
      rw [hs, hp] at h
      by_cases hlength : cs'.length = arity ∧ ps'.length = arity
      · have h : (Except.ok (cs', ps') : Except Error _) = .ok (cs, ps) := by
          simpa [hlength, bind, Except.bind, pure, Except.pure] using h
        cases h
        exact ⟨rfl, hlength⟩
      · simp [hlength, bind, Except.bind] at h

/-- The concrete successor is found again in a tuple that the product computes. -/
theorem transfer_gives [LeafPrecision ρ] (o : ProductOptions) (hts : SoundFrom step γs 0 ts)
    (hlength : γs.length = ts.length) (hs : s.asTuple = .ok cs) (hcs : Meaning.All γs cs c)
    (siblings : List (State ν)) (p : Precision ρ) (hstep : step e c c') :
    Gives ((transfer o ts).successors s siblings p e) fun out =>
      ∃ t ∈ out, ∃ ds, t.asTuple = .ok ds ∧ Meaning.All γs ds c' := by
  unfold transfer
  refine .bind (.ofExcept _) fun q hq => ?_
  obtain ⟨cs', ps⟩ := q
  obtain ⟨hs', hcs', hps⟩ := split_eq_ok hq
  cases hs.symm.trans hs'
  have hsuccessors : ∀ (i : Nat) (t : Transfer ν ρ ω) (γ : Meaning ν κ) (s : State ν)
      (p : Precision ρ), ts[i]? = some t → γs[i]? = some γ → cs[i]? = some s → ps[i]? = some p →
      Gives (t.successors s cs p e) fun next => ∃ u ∈ next, γ u c' := by
    intro i t γ s p ht hγ hi _
    obtain ⟨γ', hγ', hsound⟩ := hts i t ht
    rw [Nat.zero_add] at hγ' hsound
    cases hγ.symm.trans hγ'
    exact hsound.successors cs s c c' p e hcs hi hstep
  refine .bind (alternatives_gives hlength hcs' hps hsuccessors) fun answer hanswer => ?_
  obtain ⟨options, rfl, hoptions⟩ := hanswer
  obtain ⟨candidate, hmem, hall⟩ := exists_choice hoptions
  refine concatEach_gives hmem ?_
  refine .bind (settle_gives ps hts o.maxRounds o.maxRounds hall) fun css hcss => ?_
  refine .post (tuples_gives o.locationIndex css) fun out _ hout => ?_
  obtain ⟨ds, hds, hmeans⟩ := hcss
  obtain ⟨t, ht, htuple⟩ := hout ds hds
  exact ⟨t, ht, ds, htuple, hmeans⟩

/-- If all components are sound in the product, every concrete step out of a tuple ends in one of the
tuples that the product computes. -/
theorem product_transfer_sound [LeafPrecision ρ] (o : ProductOptions)
    (parts : List (Analysis ν ρ ω × Meaning ν κ)) (step : ProgramEdge → κ → κ → Prop)
    (sound : ∀ (i : Nat) (a : Analysis ν ρ ω) (γ : Meaning ν κ), parts[i]? = some (a, γ) →
      a.transfer.Sound step (parts.map Prod.snd) i γ)
    {s : State ν} {siblings : List (State ν)} {p : Precision ρ} {e : ProgramEdge}
    {w w' : World (ω × MergeMode)} {result : List (State ν)}
    (run : ((analysis o (parts.map Prod.fst)).transfer.successors s siblings p e).run.run w =
      (.ok result, w'))
    {cs : List (State ν)} (hs : s.asTuple = .ok cs) {c c' : κ}
    (hc : Meaning.All (parts.map Prod.snd) cs c) (hstep : step e c c') :
    ∃ t ∈ result, ∃ ds, t.asTuple = .ok ds ∧ Meaning.All (parts.map Prod.snd) ds c' := by
  have hts : SoundFrom step (parts.map Prod.snd) 0
      (((parts.map Prod.fst).map (Analysis.focus (.fst : Slot (ω × MergeMode) ω))).map
        Analysis.transfer) := by
    intro i t ht
    rw [List.map_map, List.map_map, List.getElem?_map] at ht
    obtain ⟨⟨a, γ⟩, hpart, rfl⟩ := Option.map_eq_some_iff.1 ht
    rw [Nat.zero_add]
    refine ⟨γ, ?_, (sound i a γ hpart).focus .fst⟩
    rw [List.getElem?_map, hpart]
    rfl
  have hgives := transfer_gives o hts (by simp) hs hc siblings p hstep
  exact hgives.ok run

end

/-! ## Two tuples for one concrete step -/

/-- A place in the program, and the edges that led there with the last one first. -/
abbrev Trail := NodeId × List Nat

def Trail.Step (e : ProgramEdge) (c c' : Trail) : Prop :=
  c.1 = e.source ∧ c' = (e.target, e.id.index :: c.2)

/-- A location state stands for the trails that end there. -/
def endsAt : Meaning FactValue Trail := fun s c => ∃ h, s = .location h c.1

/-- A set of facts stands for the trails along edges that are among the facts. -/
def leadsAlong : Meaning FactValue Trail := fun s c =>
  ∃ v, s.leaf? = some v ∧ ∀ k ∈ c.2, k ∈ v.facts.members

/-- As long as it does not know the fact 7, the analysis goes on with two sets of facts that have it.
One of them is a target. -/
def splitting : Facts.Spec where
  targets := .ofList [8]
  strengthen := some [⟨[.hasNone [7]],
    { results := some [.changed [] [7] none, .changed [] [7, 8] none] }⟩]

theorem location_sound {γs : List (Meaning FactValue Trail)} (hi : γs[i]? = some endsAt)
    (program : Program) (first : Handle) :
    ((Location.analysis program first : Analysis FactValue Level Unit).transfer).Sound Trail.Step γs
      i endsAt where
  successors cs s c c' p e hcs hs hstep := by
    obtain ⟨h, rfl⟩ := hcs.get hi hs
    obtain ⟨hsource, rfl⟩ := hstep
    refine .bind (.ofExcept _) fun n hn => ?_
    cases hn
    rw [if_pos hsource]
    refine .bind (.ofExcept _) fun t ht => .pure ⟨t, List.mem_singleton.2 rfl, ?_⟩
    unfold Location.stateOf at ht
    split at ht
    · cases ht
      exact ⟨_, rfl⟩
    · cases ht
  strengthen cs s c p e _ _ := .pure fun states hstates => by cases hstates

theorem leadsAlong_changed {c : Trail} {v : FactValue}
    (hv : ∀ k ∈ c.2, k ∈ v.facts.members) (h : Handle) (add : List Nat) (anchor : Option NodeId) :
    leadsAlong (Facts.make splitting h ((v.facts.eraseAll []).insertAll add) anchor) c := by
  refine ⟨_, rfl, fun k hk => FactSet.mem_insertAll.2 (.inl ?_)⟩
  have hmem : k ∈ v.facts.members := hv k hk
  simpa [FactSet.eraseAll, FactSet.filter] using hmem

theorem splitting_sound {γs : List (Meaning FactValue Trail)} (hi : γs[i]? = some leadsAlong) :
    (Facts.analysis splitting).transfer.Sound Trail.Step γs i leadsAlong where
  successors cs s c c' p e hcs hs hstep := by
    obtain ⟨v, hv, htrail⟩ := hcs.get hi hs
    obtain ⟨-, rfl⟩ := hstep
    refine .bind (.any _) fun call _ => .bind (.ofExcept _) fun v' hv' => ?_
    cases (Facts.leaf?_of_asLeaf hv').symm.trans hv
    refine .bind (.any _) fun level _ => .bind (.any _) fun _ _ => .ofEffect fun w => ?_
    refine ⟨_, List.mem_singleton.2 rfl, _, rfl, fun k hk => FactSet.mem_insertAll.2 ?_⟩
    rcases List.mem_cons.1 hk with rfl | hold
    · exact .inr List.mem_cons_self
    · have hmem : k ∈ v.facts.members := htrail k hold
      exact .inl (by simpa [FactSet.eraseAll, FactSet.filter] using hmem)
  strengthen cs s c p e hcs hs := by
    obtain ⟨v, hv, htrail⟩ := hcs.get hi hs
    refine .bind (.any _) fun call _ => .bind (.ofExcept _) fun v' hv' => ?_
    cases (Facts.leaf?_of_asLeaf hv').symm.trans hv
    refine .bind (.any _) fun level _ => .bind (.any _) fun _ _ => ?_
    split
    · exact .pure fun states hstates => by cases hstates
    next variants hresults =>
    have hvariants : variants = [.changed [] [7] none, .changed [] [7, 8] none] := by
      simp only [Facts.respond, List.find?_cons, List.find?_nil] at hresults
      split at hresults
      · exact (Option.some.inj hresults).symm
      · cases hresults
    subst hvariants
    have hrealised : Gives
        (Action.ofEffect (Facts.realiseAll splitting s v v.anchor
          [.changed [] [7] none, .changed [] [7, 8] none]))
        fun states => ∃ u ∈ states, leadsAlong u c :=
      .ofEffect fun w => ⟨_, List.mem_cons_self, leadsAlong_changed htrail _ _ _⟩
    refine .bind hrealised fun states hstates => .pure ?_
    rintro states' ⟨⟩
    exact hstates

/-- The location of a fork next to a set of facts. -/
def forkParts : List (Analysis FactValue Level (Unit × Facts.Notes) × Meaning FactValue Trail) :=
  [((Location.analysis Exploration.fork ⟨0⟩).focus .fst, endsAt),
   ((Facts.analysis splitting).focus .snd, leadsAlong)]

def forkTuple : State FactValue :=
  .tuple ⟨3⟩ [.location ⟨0⟩ ⟨0⟩, Facts.make splitting ⟨2⟩ .empty none] (some ⟨0⟩)

def forkPrecision : Precision Level := .tuple ⟨5⟩ [.plain ⟨4⟩, .plain ⟨4⟩]

def forkEdge : ProgramEdge := ⟨⟨1⟩, .statement, ⟨0⟩, ⟨1⟩, none⟩

def forkWorld : World ((Unit × Facts.Notes) × MergeMode) :=
  ⟨⟨6⟩, .empty, ⟨0⟩, ⟨0⟩, (((), {}, .sep), .sep)⟩

/-- The second edge of the fork leads to two tuples, and the step along it ends in one of them. -/
theorem fork_transfer_sound : ∃ result w',
    ((analysis {} (forkParts.map Prod.fst)).transfer.successors forkTuple [] forkPrecision
      forkEdge).run.run forkWorld = (.ok result, w') ∧ result.length = 2 ∧
    Trail.Step forkEdge (⟨0⟩, []) (⟨1⟩, [1]) ∧
    ∃ t ∈ result, ∃ ds, t.asTuple = .ok ds ∧
      Meaning.All [endsAt, leadsAlong] ds (⟨1⟩, [1]) := by
  obtain ⟨result, w', run, hlength⟩ := exists_ok_of_any
    (((analysis {} (forkParts.map Prod.fst)).transfer.successors forkTuple [] forkPrecision
      forkEdge).run.run forkWorld) (fun result => result.length = 2) (by decide +kernel)
  have hlength : result.length = 2 := of_decide_eq_true hlength
  have hstep : Trail.Step forkEdge (⟨0⟩, []) (⟨1⟩, [1]) := ⟨rfl, rfl⟩
  refine ⟨result, w', run, hlength, hstep, ?_⟩
  refine product_transfer_sound {} forkParts Trail.Step ?_ run rfl (c := (⟨0⟩, [])) ?_ hstep
  · intro i a γ hi
    rcases i with _ | _ | i
    · cases hi
      exact (location_sound rfl Exploration.fork ⟨0⟩).focus .fst
    · cases hi
      exact (splitting_sound rfl).focus .snd
    · cases hi
  · refine .cons ⟨_, rfl⟩ (.cons ⟨_, rfl, fun k hk => by cases hk⟩ .nil)

end Product

end ProgramAnalysis
