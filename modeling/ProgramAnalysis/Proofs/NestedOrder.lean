import ProgramAnalysis.Proofs.FactsOrder
import ProgramAnalysis.Proofs.Naming
/-!
The order of nested analyses.

The states of a nested analysis have a shape that its plan determines: a tuple for a product, a
decorated state for a wrapper, and so on down to the leaves. On the states of one shape the order of
a domain may be a preorder that always answers (`Domain.Orders`), and its joins may be upper bounds
(`Domain.Bounds`). Both laws pass from the parts of an analysis to the whole, one lemma per way to
put analyses together, so that they hold of every nesting as soon as they hold of the leaves.

A product gives back the second tuple when no component of the join has a new handle. It thereby
relies on handles: a join that has the handle of its second argument must be that argument, and a
handle that is drawn must be new. `Domain.Joined` says so of the join of a component.
-/

namespace ProgramAnalysis

variable {ν ρ ℓ : Type}

/-! ## Laws -/

namespace State

/-- All handles of the state, inner ones included, were drawn before `h`. -/
def Before (s : State ν) (h : Handle) : Prop := ∀ k ∈ s.handles, k.serial < h.serial

variable {s : State ν} {h h' k : Handle} {cs : List (State ν)}

theorem Before.mono (hs : s.Before h) (hle : h.serial ≤ h'.serial) : s.Before h' :=
  fun k hk => Nat.lt_of_lt_of_le (hs k hk) hle

theorem Before.handle_lt (hs : s.Before h) : s.handle.serial < h.serial := by
  obtain ⟨inner, hhandles⟩ := s.exists_handles
  apply hs
  rw [hhandles]
  exact List.mem_cons_self

/-- A handle that is drawn is new. -/
theorem Before.ne_handle (hs : s.Before h) (hle : h.serial ≤ k.serial) : k ≠ s.handle := by
  rintro rfl
  exact Nat.not_lt.2 hle hs.handle_lt

theorem mem_handlesAll {c : State ν} (hc : c ∈ cs) (hk : k ∈ c.handles) : k ∈ handlesAll cs := by
  induction cs with
  | nil => cases hc
  | cons d ds ih =>
    unfold handlesAll
    rcases List.mem_cons.1 hc with rfl | hc
    · exact List.mem_append_left _ hk
    · exact List.mem_append_right _ (ih hc)

theorem Before.component {x : Option NodeId} (hs : (State.tuple k cs x).Before h) :
    ∀ c ∈ cs, c.Before h :=
  fun _ hc l hl => hs l (List.mem_cons_of_mem k (mem_handlesAll hc hl))

theorem Before.wrapped {w : State ν} {len : Nat} {x : Option Exhaustion}
    (hs : (State.monitored k w len x).Before h) : w.Before h :=
  fun l hl => hs l (List.mem_cons_of_mem k hl)

end State

namespace Domain

/-- Among the states with the given shape, the order always answers and is a preorder. -/
structure Orders (d : Domain ν) (shape : State ν → Prop) : Prop where
  total : ∀ a b, shape a → shape b → ∃ answer, d.leq a b = .ok answer
  refl : ∀ a, shape a → d.Le a a
  trans : ∀ a b c, shape a → shape b → shape c → d.Le a b → d.Le b c → d.Le a c

/-- The join lies above both states. Its handles were drawn in order, and it is the second state if
it has the handle of that one. -/
structure Joined (d : Domain ν) (a b : State ν) (h : Handle) (j : State ν) (h' : Handle) :
    Prop where
  left : d.Le a j
  right : d.Le b j
  forward : h.serial ≤ h'.serial
  same : j.handle = b.handle → j = b

/-- The successful joins of states with the given shape, whose handles are in use, lie above both
states. -/
def Bounds (d : Domain ν) (shape : State ν → Prop) : Prop :=
  ∀ a b h j h', shape a → shape b → a.Before h → b.Before h →
    (d.join a b).run.run h = (.ok j, h') → d.Joined a b h j h'

theorem Bounds.triple {d : Domain ν} {shape : State ν → Prop} {a b : State ν} {h : Handle}
    (hd : d.Bounds shape) (ha : shape a) (hb : shape b) (hah : a.Before h) (hbh : b.Before h) :
    Triple (fun n => n = h) (d.join a b) (d.Joined a b h) fun _ _ => True := by
  refine .of_run (fun n j h' hn run => ?_) fun _ _ _ _ _ => trivial
  rw [hn] at run
  exact hd a b h j h' ha hb hah hbh run

end Domain

/-! ## Locations -/

def State.IsLocation (s : State ν) : Prop := ∃ h n, s = .location h n

namespace Location

variable [LeafValue ν]

theorem le_iff {h k : Handle} {m n : NodeId} :
    (domain : Domain ν).Le (.location h m) (.location k n) ↔ m = n := by
  have hleq : (domain : Domain ν).leq (.location h m) (.location k n) = .ok (decide (m = n)) := rfl
  rw [Domain.Le, hleq]
  simp

theorem orders : (domain : Domain ν).Orders State.IsLocation where
  total := by
    rintro _ _ ⟨h, m, rfl⟩ ⟨k, n, rfl⟩
    exact ⟨decide (m = n), rfl⟩
  refl := by
    rintro _ ⟨h, n, rfl⟩
    exact le_iff.2 rfl
  trans := by
    rintro _ _ _ ⟨h, m, rfl⟩ ⟨k, n, rfl⟩ ⟨l, o, rfl⟩ hmn hno
    exact le_iff.2 ((le_iff.1 hmn).trans (le_iff.1 hno))

theorem bounds : (domain : Domain ν).Bounds State.IsLocation := by
  rintro _ _ h j h' ⟨k, m, rfl⟩ ⟨l, n, rfl⟩ - - run
  have hrun : ((domain : Domain ν).join (.location k m) (.location l n)).run.run h =
      (if m = n then (pure (.location l n) : Alloc (State ν)) else throw (.undefined "join"
        ("locations " ++ m.text ++ " and " ++ n.text ++ " have no common upper bound"))).run.run
        h := rfl
  rw [hrun] at run
  split at run
  · next heq =>
    cases run
    exact ⟨le_iff.2 heq, le_iff.2 rfl, Nat.le_refl _, fun _ => rfl⟩
  · cases run

end Location

/-! ## Products -/

/-- The state is a tuple, and its components have the given shapes. -/
def State.TupleOf (shapes : List (State ν → Prop)) (s : State ν) : Prop :=
  ∃ h cs anchor, s = .tuple h cs anchor ∧ List.Forall₂ (fun shape c => shape c) shapes cs

namespace Product

theorem leqComponents_cons {d : Domain ν} {ds : List (Domain ν)} {a b : State ν}
    {as bs : List (State ν)} :
    leqComponents (d :: ds) (a :: as) (b :: bs) = .ok true ↔
      d.Le a b ∧ leqComponents ds as bs = .ok true := by
  have hunfold : leqComponents (d :: ds) (a :: as) (b :: bs) =
      (d.leq a b >>= fun below => if below then leqComponents ds as bs else .ok false) := rfl
  rw [hunfold, Domain.Le]
  rcases d.leq a b with e | below
  · simp [bind, Except.bind]
  · cases below <;> simp [bind, Except.bind]

/-- Only the components that all three lists have are compared. -/
theorem leqComponents_eq_true_iff {ds : List (Domain ν)} {as bs : List (State ν)} :
    leqComponents ds as bs = .ok true ↔
      ∀ (i : Nat) (d : Domain ν) (a b : State ν), ds[i]? = some d → as[i]? = some a →
        bs[i]? = some b → d.Le a b := by
  induction ds generalizing as bs with
  | nil => simp [leqComponents]
  | cons d ds ih =>
    cases as with
    | nil => simp [leqComponents]
    | cons a as =>
    cases bs with
    | nil => simp [leqComponents]
    | cons b bs =>
    rw [leqComponents_cons, ih]
    constructor
    · intro h i d' a' b' hd ha hb
      cases i with
      | zero =>
        cases hd
        cases ha
        cases hb
        exact h.1
      | succ i => exact h.2 i d' a' b' hd ha hb
    · intro h
      exact ⟨h 0 d a b rfl rfl rfl, fun i => h (i + 1)⟩

variable {ds : List (Domain ν)} {shapes : List (State ν → Prop)} {as bs cs : List (State ν)}

section

variable (hd : List.Forall₂ (fun d shape => d.Orders shape) ds shapes)
  (ha : List.Forall₂ (fun shape a => shape a) shapes as)

include hd ha

theorem leqComponents_refl : leqComponents ds as as = .ok true := by
  induction hd generalizing as with
  | nil => rfl
  | cons hhead _ ih =>
    cases ha with | cons ha has =>
    exact leqComponents_cons.2 ⟨hhead.refl _ ha, ih has⟩

variable (hb : List.Forall₂ (fun shape b => shape b) shapes bs)

include hb

theorem leqComponents_total : ∃ answer, leqComponents ds as bs = .ok answer := by
  induction hd generalizing as bs with
  | nil => exact ⟨true, rfl⟩
  | cons hhead _ ih =>
    cases ha with | cons ha has =>
    cases hb with | cons hb hbs =>
    obtain ⟨answer, hanswer⟩ := hhead.total _ _ ha hb
    obtain ⟨rest, hrest⟩ := ih has hbs
    unfold leqComponents
    rw [hanswer]
    cases answer with
    | false => exact ⟨false, rfl⟩
    | true => exact ⟨rest, hrest⟩

theorem leqComponents_trans (hc : List.Forall₂ (fun shape c => shape c) shapes cs)
    (hab : leqComponents ds as bs = .ok true) (hbc : leqComponents ds bs cs = .ok true) :
    leqComponents ds as cs = .ok true := by
  induction hd generalizing as bs cs with
  | nil => rfl
  | cons hhead _ ih =>
    cases ha with | cons ha has =>
    cases hb with | cons hb hbs =>
    cases hc with | cons hc hcs =>
    obtain ⟨hle, hrest⟩ := leqComponents_cons.1 hab
    obtain ⟨hle', hrest'⟩ := leqComponents_cons.1 hbc
    exact leqComponents_cons.2 ⟨hhead.trans _ _ _ ha hb hc hle hle', ih has hbs hcs hrest hrest'⟩

end

/-- The joined components lie above those of both tuples, and if none of them counts as changed they
are those of the second one. -/
theorem joinComponents_triple {h : Handle}
    (hd : List.Forall₂ (fun d shape => d.Bounds shape) ds shapes)
    (ha : List.Forall₂ (fun shape a => shape a) shapes as)
    (hb : List.Forall₂ (fun shape b => shape b) shapes bs)
    (hah : ∀ a ∈ as, a.Before h) (hbh : ∀ b ∈ bs, b.Before h) :
    Triple (fun n => n = h) (joinComponents ds as bs)
      (fun answer n => answer.1.length = ds.length ∧ leqComponents ds as answer.1 = .ok true ∧
        leqComponents ds bs answer.1 = .ok true ∧ h.serial ≤ n.serial ∧
        (answer.2 = false → answer.1 = bs))
      fun _ _ => True := by
  induction hd generalizing as bs h with
  | nil =>
    cases ha
    cases hb
    refine .pure fun n hn => ⟨rfl, rfl, rfl, ?_, fun _ => rfl⟩
    rw [hn]
  | cons hhead _ ih =>
    cases ha with | cons ha has =>
    cases hb with | cons hb hbs =>
    rename_i d _ ds _ _ a as b bs
    unfold joinComponents
    refine .bind (hhead.triple ha hb (hah a (by simp)) (hbh b (by simp))) fun j => ?_
    intro n hj
    have hah' : ∀ c ∈ as, c.Before n := fun c hc => (hah c (by simp [hc])).mono hj.forward
    have hbh' : ∀ c ∈ bs, c.Before n := fun c hc => (hbh c (by simp [hc])).mono hj.forward
    refine Triple.bind (ih has hbs hah' hbh') (fun answer => .pure ?_) n rfl
    rintro n' ⟨hlen, hleft, hright, hle, hsame⟩
    refine ⟨congrArg (· + 1) hlen, ?_, ?_, Nat.le_trans hj.forward hle, ?_⟩
    · exact leqComponents_cons.2 ⟨hj.left, hleft⟩
    · exact leqComponents_cons.2 ⟨hj.right, hright⟩
    · intro hunchanged
      obtain ⟨hhandle, hrest⟩ := Bool.or_eq_false_iff.1 hunchanged
      have hj' : j.handle = b.handle := by simpa using hhandle
      show j :: answer.1 = b :: bs
      rw [hj.same hj', hsame hrest]

variable [LeafValue ν] {index : Option Nat}

theorem stateOf_tuple {arity : Nat} {h : Handle} {x : Option NodeId} (hlen : cs.length = arity) :
    stateOf arity (.tuple h cs x) = .ok cs := by
  show (if cs.length = arity then Except.ok cs else _) = Except.ok cs
  rw [if_pos hlen]

theorem leq_tuple {h k : Handle} {x y : Option NodeId} (ha : as.length = ds.length)
    (hb : bs.length = ds.length) :
    (domain index ds).leq (.tuple h as x) (.tuple k bs y) = leqComponents ds as bs := by
  show (stateOf ds.length (.tuple h as x) >>= fun as =>
    stateOf ds.length (.tuple k bs y) >>= fun bs => leqComponents ds as bs) = _
  rw [stateOf_tuple ha, stateOf_tuple hb]
  rfl

theorem orders (hd : List.Forall₂ (fun d shape => d.Orders shape) ds shapes) :
    (domain index ds).Orders (State.TupleOf shapes) where
  total := by
    rintro _ _ ⟨h, as, x, rfl, ha⟩ ⟨k, bs, y, rfl, hb⟩
    rw [leq_tuple (ha.length_eq.symm.trans hd.length_eq.symm)
      (hb.length_eq.symm.trans hd.length_eq.symm)]
    exact leqComponents_total hd ha hb
  refl := by
    rintro _ ⟨h, as, x, rfl, ha⟩
    have hlen := ha.length_eq.symm.trans hd.length_eq.symm
    rw [Domain.Le, leq_tuple hlen hlen]
    exact leqComponents_refl hd ha
  trans := by
    rintro _ _ _ ⟨h, as, x, rfl, ha⟩ ⟨k, bs, y, rfl, hb⟩ ⟨l, cs, z, rfl, hc⟩ hab hbc
    have hlena := ha.length_eq.symm.trans hd.length_eq.symm
    have hlenb := hb.length_eq.symm.trans hd.length_eq.symm
    have hlenc := hc.length_eq.symm.trans hd.length_eq.symm
    rw [Domain.Le, leq_tuple hlena hlenb] at hab
    rw [Domain.Le, leq_tuple hlenb hlenc] at hbc
    rw [Domain.Le, leq_tuple hlena hlenc]
    exact leqComponents_trans hd ha hb hc hab hbc

theorem bounds (hd : List.Forall₂ (fun d shape => d.Bounds shape) ds shapes) :
    (domain index ds).Bounds (State.TupleOf shapes) := by
  rintro _ _ h j h' ⟨k, as, x, rfl, ha⟩ ⟨l, bs, y, rfl, hb⟩ hah hbh run
  have hlena := ha.length_eq.symm.trans hd.length_eq.symm
  have hlenb := hb.length_eq.symm.trans hd.length_eq.symm
  have hjoin : (domain index ds).join (.tuple k as x) (.tuple l bs y) =
      joinComponents ds as bs >>= fun answer =>
        if answer.2 then tuple index answer.1 else pure (.tuple l bs y) := by
    show (Alloc.ofExcept (stateOf ds.length (.tuple k as x)) >>= fun as =>
      Alloc.ofExcept (stateOf ds.length (.tuple l bs y)) >>= fun bs' =>
        joinComponents ds as bs' >>= _) = _
    rw [stateOf_tuple hlena, stateOf_tuple hlenb]
    rfl
  rw [hjoin] at run
  have hcomponents := joinComponents_triple hd ha hb hah.component hbh.component
  refine Triple.ok (Triple.bind hcomponents fun answer => ?_) rfl run
  split
  · -- A component has changed: the tuple is new, and so is its handle.
    intro n hn
    obtain ⟨hlen, hleft, hright, hle, -⟩ := hn
    have hfresh : (tuple index answer.1).run.run n =
        (.ok (.tuple n answer.1 (anchor index answer.1)), n.next) := rfl
    rw [hfresh]
    exact ⟨(leq_tuple hlena hlen).trans hleft, (leq_tuple hlenb hlen).trans hright,
      Nat.le_trans hle (Nat.le_succ _), fun hhandle => absurd hhandle (hbh.ne_handle hle)⟩
  · next hunchanged =>
    refine .pure fun n hn => ?_
    obtain ⟨-, hleft, hright, hle, hsame⟩ := hn
    have hbs : answer.1 = bs := hsame (by simpa using hunchanged)
    rw [hbs] at hleft hright
    exact ⟨(leq_tuple hlena hlenb).trans hleft, (leq_tuple hlenb hlenb).trans hright, hle,
      fun _ => rfl⟩

end Product

/-! ## Wrappers -/

/-- The state is a monitored one, and the state inside has the given shape. -/
def State.MonitoredOf (shape : State ν → Prop) (s : State ν) : Prop :=
  ∃ h w len x, s = .monitored h w len x ∧ shape w

/-- The state is a recorded one, and the state inside has the given shape. -/
def State.GraphedOf (shape : State ν → Prop) (s : State ν) : Prop :=
  ∃ h n w, s = .graphed h n w ∧ shape w

namespace Monitor

variable [LeafValue ν] {d : Domain ν} {shape : State ν → Prop}

theorem leq_monitored (d : Domain ν) (h k : Handle) (v w : State ν) (m n : Nat)
    (x y : Option Exhaustion) :
    (domain d).leq (.monitored h v m x) (.monitored k w n y) =
      if x ≠ y then .ok false else d.leq v w := rfl

theorem le_iff {h k : Handle} {v w : State ν} {m n : Nat} {x y : Option Exhaustion} :
    (domain d).Le (.monitored h v m x) (.monitored k w n y) ↔ x = y ∧ d.Le v w := by
  rw [Domain.Le, leq_monitored]
  by_cases hxy : x = y
  · simp [hxy, Domain.Le]
  · simp [hxy]

theorem orders (hd : d.Orders shape) : (domain d).Orders (State.MonitoredOf shape) where
  total := by
    rintro _ _ ⟨h, v, m, x, rfl, hv⟩ ⟨k, w, n, y, rfl, hw⟩
    rw [leq_monitored]
    split
    · exact ⟨false, rfl⟩
    · exact hd.total v w hv hw
  refl := by
    rintro _ ⟨h, v, m, x, rfl, hv⟩
    exact le_iff.2 ⟨rfl, hd.refl v hv⟩
  trans := by
    rintro _ _ _ ⟨h, u, m, x, rfl, hu⟩ ⟨k, v, n, y, rfl, hv⟩ ⟨l, w, o, z, rfl, hw⟩ huv hvw
    obtain ⟨hxy, huv⟩ := le_iff.1 huv
    obtain ⟨hyz, hvw⟩ := le_iff.1 hvw
    exact le_iff.2 ⟨hxy.trans hyz, hd.trans u v w hu hv hw huv hvw⟩

/-- Only states that ran out of the same budget are joined, and the join has run out of it too. -/
theorem bounds (hd : d.Bounds shape) : (domain d).Bounds (State.MonitoredOf shape) := by
  rintro _ _ h j h' ⟨k, v, m, x, rfl, hv⟩ ⟨l, w, n, y, rfl, hw⟩ hah hbh run
  have hjoin : (domain d).join (.monitored k v m x) (.monitored l w n y) =
      if x ≠ y then throw (.undefined "join" "exhausted and live monitor states")
      else d.join v w >>= fun u => wrap u (max m n) y := by
    show (ite (x ≠ y) _ _ : Alloc (State ν)) = _
    split <;> rfl
  rw [hjoin] at run
  split at run
  · cases run
  next hxy =>
  have hxy : x = y := not_not.1 hxy
  have hinner := hd.triple hv hw hah.wrapped hbh.wrapped
  refine Triple.ok (Triple.bind hinner fun u => ?_) rfl run
  intro n' hu
  have hfresh : (wrap u (max m n) y).run.run n' =
      (.ok (.monitored n' u (max m n) y), n'.next) := rfl
  rw [hfresh]
  exact ⟨le_iff.2 ⟨hxy, hu.left⟩, le_iff.2 ⟨rfl, hu.right⟩,
    Nat.le_trans hu.forward (Nat.le_succ _), fun hhandle =>
      absurd hhandle (hbh.ne_handle hu.forward)⟩

end Monitor

namespace Recorder

variable [LeafValue ν] {d : Domain ν} {shape : State ν → Prop}

theorem orders (hd : d.Orders shape) : (domain d).Orders (State.GraphedOf shape) where
  total := by
    rintro _ _ ⟨h, m, v, rfl, hv⟩ ⟨k, n, w, rfl, hw⟩
    exact hd.total v w hv hw
  refl := by
    rintro _ ⟨h, m, v, rfl, hv⟩
    exact hd.refl v hv
  trans := by
    rintro _ _ _ ⟨h, m, u, rfl, hu⟩ ⟨k, n, v, rfl, hv⟩ ⟨l, o, w, rfl, hw⟩ huv hvw
    exact hd.trans u v w hu hv hw huv hvw

/-- Recorded states are never joined. -/
theorem bounds (d : Domain ν) (shape : State ν → Prop) : (domain d).Bounds shape := by
  intro a b h j h' _ _ _ _ run
  cases run

end Recorder

/-! ## Plans -/

namespace Plan

mutual

/-- The shape of the states of a planned analysis, given those of the leaves. -/
def shape (leafShape : ℓ → State ν → Prop) : Plan ν ρ ℓ → State ν → Prop
  | .location => State.IsLocation
  | .leaf label => leafShape label
  | .product _ parts => State.TupleOf (shapes leafShape parts)
  | .recorded inner => State.GraphedOf (shape leafShape inner)
  | .memo inner => shape leafShape inner
  | .monitored _ inner => State.MonitoredOf (shape leafShape inner)
  | .checked _ inner => shape leafShape inner

/-- The shapes of the states of several planned analyses. -/
def shapes (leafShape : ℓ → State ν → Prop) : List (Plan ν ρ ℓ) → List (State ν → Prop)
  | [] => []
  | p :: ps => shape leafShape p :: shapes leafShape ps

end

theorem length_shapes (leafShape : ℓ → State ν → Prop) (ps : List (Plan ν ρ ℓ)) :
    (shapes leafShape ps).length = ps.length := by
  induction ps with
  | nil => rfl
  | cons p ps ih =>
    unfold shapes
    rw [List.length_cons, ih, List.length_cons]

/-- The parts of a planned product, also if its answers are remembered or its states are checked. -/
def parts? : Plan ν ρ ℓ → Option (List (Plan ν ρ ℓ))
  | product _ parts => some parts
  | memo inner => inner.parts?
  | checked _ inner => inner.parts?
  | _ => none

variable [LeafValue ν]

mutual

/-- The domain of a planned analysis, given those of the leaves. -/
def domain (leafDomain : ℓ → Domain ν) : Plan ν ρ ℓ → Domain ν
  | .location => Location.domain
  | .leaf label => leafDomain label
  | .product options parts => Product.domain options.locationIndex (domains leafDomain parts)
  | .recorded inner => Recorder.domain (domain leafDomain inner)
  | .memo inner => domain leafDomain inner
  | .monitored _ inner => Monitor.domain (domain leafDomain inner)
  | .checked _ inner => domain leafDomain inner

/-- The domains of several planned analyses. -/
def domains (leafDomain : ℓ → Domain ν) : List (Plan ν ρ ℓ) → List (Domain ν)
  | [] => []
  | p :: ps => domain leafDomain p :: domains leafDomain ps

end

theorem domains_eq_map (leafDomain : ℓ → Domain ν) (ps : List (Plan ν ρ ℓ)) :
    domains leafDomain ps = ps.map (domain leafDomain) := by
  induction ps with
  | nil => rfl
  | cons p ps ih =>
    unfold domains
    rw [ih]
    rfl

section

variable {leafShape : ℓ → State ν → Prop} {leafDomain : ℓ → Domain ν}

mutual

theorem orders (h : ∀ label, (leafDomain label).Orders (leafShape label)) :
    (p : Plan ν ρ ℓ) → (p.domain leafDomain).Orders (p.shape leafShape)
  | .location => Location.orders
  | .leaf label => h label
  | .product _ parts => Product.orders (all_orders h parts)
  | .recorded inner => Recorder.orders (orders h inner)
  | .memo inner => orders h inner
  | .monitored _ inner => Monitor.orders (orders h inner)
  | .checked _ inner => orders h inner

theorem all_orders (h : ∀ label, (leafDomain label).Orders (leafShape label)) :
    (ps : List (Plan ν ρ ℓ)) → List.Forall₂ (fun d shape => d.Orders shape)
      (domains leafDomain ps) (shapes leafShape ps)
  | [] => .nil
  | p :: ps => .cons (orders h p) (all_orders h ps)

end

mutual

theorem bounds (h : ∀ label, (leafDomain label).Bounds (leafShape label)) :
    (p : Plan ν ρ ℓ) → (p.domain leafDomain).Bounds (p.shape leafShape)
  | .location => Location.bounds
  | .leaf label => h label
  | .product _ parts => Product.bounds (all_bounds h parts)
  | .recorded _ => Recorder.bounds _ _
  | .memo inner => bounds h inner
  | .monitored _ inner => Monitor.bounds (bounds h inner)
  | .checked _ inner => bounds h inner

theorem all_bounds (h : ∀ label, (leafDomain label).Bounds (leafShape label)) :
    (ps : List (Plan ν ρ ℓ)) → List.Forall₂ (fun d shape => d.Bounds shape)
      (domains leafDomain ps) (shapes leafShape ps)
  | [] => .nil
  | p :: ps => .cons (bounds h p) (all_bounds h ps)

end

/-- The order of tuples is componentwise. -/
theorem le_iff_components : (p : Plan ν ρ ℓ) → ∀ (parts : List (Plan ν ρ ℓ)) (a b : State ν),
    p.parts? = some parts → p.shape leafShape a → p.shape leafShape b →
    ((p.domain leafDomain).Le a b ↔
      ∀ (i : Nat) (part : Plan ν ρ ℓ) (c e : State ν), parts[i]? = some part →
        a.components[i]? = some c → b.components[i]? = some e → (part.domain leafDomain).Le c e)
  | .product options parts, _, _, _, rfl, ⟨h, as, x, rfl, ha⟩, ⟨k, bs, y, rfl, hb⟩ => by
    have hlength : (shapes leafShape parts).length = (domains leafDomain parts).length := by
      rw [length_shapes, domains_eq_map, List.length_map]
    have hleq : (domain leafDomain (.product options parts)).leq (.tuple h as x) (.tuple k bs y) =
        Product.leqComponents (domains leafDomain parts) as bs :=
      Product.leq_tuple (ha.length_eq.symm.trans hlength) (hb.length_eq.symm.trans hlength)
    rw [Domain.Le, hleq, Product.leqComponents_eq_true_iff, domains_eq_map]
    constructor
    · intro hall i part c e hpart hc he
      exact hall i _ c e (by rw [List.getElem?_map, hpart]; rfl) hc he
    · intro hall i d c e hd hc he
      rw [List.getElem?_map] at hd
      obtain ⟨part, hpart, rfl⟩ := Option.map_eq_some_iff.1 hd
      exact hall i part c e hpart hc he
  | .memo inner, parts, a, b, hparts, ha, hb => le_iff_components inner parts a b hparts ha hb
  | .checked _ inner, parts, a, b, hparts, ha, hb => le_iff_components inner parts a b hparts ha hb

end

end Plan

/-! ## Facts -/

namespace Facts

def IsLeaf (s : State FactValue) : Prop := ∃ h v, s = .leaf h v

variable {spec : Spec}

theorem orders (horder : spec.order = .subset) : (domain spec).Orders IsLeaf where
  total := by
    rintro _ _ ⟨h, v, rfl⟩ ⟨k, w, rfl⟩
    refine ⟨v.anchor = w.anchor && v.facts.visible.subset w.facts.visible, ?_⟩
    show leq spec _ _ = _
    unfold leq
    rw [horder]
    rfl
  refl := by
    rintro _ ⟨h, v, rfl⟩
    exact (le_iff horder).2 ⟨v, v, rfl, rfl, rfl, fun _ hk => hk⟩
  trans _ _ _ _ _ _ hab hbc := le_trans horder hab hbc

theorem included_union_right {v w : FactValue} (hanchor : v.anchor = w.anchor) (targets : FactSet) :
    Included w (.make targets (v.facts.union w.facts) v.anchor) := by
  refine ⟨hanchor.symm, fun k hk => ?_⟩
  obtain ⟨hmem, hlt⟩ := FactSet.mem_visible.1 hk
  exact FactSet.mem_visible.2 ⟨FactSet.mem_union.2 (.inr hmem), hlt⟩

theorem bounds (horder : spec.order = .subset) (hjoin : spec.join = .union) :
    (domain spec).Bounds IsLeaf := by
  intro a b h j h' _ hb _ hbh run
  have hleft := (bounding horder hjoin).upper a b j h h' run
  have hforward : h.serial ≤ h'.serial := ((join_triple a b h).ok rfl run).1
  obtain ⟨v, w, -, hw, hanchor, ⟨rfl, -⟩ | ⟨rfl, -⟩⟩ := join_eq_ok hjoin run
  · exact ⟨hleft, (orders horder).refl j hb, hforward, fun _ => rfl⟩
  · refine ⟨hleft, (le_iff horder).2 ⟨w, _, hw, rfl, included_union_right hanchor spec.targets⟩,
      hforward, fun hhandle => absurd hhandle (hbh.ne_handle (Nat.le_refl _))⟩

end Facts

/-! ## Assembled analyses -/

theorem Tree.value_map {α β : Type} (f : α → β) (t : Tree α) : (t.map f).value = f t.value := by
  cases t
  rfl

/-- The analyses keep their domains when they are put on one memory. -/
theorem Assembly.map_gather_domain (as : List (Assembly ν ρ)) :
    (gather as).trees.map (fun t => t.value.analysis.domain) =
      as.map fun a => a.analysis.domain := by
  induction as with
  | nil => rfl
  | cons a rest ih =>
    show (a.tree.map (Component.focus .fst)).value.analysis.domain ::
      ((gather rest).trees.map fun t => t.map (Component.focus .snd)).map
        (fun t => t.value.analysis.domain) = _
    rw [List.map_map, List.map_cons, ← ih, Tree.value_map]
    refine congrArg₂ List.cons rfl (List.map_congr_left fun t _ => ?_)
    show ((t.map (Component.focus .snd)).value.analysis).domain = _
    rw [Tree.value_map]
    rfl

namespace Plan

section

variable [LeafValue ν] [LeafPrecision ρ] (program : Program) (leaves : ℓ → Assembly ν ρ)

mutual

theorem domain_assemble : (p : Plan ν ρ ℓ) → (first : Handle) →
    (p.assemble program leaves first).1.analysis.domain =
      p.domain fun label => (leaves label).analysis.domain
  | .location, _ => rfl
  | .leaf _, _ => rfl
  | .product options parts, first => by
    show Product.domain options.locationIndex
      (((Assembly.gather (assembleAll program leaves parts first).1).trees.map
        fun t => t.value.analysis).map Analysis.domain) = Product.domain options.locationIndex _
    rw [List.map_map]
    exact congrArg _ ((Assembly.map_gather_domain _).trans (domain_assembleAll parts first))
  | .recorded inner, first => congrArg Recorder.domain (domain_assemble inner first)
  | .memo inner, first => domain_assemble inner first
  | .monitored _ inner, first => congrArg Monitor.domain (domain_assemble inner first)
  | .checked _ inner, first => domain_assemble inner first

theorem domain_assembleAll : (ps : List (Plan ν ρ ℓ)) → (first : Handle) →
    (assembleAll program leaves ps first).1.map (fun a => a.analysis.domain) =
      domains (fun label => (leaves label).analysis.domain) ps
  | [], _ => rfl
  | p :: ps, first => congrArg₂ List.cons (domain_assemble p first) (domain_assembleAll ps _)

end

/-- If the orders of the leaves always answer and are preorders on the states of their shapes, and
their joins are upper bounds, the same holds of every nesting of the leaves in products and
wrappers. The order of a product is the componentwise order, for components that are assembled with
any handles. -/
theorem nested_domain_lawful (leafShape : ℓ → State ν → Prop)
    (horders : ∀ label, (leaves label).analysis.domain.Orders (leafShape label))
    (hbounds : ∀ label, (leaves label).analysis.domain.Bounds (leafShape label))
    (plan : Plan ν ρ ℓ) (first : Handle) :
    (plan.assemble program leaves first).1.analysis.domain.Orders (plan.shape leafShape) ∧
    (plan.assemble program leaves first).1.analysis.domain.Bounds (plan.shape leafShape) ∧
    ∀ (parts : List (Plan ν ρ ℓ)) (a b : State ν) (next : Handle), plan.parts? = some parts →
      plan.shape leafShape a → plan.shape leafShape b →
      ((plan.assemble program leaves first).1.analysis.domain.Le a b ↔
        ∀ (i : Nat) (part : Plan ν ρ ℓ) (c e : State ν), parts[i]? = some part →
          a.components[i]? = some c → b.components[i]? = some e →
          (part.assemble program leaves next).1.analysis.domain.Le c e) := by
  simp only [domain_assemble]
  refine ⟨orders horders plan, bounds hbounds plan, fun parts a b next hparts ha hb => ?_⟩
  exact le_iff_components plan parts a b hparts ha hb

end

/-! ## A nesting of facts -/

/-- Sets of facts at the place of the given leaf. -/
def factLeaves (choice : Facts.MergeChoice) : Assembly FactValue Level :=
  Facts.Leaf.assemble ⟨"facts", "facts", { merge := choice }⟩

/-- Facts, next to monitored pairs of a location and of other facts. -/
def factParts : List (Plan FactValue Level Facts.MergeChoice) :=
  [.leaf .sep,
   .monitored {} (.checked (fun _ => .ok true)
     (.product { locationIndex := some 0 } [.location, .leaf .join]))]

def factPlan : Plan FactValue Level Facts.MergeChoice := .memo (.product {} factParts)

/-- A state of the nesting with the given facts, under handles from `h` on. -/
def factState (h : Nat) (first second : List Nat) (pathLength : Nat) : State FactValue :=
  .tuple ⟨h⟩
    [.leaf ⟨h + 1⟩ (.make .empty (FactSet.empty.insertAll first) none),
     .monitored ⟨h + 2⟩
       (.tuple ⟨h + 3⟩
         [.location ⟨0⟩ ⟨0⟩, .leaf ⟨h + 4⟩ (.make .empty (FactSet.empty.insertAll second) none)]
         (some ⟨0⟩))
       pathLength none]
    (some ⟨0⟩)

theorem factState_shape (h : Nat) (first second : List Nat) (pathLength : Nat) :
    factPlan.shape (fun _ => Facts.IsLeaf) (factState h first second pathLength) :=
  ⟨_, _, _, rfl, .cons ⟨_, _, rfl⟩ (.cons ⟨_, _, _, _, rfl, _, _, _, rfl,
    .cons ⟨_, _, rfl⟩ (.cons ⟨_, _, rfl⟩ .nil)⟩ .nil)⟩

/-- The first facts are included, so that only the second component of the join is new. -/
theorem facts_domain_lawful : ∃ j h',
    ((factPlan.assemble Exploration.fork factLeaves ⟨0⟩).1.analysis.domain.join
      (factState 10 [1] [1] 2) (factState 20 [1, 2] [2] 1)).run.run ⟨30⟩ = (.ok j, h') ∧
    (factPlan.assemble Exploration.fork factLeaves ⟨0⟩).1.analysis.domain.Joined
      (factState 10 [1] [1] 2) (factState 20 [1, 2] [2] 1) ⟨30⟩ j h' ∧
    ¬ (factPlan.assemble Exploration.fork factLeaves ⟨0⟩).1.analysis.domain.Le
      (factState 10 [1] [1] 2) (factState 20 [1, 2] [2] 1) := by
  obtain ⟨-, hbounds, hle⟩ := nested_domain_lawful Exploration.fork factLeaves
    (fun _ => Facts.IsLeaf) (fun _ => Facts.orders rfl) (fun _ => Facts.bounds rfl rfl) factPlan ⟨0⟩
  have hleft := factState_shape 10 [1] [1] 2
  have hright := factState_shape 20 [1, 2] [2] 1
  obtain ⟨j, h', run, -⟩ := exists_ok_of_any
    (((factPlan.assemble Exploration.fork factLeaves ⟨0⟩).1.analysis.domain.join
      (factState 10 [1] [1] 2) (factState 20 [1, 2] [2] 1)).run.run ⟨30⟩)
    (fun _ => true) (by decide +kernel)
  refine ⟨j, h', run, hbounds _ _ _ _ _ hleft hright ?_ ?_ run, ?_⟩
  · unfold State.Before
    decide
  · unfold State.Before
    decide
  · intro hbelow
    have hsecond := (hle factParts _ _ ⟨0⟩ rfl hleft hright).1 hbelow 1 _ _ _ rfl rfl rfl
    exact absurd hsecond (by unfold Domain.Le; decide +kernel)

end Plan

end ProgramAnalysis
