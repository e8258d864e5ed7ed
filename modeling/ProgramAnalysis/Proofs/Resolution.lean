import ProgramAnalysis.Assembly.Component
import ProgramAnalysis.Config.Registry
import ProgramAnalysis.Proofs.Triple
/-!
What building from a configuration does.

`Builds` says which tree of specs a text stands for, and what the factories make of it, without a
word about the search: the children of a spec stand in the options of its label, and no label occurs
below itself. Resolution finds exactly these trees (`resolve_eq_ok_iff`), and so does a search that
puts the labels on a stack and takes them off again (`eq_onStack_iff`). `Visits` lists the specs
that a resolution comes across, so a definition is cyclic if one of them has the label of a spec
above it, and only then (`Visits.repeats_of_cyclic`, `Visits.fails`). Every spec with a child owns
an option, which bounds the depth of what is visited.
-/

namespace ProgramAnalysis

/-- A way from the root of a tree to a leaf. -/
inductive Tree.Branch {α : Type} : Tree α → List α → Prop
  | leaf (a : α) : Branch (.node a []) [a]
  | node {a ts t path} (ht : t ∈ ts) (hpath : Branch t path) : Branch (.node a ts) (a :: path)

/-! ## Running lookups -/

namespace Lookup

variable {α γ : Type} {used used' : List String} {f : α → Lookup γ}

/-- What a lookup ends with, and the keys that are read by then. -/
def outcome (x : Lookup α) (used : List String) : Except ConfigError α × List String :=
  x.run.run used

theorem outcome_bind (x : Lookup α) (f : α → Lookup γ) (used : List String) :
    outcome (x >>= f) used = match x.outcome used with
      | (.ok a, mid) => (f a).outcome mid
      | (.error e, mid) => (.error e, mid) := by
  unfold outcome
  rw [run_bind]
  obtain ⟨_ | _, _⟩ := x.run.run used <;> rfl

theorem bind_eq_ok {x : Lookup α} {c : γ} :
    outcome (x >>= f) used = (.ok c, used') ↔
      ∃ a mid, x.outcome used = (.ok a, mid) ∧ (f a).outcome mid = (.ok c, used') := by
  rw [outcome_bind]
  obtain ⟨e | a, mid⟩ := x.outcome used
  · simp
  · simp [and_assoc]

variable {e : ConfigError}

theorem bind_eq_error {x : Lookup α} :
    outcome (x >>= f) used = (.error e, used') ↔
      x.outcome used = (.error e, used') ∨
        ∃ a mid, x.outcome used = (.ok a, mid) ∧ (f a).outcome mid = (.error e, used') := by
  rw [outcome_bind]
  obtain ⟨e | a, mid⟩ := x.outcome used
  · simp
  · simp [and_assoc]

@[simp] theorem outcome_pure (a : α) (used : List String) :
    outcome (pure a) used = (.ok a, used) := rfl

@[simp] theorem outcome_throw (e : ConfigError) (used : List String) :
    outcome (throw e : Lookup α) used = (.error e, used) := rfl

theorem pure_eq_ok {a b : α} : outcome (pure a) used = (.ok b, used') ↔ b = a ∧ used' = used := by
  simp [eq_comm]

/-- A failure in a list is that of one element, and the elements before it end well. -/
theorem mapM_eq_error_iff {l : List α} :
    outcome (l.mapM f) used = (.error e, used') ↔
      ∃ before a after cs mid, l = before ++ a :: after ∧
        outcome (before.mapM f) used = (.ok cs, mid) ∧
        (f a).outcome mid = (.error e, used') := by
  induction l generalizing used with
  | nil => simp
  | cons x l ih =>
    rw [List.mapM_cons, bind_eq_error]
    constructor
    · intro h
      obtain h | ⟨c, mid, hc, h⟩ := h
      · exact ⟨[], x, l, [], used, rfl, rfl, h⟩
      · obtain h | ⟨cs, _, -, h⟩ := bind_eq_error.1 h
        · obtain ⟨before, a, after, cs, mid', rfl, hcs, ha⟩ := ih.1 h
          refine ⟨x :: before, a, after, c :: cs, mid', rfl, ?_, ha⟩
          rw [List.mapM_cons]
          exact bind_eq_ok.2 ⟨c, mid, hc, bind_eq_ok.2 ⟨cs, mid', hcs, rfl⟩⟩
        · rw [outcome_pure] at h
          cases h
    · intro h
      obtain ⟨before, a, after, cs, mid, hl, hcs, ha⟩ := h
      cases before with
      | nil =>
        obtain ⟨rfl, rfl⟩ := List.cons.inj hl
        obtain ⟨-, rfl⟩ := pure_eq_ok.1 hcs
        exact .inl ha
      | cons y before =>
        obtain ⟨rfl, rfl⟩ := List.cons.inj hl
        rw [List.mapM_cons] at hcs
        obtain ⟨c, mid', hc, hcs⟩ := bind_eq_ok.1 hcs
        obtain ⟨cs', mid'', hcs', hend⟩ := bind_eq_ok.1 hcs
        obtain ⟨-, rfl⟩ := pure_eq_ok.1 hend
        refine .inr ⟨c, mid', hc, bind_eq_error.2 (.inl (ih.2 ?_))⟩
        exact ⟨before, a, after, cs', mid, rfl, hcs', ha⟩

end Lookup

namespace Registry

open Lookup

variable {β : Type} {r : Registry β} {o : Options} {label text key : String}
  {above used used' texts : List String} {f : Factory β} {s : Spec}

/-! ## Children -/

/-- The options of a label fit the kind of its factory: the children have the specs `texts`, and
looking for these reads `keys`. -/
inductive Fits (o : Options) (label : String) : Factory β → List String → List String → Prop
  | leaf (create : String → Setup β) (hchild : o.get? (childKey label) = none)
      (hchildren : o.get? (childrenKey label) = none) : Fits o label (.leaf create) [] []
  | wrapper (create : String → β → Setup β) {text : String}
      (hchild : o.get? (childKey label) = some text)
      (hchildren : o.get? (childrenKey label) = none) :
      Fits o label (.wrapper create) [text] [childKey label]
  | composite (create : String → List β → Setup β) {value : String}
      (hchild : o.get? (childKey label) = none)
      (hchildren : o.get? (childrenKey label) = some value) (hne : Setup.readList value ≠ []) :
      Fits o label (.composite create) (Setup.readList value) [childrenKey label]

theorem refuseOption_eq_ok {reason : String} {a : Unit} :
    (refuseOption o key label reason).outcome used = (.ok a, used') ↔
      o.get? key = none ∧ used' = used := by
  unfold refuseOption Index.contains
  cases o.get? key with
  | none => simp [eq_comm]
  | some value => simp

theorem require_of_get? {value : String} (hset : o.get? key = some value) :
    (o.require key).outcome used = (.ok ⟨value, hset⟩, key :: used) := by
  unfold Options.require
  rw [outcome_bind]
  show outcome _ (key :: used) = _
  split
  · next hset' =>
    obtain rfl := Option.some.inj (hset.symm.trans hset')
    rfl
  · next hnone =>
    rw [hset] at hnone
    cases hnone

theorem require_of_none (hnone : o.get? key = none) :
    (o.require key).outcome used = (.error (.missingOption key), key :: used) := by
  unfold Options.require
  rw [outcome_bind]
  show outcome _ (key :: used) = _
  split
  · next hset =>
    rw [hnone] at hset
    cases hset
  · rfl

theorem require_eq_ok {value : { value : String // o.get? key = some value }}
    (h : (o.require key).outcome used = (.ok value, used')) : used' = key :: used := by
  rw [require_of_get? value.2] at h
  exact (Prod.mk.inj h).2.symm

theorem fits_of_children {cs : List (Child o label)}
    (h : (children o label f).outcome used = (.ok cs, used')) :
    ∃ keys, Fits o label f (cs.map Child.text) keys ∧ used' = keys ++ used := by
  cases f with
  | leaf create =>
    obtain ⟨_, _, h₁, hrest⟩ := bind_eq_ok.1 h
    obtain ⟨_, _, h₂, h₃⟩ := bind_eq_ok.1 hrest
    obtain ⟨hchild, rfl⟩ := refuseOption_eq_ok.1 h₁
    obtain ⟨hchildren, rfl⟩ := refuseOption_eq_ok.1 h₂
    obtain ⟨rfl, rfl⟩ := pure_eq_ok.1 h₃
    exact ⟨[], .leaf create hchild hchildren, rfl⟩
  | wrapper create =>
    obtain ⟨_, _, h₁, h⟩ := bind_eq_ok.1 h
    obtain ⟨⟨text, hset⟩, _, h₂, h⟩ := bind_eq_ok.1 h
    obtain ⟨hchildren, rfl⟩ := refuseOption_eq_ok.1 h₁
    obtain rfl := require_eq_ok h₂
    obtain ⟨rfl, rfl⟩ := pure_eq_ok.1 h
    exact ⟨[childKey label], .wrapper create hset hchildren, rfl⟩
  | composite create =>
    obtain ⟨_, _, h₁, h⟩ := bind_eq_ok.1 h
    obtain ⟨⟨value, hset⟩, _, h₂, h⟩ := bind_eq_ok.1 h
    obtain ⟨hchild, rfl⟩ := refuseOption_eq_ok.1 h₁
    obtain rfl := require_eq_ok h₂
    dsimp only at h
    split at h
    · rw [outcome_throw] at h
      cases h
    · next hne =>
      obtain ⟨rfl, rfl⟩ := pure_eq_ok.1 h
      refine ⟨[childrenKey label], ?_, rfl⟩
      rw [List.map_map]
      show Fits o label _ ((Setup.readList value).map id) _
      rw [List.map_id]
      exact .composite create hchild hset hne

theorem children_of_fits {keys : List String} (h : Fits o label f texts keys) (used : List String) :
    ∃ cs : List (Child o label), cs.map Child.text = texts ∧
      (children o label f).outcome used = (.ok cs, keys ++ used) := by
  cases h with
  | leaf create hchild hchildren =>
    refine ⟨[], rfl, bind_eq_ok.2 ⟨(), used, refuseOption_eq_ok.2 ⟨hchild, rfl⟩, bind_eq_ok.2 ?_⟩⟩
    exact ⟨(), used, refuseOption_eq_ok.2 ⟨hchildren, rfl⟩, rfl⟩
  | @wrapper create text hchild hchildren =>
    refine ⟨[⟨text, .inl (Index.mem_keys_of_get? hchild)⟩], rfl, bind_eq_ok.2 ⟨(), used, ?_⟩⟩
    refine ⟨refuseOption_eq_ok.2 ⟨hchildren, rfl⟩, bind_eq_ok.2 ?_⟩
    exact ⟨_, _, require_of_get? hchild, rfl⟩
  | @composite create value hchild hchildren hne =>
    refine ⟨(Setup.readList value).map fun text =>
      ⟨text, .inr (Index.mem_keys_of_get? hchildren)⟩, ?_, bind_eq_ok.2 ⟨(), used, ?_⟩⟩
    · rw [List.map_map]
      exact List.map_id _
    · refine ⟨refuseOption_eq_ok.2 ⟨hchild, rfl⟩, bind_eq_ok.2 ?_⟩
      refine ⟨_, _, require_of_get? hchildren, ?_⟩
      dsimp only
      rw [if_neg hne]
      rfl

/-- Looking for children never finds a cycle. -/
theorem children_triple {a : String} : Triple (fun _ => True) (children o label f) (fun _ _ => True)
    (fun e _ => e ≠ .cyclicDefinition a) := by
  have hrefuse : ∀ {key reason}, Triple (fun _ => True) (refuseOption o key label reason)
      (fun _ _ => True) (fun e _ => e ≠ .cyclicDefinition a) := by
    intro key reason
    unfold refuseOption
    split
    · exact .throw fun _ _ => ConfigError.noConfusion
    · exact .pure fun _ _ => trivial
  have hrequire : ∀ {key}, Triple (fun _ => True) (o.require key)
      (fun _ _ => True) (fun e _ => e ≠ .cyclicDefinition a) := by
    intro key
    unfold Options.require
    refine .bind (R := fun _ _ => True) (.modify fun _ _ => trivial) fun _ => ?_
    split
    · exact .pure fun _ _ => trivial
    · exact .throw fun _ _ => ConfigError.noConfusion
  cases f with
  | leaf create => exact .bind hrefuse fun _ => .bind hrefuse fun _ => .pure fun _ _ => trivial
  | wrapper create => exact .bind hrefuse fun _ => .bind hrequire fun _ => .pure fun _ _ => trivial
  | composite create =>
    refine .bind hrefuse fun _ => .bind hrequire fun value => ?_
    dsimp only
    split
    · exact .throw fun _ _ => ConfigError.noConfusion
    · exact .pure fun _ _ => trivial

/-! ## What is built -/

mutual

/-- Below analyses with the labels `above`, a text stands for a tree of specs and for an analysis
that the factories build of it. The keys that were read are `used` before and `used'` after. -/
inductive Builds (r : Registry β) (o : Options) :
    List String → String → List String → Tree Spec → β → List String → Prop
  | node {above text used s f texts keys mid used' ts bs b}
      (hread : Spec.read text = .ok s) (hnew : s.label ∉ above)
      (hfind : r.find? s.name = some f) (hfits : Fits o s.label f texts keys)
      (hchildren : BuildsAll r o (s.label :: above) texts (keys ++ used) ts bs mid)
      (hcreate : (create f s.label bs o).outcome mid = (.ok b, used')) :
      Builds r o above text used (.node s ts) b used'

/-- The same of several texts, one after the other. -/
inductive BuildsAll (r : Registry β) (o : Options) :
    List String → List String → List String → List (Tree Spec) → List β → List String → Prop
  | nil {above used : List String} : BuildsAll r o above [] used [] [] used
  | cons {above text texts used mid used' t ts b bs}
      (hhead : Builds r o above text used t b mid)
      (htail : BuildsAll r o above texts mid ts bs used') :
      BuildsAll r o above (text :: texts) used (t :: ts) (b :: bs) used'

end

theorem resolve_of_mem (hread : Spec.read text = .ok s) (hmem : s.label ∈ above) :
    resolve r o above text = throw (.cyclicDefinition s.label) := by
  rw [resolve, hread]
  exact dif_pos hmem

theorem resolve_of_find (hread : Spec.read text = .ok s) (hnew : s.label ∉ above)
    (hfind : r.find? s.name = some f) :
    resolve r o above text = (do
      let cs ← children o s.label f
      let below ← (cs.map Child.text).mapM (resolve r o (s.label :: above))
      create f s.label below o) := by
  rw [resolve, hread]
  refine (dif_neg hnew).trans ?_
  rw [hfind]
  simp only [List.mapM_map]
  rfl

/-- Resolution comes to the children of a spec, or fails before; it reports a cycle only if the
label is one of those above. -/
theorem resolve_cases (r : Registry β) (o : Options) (above : List String) (text : String) :
    (∃ e, resolve r o above text = throw e ∧ ∀ a, e = .cyclicDefinition a →
      ∃ s, Spec.read text = .ok s ∧ s.label = a ∧ a ∈ above) ∨
    ∃ s f, Spec.read text = .ok s ∧ s.label ∉ above ∧ r.find? s.name = some f := by
  cases hread : Spec.read text with
  | error e =>
    refine .inl ⟨e, by rw [resolve, hread]; rfl, ?_⟩
    rintro a rfl
    unfold Spec.read at hread
    split at hread <;> cases hread
  | ok s =>
    by_cases hmem : s.label ∈ above
    · refine .inl ⟨_, resolve_of_mem hread hmem, ?_⟩
      rintro a ⟨⟩
      exact ⟨s, rfl, rfl, hmem⟩
    · cases hfind : r.find? s.name with
      | none =>
        refine .inl ⟨.unknownAnalysis s.name, ?_, fun _ => ConfigError.noConfusion⟩
        rw [resolve, hread]
        refine (dif_neg hmem).trans ?_
        rw [hfind]
      | some f => exact .inr ⟨s, f, rfl, hmem, hfind⟩

/-- What resolution builds of a list, if it does so of single texts. -/
theorem buildsAll_of_mapM
    (ih : ∀ text used b used', (resolve r o above text).outcome used = (.ok b, used') →
      ∃ t, Builds r o above text used t b used') {bs : List β}
    (h : Lookup.outcome (texts.mapM (resolve r o above)) used = (.ok bs, used')) :
    ∃ ts, BuildsAll r o above texts used ts bs used' := by
  induction texts generalizing used bs with
  | nil =>
    obtain ⟨rfl, rfl⟩ := pure_eq_ok.1 h
    exact ⟨[], .nil⟩
  | cons text texts ih' =>
    rw [List.mapM_cons] at h
    obtain ⟨b, _, hb, h⟩ := bind_eq_ok.1 h
    obtain ⟨bs, _, hbs, h⟩ := bind_eq_ok.1 h
    obtain ⟨rfl, rfl⟩ := pure_eq_ok.1 h
    obtain ⟨t, ht⟩ := ih _ _ _ _ hb
    obtain ⟨ts, hts⟩ := ih' hbs
    exact ⟨t :: ts, .cons ht hts⟩

theorem builds_of_resolve {b : β} (h : (resolve r o above text).outcome used = (.ok b, used')) :
    ∃ t, Builds r o above text used t b used' := by
  -- the options that are left for the labels below get fewer
  induction hn : (free o above).length using Nat.strongRecOn
    generalizing above text used b used' with
  | _ n ih =>
    subst hn
    obtain ⟨e, he, -⟩ | ⟨s, f, hread, hmem, hfind⟩ := resolve_cases r o above text
    · rw [he] at h
      cases h
    rw [resolve_of_find hread hmem hfind] at h
    obtain ⟨cs, _, hcs, h⟩ := bind_eq_ok.1 h
    obtain ⟨bs, mid, hbs, hcreate⟩ := bind_eq_ok.1 h
    obtain ⟨keys, hfits, rfl⟩ := fits_of_children hcs
    have hbuilds : ∃ ts, BuildsAll r o (s.label :: above) (cs.map Child.text) (keys ++ used)
        ts bs mid := by
      cases cs with
      | nil =>
        obtain ⟨rfl, rfl⟩ := pure_eq_ok.1 hbs
        exact ⟨[], .nil⟩
      | cons c cs =>
        refine buildsAll_of_mapM (fun text used b used' hx => ?_) hbs
        exact ih _ (free_lt hmem c.listed) hx rfl
    obtain ⟨ts, hts⟩ := hbuilds
    exact ⟨.node s ts, .node hread hmem hfind hfits hts hcreate⟩

mutual

theorem Builds.resolve_eq {above : List String} {text : String} {used used' : List String}
    {t : Tree Spec} {b : β} (h : Builds r o above text used t b used') :
    (resolve r o above text).outcome used = (.ok b, used') := by
  cases h with
  | node hread hnew hfind hfits hchildren hcreate =>
    rw [resolve_of_find hread hnew hfind]
    obtain ⟨cs, rfl, hcs⟩ := children_of_fits hfits used
    exact bind_eq_ok.2 ⟨cs, _, hcs, bind_eq_ok.2 ⟨_, _, hchildren.mapM_eq, hcreate⟩⟩

theorem BuildsAll.mapM_eq {above texts used used' : List String} {ts : List (Tree Spec)}
    {bs : List β} (h : BuildsAll r o above texts used ts bs used') :
    Lookup.outcome (texts.mapM (resolve r o above)) used = (.ok bs, used') := by
  cases h with
  | nil => rfl
  | cons hhead htail =>
    rw [List.mapM_cons]
    exact bind_eq_ok.2 ⟨_, _, hhead.resolve_eq, bind_eq_ok.2 ⟨_, _, htail.mapM_eq, rfl⟩⟩

end

theorem resolve_eq_ok_iff {b : β} :
    (resolve r o above text).outcome used = (.ok b, used') ↔
      ∃ t, Builds r o above text used t b used' := by
  constructor
  · exact builds_of_resolve
  · intro h
    obtain ⟨t, ht⟩ := h
    exact ht.resolve_eq

/-! ## Labels on the way down -/

mutual

theorem Builds.nodup_of_branch {above : List String} {text : String} {used used' : List String}
    {t : Tree Spec} {b : β} (h : Builds r o above text used t b used') {path : List Spec}
    (hpath : t.Branch path) :
    (path.map Spec.label).Nodup ∧ ∀ a ∈ path.map Spec.label, a ∉ above := by
  cases h with
  | node hread hnew hfind hfits hchildren hcreate =>
    cases hpath with
    | leaf => simpa using hnew
    | node ht hpath =>
      obtain ⟨hnodup, hbelow⟩ := hchildren.nodup_of_branch ht hpath
      simp only [List.mem_cons, not_or] at hbelow
      rw [List.map_cons, List.nodup_cons]
      refine ⟨⟨fun hmem => (hbelow _ hmem).1 rfl, hnodup⟩, ?_⟩
      intro a ha
      obtain rfl | ha := List.mem_cons.1 ha
      · exact hnew
      · exact (hbelow a ha).2

theorem BuildsAll.nodup_of_branch {above texts used used' : List String} {ts : List (Tree Spec)}
    {bs : List β} (h : BuildsAll r o above texts used ts bs used') {t : Tree Spec} (ht : t ∈ ts)
    {path : List Spec} (hpath : t.Branch path) :
    (path.map Spec.label).Nodup ∧ ∀ a ∈ path.map Spec.label, a ∉ above := by
  cases h with
  | nil => cases ht
  | cons hhead htail =>
    obtain rfl | ht := List.mem_cons.1 ht
    · exact hhead.nodup_of_branch hpath
    · exact htail.nodup_of_branch ht hpath

end

/-! ## The stack of labels -/

section Stack

/-- One round of a search that keeps the labels above on a stack. The label is put on it, `self`
builds the children, and the label is taken off. After an error nobody looks at the stack. -/
def onStack (r : Registry β) (o : Options) (self : String → StateT (List String) Lookup β)
    (text : String) : StateT (List String) Lookup β := do
  let spec ← Setup.ofExcept (Spec.read text) o
  if spec.label ∈ (← get) then
    throw (.cyclicDefinition spec.label)
  else
    match r.find? spec.name with
    | none => throw (.unknownAnalysis spec.name)
    | some factory =>
      modify (spec.label :: ·)
      let below ← (← children o spec.label factory).mapM fun child => self child.text
      modify List.tail
      create factory spec.label below o

variable {self : String → StateT (List String) Lookup β} {stack : List String}

theorem run_mapM {α γ : Type} {f : α → StateT (List String) Lookup γ} {g : α → Lookup γ}
    {l : List α} (h : ∀ a ∈ l, (f a).run stack = (·, stack) <$> g a) :
    (l.mapM f).run stack = (·, stack) <$> l.mapM g := by
  induction l with
  | nil => rfl
  | cons a l ih =>
    simp only [List.mapM_cons, StateT.run_bind, h a (by simp),
      ih fun b hb => h b (List.mem_cons_of_mem a hb), StateT.run_pure, bind_map_left, map_bind,
      map_pure]

theorem run_onStack (h : ∀ label text, label ∉ stack →
      (childKey label ∈ o.keys ∨ childrenKey label ∈ o.keys) →
      (self text).run (label :: stack) =
        (·, label :: stack) <$> resolve r o (label :: stack) text) :
    (onStack r o self text).run stack = (·, stack) <$> resolve r o stack text := by
  rw [onStack, resolve]
  cases hread : Spec.read text with
  | error e => rfl
  | ok s =>
    have hspec : Setup.ofExcept (.ok s) o = (pure s : Lookup Spec) := rfl
    have hthrow (e : ConfigError) : (throw e : StateT _ Lookup β).run stack = throw e := rfl
    by_cases hmem : s.label ∈ stack
    · simp [hspec, hmem, hthrow]
    · cases hfind : r.find? s.name with
      | none => simp [hspec, hmem, hfind, hthrow]
      | some f =>
        have hmap : ∀ cs : List (Child o s.label), (cs.mapM fun c => self c.text).run _ = _ :=
          fun cs => run_mapM fun c _ => h _ c.text hmem c.listed
        simp [hspec, hmem, hfind, hmap]

/-- A search satisfies these rounds if it resolves below the labels on the stack and leaves the
stack as it was, and only then. -/
theorem eq_onStack_iff : self = onStack r o self ↔
    ∀ text stack, (self text).run stack = (·, stack) <$> resolve r o stack text := by
  constructor
  · intro h text stack
    induction hk : (free o stack).length using Nat.strongRecOn generalizing text stack with
    | _ k ih =>
      rw [h]
      exact run_onStack fun label text hnew hlisted =>
        ih _ (hk ▸ free_lt hnew hlisted) text _ rfl
  · intro h
    funext text
    refine StateT.ext fun stack => ?_
    rw [h, run_onStack fun _ _ _ _ => h _ _]

end Stack

/-! ## Specs that are visited -/

/-- Resolution comes to a text when the keys `used` have been read. The specs above it, the nearest
first, have labels of their own, and the children before it were built. -/
inductive Visits (r : Registry β) (o : Options) (root : String) (start : List String) :
    List Spec → String → List String → Prop
  | root : Visits r o root start [] root start
  | child {above text next s f before after keys used mid ts bs}
      (hparent : Visits r o root start above text used) (hread : Spec.read text = .ok s)
      (hnew : s.label ∉ above.map Spec.label) (hfind : r.find? s.name = some f)
      (hfits : Fits o s.label f (before ++ next :: after) keys)
      (hbefore : BuildsAll r o (s.label :: above.map Spec.label) before (keys ++ used) ts bs mid) :
      Visits r o root start (s :: above) next mid

variable {root : String} {start : List String} {specs : List Spec}

theorem Fits.listed {keys : List String} (h : Fits o label f texts keys) (hne : texts ≠ []) :
    childKey label ∈ o.keys ∨ childrenKey label ∈ o.keys := by
  cases h with
  | leaf => exact absurd rfl hne
  | wrapper create hchild => exact .inl (Index.mem_keys_of_get? hchild)
  | composite create hchild hchildren => exact .inr (Index.mem_keys_of_get? hchildren)

/-- Every spec with a child has an option of its own. -/
theorem Visits.length_add_free_le (h : Visits r o root start specs text used) :
    specs.length + (free o (specs.map Spec.label)).length ≤ o.size := by
  induction h with
  | root =>
    have hall : (free o []).length ≤ o.keys.length := List.length_filter_le _ _
    rw [Index.keys, List.length_map] at hall
    simpa [Index.size] using hall
  | @child above _ _ s _ _ _ _ _ _ _ _ _ hread hnew hfind hfits _ ih =>
    have hlt := free_lt hnew (hfits.listed (by simp))
    rw [List.map_cons, List.length_cons]
    omega

/-- The factory never reports a cycle itself. -/
def Acyclic (f : Factory β) : Prop :=
  ∀ label bs o used used' a,
    (create f label bs o).outcome used ≠ (.error (.cyclicDefinition a), used')

/-- A spec that is visited has the label of a spec above it. -/
def Repeats (r : Registry β) (o : Options) (root : String) (start : List String) (a : String) :
    Prop :=
  ∃ specs text used s, Visits r o root start specs text used ∧ Spec.read text = .ok s ∧
    s.label = a ∧ a ∈ specs.map Spec.label

theorem Visits.repeats_of_cyclic (hr : ∀ name f, r.find? name = some f → Acyclic f) {a : String}
    (hvisits : Visits r o root start specs text used)
    (h : (resolve r o (specs.map Spec.label) text).outcome used =
      (.error (.cyclicDefinition a), used')) : Repeats r o root start a := by
  induction hn : (free o (specs.map Spec.label)).length using Nat.strongRecOn
    generalizing specs text used used' with
  | _ n ih =>
    subst hn
    obtain ⟨e, he, hcyclic⟩ | ⟨s, f, hread, hmem, hfind⟩ :=
      resolve_cases r o (specs.map Spec.label) text
    · rw [he, outcome_throw] at h
      cases h
      obtain ⟨s, hread, hs⟩ := hcyclic a rfl
      exact ⟨specs, text, used, s, hvisits, hread, hs⟩
    rw [resolve_of_find hread hmem hfind] at h
    obtain h | ⟨cs, _, hcs, h⟩ := bind_eq_error.1 h
    · exact absurd rfl (children_triple.error trivial h)
    obtain ⟨keys, hfits, rfl⟩ := fits_of_children hcs
    obtain h | ⟨bs, mid, -, h⟩ := bind_eq_error.1 h
    · obtain ⟨before, next, after, bs, mid, htexts, hbefore, hnext⟩ := mapM_eq_error_iff.1 h
      rw [htexts] at hfits
      obtain ⟨ts, hts⟩ := buildsAll_of_mapM (fun _ _ _ _ hx => builds_of_resolve hx) hbefore
      have hlt := free_lt hmem (hfits.listed (by simp))
      exact ih _ hlt (.child hvisits hread hmem hfind hfits hts) hnext rfl
    · exact absurd h (hr _ f hfind _ _ _ _ _ _)

/-- Where a spec that is visited fails, so does the whole. -/
theorem Visits.fails (hvisits : Visits r o root start specs text used)
    (h : (resolve r o (specs.map Spec.label) text).outcome used = (.error e, used')) :
    (resolve r o [] root).outcome start = (.error e, used') := by
  induction hvisits with
  | root => exact h
  | child hparent hread hnew hfind hfits hbefore ih =>
    refine ih ?_
    rw [resolve_of_find hread hnew hfind]
    obtain ⟨cs, hcs, hrun⟩ := children_of_fits hfits _
    refine bind_eq_error.2 (.inr ⟨cs, _, hrun, bind_eq_error.2 (.inl ?_)⟩)
    rw [hcs]
    exact mapM_eq_error_iff.2 ⟨_, _, _, _, _, rfl, hbefore.mapM_eq, h⟩

/-! ## Building -/

theorem perform_eq (x : Setup β) (c : Configuration) :
    x.perform c = (((x c.options).outcome c.used).1,
      { c with used := ((x c.options).outcome c.used).2 }) := rfl

theorem build_of_none (hroot : o.get? "cpa" = none) :
    (r.build o).outcome used = (.error (.missingOption "cpa"), "cpa" :: used) :=
  bind_eq_error.2 (.inl (bind_eq_error.2 (.inl (require_of_none hroot))))

theorem build_of_some (hroot : o.get? "cpa" = some root) :
    (r.build o).outcome used = (resolve r o [] root).outcome ("cpa" :: used) := by
  have hrequire : (Setup.require "cpa" o).outcome used = (.ok root, "cpa" :: used) :=
    bind_eq_ok.2 ⟨_, _, require_of_get? hroot, rfl⟩
  show outcome (Setup.require "cpa" o >>= resolve r o []) used = _
  rw [outcome_bind, hrequire]

/-- The root is named by an option that no label owns. -/
theorem Visits.length_lt (hroot : o.get? "cpa" = some root)
    (h : Visits r o root start specs text used) : specs.length < o.size := by
  have hle := h.length_add_free_le
  have hmem : "cpa" ∈ free o (specs.map Spec.label) := by
    unfold free
    rw [List.mem_filter]
    refine ⟨Index.mem_keys_of_get? hroot, ?_⟩
    simp only [Bool.not_eq_true', List.any_eq_false, Bool.or_eq_true, decide_eq_true_eq, not_or]
    intro a _
    have hshort : ∀ key : String, "cpa" = key → key.length = 3 := by
      intro key hkey
      rw [← hkey]
      rfl
    constructor
    · intro heq
      have hlength := hshort _ heq
      rw [childKey, String.length_append] at hlength
      have hkey : ".cpa".length = 4 := rfl
      omega
    · intro heq
      have hlength := hshort _ heq
      rw [childrenKey, String.length_append] at hlength
      have hkey : ".cpas".length = 5 := rfl
      omega
  have hpos := List.length_pos_of_mem hmem
  omega

/-- Building stays within a depth that the number of options bounds. It ends well exactly if the
option `cpa` names a tree in which the children of every spec stand in the options of its label and
no label occurs below itself, and with what the factories make of that tree. It reports a cycle
exactly if a spec that it comes to has the label of a spec above. -/
theorem build_faithful (r : Registry β) (hr : ∀ name f, r.find? name = some f → Acyclic f)
    (c : Configuration) :
    (∀ root specs text used, c.options.get? "cpa" = some root →
      Visits r c.options root ("cpa" :: c.used) specs text used → specs.length < c.size) ∧
    (∀ b c', r.build.perform c = (.ok b, c') ↔
      ∃ root t, c.options.get? "cpa" = some root ∧ c'.options = c.options ∧
        Builds r c.options [] root ("cpa" :: c.used) t b c'.used ∧
        ∀ path, t.Branch path → (path.map Spec.label).Nodup) ∧
    ∀ a, (r.build.perform c).1 = .error (.cyclicDefinition a) ↔
      ∃ root, c.options.get? "cpa" = some root ∧
        Repeats r c.options root ("cpa" :: c.used) a := by
  refine ⟨fun root specs text used hroot h => h.length_lt hroot, ?_, ?_⟩
  · intro b c'
    rw [perform_eq]
    constructor
    · intro h
      obtain ⟨hok, rfl⟩ := Prod.mk.inj h
      cases hroot : c.options.get? "cpa" with
      | none =>
        rw [build_of_none hroot] at hok
        cases hok
      | some root =>
        rw [build_of_some hroot] at hok ⊢
        obtain ⟨t, ht⟩ := resolve_eq_ok_iff.1 (Prod.ext hok rfl)
        exact ⟨root, t, rfl, rfl, ht, fun path hpath => (ht.nodup_of_branch hpath).1⟩
    · intro h
      obtain ⟨root, t, hroot, hoptions, ht, -⟩ := h
      rw [build_of_some hroot, resolve_eq_ok_iff.2 ⟨t, ht⟩, ← hoptions]
  · intro a
    rw [perform_eq]
    constructor
    · intro h
      cases hroot : c.options.get? "cpa" with
      | none =>
        rw [build_of_none hroot] at h
        cases h
      | some root =>
        rw [build_of_some hroot] at h
        exact ⟨root, rfl, Visits.repeats_of_cyclic hr .root (Prod.ext h rfl)⟩
    · intro h
      obtain ⟨root, hroot, specs, text, used, s, hvisits, hread, rfl, hmem⟩ := h
      rw [build_of_some hroot, hvisits.fails (by rw [resolve_of_mem hread hmem, outcome_throw])]

/-- Builds trees of labels. -/
def labelling : Registry (Tree String) :=
  ⟨[("leaf", .leaf fun label => pure (.node label [])),
    ("wrap", .wrapper fun label child => pure (.node label [child])),
    ("both", .composite fun label children => pure (.node label children))]⟩

theorem labelling_acyclic (name : String) (f : Factory (Tree String))
    (hfind : labelling.find? name = some f) : Acyclic f := by
  have hmem : f ∈ labelling.factories.map Prod.snd := by
    obtain ⟨p, hp, rfl⟩ := Option.map_eq_some_iff.1 hfind
    exact List.mem_map_of_mem (List.mem_of_find?_eq_some hp)
  intro label bs o used used' a h
  simp only [labelling, List.map_cons, List.map_nil, List.mem_cons, List.not_mem_nil, or_false]
    at hmem
  obtain rfl | rfl | rfl := hmem
  · cases h
  · obtain _ | ⟨b, _ | ⟨b', bs⟩⟩ := bs <;> cases h
  · cases h

/-- The label `l` occurs twice, but not below itself. -/
def sharing : Configuration :=
  ⟨⟨[("cpa", "wrap as w"), ("w.cpa", "both"), ("both.cpas", "leaf as l, wrap as v"),
    ("v.cpa", "leaf as l")]⟩, []⟩

/-- The spec of `v` leads back to `both`. -/
def looping : Configuration := sharing.set "v.cpa" "both"

theorem readList_ne_nil : Setup.readList "leaf as l, wrap as v" ≠ [] := by
  have hlist : Setup.readList "leaf as l, wrap as v" = ["leaf as l", "wrap as v"] := rfl
  rw [hlist]
  exact List.cons_ne_nil _ _

theorem builds_leaf (above used : List String) (hnew : "l" ∉ above) :
    Builds labelling sharing.options above "leaf as l" used (.node ⟨"leaf", "l"⟩ []) (.node "l" [])
      used :=
  have hread : Spec.read "leaf as l" = .ok ⟨"leaf", "l"⟩ := rfl
  .node hread hnew rfl (.leaf _ rfl rfl) .nil rfl

theorem builds_sharing :
    Builds labelling sharing.options [] "wrap as w" ["cpa"]
      (.node ⟨"wrap", "w"⟩ [.node ⟨"both", "both"⟩
        [.node ⟨"leaf", "l"⟩ [], .node ⟨"wrap", "v"⟩ [.node ⟨"leaf", "l"⟩ []]]])
      (.node "w" [.node "both" [.node "l" [], .node "v" [.node "l" []]]])
      ["v.cpa", "both.cpas", "w.cpa", "cpa"] := by
  have hw : Spec.read "wrap as w" = .ok ⟨"wrap", "w"⟩ := rfl
  have hv : Spec.read "wrap as v" = .ok ⟨"wrap", "v"⟩ := rfl
  have hboth : Spec.read "both" = .ok ⟨"both", "both"⟩ := rfl
  refine .node hw List.not_mem_nil rfl (.wrapper _ rfl rfl) (.cons ?_ .nil) rfl
  refine .node hboth (by decide) rfl (.composite _ rfl rfl readList_ne_nil) ?_ rfl
  refine .cons (builds_leaf _ _ (by decide)) (.cons ?_ .nil)
  exact .node hv (by decide) rfl (.wrapper _ rfl rfl) (.cons (builds_leaf _ _ (by decide)) .nil) rfl

theorem repeats_looping : Repeats labelling looping.options "wrap as w" ["cpa"] "both" := by
  have hw : Spec.read "wrap as w" = .ok ⟨"wrap", "w"⟩ := rfl
  have hv : Spec.read "wrap as v" = .ok ⟨"wrap", "v"⟩ := rfl
  have hboth : Spec.read "both" = .ok ⟨"both", "both"⟩ := rfl
  have hl : Spec.read "leaf as l" = .ok ⟨"leaf", "l"⟩ := rfl
  have fw : Fits looping.options "w"
      (.wrapper fun label child => pure (.node label [child]) : Factory (Tree String))
      ([] ++ "both" :: []) ["w.cpa"] := .wrapper _ rfl rfl
  have fboth : Fits looping.options "both"
      (.composite fun label children => pure (.node label children) : Factory (Tree String))
      (["leaf as l"] ++ "wrap as v" :: []) ["both.cpas"] := .composite _ rfl rfl readList_ne_nil
  have fv : Fits looping.options "v"
      (.wrapper fun label child => pure (.node label [child]) : Factory (Tree String))
      ([] ++ "both" :: []) ["v.cpa"] := .wrapper _ rfl rfl
  -- from the root to `both`, then past the leaf to `v`, and to `both` again
  have atBoth : Visits labelling looping.options "wrap as w" ["cpa"] [⟨"wrap", "w"⟩] "both"
      ["w.cpa", "cpa"] := .child .root hw List.not_mem_nil rfl fw .nil
  have atV := Visits.child atBoth hboth (by decide) rfl fboth
    (.cons (.node hl (by decide) rfl (.leaf _ rfl rfl) .nil rfl) .nil)
  have atEnd := Visits.child atV hv (by decide) rfl fv .nil
  exact ⟨_, _, _, _, atEnd, hboth, rfl, by decide⟩

theorem build_faithful_labelling :
    (labelling.build.perform sharing).1 =
      .ok (.node "w" [.node "both" [.node "l" [], .node "v" [.node "l" []]]]) ∧
    (labelling.build.perform looping).1 = .error (.cyclicDefinition "both") := by
  have hsharing := build_faithful labelling labelling_acyclic sharing
  have hlooping := build_faithful labelling labelling_acyclic looping
  constructor
  · have hbuild := (hsharing.2.1 _ ⟨sharing.options, ["v.cpa", "both.cpas", "w.cpa", "cpa"]⟩).2
      ⟨"wrap as w", _, rfl, rfl, builds_sharing, fun path hpath =>
        (builds_sharing.nodup_of_branch hpath).1⟩
    rw [hbuild]
  · exact (hlooping.2.2 "both").2 ⟨"wrap as w", rfl, repeats_looping⟩

end Registry

end ProgramAnalysis
