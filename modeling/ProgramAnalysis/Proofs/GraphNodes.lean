import ProgramAnalysis.Proofs.Triple
import ProgramAnalysis.ReachGraph.Change
/-!
What a change of the reachability graph does to each node.

`g.At i P` says that node `i` exists and has `P`. For each change there is one lemma that expresses
`At` after the change by `At` before it; a change that goes through a list of nodes is described by
what it does to a node of the list, so the order of the list and repetitions do not matter.
-/

namespace ProgramAnalysis.ReachGraph

variable {ν : Type} {P Q : GraphNode ν → Prop} {g : ReachGraph ν}
  {j i merged reached successor : GraphNodeId} {old : GraphNode ν} {f : GraphNode ν → GraphNode ν}
  {location : Option NodeId} {s : State ν} {ids : List GraphNodeId} {parents : List ParentLink}

/-! ## One node -/

/-- The node exists and has the property. -/
def At (g : ReachGraph ν) (i : GraphNodeId) (P : GraphNode ν → Prop) : Prop :=
  ∃ n, g.node? i = some n ∧ P n

theorem at_congr (h : ∀ n, g.node? i = some n → (P n ↔ Q n)) : g.At i P ↔ g.At i Q :=
  exists_congr fun n => and_congr_right fun hn => h n hn

theorem At.mono (h : g.At i P) (hPQ : ∀ n, P n → Q n) : g.At i Q := by
  obtain ⟨n, hn, hP⟩ := h
  exact ⟨n, hn, hPQ n hP⟩

theorem at_iff {n : GraphNode ν} (h : g.node? i = some n) : g.At i P ↔ P n := by
  constructor
  · rintro ⟨m, hm, hP⟩
    rw [h] at hm
    cases hm
    exact hP
  · exact fun hP => ⟨n, h, hP⟩

theorem at_and {c : Prop} : g.At i (fun n => P n ∧ c) ↔ g.At i P ∧ c := by
  constructor
  · rintro ⟨n, hn, hP, hc⟩
    exact ⟨⟨n, hn, hP⟩, hc⟩
  · rintro ⟨⟨n, hn, hP⟩, hc⟩
    exact ⟨n, hn, hP, hc⟩

theorem at_of_node? {g' : ReachGraph ν} (h : g'.node? j = (g.node? j).map f) :
    g'.At j P ↔ g.At j fun n => P (f n) := by
  constructor
  · rintro ⟨m, hm, hP⟩
    rw [h] at hm
    obtain ⟨n, hn, rfl⟩ := Option.map_eq_some_iff.1 hm
    exact ⟨n, hn, hP⟩
  · rintro ⟨n, hn, hP⟩
    exact ⟨f n, by rw [h, hn]; rfl, hP⟩

theorem node?_update (g : ReachGraph ν) (id j : GraphNodeId) (f : GraphNode ν → GraphNode ν) :
    (g.update id f).node? j = (g.node? j).map fun n => if j = id then f n else n := by
  have hj : j = id ↔ id.index = j.index := by
    obtain ⟨i⟩ := id
    obtain ⟨k⟩ := j
    simp [eq_comm]
  simp only [node?, update, Array.getElem?_modify, hj]
  split
  · rfl
  · simp

theorem at_update {id : GraphNodeId} :
    (g.update id f).At j P ↔ g.At j fun n => P (if j = id then f n else n) :=
  at_of_node? (node?_update g id j f)

/-- A new state of one node changes nothing but that. -/
theorem at_setState {b : GraphNodeId} {t : State ν} (hP : ∀ n s, P { n with state := s } ↔ P n) :
    (g.setState b t).At i P ↔ g.At i P := by
  rw [setState, at_update]
  refine at_congr fun n _ => ?_
  split
  · exact hP n _
  · exact Iff.rfl

theorem at_setState_of_ne {b : GraphNodeId} {t : State ν} (h : i ≠ b) :
    (g.setState b t).At i P ↔ g.At i P := by
  rw [setState, at_update]
  simp [h]

theorem at_updateAll (hf : ∀ n, f (f n) = f n) :
    (g.updateAll ids f).At j P ↔ g.At j fun n => P (if j ∈ ids then f n else n) := by
  induction ids generalizing g with
  | nil => simp [updateAll]
  | cons id ids ih =>
    show ((g.update id f).updateAll ids f).At j P ↔ _
    rw [ih, at_update]
    refine at_congr fun n _ => ?_
    by_cases hj : j = id <;> by_cases hm : j ∈ ids <;> simp_all

theorem at_create :
    (g.create location parents).2.At j P ↔
      g.At j P ∨
        j = ⟨g.nodes.size⟩ ∧ P ⟨.pending, none, location, parents, [], none, [], none⟩ := by
  obtain ⟨k⟩ := j
  unfold At node? create
  simp only [Array.getElem?_push, GraphNodeId.mk.injEq]
  by_cases hk : k = g.nodes.size
  · subst hk
    simp
  · simp [hk]

theorem node?_create_of_ne (h : j ≠ ⟨g.nodes.size⟩) :
    (g.create location parents).2.node? j = g.node? j := by
  obtain ⟨k⟩ := j
  have hk : k ≠ g.nodes.size := fun hk => h (by rw [hk])
  simp [node?, create, Array.getElem?_push, hk]

theorem not_at_size : ¬ g.At ⟨g.nodes.size⟩ P := by
  rintro ⟨n, hn, -⟩
  simp [node?] at hn

theorem not_at_empty : ¬ (empty : ReachGraph ν).At i P := by
  rintro ⟨n, hn, -⟩
  simp [node?, empty] at hn

theorem isLive_iff : g.isLive i = true ↔ g.At i fun n => n.status = .live := by
  unfold isLive At
  rw [Option.any_eq_true]
  simp [GraphNode.isLive]

/-! ## Acceptance -/

theorem mem_withMember : j ∈ withMember ids i ↔ j ∈ ids ∨ j = i := by
  unfold withMember
  split
  · next h =>
    have h : i ∈ ids := by simpa using h
    constructor
    · exact .inl
    · rintro (hj | rfl)
      · exact hj
      · exact h
  · simp

theorem withMember_withMember (ids : List GraphNodeId) (i : GraphNodeId) :
    withMember (withMember ids i) i = withMember ids i := by
  have h : i ∈ withMember ids i := mem_withMember.2 (.inr rfl)
  rw [withMember, if_pos (by simpa using h)]

/-- A node that is live is linked to the new child. -/
def linked (id : GraphNodeId) (n : GraphNode ν) : GraphNode ν :=
  { n with children := if n.status = .live then withMember n.children id else n.children }

theorem at_linkTo {id p : GraphNodeId} :
    (g.linkTo id p).At j P ↔ g.At j fun n => P (if j = p then linked id n else n) := by
  unfold linkTo
  split
  · next h =>
    rw [at_update]
    refine at_congr fun n hn => ?_
    by_cases hj : j = p
    · subst hj
      have hlive : n.status = .live := (at_iff hn).1 (isLive_iff.1 h)
      simp [linked, hlive]
    · simp [hj]
  · next h =>
    refine at_congr fun n hn => ?_
    by_cases hj : j = p
    · subst hj
      have hdead : ¬ n.status = .live := fun hl => h (isLive_iff.2 ((at_iff hn).2 hl))
      simp [linked, hdead]
    · simp [hj]

theorem linked_linked (id : GraphNodeId) (n : GraphNode ν) :
    linked id (linked id n) = linked id n := by
  by_cases h : n.status = .live
  · simp [linked, h, withMember_withMember]
  · simp [linked, h]

theorem at_foldl_linkTo {id : GraphNodeId} {ps : List GraphNodeId} :
    (ps.foldl (fun g p => g.linkTo id p) g).At j P ↔
      g.At j fun n => P (if j ∈ ps then linked id n else n) := by
  induction ps generalizing g with
  | nil => simp
  | cons p ps ih =>
    rw [List.foldl_cons, ih, at_linkTo]
    refine at_congr fun n _ => ?_
    by_cases hj : j = p <;> by_cases hm : j ∈ ps <;> simp_all [linked_linked]

theorem at_linkToParents {id : GraphNodeId} (h : g.node? id = some old) :
    (g.linkToParents id).At j P ↔
      g.At j fun n => P (if j ∈ old.parentIds then linked id n else n) := by
  unfold linkToParents
  rw [h]
  exact at_foldl_linkTo

/-- A node after `id`, whose links were those of `old`, has been accepted with the state `s`. -/
def accepted (id : GraphNodeId) (s : State ν) (old : GraphNode ν) (j : GraphNodeId)
    (n : GraphNode ν) : GraphNode ν :=
  { n with
    status := if j = id then .live else n.status
    state := if j = id then some s else n.state
    children :=
      if j ∈ old.parentIds ∧ (j = id ∨ n.status = .live) then withMember n.children id
      else n.children }

theorem at_accept {id : GraphNodeId} (h : g.node? id = some old) :
    (g.accept id s).At j P ↔ g.At j fun n => P (accepted id s old j n) := by
  have hnew : (g.update id fun n => { n with status := .live, state := some s }).node? id =
      some { old with status := .live, state := some s } := by
    rw [node?_update, h]
    simp
  unfold accept
  rw [at_linkToParents hnew, at_update]
  refine at_congr fun n _ => ?_
  have hp : ({ old with status := .live, state := some s } : GraphNode ν).parentIds =
      old.parentIds := rfl
  rw [hp]
  rcases Decidable.em (j = id) with rfl | hj <;> by_cases hm : j ∈ old.parentIds <;>
    simp [accepted, linked, *]

theorem at_cover {id coverer : GraphNodeId} (h : g.node? id = some old) :
    (g.cover id coverer s).At j P ↔ g.At j fun n => P { accepted id s old j n with
      coveredBy := if j = id then some coverer else n.coveredBy
      covering := if j = coverer then n.covering ++ [id] else n.covering } := by
  unfold cover
  rw [at_update, at_update, at_accept h]
  refine at_congr fun n _ => ?_
  rcases Decidable.em (j = id) with rfl | hj <;> rcases Decidable.em (j = coverer) with rfl | hc <;>
    simp [accepted, *]

/-- A new root is a node without parents that is accepted at once. -/
theorem at_root :
    ((g.addRoot location).2.setState ⟨g.nodes.size⟩ s).At j P ↔
      ((g.create location []).2.accept ⟨g.nodes.size⟩ s).At j P := by
  have hold : (g.create location []).2.node? ⟨g.nodes.size⟩ =
      some ⟨.pending, none, location, [], [], none, [], none⟩ := by
    simp [node?, create]
  have hroot : ((g.addRoot location).2.setState ⟨g.nodes.size⟩ s).At j P ↔
      (((g.create location []).2.update ⟨g.nodes.size⟩ fun n => { n with status := .live }).update
        ⟨g.nodes.size⟩ fun n => { n with state := some s }).At j P := Iff.rfl
  rw [hroot, at_update, at_update, at_accept hold]
  refine at_congr fun n _ => ?_
  by_cases hj : j = ⟨g.nodes.size⟩
  · simp [hj, accepted, GraphNode.parentIds]
  · simp [hj, accepted, GraphNode.parentIds]

/-! ## Removal -/

/-- A node without links that is no more. -/
def dead (n : GraphNode ν) : GraphNode ν :=
  { n with
    status := .destroyed, state := none, parents := [], children := [], coveredBy := none,
    covering := [] }

/-- A node without its links to `id`, whose links were those of `old`. -/
def severed (id j : GraphNodeId) (old n : GraphNode ν) : GraphNode ν :=
  { n with
    children := if j ∈ old.parentIds then n.children.filter (· ≠ id) else n.children
    parents := if j ∈ old.children then n.parents.filter (fun l => l.1 ≠ id) else n.parents
    covering := if old.coveredBy = some j then n.covering.filter (· ≠ id) else n.covering
    coveredBy := if j ∈ old.covering then none else n.coveredBy }

/-- The graph without a node, whose links were those of `old`. -/
def cut (g : ReachGraph ν) (id : GraphNodeId) (old : GraphNode ν) : ReachGraph ν :=
  ((old.parentIds.filter (· ≠ id)).foldl (fun g p => g.disown id p) (g.destroy id)).release id old

theorem at_cut {id : GraphNodeId} :
    (g.cut id old).At j P ↔ g.At j fun n => P (if j = id then dead n else severed id j old n) := by
  have hdisown : (old.parentIds.filter (· ≠ id)).foldl (fun g p => g.disown id p) (g.destroy id) =
      (g.destroy id).updateAll (old.parentIds.filter (· ≠ id)) fun n =>
        { n with children := n.children.filter (· ≠ id) } := rfl
  unfold cut release
  rw [hdisown]
  dsimp only
  rw [at_updateAll, at_updateAll, at_updateAll, at_updateAll, destroy, at_update]
  · refine at_congr fun n _ => ?_
    by_cases hj : j = id
    · subst hj
      simp [dead]
    · have hne : ∀ x, x = some j ↔ some j = x := fun x => eq_comm
      by_cases h1 : j ∈ old.parentIds <;> by_cases h2 : j ∈ old.children <;>
        by_cases h3 : j ∈ old.coveredBy.toList <;> by_cases h4 : j ∈ old.covering <;>
        simp_all [severed]
  all_goals
    intro n
    simp

/-! ## Succession -/

/-- What a node is called once `reached` has become `merged`. -/
def renamed (reached merged i : GraphNodeId) : GraphNodeId := if i = reached then merged else i

theorem redirect_redirect (h : merged ≠ reached) (links : List ParentLink) :
    redirect reached merged (redirect reached merged links) = redirect reached merged links := by
  unfold redirect
  rw [List.map_map]
  refine List.map_congr_left fun l _ => ?_
  by_cases hl : l.1 = reached <;> simp [hl, h]

/-- A node whose child may be `child`, and which may be that child, after `reached` has become
`merged`. -/
def adopting (reached merged j : GraphNodeId) (children : List GraphNodeId) (n : GraphNode ν) :
    GraphNode ν :=
  { n with
    parents :=
      if j ∈ children.map (renamed reached merged) then redirect reached merged n.parents
      else n.parents
    children :=
      if j = merged then (children.map (renamed reached merged)).foldl withMember n.children
      else n.children }

theorem at_foldl_adopt (h : merged ≠ reached) {cs : List GraphNodeId} :
    (cs.foldl (fun g c => g.adopt reached merged c) g).At j P ↔
      g.At j fun n => P (adopting reached merged j cs n) := by
  induction cs generalizing g with
  | nil =>
    refine at_congr fun n _ => ?_
    simp [adopting]
  | cons c cs ih =>
    rw [List.foldl_cons, ih, adopt, at_update, at_update]
    refine at_congr fun n _ => ?_
    have hc : (if c = reached then merged else c) = renamed reached merged c := rfl
    simp only [adopting, List.map_cons, List.mem_cons, List.foldl_cons, hc]
    generalize renamed reached merged c = k
    generalize cs.map (renamed reached merged) = ks
    clear ih hc
    rcases Decidable.em (j = merged) with rfl | hjm <;>
      rcases Decidable.em (j = k) with rfl | hj <;>
      by_cases hm : j ∈ ks <;> simp [*, redirect_redirect h]

theorem at_foldl_takeCover {xs : List GraphNodeId} :
    (xs.foldl (fun g x => g.takeCover merged x) g).At j P ↔
      g.At j fun n => P { n with
        coveredBy := if j ∈ xs then some merged else n.coveredBy
        covering := if j = merged then n.covering ++ xs else n.covering } := by
  induction xs generalizing g with
  | nil =>
    refine at_congr fun n _ => ?_
    simp
  | cons x xs ih =>
    rw [List.foldl_cons, ih, takeCover, at_update, at_update]
    refine at_congr fun n _ => ?_
    by_cases hj : j = x <;> by_cases hm : j ∈ xs <;> by_cases hjm : j = merged <;> simp_all

/-- A node after `merged` has succeeded `reached`, whose links were those of `old`. -/
def succeeded (reached merged : GraphNodeId) (parents : List ParentLink) (old : GraphNode ν)
    (j : GraphNodeId) (n : GraphNode ν) : GraphNode ν :=
  { n with
    status := if j = merged then .live else n.status
    parents :=
      if j = merged then parents
      else if j ∈ old.children ∧ j ≠ reached then redirect reached merged n.parents
      else n.parents
    children :=
      if j = merged then (old.children.map (renamed reached merged)).foldl withMember n.children
      else if j = reached then [] else n.children
    coveredBy := if j ∈ old.covering then some merged else n.coveredBy
    covering :=
      if j = merged then n.covering ++ old.covering
      else if j = reached then [] else n.covering }

theorem at_succeed {links : List ParentLink} (h : merged ≠ reached) (hnew : merged ∉ old.children) :
    (g.succeed reached merged (redirect reached merged links) old).At j P ↔
      g.At j fun n => P (succeeded reached merged (redirect reached merged links) old j n) := by
  have hmem : ∀ i, i ≠ merged → (i ∈ old.children.map (renamed reached merged) ↔
      i ∈ old.children ∧ i ≠ reached) := by
    intro i hi
    simp only [List.mem_map, renamed]
    constructor
    · rintro ⟨c, hc, rfl⟩
      split at hi
      · exact absurd rfl hi
      · next hne =>
        rw [if_neg hne]
        exact ⟨hc, hne⟩
    · rintro ⟨hi, hne⟩
      exact ⟨i, hi, if_neg hne⟩
  unfold succeed
  dsimp only
  rw [at_foldl_takeCover, at_update, at_foldl_adopt h, at_update, at_update]
  refine at_congr fun n _ => ?_
  by_cases hjm : j = merged
  · subst hjm
    simp [succeeded, adopting, h, redirect_redirect h]
  · by_cases hjr : j = reached
    · subst hjr
      have := hmem j hjm
      simp_all [succeeded, adopting]
    · have := hmem j hjm
      simp_all [succeeded, adopting]

/-! ## Fusion -/

/-- The links that the fusion of two nodes has to its parents. -/
def fusedLinks (reached merged : GraphNodeId) (s r : GraphNode ν) : List ParentLink :=
  redirect reached merged (unite r.parents s.parents)

/-- The graph after `successor` and `reached`, which were `s` and `r`, have become `merged`. -/
def fuse (g : ReachGraph ν) (successor reached merged : GraphNodeId) (s r : GraphNode ν) :
    ReachGraph ν :=
  let links := fusedLinks reached merged s r
  let old := succeeded reached merged links r reached r
  ((g.succeed reached merged links r).cut reached old).noteMerge successor reached merged

/-- The children of a node, the new one apart, after a fusion. -/
def keptChildren (reached merged : GraphNodeId) (r : GraphNode ν) (j : GraphNodeId)
    (n : GraphNode ν) : List GraphNodeId :=
  if j = reached then []
  else if j = merged then (r.children.map (renamed reached merged)).foldl withMember n.children
  else if j ∈ r.parentIds then n.children.filter (· ≠ reached)
  else n.children

/-- A node after a fusion. -/
def fused (successor reached merged : GraphNodeId) (s r : GraphNode ν) (j : GraphNodeId)
    (n : GraphNode ν) : GraphNode ν where
  status := if j = reached then .destroyed else if j = merged then .live else n.status
  state := if j = reached then none else n.state
  location := n.location
  parents :=
    if j = reached then []
    else if j = merged then fusedLinks reached merged s r
    else if j ∈ r.children then redirect reached merged n.parents
    else n.parents
  children :=
    if j ∈ (fusedLinks reached merged s r).map Prod.fst ∧ j ≠ reached ∧
      (j = merged ∨ n.status = .live)
    then withMember (keptChildren reached merged r j n) merged
    else keptChildren reached merged r j n
  coveredBy :=
    if j = reached then none else if j ∈ r.covering then some merged else n.coveredBy
  covering :=
    if j = reached then [] else if j = merged then n.covering ++ r.covering else n.covering
  mergedWith := if j = reached ∨ j = successor then some merged else n.mergedWith

theorem at_noteMerged {id : GraphNodeId} :
    (g.update id fun n => { n with mergedWith := some merged }).At j P ↔ g.At j fun n =>
      P { n with mergedWith := if j = id then some merged else n.mergedWith } := by
  rw [at_update]
  refine at_congr fun n _ => ?_
  by_cases hj : j = id <;> simp [hj]

/-- The node that covers `reached`, which was `r`, once `merged` has taken over what it covers. -/
def outerCoverer (reached merged : GraphNodeId) (r : GraphNode ν) : Option GraphNodeId :=
  if reached ∈ r.covering then some merged else r.coveredBy

/-- Besides what `fused` says, the node that covers `reached` no longer lists it. -/
theorem at_fuse_of_covered {s r m : GraphNode ν} (h : merged ≠ reached)
    (hm : g.node? merged = some m) (hchild : merged ∉ r.children) (hparent : merged ∉ r.parentIds) :
    (g.fuse successor reached merged s r).At j P ↔ g.At j fun n =>
      P { fused successor reached merged s r j n with
        covering :=
          if outerCoverer reached merged r = some j then
            (fused successor reached merged s r j n).covering.filter (· ≠ reached)
          else (fused successor reached merged s r j n).covering } := by
  have hrm : reached ≠ merged := fun h' => h h'.symm
  have hold : (succeeded reached merged (fusedLinks reached merged s r) r reached r).parentIds =
      r.parentIds := by
    simp [succeeded, GraphNode.parentIds, hrm]
  have hcoverer : (succeeded reached merged (fusedLinks reached merged s r) r reached r).coveredBy =
      outerCoverer reached merged r := rfl
  unfold fuse noteMerge
  dsimp only
  generalize hg : ((((g.succeed reached merged (fusedLinks reached merged s r) r).cut reached
    (succeeded reached merged (fusedLinks reached merged s r) r reached r)).update reached
      fun n => { n with mergedWith := some merged }).update successor
      fun n => { n with mergedWith := some merged }) = g'
  have hat : ∀ {k : GraphNodeId} {Q : GraphNode ν → Prop}, g'.At k Q ↔ g.At k fun n =>
      Q { fused successor reached merged s r k n with
        children := keptChildren reached merged r k n
        covering :=
          if outerCoverer reached merged r = some k then
            (fused successor reached merged s r k n).covering.filter (· ≠ reached)
          else (fused successor reached merged s r k n).covering } := by
    intro k Q
    rw [← hg, at_noteMerged, at_noteMerged, at_cut, fusedLinks, at_succeed h hchild, ← fusedLinks]
    refine at_congr fun n _ => ?_
    simp only [severed, hold, hcoverer]
    rcases Decidable.em (k = reached) with rfl | hr
    · simp [fused, keptChildren, dead, succeeded, hrm]
    · rcases Decidable.em (k = merged) with rfl | hkm
      · simp [fused, keptChildren, succeeded, h, hrm, hparent]
      · by_cases hp : k ∈ r.parentIds <;> by_cases hc : k ∈ r.children <;>
          by_cases hx : k ∈ r.covering <;>
          simp [fused, keptChildren, succeeded, hr, hkm, hp, hc, hx, hrm]
  obtain ⟨m', hm', hlinks⟩ : g'.At merged fun n => n.parents = fusedLinks reached merged s r :=
    hat.2 ⟨m, hm, by simp [fused, h]⟩
  have hids : m'.parentIds = (fusedLinks reached merged s r).map Prod.fst := by
    rw [GraphNode.parentIds, hlinks]
  show (g'.linkToParents merged).At j P ↔ _
  rw [at_linkToParents hm', hat, hids]
  refine at_congr fun n _ => ?_
  simp only [fused, linked]
  generalize (fusedLinks reached merged s r).map Prod.fst = ids
  clear hids hat hg hlinks
  rcases Decidable.em (j = reached) with rfl | hr
  · by_cases hj : j ∈ ids <;> simp [hj]
  · by_cases hj : j ∈ ids <;> rcases Decidable.em (j = merged) with rfl | hjm <;> simp [*]

theorem at_fuse {s r m : GraphNode ν} (h : merged ≠ reached) (hm : g.node? merged = some m)
    (hchild : merged ∉ r.children) (hparent : merged ∉ r.parentIds) (hcover : r.coveredBy = none)
    (hcovers : reached ∉ r.covering) :
    (g.fuse successor reached merged s r).At j P ↔
      g.At j fun n => P (fused successor reached merged s r j n) := by
  have hcoverer : outerCoverer reached merged r = none := by
    rw [outerCoverer, if_neg hcovers, hcover]
  rw [at_fuse_of_covered h hm hchild hparent]
  refine at_congr fun n _ => ?_
  simp [hcoverer]

end ProgramAnalysis.ReachGraph
