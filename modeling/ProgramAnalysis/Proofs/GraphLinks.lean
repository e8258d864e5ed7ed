import ProgramAnalysis.Proofs.GraphNodes
import ProgramAnalysis.ReachGraph.Consistency
/-!
Which links of the reachability graph agree.

`Linked g` says that every link of a live node is noted at both ends, with one exception: a parent
may have been merged away. `BatchWf g batch` is what the changes of the graph keep up: besides, the
nodes of `batch`, which wait to be accepted, have such parents only, and nobody has one of them for
a parent. Each change has a lemma that says which links there are after it, and from that one that
says when the graph stays well-formed.

`Consistent` says what a graph is like when the check of its links finds nothing
(`fault?_eq_none_iff`). Both it and `Linked` are about `Coherent` links, with other excuses.
-/

namespace ProgramAnalysis.ReachGraph

variable {ν : Type} {g : ReachGraph ν} {j i q p c : GraphNodeId} {batch : List GraphNodeId}

/-! ## Links -/

def Known (g : ReachGraph ν) (i : GraphNodeId) : Prop := g.At i fun _ => True

def Live (g : ReachGraph ν) (i : GraphNodeId) : Prop := g.At i fun n => n.status = .live

def Destroyed (g : ReachGraph ν) (i : GraphNodeId) : Prop := g.At i fun n => n.status = .destroyed

/-- The node was destroyed and went on in the node that it was merged into. -/
def MergedAway (g : ReachGraph ν) (i : GraphNodeId) : Prop :=
  g.At i fun n => n.status = .destroyed ∧ n.mergedWith.isSome = true

def HasParent (g : ReachGraph ν) (i p : GraphNodeId) : Prop := g.At i fun n => p ∈ n.parentIds

def HasChild (g : ReachGraph ν) (i c : GraphNodeId) : Prop := g.At i fun n => c ∈ n.children

def CoveredBy (g : ReachGraph ν) (i q : GraphNodeId) : Prop := g.At i fun n => n.coveredBy = some q

def Covers (g : ReachGraph ν) (i x : GraphNodeId) : Prop := g.At i fun n => x ∈ n.covering

/-- The state is recorded at the node. -/
def Holds (g : ReachGraph ν) (i : GraphNodeId) (s : State ν) : Prop :=
  g.At i fun n => n.state = some s

theorem At.known {P : GraphNode ν → Prop} (h : g.At i P) : g.Known i :=
  h.mono fun _ _ => trivial

theorem CoveredBy.unique {q' : GraphNodeId} (h : g.CoveredBy i q) (h' : g.CoveredBy i q') :
    q = q' := by
  obtain ⟨n, hn, hq⟩ := h
  have hq' : n.coveredBy = some q' := (at_iff hn).1 h'
  rw [hq] at hq'
  exact Option.some.inj hq'

theorem Holds.unique {s t : State ν} (h : g.Holds i s) (h' : g.Holds i t) : s = t := by
  obtain ⟨n, hn, hs⟩ := h
  have ht : n.state = some t := (at_iff hn).1 h'
  rw [hs] at ht
  exact Option.some.inj ht

theorem holds_setState {b : GraphNodeId} (hb : g.Known b) (t : State ν) :
    (g.setState b t).Holds b t := by
  rw [Holds, setState, at_update]
  exact hb.mono fun n _ => by simp

theorem Destroyed.not_live (h : g.Destroyed i) : ¬ g.Live i := by
  obtain ⟨n, hn, hd⟩ := h
  intro hl
  have hl : n.status = .live := (at_iff hn).1 hl
  rw [hd] at hl
  cases hl

theorem MergedAway.destroyed (h : g.MergedAway i) : g.Destroyed i :=
  h.mono fun _ hn => hn.1

/-- The links of live nodes are noted at both ends, but a parent may have been merged away. -/
structure Linked (g : ReachGraph ν) : Prop where
  parent : ∀ i p, g.Live i → g.HasParent i p → g.Live p ∧ g.HasChild p i ∨ g.MergedAway p
  child : ∀ i c, g.HasChild i c → g.Live i ∧ g.Live c ∧ g.HasParent c i
  coverer : ∀ i q, g.CoveredBy i q → g.Live i ∧ g.Live q ∧ g.Covers q i
  covered : ∀ i x, g.Covers i x → g.Live i ∧ g.Live x ∧ g.CoveredBy x i

/-- Each link of a live node is noted at both ends, and live nodes refer to live ones. Only a parent
may be one of those that are `away`. -/
structure Coherent (g : ReachGraph ν) (away : GraphNodeId → Prop) : Prop where
  parent : ∀ i p, g.Live i → g.HasParent i p → g.Live p ∧ g.HasChild p i ∨ away p
  child : ∀ i c, g.Live i → g.HasChild i c → g.Live c ∧ g.HasParent c i
  coverer : ∀ i q, g.Live i → g.CoveredBy i q → g.Live q ∧ g.Covers q i
  covered : ∀ i x, g.Live i → g.Covers i x → g.CoveredBy x i

theorem Coherent.mono {away away' : GraphNodeId → Prop} (h : g.Coherent away)
    (ha : ∀ i p, g.HasParent i p → away p → away' p) : g.Coherent away' :=
  { h with parent := fun i p hi hp => (h.parent i p hi hp).imp_right (ha i p hp) }

theorem Linked.coherent (h : g.Linked) : g.Coherent g.MergedAway :=
  ⟨h.parent, fun i c _ hc => (h.child i c hc).2, fun i q _ hq => (h.coverer i q hq).2,
    fun i x _ hx => (h.covered i x hx).2.2⟩

/-- It is enough to look at live nodes if no others have children, cover or are covered. -/
theorem Coherent.linked (h : g.Coherent g.MergedAway) (child : ∀ i c, g.HasChild i c → g.Live i)
    (coverer : ∀ i q, g.CoveredBy i q → g.Live i) (covered : ∀ i x, g.Covers i x → g.Live i) :
    g.Linked where
  parent := h.parent
  child i c hc := ⟨child i c hc, h.child i c (child i c hc) hc⟩
  coverer i q hq := ⟨coverer i q hq, h.coverer i q (coverer i q hq) hq⟩
  covered i x hx := by
    have hc := h.covered i x (covered i x hx) hx
    exact ⟨covered i x hx, coverer x i hc, hc⟩

/-- A graph in which no parent of a live node is away. -/
abbrev Consistent (g : ReachGraph ν) : Prop := g.Coherent fun _ => False

theorem Consistent.listed (h : g.Consistent) (hi : g.Live i) (hp : g.HasParent i p) :
    g.Live p ∧ g.HasChild p i :=
  (h.parent i p hi hp).resolve_right id

/-- A graph whose nodes `batch` wait to be accepted. -/
structure BatchWf (g : ReachGraph ν) (batch : List GraphNodeId) : Prop extends Linked g where
  known : ∀ i p, g.HasParent i p → g.Known p
  bare : ∀ i p, g.HasParent i p → ¬ g.Destroyed i
  distinct : batch.Nodup
  idle : ∀ b ∈ batch, g.Known b ∧ ¬ g.Live b
  ready : ∀ b ∈ batch, ∀ p, g.HasParent b p → g.Live p ∨ g.MergedAway p
  childless : ∀ i p, g.HasParent i p → p ∉ batch

theorem batchWf_empty : (empty : ReachGraph ν).BatchWf [] where
  parent _ _ h := absurd h not_at_empty
  child _ _ h := absurd h not_at_empty
  coverer _ _ h := absurd h not_at_empty
  covered _ _ h := absurd h not_at_empty
  known _ _ h := absurd h not_at_empty
  bare _ _ h := absurd h not_at_empty
  distinct := .nil
  idle _ hb := absurd hb List.not_mem_nil
  ready _ hb := absurd hb List.not_mem_nil
  childless _ _ _ := List.not_mem_nil

theorem BatchWf.sublist {batch' : List GraphNodeId} (h : g.BatchWf batch)
    (hs : batch'.Sublist batch) : g.BatchWf batch' :=
  { h with
    distinct := h.distinct.sublist hs
    idle := fun b hb => h.idle b (hs.subset hb)
    ready := fun b hb => h.ready b (hs.subset hb)
    childless := fun i p hp hb => h.childless i p hp (hs.subset hb) }

/-- When nothing else changes, only the covers have to be looked at. -/
theorem BatchWf.of_covers {g' : ReachGraph ν} (h : g.BatchWf batch)
    (hat : ∀ i (P : GraphNode ν → Prop),
      (∀ n s x y, P { n with state := s, coveredBy := x, covering := y } ↔ P n) →
        (g'.At i P ↔ g.At i P))
    (coverer : ∀ i q, g'.CoveredBy i q → g.Live i ∧ g.Live q ∧ g'.Covers q i)
    (covered : ∀ i x, g'.Covers i x → g.Live i ∧ g.Live x ∧ g'.CoveredBy x i) :
    g'.BatchWf batch := by
  have live : ∀ i, g'.Live i ↔ g.Live i := fun i => hat i _ fun _ _ _ _ => Iff.rfl
  have destroyed : ∀ i, g'.Destroyed i ↔ g.Destroyed i := fun i => hat i _ fun _ _ _ _ => Iff.rfl
  have merged : ∀ i, g'.MergedAway i ↔ g.MergedAway i := fun i => hat i _ fun _ _ _ _ => Iff.rfl
  have parent : ∀ i p, g'.HasParent i p ↔ g.HasParent i p := fun i p =>
    hat i _ fun _ _ _ _ => Iff.rfl
  have child : ∀ i c, g'.HasChild i c ↔ g.HasChild i c := fun i c => hat i _ fun _ _ _ _ => Iff.rfl
  have known : ∀ i, g'.Known i ↔ g.Known i := fun i => hat i _ fun _ _ _ _ => Iff.rfl
  constructor
  · constructor <;> simp only [live, merged, parent, child]
    · exact h.parent
    · exact h.child
    · exact coverer
    · exact covered
  · simp only [parent, known]
    exact h.known
  · simp only [parent, destroyed]
    exact h.bare
  · exact h.distinct
  · simp only [known, live]
    exact h.idle
  · simp only [parent, live, merged]
    exact h.ready
  · simp only [parent]
    exact h.childless

/-- Only the links and the status of the nodes matter. -/
theorem BatchWf.of_at {g' : ReachGraph ν} (h : g.BatchWf batch)
    (hat : ∀ i (P : GraphNode ν → Prop), (∀ n s, P { n with state := s } ↔ P n) →
      (g'.At i P ↔ g.At i P)) : g'.BatchWf batch := by
  have coverer : ∀ i q, g'.CoveredBy i q ↔ g.CoveredBy i q := fun i q => hat i _ fun _ _ => Iff.rfl
  have covers : ∀ i x, g'.Covers i x ↔ g.Covers i x := fun i x => hat i _ fun _ _ => Iff.rfl
  refine h.of_covers (fun i P hP => hat i P fun n s => hP n s n.coveredBy n.covering) ?_ ?_
  · simp only [coverer, covers]
    exact h.coverer
  · simp only [coverer, covers]
    exact h.covered

/-! ## Creation -/

section Create

variable {g : ReachGraph ν} {location : Option NodeId} {links : List ParentLink}

theorem hasParent_create :
    (g.create location links).2.HasParent j p ↔
      g.HasParent j p ∨ j = ⟨g.nodes.size⟩ ∧ p ∈ links.map Prod.fst :=
  at_create

/-- A new node has no link but those to its parents. -/
theorem at_create_of_not {P : GraphNode ν → Prop}
    (h : ¬ P ⟨.pending, none, location, links, [], none, [], none⟩) :
    (g.create location links).2.At j P ↔ g.At j P := by
  rw [at_create]
  simp [h]

theorem hasChild_create : (g.create location links).2.HasChild j c ↔ g.HasChild j c :=
  at_create_of_not (by simp)

theorem mergedAway_create : (g.create location links).2.MergedAway j ↔ g.MergedAway j :=
  at_create_of_not (by simp)

theorem coveredBy_create : (g.create location links).2.CoveredBy j q ↔ g.CoveredBy j q :=
  at_create_of_not (by simp)

theorem covers_create : (g.create location links).2.Covers j q ↔ g.Covers j q :=
  at_create_of_not (by simp)

theorem known_create : (g.create location links).2.Known ⟨g.nodes.size⟩ :=
  at_create.2 (.inr ⟨rfl, trivial⟩)

theorem BatchWf.create (h : g.BatchWf batch)
    (hlinks : ∀ p ∈ links.map Prod.fst, (g.Live p ∨ g.MergedAway p) ∧ p ∉ batch) :
    (g.create location links).2.BatchWf (batch ++ [⟨g.nodes.size⟩]) := by
  have live : ∀ i, (g.create location links).2.Live i ↔ g.Live i := fun i =>
    at_create_of_not (by simp)
  have destroyed : ∀ i, (g.create location links).2.Destroyed i ↔ g.Destroyed i := fun i =>
    at_create_of_not (by simp)
  have known : ∀ i, g.Known i → (g.create location links).2.Known i := fun i hi =>
    at_create.2 (.inl hi)
  have hnew : ∀ p ∈ links.map Prod.fst, g.Known p := fun p hp =>
    (hlinks p hp).1.elim At.known At.known
  constructor
  · constructor <;> simp only [live, mergedAway_create, hasChild_create, coveredBy_create,
      covers_create, hasParent_create]
    · rintro i p hi (hp | ⟨rfl, -⟩)
      · exact h.parent i p hi hp
      · exact absurd hi not_at_size
    · intro i c hc
      obtain ⟨hi, hl, hp⟩ := h.child i c hc
      exact ⟨hi, hl, .inl hp⟩
    · exact h.coverer
    · exact h.covered
  · simp only [hasParent_create]
    rintro i p (hp | ⟨-, hp⟩)
    · exact known p (h.known i p hp)
    · exact known p (hnew p hp)
  · simp only [hasParent_create, destroyed]
    rintro i p (hp | ⟨rfl, -⟩)
    · exact h.bare i p hp
    · exact not_at_size
  · refine List.nodup_append.2 ⟨h.distinct, by simp, ?_⟩
    rintro b hb c hc rfl
    have hbn : b = ⟨g.nodes.size⟩ := by simpa using hc
    exact not_at_size (hbn ▸ (h.idle b hb).1)
  · simp only [live, List.mem_append, List.mem_singleton]
    rintro b (hb | rfl)
    · exact ⟨known b (h.idle b hb).1, (h.idle b hb).2⟩
    · exact ⟨at_create.2 (.inr ⟨rfl, trivial⟩), not_at_size⟩
  · simp only [hasParent_create, live, mergedAway_create, List.mem_append, List.mem_singleton]
    rintro b (hb | rfl) p (hp | ⟨hj, hp⟩)
    · exact h.ready b hb p hp
    · exact (hlinks p hp).1
    · exact absurd hp not_at_size
    · exact (hlinks p hp).1
  · simp only [hasParent_create, List.mem_append, List.mem_singleton]
    rintro i p (hp | ⟨-, hp⟩) (hb | rfl)
    · exact h.childless i p hp hb
    · exact not_at_size (h.known i _ hp)
    · exact (hlinks p hp).2 hb
    · exact not_at_size (hnew _ hp)

end Create

/-! ## Acceptance -/

section Accept

variable {g : ReachGraph ν} {b : GraphNodeId} {s : State ν}

section

variable (hb : g.Known b)

include hb

theorem live_accept : (g.accept b s).Live j ↔ g.Live j ∨ j = b := by
  obtain ⟨old, hold, -⟩ := hb
  rw [Live, at_accept hold]
  rcases Decidable.em (j = b) with rfl | hj
  · simp [accepted, at_iff hold]
  · simp [accepted, hj, Live]

theorem destroyed_accept : (g.accept b s).Destroyed j ↔ g.Destroyed j ∧ j ≠ b := by
  obtain ⟨old, hold, -⟩ := hb
  rw [Destroyed, at_accept hold]
  rcases Decidable.em (j = b) with rfl | hj
  · simp [accepted, at_iff hold]
  · simp [accepted, hj, Destroyed]

theorem mergedAway_accept : (g.accept b s).MergedAway j ↔ g.MergedAway j ∧ j ≠ b := by
  obtain ⟨old, hold, -⟩ := hb
  rw [MergedAway, at_accept hold]
  rcases Decidable.em (j = b) with rfl | hj
  · simp [accepted, at_iff hold]
  · simp [accepted, hj, MergedAway]

theorem hasParent_accept : (g.accept b s).HasParent j p ↔ g.HasParent j p := by
  obtain ⟨old, hold, -⟩ := hb
  exact at_accept hold

theorem coveredBy_accept : (g.accept b s).CoveredBy j q ↔ g.CoveredBy j q := by
  obtain ⟨old, hold, -⟩ := hb
  exact at_accept hold

theorem covers_accept : (g.accept b s).Covers j q ↔ g.Covers j q := by
  obtain ⟨old, hold, -⟩ := hb
  exact at_accept hold

theorem hasChild_accept :
    (g.accept b s).HasChild j c ↔
      g.HasChild j c ∨ c = b ∧ g.HasParent b j ∧ (g.Live j ∨ j = b) := by
  obtain ⟨old, hold, -⟩ := hb
  have hparent : g.HasParent b j ↔ j ∈ old.parentIds := at_iff hold
  rw [HasChild, at_accept hold, hparent]
  simp only [accepted]
  constructor
  · rintro ⟨n, hn, hc⟩
    split at hc
    · next hlink =>
      rcases mem_withMember.1 hc with hc | rfl
      · exact .inl ⟨n, hn, hc⟩
      · exact .inr ⟨rfl, hlink.1, hlink.2.symm.imp_left fun hl => ⟨n, hn, hl⟩⟩
    · exact .inl ⟨n, hn, hc⟩
  · rintro (⟨n, hn, hc⟩ | ⟨rfl, hp, hl⟩)
    · refine ⟨n, hn, ?_⟩
      dsimp only
      split
      · exact mem_withMember.2 (.inl hc)
      · exact hc
    · obtain ⟨n, hn, hlive⟩ : g.At j fun n => j = c ∨ n.status = .live := by
        rcases hl with ⟨n, hn, hl⟩ | rfl
        · exact ⟨n, hn, .inr hl⟩
        · exact ⟨old, hold, .inl rfl⟩
      refine ⟨n, hn, ?_⟩
      dsimp only
      rw [if_pos ⟨hp, hlive⟩]
      exact mem_withMember.2 (.inr rfl)

theorem Coherent.accept {away : GraphNodeId → Prop} (h : g.Coherent away)
    (hchild : ∀ c, ¬ g.HasChild b c) (hcoverer : ∀ q, ¬ g.CoveredBy b q)
    (hcovers : ∀ x, ¬ g.Covers b x) (hready : ∀ p, g.HasParent b p → g.Live p ∨ away p) :
    (g.accept b s).Coherent away := by
  have covers : ∀ {j x}, (g.accept b s).Covers j x ↔ g.Covers j x := covers_accept hb
  constructor <;> simp only [live_accept hb, hasParent_accept hb, hasChild_accept hb,
    coveredBy_accept hb, covers]
  · rintro i p (hi | rfl) hp
    · exact (h.parent i p hi hp).imp_left fun hl => ⟨.inl hl.1, .inl hl.2⟩
    · exact (hready p hp).imp_left fun hl => ⟨.inl hl, .inr ⟨rfl, hp, .inl hl⟩⟩
  · rintro i c hi (hc | ⟨rfl, hp, -⟩)
    · rcases hi with hi | rfl
      · exact (h.child i c hi hc).imp_left .inl
      · exact absurd hc (hchild c)
    · exact ⟨.inr rfl, hp⟩
  · rintro i q (hi | rfl) hq
    · exact (h.coverer i q hi hq).imp_left .inl
    · exact absurd hq (hcoverer q)
  · rintro i x (hi | rfl) hx
    · exact h.covered i x hi hx
    · exact absurd hx (hcovers x)

/-- A cover changes what acceptance leaves in the covers only. -/
theorem at_cover_iff_accept {P : GraphNode ν → Prop}
    (hP : ∀ n x y, P { n with coveredBy := x, covering := y } ↔ P n) :
    (g.cover b q s).At j P ↔ (g.accept b s).At j P := by
  obtain ⟨old, hold, -⟩ := hb
  rw [at_cover hold, at_accept hold]
  exact at_congr fun n _ => hP (accepted b s old j n) _ _

theorem live_cover : (g.cover b q s).Live j ↔ g.Live j ∨ j = b :=
  (at_cover_iff_accept hb fun _ _ _ => Iff.rfl).trans (live_accept hb)

theorem hasParent_cover : (g.cover b q s).HasParent j p ↔ g.HasParent j p :=
  (at_cover_iff_accept hb fun _ _ _ => Iff.rfl).trans (hasParent_accept hb)

theorem coveredBy_cover {q' : GraphNodeId} :
    (g.cover b q s).CoveredBy j q' ↔ j = b ∧ q' = q ∨ j ≠ b ∧ g.CoveredBy j q' := by
  obtain ⟨old, hold, -⟩ := hb
  rw [CoveredBy, at_cover hold]
  rcases Decidable.em (j = b) with rfl | hj
  · simp [at_iff hold, eq_comm]
  · simp [hj, CoveredBy]

theorem covers_cover (hq : g.Live q) :
    (g.cover b q s).Covers j x ↔ (g.accept b s).Covers j x ∨ j = q ∧ x = b := by
  obtain ⟨old, hold, -⟩ := hb
  rw [Covers, at_cover hold, Covers, at_accept hold]
  rcases Decidable.em (j = q) with rfl | hj
  · obtain ⟨n, hn, -⟩ := hq
    simp [accepted, at_iff hn]
  · simp [hj, accepted]

end

/-- A node that waits to be accepted becomes live and is linked to its live parents. -/
theorem BatchWf.accept (h : g.BatchWf (b :: batch)) : (g.accept b s).BatchWf batch := by
  obtain ⟨hb, hidle⟩ := h.idle b (by simp)
  have hfresh : b ∉ batch := (List.nodup_cons.1 h.distinct).1
  have hne : ∀ i p, g.HasParent i p → p ≠ b := by
    rintro i p hp rfl
    exact h.childless i p hp (by simp)
  have known : ∀ {j}, (g.accept b s).Known j ↔ g.Known j := by
    obtain ⟨old, hold, -⟩ := hb
    exact at_accept hold
  have hcoherent : (g.accept b s).Coherent fun p => g.MergedAway p ∧ p ≠ b :=
    (h.coherent.mono fun i p hp hm => ⟨hm, hne i p hp⟩).accept hb
      (fun c hc => hidle (h.child b c hc).1) (fun q hq => hidle (h.coverer b q hq).1)
      (fun x hx => hidle (h.covered b x hx).1) fun p hp =>
        (h.ready b (by simp) p hp).imp_right fun hm => ⟨hm, hne b p hp⟩
  constructor
  · refine (hcoherent.mono fun i p _ => (mergedAway_accept hb).2).linked ?_ ?_ ?_ <;>
      simp only [live_accept hb, hasChild_accept hb, coveredBy_accept hb, covers_accept hb]
    · rintro i c (hc | ⟨-, -, hl⟩)
      · exact .inl (h.child i c hc).1
      · exact hl
    · exact fun i q hq => .inl (h.coverer i q hq).1
    · exact fun i x hx => .inl (h.covered i x hx).1
  · simp only [hasParent_accept hb, known]
    exact h.known
  · simp only [hasParent_accept hb, destroyed_accept hb]
    exact fun i p hp hd => h.bare i p hp hd.1
  · exact (List.nodup_cons.1 h.distinct).2
  · simp only [known, live_accept hb]
    intro x hx
    obtain ⟨hk, hl⟩ := h.idle x (by simp [hx])
    refine ⟨hk, ?_⟩
    rintro (hl' | rfl)
    · exact hl hl'
    · exact hfresh hx
  · simp only [hasParent_accept hb, live_accept hb, mergedAway_accept hb]
    intro x hx p hp
    exact (h.ready x (by simp [hx]) p hp).imp .inl fun hm => ⟨hm, hne x p hp⟩
  · simp only [hasParent_accept hb]
    exact fun i p hp hx => h.childless i p hp (by simp [hx])

/-- A node that waits to be accepted may be covered by another one that is live. -/
theorem BatchWf.cover (h : g.BatchWf (b :: batch)) (hq : g.Live q) :
    (g.cover b q s).BatchWf batch := by
  obtain ⟨hb, hidle⟩ := h.idle b (by simp)
  have hlive : (g.accept b s).Live q ∧ (g.accept b s).Live b :=
    ⟨(live_accept hb).2 (.inl hq), (live_accept hb).2 (.inr rfl)⟩
  have ha : (g.accept b s).BatchWf batch := h.accept
  refine ha.of_covers ?_ ?_ ?_
  · exact fun j P hP => at_cover_iff_accept hb fun n => hP n n.state
  · intro i q' hi
    rcases (coveredBy_cover hb).1 hi with ⟨rfl, rfl⟩ | ⟨-, hc⟩
    · exact ⟨hlive.2, hlive.1, (covers_cover hb hq).2 (.inr ⟨rfl, rfl⟩)⟩
    · obtain ⟨hi, hl, hx⟩ := ha.coverer i q' ((coveredBy_accept hb).2 hc)
      exact ⟨hi, hl, (covers_cover hb hq).2 (.inl hx)⟩
  · intro i x hi
    rcases (covers_cover hb hq).1 hi with hx | ⟨rfl, rfl⟩
    · obtain ⟨hi, hl, hcovered⟩ := ha.covered i x hx
      have hc := (coveredBy_accept hb).1 hcovered
      -- A node that is not live is covered by nobody.
      refine ⟨hi, hl, (coveredBy_cover hb).2 (.inr ⟨?_, hc⟩)⟩
      rintro rfl
      exact hidle (h.coverer x i hc).1
    · exact ⟨hlive.1, hlive.2, (coveredBy_cover hb).2 (.inl ⟨rfl, rfl⟩)⟩

end Accept

/-! ## Removal -/

section Cut

variable {g : ReachGraph ν} {id : GraphNodeId} {old : GraphNode ν}

theorem live_cut : (g.cut id old).Live j ↔ g.Live j ∧ j ≠ id := by
  rw [Live, at_cut]
  by_cases hj : j = id
  · simp [hj, dead, At]
  · simp [hj, severed, Live]

theorem live_cut_of_not_live (h : ¬ g.Live id) : (g.cut id old).Live j ↔ g.Live j := by
  refine live_cut.trans ⟨And.left, fun hj => ⟨hj, ?_⟩⟩
  rintro rfl
  exact h hj

theorem mergedAway_cut (h : g.MergedAway j) : (g.cut id old).MergedAway j := by
  rw [MergedAway, at_cut]
  refine h.mono fun n hn => ?_
  by_cases hj : j = id
  · simp [hj, dead, hn.2]
  · simp [hj, severed, hn]

theorem known_cut : (g.cut id old).Known j ↔ g.Known j := at_cut

variable (hid : g.node? id = some old)

include hid

theorem destroyed_cut : (g.cut id old).Destroyed j ↔ g.Destroyed j ∨ j = id := by
  rw [Destroyed, at_cut]
  rcases Decidable.em (j = id) with rfl | hj
  · simp [dead, at_iff hid]
  · simp [hj, severed, Destroyed]

theorem hasParent_cut :
    (g.cut id old).HasParent j p ↔ g.HasParent j p ∧ j ≠ id ∧ ¬ (p = id ∧ g.HasChild id j) := by
  have hchild : g.HasChild id j ↔ j ∈ old.children := at_iff hid
  rw [HasParent, at_cut, hchild]
  by_cases hj : j = id
  · simp [hj, dead, At, GraphNode.parentIds]
  · by_cases hc : j ∈ old.children
    · simp [hj, hc, severed, HasParent, GraphNode.parentIds, at_and]
    · simp [hj, hc, severed, HasParent, GraphNode.parentIds]

theorem hasChild_cut :
    (g.cut id old).HasChild j c ↔ g.HasChild j c ∧ j ≠ id ∧ ¬ (c = id ∧ g.HasParent id j) := by
  have hparent : g.HasParent id j ↔ j ∈ old.parentIds := at_iff hid
  rw [HasChild, at_cut, hparent]
  by_cases hj : j = id
  · simp [hj, dead, At]
  · by_cases hp : j ∈ old.parentIds
    · simp [hj, hp, severed, HasChild, at_and]
    · simp [hj, hp, severed, HasChild]

theorem coveredBy_cut :
    (g.cut id old).CoveredBy j q ↔ g.CoveredBy j q ∧ j ≠ id ∧ ¬ g.Covers id j := by
  have hcovers : g.Covers id j ↔ j ∈ old.covering := at_iff hid
  rw [CoveredBy, at_cut, hcovers]
  by_cases hj : j = id
  · simp [hj, dead, At]
  · by_cases hc : j ∈ old.covering
    · simp [hj, hc, severed, At]
    · simp [hj, hc, severed, CoveredBy]

theorem covers_cut {x : GraphNodeId} :
    (g.cut id old).Covers j x ↔ g.Covers j x ∧ j ≠ id ∧ ¬ (x = id ∧ g.CoveredBy id j) := by
  have hcoverer : g.CoveredBy id j ↔ old.coveredBy = some j := at_iff hid
  rw [Covers, at_cut, hcoverer]
  by_cases hj : j = id
  · simp [hj, dead, At]
  · by_cases hc : old.coveredBy = some j
    · simp [hj, hc, severed, Covers, at_and]
    · simp [hj, hc, severed, Covers]

/-- A node may be removed if it is live, and else if it covers none. -/
theorem Coherent.cut {away : GraphNodeId → Prop} (h : g.Coherent away)
    (hcovers : ∀ x, g.Covers id x → g.Live id) : (g.cut id old).Coherent away := by
  constructor <;> simp only [live_cut, hasParent_cut hid, hasChild_cut hid, coveredBy_cut hid,
    covers_cut hid]
  · rintro i p ⟨hi, hne⟩ ⟨hp, -, hno⟩
    refine (h.parent i p hi hp).imp_left ?_
    rintro ⟨hl, hc⟩
    have hpid : p ≠ id := by
      rintro rfl
      exact hno ⟨rfl, hc⟩
    exact ⟨⟨hl, hpid⟩, hc, hpid, fun hi => hne hi.1⟩
  · rintro i c ⟨hi, hne⟩ ⟨hc, -, hno⟩
    obtain ⟨hl, hp⟩ := h.child i c hi hc
    have hcid : c ≠ id := by
      rintro rfl
      exact hno ⟨rfl, hp⟩
    exact ⟨⟨hl, hcid⟩, hp, hcid, fun hi => hne hi.1⟩
  · rintro i q ⟨hi, hne⟩ ⟨hq, -, hno⟩
    obtain ⟨hl, hx⟩ := h.coverer i q hi hq
    have hqid : q ≠ id := by
      rintro rfl
      exact hno hx
    exact ⟨⟨hl, hqid⟩, hx, hqid, fun hi => hne hi.1⟩
  · rintro i x ⟨hi, hne⟩ ⟨hx, -, hno⟩
    have hc := h.covered i x hi hx
    have hxid : x ≠ id := by
      rintro rfl
      exact hno ⟨rfl, hc⟩
    refine ⟨hc, hxid, fun hx' => hne ?_⟩
    exact hc.unique (h.covered id x (hcovers x hx') hx')

/-- A node may be removed, unless it is live while others wait to be accepted. -/
theorem BatchWf.cut (h : g.BatchWf batch) (hlive : g.Live id → batch = []) :
    (g.cut id old).BatchWf batch := by
  have hcoherent := h.coherent.cut hid fun x hx => (h.covered id x hx).1
  constructor
  · refine (hcoherent.mono fun i p _ => mergedAway_cut).linked ?_ ?_ ?_ <;>
      simp only [live_cut, hasChild_cut hid, coveredBy_cut hid, covers_cut hid]
    · exact fun i c hc => ⟨(h.child i c hc.1).1, hc.2.1⟩
    · exact fun i q hq => ⟨(h.coverer i q hq.1).1, hq.2.1⟩
    · exact fun i x hx => ⟨(h.covered i x hx.1).1, hx.2.1⟩
  · simp only [hasParent_cut hid, known_cut]
    exact fun i p hp => h.known i p hp.1
  · simp only [hasParent_cut hid, destroyed_cut hid]
    rintro i p ⟨hp, hne, -⟩ (hd | hi)
    · exact h.bare i p hp hd
    · exact hne hi
  · exact h.distinct
  · simp only [known_cut, live_cut]
    exact fun b hb => ⟨(h.idle b hb).1, fun hl => (h.idle b hb).2 hl.1⟩
  · simp only [hasParent_cut hid, live_cut]
    rintro b hb p ⟨hp, -, -⟩
    rcases h.ready b hb p hp with hl | hm
    · refine .inl ⟨hl, ?_⟩
      rintro rfl
      rw [hlive hl] at hb
      cases hb
    · exact .inr (mergedAway_cut hm)
  · simp only [hasParent_cut hid]
    exact fun i p hp => h.childless i p hp.1

end Cut

/-! ## The check of the links -/

/-- A live node has a parent that was merged away. -/
def Orphaned (g : ReachGraph ν) (i p : GraphNodeId) : Prop :=
  g.Live i ∧ g.HasParent i p ∧ g.MergedAway p

theorem mem_numbered {n : GraphNode ν} : (i, n) ∈ g.numbered ↔ g.node? i = some n := by
  obtain ⟨k⟩ := i
  simp only [numbered, List.mem_map, Prod.mk.injEq, Prod.exists, node?, GraphNodeId.mk.injEq]
  constructor
  · rintro ⟨m, j, hm, rfl, rfl⟩
    rw [List.mem_zipIdx_iff_getElem?] at hm
    simpa using hm
  · intro hn
    exact ⟨n, k, List.mem_zipIdx_iff_getElem?.2 (by simpa using hn), rfl, rfl⟩

theorem mem_liveNodes {n : GraphNode ν} :
    (i, n) ∈ g.liveNodes ↔ g.node? i = some n ∧ n.status = .live := by
  rw [liveNodes, List.mem_filter, mem_numbered]
  simp [GraphNode.isLive]

theorem not_live_of_mem_pendingIds (h : i ∈ g.pendingIds) : ¬ g.Live i := by
  obtain ⟨⟨j, n⟩, hn, rfl⟩ := List.mem_map.1 h
  rw [List.mem_filter, mem_numbered] at hn
  intro hl
  have hl : n.status = .live := (at_iff hn.1).1 hl
  simp [hl] at hn

theorem any_node?_iff {f : GraphNode ν → Bool} :
    (g.node? i).any f = true ↔ g.At i fun n => f n = true := by
  rw [Option.any_eq_true _ _]
  rfl

section Fault

variable {g : ReachGraph ν} {i x : GraphNodeId} {n : GraphNode ν}

theorem parentFault?_eq_none_iff : g.parentFault? i p = none ↔ g.Live p ∧ g.HasChild p i := by
  have hchild : ((g.node? p).any fun n => n.children.contains i) = true ↔ g.HasChild p i := by
    simp [any_node?_iff, HasChild]
  rw [Live, ← isLive_iff, ← hchild, parentFault?]
  by_cases hl : g.isLive p = true <;> simp [hl]

theorem childFault?_eq_none_iff : g.childFault? i c = none ↔ g.Live c ∧ g.HasParent c i := by
  have hparent : ((g.node? c).any fun n => n.parentIds.contains i) = true ↔ g.HasParent c i := by
    simp [any_node?_iff, HasParent]
  rw [Live, ← isLive_iff, ← hparent, childFault?]
  by_cases hl : g.isLive c = true <;> simp [hl]

theorem covererFault?_eq_none_iff : g.covererFault? i q = none ↔ g.Live q ∧ g.Covers q i := by
  have hcovers : ((g.node? q).any fun n => n.covering.contains i) = true ↔ g.Covers q i := by
    simp [any_node?_iff, Covers]
  rw [Live, ← isLive_iff, ← hcovers, covererFault?]
  by_cases hl : g.isLive q = true <;> simp [hl]

theorem coveredFault?_eq_none_iff : g.coveredFault? i x = none ↔ g.CoveredBy x i := by
  have hcovered : ((g.node? x).any fun n => n.coveredBy = some i) = true ↔ g.CoveredBy x i := by
    simp [any_node?_iff, CoveredBy]
  rw [← hcovered, coveredFault?]
  split <;> simp [*]

theorem nodeFault?_eq_none_iff (hn : g.node? i = some n) :
    g.nodeFault? i n = none ↔
      (∀ p, g.HasParent i p → g.Live p ∧ g.HasChild p i) ∧
      (∀ c, g.HasChild i c → g.Live c ∧ g.HasParent c i) ∧
      (∀ q, g.CoveredBy i q → g.Live q ∧ g.Covers q i) ∧
      ∀ x, g.Covers i x → g.CoveredBy x i := by
  have hcoverer : n.coveredBy.bind (g.covererFault? i) = none ↔
      ∀ q, g.CoveredBy i q → g.Live q ∧ g.Covers q i := by
    simp only [CoveredBy, at_iff hn]
    cases n.coveredBy with
    | none => simp
    | some q => simp [covererFault?_eq_none_iff]
  simp only [nodeFault?, Option.or_eq_none_iff, List.findSome?_eq_none_iff, hcoverer,
    parentFault?_eq_none_iff, childFault?_eq_none_iff, coveredFault?_eq_none_iff]
  simp only [HasParent, HasChild, Covers, at_iff hn]

/-- The check finds nothing exactly if the links are consistent. -/
theorem fault?_eq_none_iff : g.fault? = none ↔ g.Consistent := by
  rw [fault?, List.findSome?_eq_none_iff]
  constructor
  · intro hf
    have hnode : ∀ i, g.Live i → ∃ n, g.node? i = some n ∧ g.nodeFault? i n = none := by
      rintro i ⟨n, hn, hl⟩
      exact ⟨n, hn, hf (i, n) (mem_liveNodes.2 ⟨hn, hl⟩)⟩
    constructor
    · intro i p hi hp
      obtain ⟨n, hn, hnone⟩ := hnode i hi
      exact .inl (((nodeFault?_eq_none_iff hn).1 hnone).1 p hp)
    · intro i c hi
      obtain ⟨n, hn, hnone⟩ := hnode i hi
      exact ((nodeFault?_eq_none_iff hn).1 hnone).2.1 c
    · intro i q hi
      obtain ⟨n, hn, hnone⟩ := hnode i hi
      exact ((nodeFault?_eq_none_iff hn).1 hnone).2.2.1 q
    · intro i x hi
      obtain ⟨n, hn, hnone⟩ := hnode i hi
      exact ((nodeFault?_eq_none_iff hn).1 hnone).2.2.2 x
  · rintro h ⟨i, n⟩ hmem
    obtain ⟨hn, hl⟩ := mem_liveNodes.1 hmem
    have hi : g.Live i := ⟨n, hn, hl⟩
    exact (nodeFault?_eq_none_iff hn).2
      ⟨fun p => h.listed hi, fun c => h.child i c hi, fun q => h.coverer i q hi,
        fun x => h.covered i x hi⟩

/-- If the links agree, only those to parents can be wrong. -/
theorem Linked.nodeFault?_eq (h : g.Linked) (hn : g.node? i = some n) :
    g.nodeFault? i n = n.parentIds.findSome? (g.parentFault? i) := by
  have hchildren : n.children.findSome? (g.childFault? i) = none :=
    List.findSome?_eq_none_iff.2 fun c hc => childFault?_eq_none_iff.2 (h.child i c ⟨n, hn, hc⟩).2
  have hcoverer : n.coveredBy.bind (g.covererFault? i) = none := by
    cases hq : n.coveredBy with
    | none => rfl
    | some q => exact covererFault?_eq_none_iff.2 (h.coverer i q ⟨n, hn, hq⟩).2
  have hcovering : n.covering.findSome? (g.coveredFault? i) = none :=
    List.findSome?_eq_none_iff.2 fun x hx =>
      coveredFault?_eq_none_iff.2 (h.covered i x ⟨n, hn, hx⟩).2.2
  rw [nodeFault?, hchildren, hcoverer, hcovering]
  simp

theorem Linked.fault?_eq_none_iff (h : g.Linked) : g.fault? = none ↔ ∀ i p, ¬ g.Orphaned i p := by
  rw [ReachGraph.fault?_eq_none_iff]
  constructor
  · rintro hc i p ⟨hi, hp, hm⟩
    exact hm.destroyed.not_live (hc.listed hi hp).1
  · intro hno
    exact ⟨fun i p hi hp => (h.parent i p hi hp).imp_right fun hm => hno i p ⟨hi, hp, hm⟩,
      h.coherent.child, h.coherent.coverer, h.coherent.covered⟩

theorem Linked.orphaned_of_fault? (h : g.Linked) {text : String} (hf : g.fault? = some text) :
    ∃ i p, g.Orphaned i p ∧ text = i.text ++ " has destroyed parent " ++ p.text := by
  obtain ⟨⟨i, n⟩, hmem, htext⟩ := List.exists_of_findSome?_eq_some hf
  obtain ⟨hn, hl⟩ := mem_liveNodes.1 hmem
  have hi : g.Live i := ⟨n, hn, hl⟩
  have htext : g.nodeFault? i n = some text := htext
  rw [h.nodeFault?_eq hn] at htext
  obtain ⟨p, hp, htext⟩ := List.exists_of_findSome?_eq_some htext
  have hp : g.HasParent i p := ⟨n, hn, hp⟩
  rcases h.parent i p hi hp with hc | hm
  · rw [parentFault?_eq_none_iff.2 hc] at htext
    cases htext
  · have hl : ¬ g.isLive p = true := fun hl => hm.destroyed.not_live (isLive_iff.1 hl)
    have htext' : some (i.text ++ " has destroyed parent " ++ p.text) = some text := by
      simpa [parentFault?, hl] using htext
    exact ⟨i, p, ⟨hi, hp, hm⟩, (Option.some.inj htext').symm⟩

end Fault

end ProgramAnalysis.ReachGraph
