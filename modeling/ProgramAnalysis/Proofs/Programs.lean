import ProgramAnalysis.Program.Builder
/-!
Programs that were built step by step.

`Built` are the programs that come out of a draft. Whatever steps the draft went through, its edges
are numbered in the order of their creation and join its own locations. So the edges that leave a
location come in ascending order (`Built.ascending`), and an edge never leads out of the program. The
program and its functions start at locations of the program, too (`Built.rooted`).

That a given program was built is shown by building it anew (`Built.of_redraft`).
-/

namespace ProgramAnalysis

/-! ## Drafts -/

namespace Draft

/-- The drafts that the construction steps produce. -/
inductive Made : Draft → Prop where
  | empty : Made .empty
  | node {d} (function : String) : Made d → Made (d.addNode function).2
  | function {d d' name span} :
      Made d → d.addFunction name = .ok (span, d') → Made d'
  | edge {d d' source target kind payload id} :
      Made d → d.addEdge source target kind payload = .ok (id, d') → Made d'
  | entry {d d' n} : Made d → d.setEntry n = .ok d' → Made d'

/-- The edges are numbered one after the other and join locations of the draft. -/
structure Sound (d : Draft) : Prop where
  numbered : ∀ (i : Nat) (e : ProgramEdge), d.edges[i]? = some e → e.id.index = i
  joined : ∀ (i : Nat) (e : ProgramEdge), d.edges[i]? = some e →
    e.source.index < d.nodes.size ∧ e.target.index < d.nodes.size

variable {d d' : Draft}

/-- More locations do no harm. -/
theorem Sound.of_edges (h : d.Sound) (he : d'.edges = d.edges) (hn : d.nodes.size ≤ d'.nodes.size) :
    d'.Sound := by
  constructor
  · rw [he]
    exact h.numbered
  · rw [he]
    intro i e hi
    obtain ⟨hs, ht⟩ := h.joined i e hi
    exact ⟨Nat.lt_of_lt_of_le hs hn, Nat.lt_of_lt_of_le ht hn⟩

theorem Sound.addEdge {source target : NodeId} {kind : EdgeKind} {payload : Option String}
    {id : EdgeId} (h : d.Sound) (hd : d.addEdge source target kind payload = .ok (id, d')) :
    d'.Sound := by
  unfold Draft.addEdge at hd
  split at hd
  · cases hd
  split at hd
  · cases hd
  · next hs ht =>
    cases hd
    constructor
    all_goals
      intro i e hi
      rw [Array.getElem?_push] at hi
      split at hi
    · next hlast =>
      cases hi
      exact hlast.symm
    · exact h.numbered i e hi
    · cases hi
      exact ⟨Nat.lt_of_not_le hs, Nat.lt_of_not_le ht⟩
    · exact h.joined i e hi

theorem Made.sound (h : d.Made) : d.Sound := by
  induction h with
  | empty =>
    exact ⟨fun i e hi => by simp [Draft.empty] at hi, fun i e hi => by simp [Draft.empty] at hi⟩
  | node function _ ih => exact ih.of_edges rfl (by simp [addNode, pushNode])
  | function _ hd ih =>
    unfold addFunction at hd
    split at hd
    · cases hd
    · cases hd
      exact ih.of_edges rfl (by simp; omega)
  | edge _ hd ih => exact ih.addEdge hd
  | entry _ hd ih =>
    unfold setEntry at hd
    split at hd
    · cases hd
    · cases hd
      exact ih.of_edges rfl (Nat.le_refl _)

/-- The chosen start and the entries of the functions are locations of the draft. -/
structure Rooted (d : Draft) : Prop where
  entry : ∀ n, d.entry = some n → n.index < d.nodes.size
  functions : ∀ f ∈ d.functions, f.entry.index < d.nodes.size

theorem Rooted.addFunction {name : String} {span : FunctionSpan} (h : d.Rooted)
    (hd : d.addFunction name = .ok (span, d')) : d'.Rooted := by
  unfold Draft.addFunction at hd
  split at hd
  · cases hd
  · cases hd
    have hsize : ((d.pushNode name .entry).2.pushNode name .exit).2.nodes.size =
        d.nodes.size + 2 := by simp [pushNode]
    constructor
    · intro n hn
      show n.index < ((d.pushNode name .entry).2.pushNode name .exit).2.nodes.size
      rw [hsize]
      rcases Option.or_eq_some_iff.1 hn with hold | ⟨-, hnew⟩
      · exact Nat.lt_add_right 2 (h.entry n hold)
      · cases hnew
        exact Nat.lt_add_of_pos_right (by decide)
    · intro f hf
      show f.entry.index < ((d.pushNode name .entry).2.pushNode name .exit).2.nodes.size
      rw [hsize]
      rcases List.mem_append.1 hf with hold | hnew
      · exact Nat.lt_add_right 2 (h.functions f hold)
      · rw [List.mem_singleton.1 hnew]
        exact Nat.lt_add_of_pos_right (by decide)

theorem Made.rooted (h : d.Made) : d.Rooted := by
  induction h with
  | empty => exact ⟨by simp [Draft.empty], by simp [Draft.empty]⟩
  | @node d function _ ih =>
    have hsize : d.nodes.size ≤ (d.addNode function).2.nodes.size := by simp [addNode, pushNode]
    exact ⟨fun n hn => Nat.lt_of_lt_of_le (ih.entry n hn) hsize,
      fun f hf => Nat.lt_of_lt_of_le (ih.functions f hf) hsize⟩
  | function _ hd ih => exact ih.addFunction hd
  | edge _ hd ih =>
    unfold addEdge at hd
    split at hd
    · cases hd
    split at hd
    · cases hd
    · cases hd
      exact ⟨ih.entry, ih.functions⟩
  | @entry d d' m _ hd ih =>
    unfold setEntry at hd
    split at hd
    · cases hd
    · next hm =>
      cases hd
      refine ⟨fun n hn => ?_, ih.functions⟩
      cases hn
      exact Nat.lt_of_not_le hm

/-- Adds a location as it stands in a program; the exit of a function comes with its entry. -/
def redoNode (d : Draft) (n : ProgramNode) : Except DraftError Draft :=
  match n.kind with
  | .plain => .ok (d.addNode n.function).2
  | .entry => (d.addFunction n.function).map Prod.snd
  | .exit => .ok d

/-- Adds an edge as it stands in a program. -/
def redoEdge (d : Draft) (e : ProgramEdge) : Except DraftError Draft :=
  (d.addEdge e.source e.target e.kind e.payload).map Prod.snd

theorem Made.redoNode {n : ProgramNode} (h : d.Made) (hd : d.redoNode n = .ok d') : d'.Made := by
  unfold Draft.redoNode at hd
  split at hd
  · cases hd
    exact h.node n.function
  · cases hadd : d.addFunction n.function with
    | error e => simp [hadd, Except.map] at hd
    | ok q =>
      obtain rfl : q.2 = d' := by simpa [hadd, Except.map] using hd
      exact h.function hadd
  · cases hd
    exact h

theorem Made.redoEdge {e : ProgramEdge} (h : d.Made) (hd : d.redoEdge e = .ok d') : d'.Made := by
  unfold Draft.redoEdge at hd
  cases hadd : d.addEdge e.source e.target e.kind e.payload with
  | error e => simp [hadd, Except.map] at hd
  | ok q =>
    obtain rfl : q.2 = d' := by simpa [hadd, Except.map] using hd
    exact h.edge hadd

theorem Made.foldlM {α : Type} {step : Draft → α → Except DraftError Draft}
    (hstep : ∀ {d d' : Draft} {a : α}, d.Made → step d a = .ok d' → d'.Made) {l : List α}
    (h : d.Made) (hd : l.foldlM step d = .ok d') : d'.Made := by
  induction l generalizing d with
  | nil =>
    cases hd
    exact h
  | cons a l ih =>
    rw [List.foldlM_cons] at hd
    cases ha : step d a with
    | error e => simp [ha, bind, Except.bind] at hd
    | ok d₁ =>
      rw [ha] at hd
      exact ih (hstep h ha) hd

end Draft

/-! ## Programs -/

namespace Program

/-- The program comes out of a draft. -/
def Built (p : Program) : Prop := ∃ d, Draft.Made d ∧ d.build = .ok p

/-- The edges that leave a location come in the order of their numbers. -/
def Ascending (p : Program) : Prop :=
  ∀ n, (p.leaving n).Pairwise fun e f => e.id.index < f.id.index

/-- No edge leads out of the program. -/
def Closed (p : Program) : Prop := ∀ n, ∀ e ∈ p.leaving n, p.contains e.target = true

variable {p : Program}

theorem Built.exists_sound (h : p.Built) :
    ∃ d : Draft, d.Sound ∧ p.nodes = d.nodes ∧ p.edges = d.edges := by
  obtain ⟨d, hd, hb⟩ := h
  unfold Draft.build at hb
  split at hb
  · cases hb
  · cases hb
    exact ⟨d, hd.sound, rfl, rfl⟩

theorem Built.ascending (h : p.Built) : p.Ascending := by
  obtain ⟨d, hd, -, he⟩ := h.exists_sound
  intro n
  refine List.Pairwise.filter _ (List.pairwise_iff_getElem.2 fun i j hi hj hij => ?_)
  have hid : ∀ (k : Nat) (hk : k < p.edges.toList.length), (p.edges.toList[k]).id.index = k := by
    intro k hk
    refine hd.numbered k _ ?_
    rw [← he, ← Array.getElem?_toList]
    exact List.getElem?_eq_getElem hk
  rw [hid i hi, hid j hj]
  exact hij

theorem Built.closed (h : p.Built) : p.Closed := by
  obtain ⟨d, hd, hn, he⟩ := h.exists_sound
  intro n e hmem
  obtain ⟨i, hi⟩ := List.getElem?_of_mem (List.mem_filter.1 hmem).1
  rw [Array.getElem?_toList, he] at hi
  rw [Program.contains, hn]
  exact decide_eq_true (hd.joined i e hi).2

/-- The program starts at one of its locations, and so does each function. -/
theorem Built.rooted (h : p.Built) :
    p.contains p.entry = true ∧ ∀ f ∈ p.functions, p.contains f.entry = true := by
  obtain ⟨d, hd, hb⟩ := h
  unfold Draft.build at hb
  split at hb
  · cases hb
  · next hsome =>
    cases hb
    refine ⟨decide_eq_true ?_, fun f hf => decide_eq_true (hd.rooted.functions f hf)⟩
    show (d.entry.getD ⟨0⟩).index < d.nodes.size
    cases hentry : d.entry with
    | none => exact Nat.pos_of_ne_zero hsome
    | some n => exact hd.rooted.entry n hentry

theorem Built.of_redraft {d d₁ d₂ : Draft}
    (hnodes : p.nodes.toList.foldlM Draft.redoNode Draft.empty = Except.ok d)
    (hedges : p.edges.toList.foldlM Draft.redoEdge d = Except.ok d₁)
    (hentry : d₁.setEntry p.entry = .ok d₂) (hbuild : d₂.build = .ok p) : p.Built :=
  ⟨d₂, .entry (.foldlM .redoEdge (.foldlM .redoNode .empty hnodes) hedges) hentry, hbuild⟩

/-- The program of one function with a statement from one location to another for each pair.
Location 0 is the entry, location 1 the exit, and so many others are between them. -/
def ofPairs (others : Nat) (pairs : List (Nat × Nat)) : Program where
  nodes := (⟨⟨0⟩, "main", .entry⟩ :: ⟨⟨1⟩, "main", .exit⟩ ::
    (List.range others).map fun i => ⟨⟨i + 2⟩, "main", .plain⟩).toArray
  edges := (pairs.zipIdx.map fun (q, i) => ⟨⟨i⟩, .statement, ⟨q.1⟩, ⟨q.2⟩, none⟩).toArray
  functions := [⟨"main", ⟨0⟩, ⟨1⟩⟩]
  entry := ⟨0⟩

end Program

end ProgramAnalysis
