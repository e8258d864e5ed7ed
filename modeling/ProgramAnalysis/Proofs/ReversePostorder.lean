import Mathlib.Data.Set.Card
import ProgramAnalysis.Proofs.Reachability
/-!
Reverse postorder numbers the locations topologically, up to cycles.

What a depth-first search lists is said by a relation (`DepthFirst`), and a search is only asked to
keep to it (`ListsPostorder`). One such search lists what it reaches, each location once. If an edge
leads from a location to one that is listed after it, then that one leads back: otherwise it would
have been listed first.

Each start is searched from scratch, and what was listed before is left out. This keeps all of the
above, because an edge never leads out of what was listed before (`Postorder.Covers`). The numbers
are the positions in the list, counted from its end, so an edge leads to a larger number unless it
lies on a cycle (`rank_topological`).

`DepthFirst` leaves no choice, and the search of the library keeps to it, so every search that does
gives the same numbers (`rankBy_eq_rank`).
-/

namespace ProgramAnalysis.Program

variable {p : Program} {n x : NodeId} {seen : Set NodeId} {todo l : List NodeId}

theorem Reaches.trans {a b c : NodeId} (hab : p.Reaches a b) (hbc : p.Reaches b c) :
    p.Reaches a c := by
  induction hbc with
  | refl => exact hab
  | step _ he ih => exact ih.step he

/-- The locations to which the edges of a location lead, the oldest edge first. -/
def targets (p : Program) (n : NodeId) : List NodeId := (p.leaving n).map ProgramEdge.target

theorem Reaches.target {a b : NodeId} (h : p.Reaches a b) (hx : x ∈ p.targets b) :
    p.Reaches a x := by
  obtain ⟨e, he, rfl⟩ := List.mem_map.1 hx
  exact h.step he

/-! ## What a depth-first search lists -/

/-- A depth-first search that has seen the locations of a set searches the locations `todo` one
after the other and lists the last argument. It passes over what it has seen. Any other location is
entered: its targets are searched, and then it is listed itself. -/
inductive DepthFirst (p : Program) : Set NodeId → List NodeId → List NodeId → Prop where
  | done (seen : Set NodeId) : DepthFirst p seen [] []
  | passed {seen : Set NodeId} {n todo l} :
      n ∈ seen → DepthFirst p seen todo l → DepthFirst p seen (n :: todo) l
  | entered {seen n todo below l} :
      n ∉ seen → DepthFirst p (insert n seen) (p.targets n) below →
      DepthFirst p (insert n seen ∪ {x | x ∈ below}) todo l →
      DepthFirst p seen (n :: todo) (below ++ n :: l)

namespace DepthFirst

theorem not_seen (h : p.DepthFirst seen todo l) (hx : x ∈ l) : x ∉ seen := by
  induction h with
  | done => simp at hx
  | passed _ _ ih => exact ih hx
  | entered hn _ _ ihbelow ih =>
    intro hold
    rcases List.mem_append.1 hx with hx | hx
    · exact ihbelow hx (.inr hold)
    rcases List.mem_cons.1 hx with rfl | hx
    · exact hn hold
    · exact ih hx (.inl (.inr hold))

theorem covers (h : p.DepthFirst seen todo l) (hx : x ∈ todo) : x ∈ seen ∨ x ∈ l := by
  induction h with
  | done => simp at hx
  | passed hn _ ih =>
    rcases List.mem_cons.1 hx with rfl | hx
    · exact .inl hn
    · exact ih hx
  | entered hn _ _ _ ih =>
    rcases List.mem_cons.1 hx with rfl | hx
    · simp
    · rcases ih hx with ((rfl | hold) | hbelow) | hlater
      · simp
      · exact .inl hold
      · exact .inr (List.mem_append_left _ hbelow)
      · exact .inr (List.mem_append_right _ (.tail _ hlater))

theorem reached (h : p.DepthFirst seen todo l) (hx : x ∈ l) : ∃ m ∈ todo, p.Reaches m x := by
  induction h with
  | done => simp at hx
  | passed _ _ ih =>
    obtain ⟨m, hm, hreach⟩ := ih hx
    exact ⟨m, .tail _ hm, hreach⟩
  | @entered _ n _ _ _ _ _ _ ihbelow ih =>
    rcases List.mem_append.1 hx with hx | hx
    · obtain ⟨m, hm, hreach⟩ := ihbelow hx
      exact ⟨n, List.mem_cons_self, (Reaches.refl.target hm).trans hreach⟩
    rcases List.mem_cons.1 hx with rfl | hx
    · exact ⟨x, List.mem_cons_self, .refl⟩
    · obtain ⟨m, hm, hreach⟩ := ih hx
      exact ⟨m, .tail _ hm, hreach⟩

theorem closed (h : p.DepthFirst seen todo l) (hx : x ∈ l) {m : NodeId} (hm : m ∈ p.targets x) :
    m ∈ seen ∨ m ∈ l := by
  induction h with
  | done => simp at hx
  | passed _ _ ih => exact ih hx
  | @entered _ n _ _ _ _ hbelow _ ihbelow ih =>
    -- What is entered or below it is seen by the searches that follow, and it is listed.
    have hlisted : ∀ {k : NodeId} {seen : Set NodeId} {below l : List NodeId},
        k ∈ insert n seen ∨ k ∈ below → k ∈ seen ∨ k ∈ below ++ n :: l := by
      rintro k seen below l ((rfl | hold) | hbelow)
      · simp
      · exact .inl hold
      · exact .inr (List.mem_append_left _ hbelow)
    rcases List.mem_append.1 hx with hx | hx
    · exact hlisted (ihbelow hx)
    rcases List.mem_cons.1 hx with rfl | hx
    · exact hlisted (hbelow.covers hm)
    · rcases ih hx with hold | hlater
      · exact hlisted hold
      · exact .inr (List.mem_append_right _ (.tail _ hlater))

theorem nodup (h : p.DepthFirst seen todo l) : l.Nodup := by
  induction h with
  | done => exact .nil
  | passed _ _ ih => exact ih
  | entered hn hbelow hrest ihbelow ih =>
    refine List.nodup_append.2 ⟨ihbelow, List.nodup_cons.2 ⟨fun hx => ?_, ih⟩, ?_⟩
    · exact hrest.not_seen hx (.inl (Set.mem_insert _ _))
    · rintro a ha b hb rfl
      rcases List.mem_cons.1 hb with rfl | hb
      · exact hbelow.not_seen ha (Set.mem_insert _ _)
      · exact hrest.not_seen hb (.inr ha)

/-- An edge from a location to one that is listed after it lies on a cycle. -/
theorem sorted (h : p.DepthFirst seen todo l) :
    l.Pairwise fun a b => b ∈ p.targets a → p.Reaches b a := by
  induction h with
  | done => exact .nil
  | passed _ _ ih => exact ih
  | entered _ hbelow hrest ihbelow ih =>
    refine List.pairwise_append.2 ⟨ihbelow, List.pairwise_cons.2 ⟨fun b hb hedge => ?_, ih⟩, ?_⟩
    · exact absurd (hbelow.covers hedge) (hrest.not_seen hb)
    · intro a ha b hb hedge
      rcases List.mem_cons.1 hb with rfl | hb
      · obtain ⟨m, hm, hreach⟩ := hbelow.reached ha
        exact (Reaches.refl.target hm).trans hreach
      · exact absurd (hbelow.closed ha hedge) (hrest.not_seen hb)

/-- A search that has seen nothing lists what it reaches. -/
theorem mem_iff (h : p.DepthFirst ∅ [n] l) : x ∈ l ↔ p.Reaches n x := by
  constructor
  · intro hx
    obtain ⟨m, hm, hreach⟩ := h.reached hx
    rwa [List.mem_singleton.1 hm] at hreach
  · intro hreach
    induction hreach with
    | refl => exact (h.covers List.mem_cons_self).resolve_left (Set.notMem_empty n)
    | step _ he ih => exact (h.closed ih (List.mem_map_of_mem he)).resolve_left (Set.notMem_empty _)

/-- The relation leaves no choice. -/
theorem unique {l' : List NodeId} (h : p.DepthFirst seen todo l) (h' : p.DepthFirst seen todo l') :
    l = l' := by
  induction h generalizing l' with
  | done =>
    cases h'
    rfl
  | passed hn _ ih =>
    cases h' with
    | passed _ hrest' => exact ih hrest'
    | entered hn' => exact absurd hn hn'
  | entered hn _ _ ihbelow ih =>
    cases h' with
    | passed hn' => exact absurd hn' hn
    | entered _ hbelow' hrest' =>
      obtain rfl := ihbelow hbelow'
      rw [ih hrest']

end DepthFirst

/-- From every location of the program the search lists what a depth-first search that has seen
nothing does. -/
def ListsPostorder (p : Program) (search : NodeId → List NodeId) : Prop :=
  ∀ n, p.contains n = true → p.DepthFirst ∅ [n] (search n)

/-! ## All starts -/

namespace Postorder

variable {s : Postorder}

/-- The marks are those of the listed locations. -/
structure Marked (p : Program) (s : Postorder) : Prop where
  size : s.visited.size = p.nodeCount
  iff : ∀ n, p.contains n = true → (s.isVisited n = true ↔ n ∈ s.listed.toList)

theorem isVisited_list (hn : n.index < s.visited.size) (m : NodeId) :
    (s.list n).isVisited m = true ↔ m = n ∨ s.isVisited m = true := by
  obtain ⟨i⟩ := n
  obtain ⟨j⟩ := m
  unfold list
  split
  · next hvisited => exact ⟨.inr, fun h => h.elim (fun heq => heq ▸ hvisited) id⟩
  · simp only [isVisited, Array.getD_eq_getD_getElem?, Array.getElem?_setIfInBounds]
    by_cases hij : i = j
    · subst hij
      simp [show i < s.visited.size from hn]
    · simp [hij, Ne.symm hij]

namespace Marked

theorem listed_list (hs : s.Marked p) (hn : p.contains n = true) :
    (s.list n).listed.toList =
      if n ∈ s.listed.toList then s.listed.toList else s.listed.toList ++ [n] := by
  unfold list
  by_cases hold : n ∈ s.listed.toList
  · rw [if_pos ((hs.iff n hn).2 hold), if_pos hold]
  · rw [if_neg (mt (hs.iff n hn).1 hold), if_neg hold, Array.toList_push]

theorem list (hs : s.Marked p) (hn : p.contains n = true) : (s.list n).Marked p := by
  have hlt : n.index < s.visited.size := by
    rw [hs.size]
    exact of_decide_eq_true hn
  refine ⟨?_, fun m hm => ?_⟩
  · rw [← hs.size]
    unfold Postorder.list
    split <;> simp
  · rw [isVisited_list hlt, hs.listed_list hn, hs.iff m hm]
    split
    · next hold => exact ⟨fun h => h.elim (fun heq => heq ▸ hold) id, .inr⟩
    · rw [List.mem_append, List.mem_singleton, or_comm]

/-- Of what a search lists, the locations that were not listed before are added. -/
theorem foldl (hs : s.Marked p) (hl : ∀ n ∈ l, p.contains n = true) (honce : l.Nodup) :
    (l.foldl .list s).Marked p ∧ (l.foldl .list s).listed.toList =
      s.listed.toList ++ l.filter fun n => n ∉ s.listed.toList := by
  induction l generalizing s with
  | nil => exact ⟨hs, by simp⟩
  | cons n l ih =>
    have hn := hl n List.mem_cons_self
    obtain ⟨hnew, honce⟩ := List.nodup_cons.1 honce
    obtain ⟨hmarked, hlisted⟩ := ih (hs.list hn) (fun m hm => hl m (.tail n hm)) honce
    refine ⟨hmarked, ?_⟩
    rw [List.foldl_cons, hlisted, hs.listed_list hn, List.filter_cons]
    by_cases hold : n ∈ s.listed.toList
    · simp [hold]
    · have hsame : l.filter (fun m => m ∉ s.listed.toList ++ [n]) =
          l.filter fun m => m ∉ s.listed.toList := by
        refine List.filter_congr fun m hm => ?_
        have hne : m ≠ n := fun heq => hnew (heq ▸ hm)
        simp [hne]
      rw [if_neg hold, hsame]
      simp [hold]

end Marked

/-- What is listed is what the roots reach, each location once, and an edge from a location to one
that is listed after it lies on a cycle. -/
structure Covers (p : Program) (roots : List NodeId) (s : Postorder) : Prop where
  marked : s.Marked p
  mem_iff : ∀ x, x ∈ s.listed.toList ↔ ∃ r ∈ roots, p.Reaches r x
  once : s.listed.toList.Nodup
  sorted : s.listed.toList.Pairwise fun a b => b ∈ p.targets a → p.Reaches b a

namespace Covers

variable {roots : List NodeId} {search : NodeId → List NodeId}

theorem empty (p : Program) : Covers p [] ⟨.replicate p.nodeCount false, #[]⟩ where
  marked := by
    refine ⟨Array.size_replicate, fun n _ => ?_⟩
    simp only [isVisited, Array.getD_eq_getD_getElem?, Array.getElem?_replicate]
    split <;> simp
  mem_iff := by simp
  once := .nil
  sorted := .nil

/-- One more search. What it lists again is left out, and no edge leads there from what is kept
unless the target was listed before. -/
theorem listFrom (hs : s.Covers p roots) (hp : p.Closed) (hsearch : p.ListsPostorder search)
    (hn : p.contains n = true) : Covers p (roots ++ [n]) (p.listFrom search s n) := by
  have hroots : ∀ x, (∃ r ∈ roots ++ [n], p.Reaches r x) ↔ x ∈ s.listed.toList ∨ p.Reaches n x := by
    intro x
    simp [hs.mem_iff, or_and_right, exists_or]
  unfold Program.listFrom
  by_cases hold : s.isVisited n = true
  · rw [if_pos (by simp [hold])]
    refine { hs with mem_iff := fun x => ?_ }
    obtain ⟨r, hr, hreach⟩ := (hs.mem_iff n).1 ((hs.marked.iff n hn).1 hold)
    rw [hroots, or_iff_left_of_imp fun hx => (hs.mem_iff x).2 ⟨r, hr, hreach.trans hx⟩]
  · rw [if_neg (by simp [hn, hold])]
    have hlist := hsearch n hn
    obtain ⟨hmarked, hlisted⟩ := hs.marked.foldl
      (fun x hx => (hlist.mem_iff.1 hx).contains hp hn) hlist.nodup
    have hclosed : ∀ a ∈ s.listed.toList, ∀ b ∈ p.targets a, b ∈ s.listed.toList := by
      intro a ha b hb
      obtain ⟨r, hr, hreach⟩ := (hs.mem_iff a).1 ha
      exact (hs.mem_iff b).2 ⟨r, hr, hreach.target hb⟩
    refine ⟨hmarked, fun x => ?_, ?_, ?_⟩
    · rw [hroots, hlisted, List.mem_append, List.mem_filter, hlist.mem_iff, decide_eq_true_eq]
      tauto
    · rw [hlisted]
      refine List.nodup_append.2 ⟨hs.once, hlist.nodup.filter _, ?_⟩
      rintro a ha b hb rfl
      exact of_decide_eq_true (List.mem_filter.1 hb).2 ha
    · rw [hlisted]
      refine List.pairwise_append.2 ⟨hs.sorted, hlist.sorted.filter _, fun a ha b hb hedge => ?_⟩
      exact absurd (hclosed a ha b hedge) (of_decide_eq_true (List.mem_filter.1 hb).2)

theorem listAll (hs : s.Covers p roots) (hp : p.Closed) (hsearch : p.ListsPostorder search)
    (more : List NodeId) (hmore : ∀ n ∈ more, p.contains n = true) :
    Covers p (roots ++ more) (more.foldl (p.listFrom search) s) := by
  induction more generalizing roots s with
  | nil => simpa using hs
  | cons n more ih =>
    have hrest := ih (hs.listFrom hp hsearch (hmore n List.mem_cons_self))
      fun m hm => hmore m (.tail n hm)
    rwa [List.append_assoc] at hrest

end Covers

end Postorder

/-- The location is reached from the entry of the program or from that of a function. -/
def Reached (p : Program) (l : NodeId) : Prop :=
  p.Reaches p.entry l ∨ ∃ f ∈ p.functions, p.Reaches f.entry l

theorem mem_starts : n ∈ p.starts ↔ n = p.entry ∨ ∃ f ∈ p.functions, f.entry = n := by
  simp [starts]

theorem reached_iff : p.Reached x ↔ ∃ n ∈ p.starts, p.Reaches n x := by
  simp only [mem_starts]
  constructor
  · rintro (hx | ⟨f, hf, hx⟩)
    · exact ⟨p.entry, .inl rfl, hx⟩
    · exact ⟨f.entry, .inr ⟨f, hf, rfl⟩, hx⟩
  · rintro ⟨n, rfl | ⟨f, hf, rfl⟩, hx⟩
    · exact .inl hx
    · exact .inr ⟨f, hf, hx⟩

theorem Built.contains_of_mem_starts (hp : p.Built) (hn : n ∈ p.starts) : p.contains n = true := by
  rcases mem_starts.1 hn with rfl | ⟨f, hf, rfl⟩
  · exact hp.rooted.1
  · exact hp.rooted.2 f hf

/-! ## Numbers -/

section Ranks

variable {search : NodeId → List NodeId}

/-- The locations in the order in which they are listed. -/
def listing (p : Program) (search : NodeId → List NodeId) : List NodeId :=
  (p.postorder search).listed.toList

variable (hp : p.Built) (hsearch : p.ListsPostorder search)

include hp hsearch

theorem Built.covers : (p.postorder search).Covers p p.starts :=
  (Postorder.Covers.empty p).listAll hp.closed hsearch p.starts
    fun _ hn => hp.contains_of_mem_starts hn

theorem Built.mem_listing : x ∈ p.listing search ↔ p.Reached x := by
  rw [reached_iff]
  exact (hp.covers hsearch).mem_iff x

theorem Built.nodup_listing : (p.listing search).Nodup := (hp.covers hsearch).once

theorem Built.sorted_listing :
    (p.listing search).Pairwise fun a b => b ∈ p.targets a → p.Reaches b a :=
  (hp.covers hsearch).sorted

theorem Built.contains_of_mem_listing (hx : x ∈ p.listing search) : p.contains x = true := by
  obtain ⟨n, hn, hreach⟩ := ((hp.covers hsearch).mem_iff x).1 hx
  exact hreach.contains hp.closed (hp.contains_of_mem_starts hn)

omit hp hsearch

/-- A table in which some locations get numbers. -/
def assign (ranks : Array Nat) (f : Nat → Nat) (pairs : List (NodeId × Nat)) : Array Nat :=
  pairs.foldl (fun ranks q => ranks.setIfInBounds q.1.index (f q.2)) ranks

theorem rankIn_assign_of_not_mem (ranks : Array Nat) (f : Nat → Nat) {pairs : List (NodeId × Nat)}
    (hn : n ∉ pairs.map Prod.fst) : rankIn (assign ranks f pairs) n = rankIn ranks n := by
  induction pairs generalizing ranks with
  | nil => rfl
  | cons q pairs ih =>
    rw [List.map_cons, List.mem_cons, not_or] at hn
    obtain ⟨hne, hrest⟩ := hn
    have hindex : q.1.index ≠ n.index := fun heq => hne (congrArg NodeId.mk heq.symm)
    rw [assign, List.foldl_cons]
    refine (ih _ hrest).trans ?_
    simp [rankIn, Array.getD_eq_getD_getElem?, hindex]

theorem rankIn_assign_of_mem (ranks : Array Nat) (f : Nat → Nat) {pairs : List (NodeId × Nat)}
    {i : Nat} (hpairs : (pairs.map Prod.fst).Nodup) (hi : (n, i) ∈ pairs)
    (hn : n.index < ranks.size) : rankIn (assign ranks f pairs) n = f i := by
  induction pairs generalizing ranks with
  | nil => simp at hi
  | cons q pairs ih =>
    obtain ⟨hnew, hrest⟩ := List.nodup_cons.1 hpairs
    rw [assign, List.foldl_cons]
    rcases List.mem_cons.1 hi with rfl | hi
    · refine (rankIn_assign_of_not_mem _ f hnew).trans ?_
      simp [rankIn, Array.getD_eq_getD_getElem?, hn]
    · exact ih _ hrest hi (by simpa using hn)

theorem rankBy_eq (p : Program) (search : NodeId → List NodeId) (n : NodeId) :
    p.rankBy search n = rankIn (assign (.replicate p.nodeCount unreached)
      (fun i => (p.listing search).length - 1 - i) (p.listing search).zipIdx) n := rfl

theorem rankBy_of_not_mem (hn : n ∉ p.listing search) : p.rankBy search n = unreached := by
  rw [rankBy_eq, rankIn_assign_of_not_mem _ _ (by simpa using hn)]
  simp only [rankIn, Array.getD_eq_getD_getElem?, Array.getElem?_replicate]
  split <;> rfl

include hp hsearch

/-- The number of a location is its position, counted from the end of the list. -/
theorem rankBy_of_mem (hn : n ∈ p.listing search) :
    p.rankBy search n = (p.listing search).length - 1 - (p.listing search).idxOf n := by
  have hlt := List.idxOf_lt_length_iff.2 hn
  rw [rankBy_eq]
  refine rankIn_assign_of_mem _ _ (i := (p.listing search).idxOf n) ?_ ?_ ?_
  · simpa using hp.nodup_listing hsearch
  · rw [List.mem_zipIdx_iff_getElem?, List.getElem?_eq_getElem hlt, List.getElem_idxOf hlt]
  · rw [Array.size_replicate]
    exact of_decide_eq_true (hp.contains_of_mem_listing hsearch hn)

theorem rankBy_bijOn :
    Set.BijOn (p.rankBy search) {n | p.Reached n} (Set.Iio (p.listing search).length) := by
  have hmem : ∀ n, p.Reached n → n ∈ p.listing search := fun n => (hp.mem_listing hsearch).2
  refine ⟨fun n hn => ?_, fun a ha b hb hab => ?_, fun i hi => ?_⟩
  · have hlt := List.idxOf_lt_length_iff.2 (hmem n hn)
    rw [Set.mem_Iio, rankBy_of_mem hp hsearch (hmem n hn)]
    omega
  · have hlt := List.idxOf_lt_length_iff.2 (hmem a ha)
    have hlt' := List.idxOf_lt_length_iff.2 (hmem b hb)
    rw [rankBy_of_mem hp hsearch (hmem a ha), rankBy_of_mem hp hsearch (hmem b hb)] at hab
    exact (List.idxOf_inj (hmem a ha)).1 (by omega)
  · have hi : i < (p.listing search).length := hi
    have hlt : (p.listing search).length - 1 - i < (p.listing search).length := by omega
    have hat := List.getElem_mem hlt
    refine ⟨(p.listing search)[(p.listing search).length - 1 - i],
      (hp.mem_listing hsearch).1 hat, ?_⟩
    rw [rankBy_of_mem hp hsearch hat, (hp.nodup_listing hsearch).idxOf_getElem]
    omega

theorem ncard_reached : {n | p.Reached n}.ncard = (p.listing search).length := by
  have hset : {n | p.Reached n} = ((p.listing search).toFinset : Set NodeId) := by
    ext n
    simp [hp.mem_listing hsearch]
  rw [hset, Set.ncard_coe_finset, List.toFinset_card_of_nodup (hp.nodup_listing hsearch)]

theorem rankBy_lt_of_edge {e : ProgramEdge} (he : e ∈ p.edges) (hsource : p.Reached e.source)
    (hback : ¬ p.Reaches e.target e.source) :
    p.rankBy search e.source < p.rankBy search e.target := by
  have hleaving : e ∈ p.leaving e.source := List.mem_filter.2 ⟨he.val, by simp⟩
  have hedge : e.target ∈ p.targets e.source := List.mem_map_of_mem hleaving
  have hmem := (hp.mem_listing hsearch).2 hsource
  have hmem' : e.target ∈ p.listing search := by
    obtain ⟨r, hr, hreach⟩ := reached_iff.1 hsource
    exact (hp.mem_listing hsearch).2 (reached_iff.2 ⟨r, hr, hreach.step hleaving⟩)
  have hlt := List.idxOf_lt_length_iff.2 hmem
  have hlt' := List.idxOf_lt_length_iff.2 hmem'
  -- Otherwise the target is listed after the source, so it leads back.
  have hbefore : (p.listing search).idxOf e.target < (p.listing search).idxOf e.source := by
    by_contra hnot
    rcases Nat.lt_or_eq_of_le (Nat.le_of_not_lt hnot) with hafter | heq
    · have hcycle := List.pairwise_iff_getElem.1 (hp.sorted_listing hsearch) _ _ hlt hlt' hafter
      rw [List.getElem_idxOf hlt, List.getElem_idxOf hlt'] at hcycle
      exact hback (hcycle hedge)
    · rw [(List.idxOf_inj hmem).1 heq] at hback
      exact hback .refl
  rw [rankBy_of_mem hp hsearch hmem, rankBy_of_mem hp hsearch hmem']
  omega

end Ranks

/-! ## The search of the library -/

/-- The locations of the program that are not in a list. -/
def unseen (p : Program) (seen : List NodeId) : Finset Nat :=
  (Finset.range p.nodeCount).filter fun i => (⟨i⟩ : NodeId) ∉ seen

theorem unseen_subset {seen seen' : List NodeId} (h : ∀ x ∈ seen, x ∈ seen') :
    p.unseen seen' ⊆ p.unseen seen := by
  intro i hi
  obtain ⟨hrange, hnew⟩ := Finset.mem_filter.1 hi
  exact Finset.mem_filter.2 ⟨hrange, fun hold => hnew (h _ hold)⟩

/-- To see a location for the first time leaves fewer of them. -/
theorem card_unseen_lt {seen : List NodeId} (hn : p.contains n = true) (hnew : n ∉ seen) :
    (p.unseen (n :: seen)).card < (p.unseen seen).card := by
  refine Finset.card_lt_card (Finset.ssubset_iff_subset_ne.2 ⟨?_, fun heq => ?_⟩)
  · exact unseen_subset fun x hx => List.mem_cons_of_mem n hx
  · have hmem : n.index ∈ p.unseen seen :=
      Finset.mem_filter.2 ⟨Finset.mem_range.2 (of_decide_eq_true hn), hnew⟩
    rw [← heq] at hmem
    exact (Finset.mem_filter.1 hmem).2 List.mem_cons_self

/-- Locations are visited one after the other. -/
def visitAll (p : Program) (fuel : Nat) (todo : List NodeId) (s : Search) : Search :=
  todo.foldl (fun acc n => visit p fuel n acc) s

theorem visit_of_mem (fuel : Nat) {s : Search} (hn : n ∈ s.seen) : visit p fuel n s = s := by
  cases fuel with
  | zero => rfl
  | succ fuel => rw [visit, if_pos (List.contains_iff_mem.2 hn)]

theorem visit_of_not_mem (fuel : Nat) {s : Search} (hn : n ∉ s.seen) :
    visit p (fuel + 1) n s =
      { visitAll p fuel (p.targets n) { s with seen := n :: s.seen } with
        finished := n :: (visitAll p fuel (p.targets n)
          { s with seen := n :: s.seen }).finished } := by
  rw [visit, if_neg fun hold => hn (List.contains_iff_mem.1 hold), visitAll, targets,
    List.foldl_map]

/-- From `s` to `s'` the search has listed `l`, as a depth-first search does. -/
structure Search.Lists (p : Program) (todo : List NodeId) (s s' : Search) (l : List NodeId) :
    Prop where
  postorder : p.DepthFirst {x | x ∈ s.seen} todo l
  finished : s'.finished = l.reverse ++ s.finished
  seen : ∀ x, x ∈ s'.seen ↔ x ∈ s.seen ∨ x ∈ l

/-- With more fuel than there are locations to be seen, the visits get through. -/
theorem visitAll_lists (hp : p.Closed) (fuel : Nat) (todo : List NodeId) (s : Search)
    (htodo : ∀ n ∈ todo, p.contains n = true) (hfuel : (p.unseen s.seen).card < fuel) :
    ∃ l, Search.Lists p todo s (visitAll p fuel todo s) l := by
  induction fuel generalizing todo s with
  | zero => exact absurd hfuel (Nat.not_lt_zero _)
  | succ fuel ihfuel =>
    induction todo generalizing s with
    | nil => exact ⟨[], .done _, rfl, by simp [visitAll]⟩
    | cons n todo ihtodo =>
      have hn := htodo n List.mem_cons_self
      have htodo : ∀ m ∈ todo, p.contains m = true := fun m hm => htodo m (.tail n hm)
      by_cases hold : n ∈ s.seen
      · obtain ⟨l, hl⟩ := ihtodo s htodo hfuel
        rw [visitAll, List.foldl_cons, visit_of_mem _ hold]
        exact ⟨l, .passed hold hl.postorder, hl.finished, hl.seen⟩
      · have hless := card_unseen_lt hn hold
        obtain ⟨below, hbelow⟩ := ihfuel (p.targets n) { s with seen := n :: s.seen }
          (fun m hm => (Reaches.refl.target hm).contains hp hn) (by dsimp only; omega)
        have hvisit := visit_of_not_mem (p := p) fuel hold
        have hseen : ∀ x, x ∈ (visit p (fuel + 1) n s).seen ↔
            x ∈ insert n {x | x ∈ s.seen} ∪ {x | x ∈ below} := by
          intro x
          rw [hvisit]
          simpa using hbelow.seen x
        have hfewer : p.unseen (visit p (fuel + 1) n s).seen ⊆ p.unseen s.seen :=
          unseen_subset fun x hx => (hseen x).2 (.inl (.inr hx))
        obtain ⟨l, hl⟩ := ihtodo (visit p (fuel + 1) n s) htodo
          (Nat.lt_of_le_of_lt (Finset.card_le_card hfewer) hfuel)
        refine ⟨below ++ n :: l, .entered hold ?_ ?_, ?_, fun x => ?_⟩
        · simpa [Set.insert_def] using hbelow.postorder
        · rw [← show {x | x ∈ (visit p (fuel + 1) n s).seen} = _ from Set.ext hseen]
          exact hl.postorder
        · rw [visitAll, List.foldl_cons]
          refine hl.finished.trans ?_
          rw [hvisit, hbelow.finished]
          simp
        · rw [visitAll, List.foldl_cons]
          refine (hl.seen x).trans ?_
          rw [hseen]
          simp only [Set.mem_union, Set.mem_insert_iff, Set.mem_ofPred_eq, List.mem_append,
            List.mem_cons]
          tauto

theorem listsPostorder_search (hp : p.Closed) : p.ListsPostorder p.search := by
  intro n hn
  have hfuel : (p.unseen []).card < p.nodeCount + 1 := by simp [unseen]
  obtain ⟨l, hl⟩ := visitAll_lists hp (p.nodeCount + 1) [n] ⟨[], []⟩ (by simpa using hn) hfuel
  have hlist : p.search n = l := by
    rw [search, show visit p (p.nodeCount + 1) n ⟨[], []⟩ =
      visitAll p (p.nodeCount + 1) [n] ⟨[], []⟩ from rfl, hl.finished]
    simp
  rw [hlist]
  simpa using hl.postorder

/-- Whatever searches the starts, as long as it lists in postorder, the numbers are the same. -/
theorem rankBy_eq_rank (hp : p.Closed) {search : NodeId → List NodeId}
    (hsearch : p.ListsPostorder search) : p.rankBy search = p.rank := by
  have hsame : p.listFrom search = p.listFrom p.search := by
    funext s n
    unfold listFrom
    cases hn : p.contains n with
    | false => rfl
    | true => rw [(hsearch n hn).unique (listsPostorder_search hp n hn)]
  have hpostorder : p.postorder search = p.postorder p.search := by rw [postorder, hsame, postorder]
  funext n
  rw [rankBy, rank, reversePostorder, reversePostorderBy, reversePostorderBy, hpostorder]

/-! ## The theorem -/

/-- The locations that the entry of the program or of a function reaches are numbered from zero,
each with a number of its own, and all others have the number `unreached`. An edge leads to a larger
number, unless it lies on a cycle. All that is asked of the search is that it lists in postorder
what a depth-first search reaches that follows the edges of a location oldest first. -/
theorem rank_topological (hp : p.Built) (search : NodeId → List NodeId)
    (hsearch : p.ListsPostorder search) :
    Set.BijOn (p.rankBy search) {n | p.Reached n} (Set.Iio {n | p.Reached n}.ncard) ∧
    (∀ n, ¬ p.Reached n → p.rankBy search n = unreached) ∧
    ∀ e ∈ p.edges, p.Reached e.source → ¬ p.Reaches e.target e.source →
      p.rankBy search e.source < p.rankBy search e.target := by
  rw [ncard_reached hp hsearch]
  exact ⟨rankBy_bijOn hp hsearch, fun n hn => rankBy_of_not_mem (mt (hp.mem_listing hsearch).1 hn),
    fun e he hsource hback => rankBy_lt_of_edge hp hsearch he hsource hback⟩

/-- The second function leads into the body of the first one, which is a cycle. The last location is
not reached. -/
def relay : Program where
  nodes := #[⟨⟨0⟩, "main", .entry⟩, ⟨⟨1⟩, "main", .exit⟩, ⟨⟨2⟩, "side", .entry⟩,
    ⟨⟨3⟩, "side", .exit⟩, ⟨⟨4⟩, "side", .plain⟩]
  edges := #[⟨⟨0⟩, .statement, ⟨0⟩, ⟨1⟩, none⟩, ⟨⟨1⟩, .statement, ⟨1⟩, ⟨0⟩, none⟩,
    ⟨⟨2⟩, .call, ⟨2⟩, ⟨0⟩, none⟩, ⟨⟨3⟩, .statement, ⟨2⟩, ⟨3⟩, none⟩]
  functions := [⟨"main", ⟨0⟩, ⟨1⟩⟩, ⟨"side", ⟨2⟩, ⟨3⟩⟩]
  entry := ⟨0⟩

theorem relay_built : relay.Built := .of_redraft rfl rfl rfl rfl

/-- What is closed under the edges of the relay is not left. -/
theorem relay_reaches_within (inside : NodeId → Bool) {a b : NodeId} (ha : inside a = true)
    (hclosed : ∀ e ∈ relay.edges.toList, inside e.source = true → inside e.target = true)
    (h : relay.Reaches a b) : inside b = true := by
  induction h with
  | refl => exact ha
  | step _ he ih =>
    refine hclosed _ (List.mem_filter.1 he).1 ?_
    rw [source_of_mem_leaving he]
    exact ih

/-- The entry of the second function is searched last and comes before all that it leads to. -/
theorem relay_rank_topological : relay.Built ∧
    (relay.Reached ⟨2⟩ ∧ ¬ relay.Reaches ⟨0⟩ ⟨2⟩ ∧ relay.rank ⟨2⟩ < relay.rank ⟨0⟩) ∧
    (¬ relay.Reached ⟨4⟩ ∧ relay.rank ⟨4⟩ = unreached) ∧
    Set.BijOn relay.rank {n | relay.Reached n} (Set.Iio {n | relay.Reached n}.ncard) := by
  obtain ⟨hbij, hout, hedge⟩ :=
    rank_topological relay_built relay.search (listsPostorder_search relay_built.closed)
  have hreached : relay.Reached ⟨2⟩ := .inr ⟨⟨"side", ⟨2⟩, ⟨3⟩⟩, by decide, .refl⟩
  have hback : ¬ relay.Reaches ⟨0⟩ ⟨2⟩ := fun h =>
    absurd (relay_reaches_within (fun n => n.index ≤ 1) rfl (by decide) h) (by decide)
  have hunreached : ¬ relay.Reached ⟨4⟩ := by
    have hwithin : ∀ a : NodeId, a.index ≤ 3 → ¬ relay.Reaches a ⟨4⟩ := fun a ha h =>
      absurd (relay_reaches_within (fun n => n.index ≤ 3) (decide_eq_true ha) (by decide) h)
        (by decide)
    have hentries : ∀ g ∈ relay.functions, g.entry.index ≤ 3 := by decide
    rintro (h | ⟨g, hg, h⟩)
    · exact hwithin ⟨0⟩ (by decide) h
    · exact hwithin g.entry (hentries g hg) h
  have hcall : (⟨⟨2⟩, .call, ⟨2⟩, ⟨0⟩, none⟩ : ProgramEdge) ∈ relay.edges :=
    Array.mem_toList_iff.1 (by decide)
  exact ⟨relay_built, ⟨hreached, hback, hedge _ hcall hreached hback⟩,
    ⟨hunreached, hout _ hunreached⟩, hbij⟩

end ProgramAnalysis.Program
