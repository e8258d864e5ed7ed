import Mathlib.Data.List.Perm.Subperm
import ProgramAnalysis.Proofs.GraphSearch
/-!
A path from a root is a real one, and a shortest.

The search goes back from the target, breadth first, and notes for each node that it finds the node
it came from. `Searching` says how far it has come: the nodes that were found have a depth, which
grows along the queue by at most one, and the depth of a node is the length of the trail from it.
Every path that a root could start passes the queue, so that the root which comes up first has the
least depth (`Searching.depth_le_of_route`), and its trail ends at the target without coming to any
node twice (`Searching.exists_follows`).

The search and the way along the trail are also stated as relations that no number of steps limits
(`SearchEnds`). The search comes to an end, it never looks for a node or for an entry of the trail
that is not there, and `pathTo` is its result (`pathTo_shortest`).
-/

namespace ProgramAnalysis.ReachGraph

variable {ν : Type} {g : ReachGraph ν} {target i : GraphNodeId} {path : GraphPath} {trail : Trail}
  {queue : List GraphNodeId}

/-! ## Routes -/

/-- The path starts at a listed root and leads to `target`, along links that the nodes record and
through live nodes. -/
structure RootPath (g : ReachGraph ν) (target : GraphNodeId) (path : GraphPath) : Prop where
  first : ∃ root ∈ g.roots, path.nodes.head? = some root
  last : path.nodes.getLast? = some target
  live : ∀ i ∈ path.nodes, g.Live i
  length : path.edges.length + 1 = path.nodes.length
  linked : ∀ (k : Nat) (i j : GraphNodeId) (edge : Option EdgeId), path.nodes[k]? = some i →
    path.edges[k]? = some edge → path.nodes[k + 1]? = some j → g.At j fun n => (i, edge) ∈ n.parents

/-- The path leads from a node to `target`. -/
inductive Route (g : ReachGraph ν) (target : GraphNodeId) : GraphNodeId → GraphPath → Prop where
  | here : g.Live target → Route g target target ⟨[target], []⟩
  | next {i j edge path} : g.Live i →
    (g.At j fun n => (i, edge) ∈ n.parents) → Route g target j path →
    Route g target i ⟨i :: path.nodes, edge :: path.edges⟩

namespace Route

variable {i : GraphNodeId} {path : GraphPath}

variable (h : g.Route target i path)

include h

theorem head : ∃ rest, path.nodes = i :: rest := by
  cases h with
  | here => exact ⟨[], rfl⟩
  | next => exact ⟨_, rfl⟩

theorem last : path.nodes.getLast? = some target := by
  induction h with
  | here => rfl
  | next _ _ h ih =>
    obtain ⟨rest, hrest⟩ := h.head
    rw [hrest] at ih ⊢
    rwa [List.getLast?_cons_cons]

theorem live : ∀ j ∈ path.nodes, g.Live j := by
  induction h with
  | here hl => simpa using hl
  | next hl _ _ ih => exact List.forall_mem_cons.2 ⟨hl, ih⟩

theorem length : path.edges.length + 1 = path.nodes.length := by
  induction h with
  | here => rfl
  | next _ _ _ ih => simp [← ih]

theorem linked (k : Nat) (a b : GraphNodeId) (edge : Option EdgeId) (ha : path.nodes[k]? = some a)
    (hedge : path.edges[k]? = some edge) (hb : path.nodes[k + 1]? = some b) :
    g.At b fun n => (a, edge) ∈ n.parents := by
  induction h generalizing k with
  | here => simp at hedge
  | next _ hlink h ih =>
    cases k with
    | zero =>
      obtain ⟨rest, hrest⟩ := h.head
      obtain rfl : _ = a := by simpa using ha
      obtain rfl : _ = edge := by simpa using hedge
      obtain rfl : _ = b := by simpa [hrest] using hb
      exact hlink
    | succ k => exact ih k (by simpa using ha) (by simpa using hedge) (by simpa using hb)

theorem rootPath (hroot : i ∈ g.roots) : g.RootPath target path := by
  obtain ⟨rest, hhead⟩ := h.head
  exact ⟨⟨i, hroot, by rw [hhead]; rfl⟩, h.last, h.live, h.length, h.linked⟩

end Route

/-- A path whose links are recorded is a route. -/
theorem route_of_linked {nodes : List GraphNodeId} {edges : List (Option EdgeId)}
    (hhead : nodes.head? = some i) (hlast : nodes.getLast? = some target)
    (hlive : ∀ j ∈ nodes, g.Live j) (hlength : edges.length + 1 = nodes.length)
    (hlinked : ∀ (k : Nat) (a b : GraphNodeId) (edge : Option EdgeId), nodes[k]? = some a →
      edges[k]? = some edge → nodes[k + 1]? = some b → g.At b fun n => (a, edge) ∈ n.parents) :
    g.Route target i ⟨nodes, edges⟩ := by
  induction nodes generalizing i edges with
  | nil => cases hhead
  | cons a rest ih =>
    obtain rfl : a = i := by simpa using hhead
    obtain ⟨ha, hrest⟩ := List.forall_mem_cons.1 hlive
    cases edges with
    | nil =>
      obtain rfl : rest = [] := List.length_eq_zero_iff.1 (by simpa using hlength.symm)
      obtain rfl : a = target := by simpa using hlast
      exact .here ha
    | cons edge edges =>
      cases rest with
      | nil => simp at hlength
      | cons b rest =>
        have htail : g.Route target b ⟨b :: rest, edges⟩ := by
          refine ih rfl ?_ hrest (by simpa using hlength) fun k c d e hc he hd => ?_
          · rwa [List.getLast?_cons_cons] at hlast
          · exact hlinked (k + 1) c d e (by simpa using hc) (by simpa using he) (by simpa using hd)
        exact .next ha (hlinked 0 a b edge rfl rfl rfl) htail

theorem RootPath.exists_route (h : g.RootPath target path) :
    ∃ root ∈ g.roots, g.Route target root path := by
  obtain ⟨root, hroot, hhead⟩ := h.first
  exact ⟨root, hroot, route_of_linked hhead h.last h.live h.length h.linked⟩

/-! ## The search without a limit of steps -/

/-- The search ends with the result. Each node that is visited exists. -/
inductive Searches (g : ReachGraph ν) (target : GraphNodeId) :
    Trail → List GraphNodeId → Option (GraphNodeId × Trail) → Prop where
  | exhausted {trail : Trail} : Searches g target trail [] none
  | root {trail id queue} : id ∈ g.roots → Searches g target trail (id :: queue) (some (id, trail))
  | next {trail id queue n result} : id ∉ g.roots → g.node? id = some n →
    Searches g target (noteParents g target id n.parents trail queue).1
      (noteParents g target id n.parents trail queue).2 result →
    Searches g target trail (id :: queue) result

/-- The trail leads from a node to `target` along the path. Each node on the way has an entry. -/
inductive Follows (trail : Trail) (target : GraphNodeId) : GraphNodeId → GraphPath → Prop where
  | here : Follows trail target target ⟨[target], []⟩
  | next {i j edge path} : i ≠ target →
    trail.get? i = some (j, edge) → Follows trail target j path →
    Follows trail target i ⟨i :: path.nodes, edge :: path.edges⟩

/-- The search for a path ends with the result. -/
inductive SearchEnds (g : ReachGraph ν) (target : GraphNodeId) : Option GraphPath → Prop where
  | dead : ¬ g.Live target → SearchEnds g target none
  | rootless : g.Live target → Searches g target .empty [target] none → SearchEnds g target none
  | found {root trail path} : g.Live target →
    Searches g target .empty [target] (some (root, trail)) → Follows trail target root path →
    SearchEnds g target (some path)

theorem Searches.unique {result result' : Option (GraphNodeId × Trail)}
    (h : g.Searches target trail queue result) (h' : g.Searches target trail queue result') :
    result = result' := by
  induction h with
  | exhausted =>
    cases h'
    rfl
  | root hroot =>
    cases h' with
    | root => rfl
    | next hno => exact absurd hroot hno
  | next hno hn _ ih =>
    cases h' with
    | root hroot => exact absurd hroot hno
    | next _ hn' hrest =>
      obtain rfl := Option.some.inj (hn.symm.trans hn')
      exact ih hrest

theorem Follows.unique {path' : GraphPath} (h : Follows trail target i path)
    (h' : Follows trail target i path') : path = path' := by
  induction h generalizing path' with
  | here =>
    cases h' with
    | here => rfl
    | next hne => exact absurd rfl hne
  | next hne hentry _ ih =>
    cases h' with
    | here => exact absurd rfl hne
    | next _ hentry' hrest =>
      cases hentry.symm.trans hentry'
      rw [ih hrest]

theorem SearchEnds.unique {result result' : Option GraphPath} (h : g.SearchEnds target result)
    (h' : g.SearchEnds target result') : result = result' := by
  cases h with
  | dead hdead =>
    cases h' with
    | dead => rfl
    | rootless hlive => exact absurd hlive hdead
    | found hlive => exact absurd hlive hdead
  | rootless hlive hs =>
    cases h' with
    | dead hdead => exact absurd hlive hdead
    | rootless => rfl
    | found _ hs' => cases hs.unique hs'
  | found hlive hs hf =>
    cases h' with
    | dead hdead => exact absurd hlive hdead
    | rootless _ hs' => cases hs.unique hs'
    | found _ hs' hf' =>
      cases hs.unique hs'
      rw [hf.unique hf']

/-- As many steps as the path has edges are enough to follow the trail. -/
theorem Follows.follow_eq {steps : Nat} (h : Follows trail target i path)
    (hsteps : path.edges.length ≤ steps) : follow trail target steps i = path := by
  induction h generalizing steps with
  | here => cases steps <;> simp [follow]
  | next hne hentry _ ih =>
    cases steps with
    | zero => simp at hsteps
    | succ steps =>
      rw [follow, if_neg hne, hentry]
      simp only [ih (Nat.le_of_succ_le_succ hsteps)]

/-! ## Depths -/

/-- An entry of the trail was there before, or is one of the links that were looked at. -/
theorem get?_noteParents {id : GraphNodeId} {links : List ParentLink}
    {entry : GraphNodeId × Option EdgeId}
    (h : (noteParents g target id links trail queue).1.get? i = some entry) :
    trail.get? i = some entry ∨
      i ≠ target ∧ trail.contains i = false ∧ entry.1 = id ∧ (i, entry.2) ∈ links := by
  induction links generalizing trail queue with
  | nil => exact .inl h
  | cons link rest ih =>
    obtain ⟨p, edge⟩ := link
    unfold noteParents at h
    split at h
    · next hnew =>
      simp only [ne_eq, Bool.and_eq_true, decide_eq_true_eq, Bool.not_eq_true'] at hnew
      rcases ih h with hold | ⟨hne, hno, hid, hmem⟩
      · rw [Index.get?_insert] at hold
        split at hold
        · next heq =>
          subst heq
          cases hold
          exact .inr ⟨hnew.1.1, hnew.1.2, rfl, List.mem_cons_self⟩
        · exact .inl hold
      · refine .inr ⟨hne, ?_, hid, List.mem_cons_of_mem _ hmem⟩
        rw [Index.contains, Index.get?_insert] at hno
        split at hno
        · cases hno
        · exact hno
    · rcases ih h with hold | ⟨hne, hno, hid, hmem⟩
      · exact .inl hold
      · exact .inr ⟨hne, hno, hid, List.mem_cons_of_mem _ hmem⟩

/-- How far a search has come: the nodes of `done` were visited, and those of `queue` were found and
are visited next. -/
structure Searching (g : ReachGraph ν) (target : GraphNodeId) (trail : Trail)
    (depth : GraphNodeId → Nat) (done queue : List GraphNodeId) : Prop where
  walking : Walking g.liveParents target done queue
  live : ∀ i ∈ done ++ queue, g.Live i
  noRoot : ∀ i ∈ done, i ∉ g.roots
  known : ∀ p, p = target ∨ trail.contains p = true ↔ p ∈ done ++ queue
  start : depth target = 0
  entry : ∀ i next edge, trail.get? i = some (next, edge) → next ∈ done ++ queue ∧
    (g.At next fun n => (i, edge) ∈ n.parents) ∧ depth i = depth next + 1
  ordered : (done ++ queue).Pairwise (depth · ≤ depth ·)
  near : ∀ id rest, queue = id :: rest → ∀ j ∈ queue, depth j ≤ depth id + 1
  spread : ∀ i ∈ done, ∀ j ∈ g.liveParents i, depth j ≤ depth i + 1

section Searching

variable {trail : Trail} {depth : GraphNodeId → Nat} {id i : GraphNodeId}
  {done queue : List GraphNodeId}

theorem searching_start (h : g.Live target) :
    g.Searching target .empty (fun _ => 0) [] [target] where
  walking := walking_start _ target
  live i hi := by
    obtain rfl : i = target := by simpa using hi
    exact h
  noRoot i hi := absurd hi List.not_mem_nil
  known p := by simp [Index.contains, Index.get?_empty]
  start := rfl
  entry i next edge hi := by cases hi
  ordered := by simp
  near _ _ _ _ _ := Nat.zero_le _
  spread i hi := absurd hi List.not_mem_nil

namespace Searching

section

variable (h : g.Searching target trail depth done (id :: queue))

include h

/-- No node is found after the front of the queue at a smaller depth. -/
theorem le_of_mem_queue (hi : i ∈ id :: queue) : depth id ≤ depth i := by
  have hqueue := (List.pairwise_append.1 h.ordered).2.1
  rcases List.mem_cons.1 hi with rfl | hi
  · exact Nat.le_refl _
  · exact (List.pairwise_cons.1 hqueue).1 i hi

theorem le_of_mem_found (hi : i ∈ done ++ id :: queue) : depth i ≤ depth id + 1 := by
  rcases List.mem_append.1 hi with hi | hi
  · have hle := (List.pairwise_append.1 h.ordered).2.2 i hi id List.mem_cons_self
    exact Nat.le_succ_of_le hle
  · exact h.near id queue rfl i hi

/-- The front of the queue is visited: the parents that are found there are one deeper. -/
theorem step {n : GraphNode ν} (hn : g.node? id = some n) (hroot : id ∉ g.roots) :
    ∃ depth', g.Searching target (noteParents g target id n.parents trail queue).1 depth'
      (done ++ [id]) (noteParents g target id n.parents trail queue).2 := by
  have hlisted : g.listed GraphNode.parents id = n.parents := by simp [listed, hn]
  rw [← hlisted]
  obtain ⟨hqueue, hknown⟩ :=
    noteParents_spec (g := g) id (g.listed GraphNode.parents id) queue h.known
  let new := newcomers (done ++ id :: queue) (g.liveParents id)
  let depth' := fun i => if i ∈ new then depth id + 1 else depth i
  have hqueue : (noteParents g target id (g.listed GraphNode.parents id) trail queue).2 =
      queue ++ new := hqueue
  have hfound : (done ++ [id]) ++ (queue ++ new) = (done ++ id :: queue) ++ new := by simp
  have hnew : ∀ i ∈ new, depth' i = depth id + 1 := fun i hi => if_pos hi
  have hold : ∀ i ∈ done ++ id :: queue, depth' i = depth i := fun i hi =>
    if_neg fun hn => (mem_newcomers.1 hn).2 hi
  have hid : id ∈ done ++ id :: queue := by simp
  have htarget : target ∈ done ++ id :: queue := (h.known target).1 (.inl rfl)
  have hbound : ∀ i ∈ (done ++ id :: queue) ++ new, depth' i ≤ depth id + 1 := by
    intro i hi
    rcases List.mem_append.1 hi with hi | hi
    · rw [hold i hi]
      exact h.le_of_mem_found hi
    · exact Nat.le_of_eq (hnew i hi)
  refine ⟨depth', ?_⟩
  rw [hqueue]
  constructor
  case walking => exact h.walking.step
  case live =>
    rw [hfound]
    intro i hi
    rcases List.mem_append.1 hi with hi | hi
    · exact h.live i hi
    · exact (mem_liveParents.1 (mem_newcomers.1 hi).1).2
  case noRoot =>
    intro i hi
    rcases List.mem_append.1 hi with hi | hi
    · exact h.noRoot i hi
    · rwa [List.mem_singleton.1 hi]
  case known =>
    rw [hfound]
    exact hknown
  case start =>
    rw [hold target htarget]
    exact h.start
  case entry =>
    rw [hfound]
    intro i next edge hentry
    rcases get?_noteParents hentry with hentry | ⟨hne, hno, rfl, hlink⟩
    · obtain ⟨hnext, hlink, hdepth⟩ := h.entry i next edge hentry
      have hi : i ∈ done ++ id :: queue :=
        (h.known i).1 (.inr (by rw [Index.contains, hentry]; rfl))
      refine ⟨List.mem_append_left _ hnext, hlink, ?_⟩
      rw [hold i hi, hold next hnext]
      exact hdepth
    · have hi : i ∈ new := by
        have hin := (hknown i).1 (.inr (by rw [Index.contains, hentry]; rfl))
        rcases List.mem_append.1 hin with hin | hin
        · rcases (h.known i).2 hin with heq | hyes
          · exact absurd heq hne
          · rw [hno] at hyes
            cases hyes
        · exact hin
      refine ⟨List.mem_append_left _ hid, mem_listed.1 hlink, ?_⟩
      rw [hnew i hi, hold _ hid]
  case ordered =>
    rw [hfound]
    refine List.pairwise_append.2 ⟨?_, ?_, fun i hi j hj => ?_⟩
    · refine h.ordered.imp_of_mem fun hi hj hle => ?_
      rwa [hold _ hi, hold _ hj]
    · exact List.pairwise_of_forall_mem_list fun i hi j hj => by rw [hnew i hi, hnew j hj]
    · rw [hnew j hj]
      exact hbound i (List.mem_append_left _ hi)
  case near =>
    intro front rest hfront j hj
    have hle : depth id ≤ depth' front := by
      have hmem : front ∈ queue ++ new := by simp [hfront]
      rcases List.mem_append.1 hmem with hmem | hmem
      · have hq : front ∈ id :: queue := List.mem_cons_of_mem _ hmem
        rw [hold front (List.mem_append_right _ hq)]
        exact h.le_of_mem_queue hq
      · rw [hnew front hmem]
        exact Nat.le_succ _
    have hj : depth' j ≤ depth id + 1 := by
      refine hbound j ?_
      rw [← hfound]
      exact List.mem_append_right _ hj
    omega
  case spread =>
    intro i hi j hj
    rcases List.mem_append.1 hi with hi | hi
    · rw [hold i (List.mem_append_left _ hi), hold j (h.walking.closed i hi j hj)]
      exact h.spread i hi j hj
    · obtain rfl : i = id := by simpa using hi
      rw [hold i hid]
      by_cases hmem : j ∈ done ++ i :: queue
      · exact hbound j (List.mem_append_left _ hmem)
      · exact hbound j (List.mem_append_right _ (mem_newcomers.2 ⟨hj, hmem⟩))

/-- A route from a node that was not visited is at least as long as the front of the queue is deep.
-/
theorem depth_le_of_route (hroute : g.Route target i path) :
    i ∈ done ∧ depth i ≤ path.edges.length ∨ depth id ≤ path.edges.length := by
  -- By induction from the target on: the route leaves the nodes that were visited by way of the
  -- queue, and what stands there is at least as deep as the front.
  have hcase : ∀ {j k}, j ∈ done ++ id :: queue → depth j ≤ k →
      j ∈ done ∧ depth j ≤ k ∨ depth id ≤ k := by
    intro j k hj hk
    rcases List.mem_append.1 hj with hj | hj
    · exact .inl ⟨hj, hk⟩
    · exact .inr ((h.le_of_mem_queue hj).trans hk)
  induction hroute with
  | here => exact hcase ((h.known target).1 (.inl rfl)) (Nat.le_of_eq h.start)
  | @next i j edge path hlive hlink _ ih =>
    rcases ih with ⟨hj, hdepth⟩ | hdepth
    · have hparent : i ∈ g.liveParents j :=
        mem_liveParents.2 ⟨hlink.mono fun n hn => List.mem_map_of_mem hn, hlive⟩
      refine hcase (h.walking.closed j hj i hparent) ?_
      exact (h.spread j hj i hparent).trans (Nat.succ_le_succ hdepth)
    · exact .inr (Nat.le_succ_of_le hdepth)

end

/-- The trail leads from each node that was found to the target, over nodes that were found, and the
way is as long as the node is deep. -/
theorem exists_follows (h : g.Searching target trail depth done queue) (hi : i ∈ done ++ queue) :
    ∃ path, Follows trail target i path ∧ g.Route target i path ∧
      path.edges.length = depth i ∧ path.nodes.Nodup ∧
      ∀ j ∈ path.nodes, j ∈ done ++ queue ∧ depth j ≤ depth i := by
  induction hd : depth i using Nat.strong_induction_on generalizing i with
  | _ d ih =>
    subst hd
    by_cases htarget : i = target
    · subst htarget
      refine ⟨⟨[i], []⟩, .here, .here (h.live i hi), h.start.symm, by simp, fun j hj => ?_⟩
      obtain rfl : j = i := by simpa using hj
      exact ⟨hi, Nat.le_refl _⟩
    · have hcontains := ((h.known i).2 hi).resolve_left htarget
      obtain ⟨⟨next, edge⟩, hentry⟩ := Option.isSome_iff_exists.1 hcontains
      obtain ⟨hnext, hlink, hdepth⟩ := h.entry i next edge hentry
      obtain ⟨path, hf, hr, hlength, hnodup, hnodes⟩ := ih (depth next) (by omega) hnext rfl
      refine ⟨_, .next htarget hentry hf, .next (h.live i hi) hlink hr, ?_, ?_, fun j hj => ?_⟩
      · rw [List.length_cons, hlength, hdepth]
      · -- The nodes that follow are less deep.
        refine List.nodup_cons.2 ⟨fun hmem => ?_, hnodup⟩
        have hle := (hnodes i hmem).2
        omega
      · rcases List.mem_cons.1 hj with rfl | hj
        · exact ⟨hi, Nat.le_refl _⟩
        · obtain ⟨hj, hle⟩ := hnodes j hj
          exact ⟨hj, by omega⟩

/-- The trail has an entry for every step of the way. -/
theorem length_le_size (h : g.Searching target trail depth done queue)
    (hroute : g.Route target i path) (hnodup : path.nodes.Nodup)
    (hnodes : ∀ j ∈ path.nodes, j ∈ done ++ queue) : path.edges.length ≤ trail.size := by
  have hkeys : path.nodes ⊆ target :: trail.keys := by
    intro j hj
    rcases (h.known j).2 (hnodes j hj) with rfl | hcontains
    · exact List.mem_cons_self
    · obtain ⟨entry, hentry⟩ := Option.isSome_iff_exists.1 hcontains
      exact List.mem_cons_of_mem _ (Index.mem_keys_of_get? hentry)
  have hle := (hnodup.subperm hkeys).length_le
  rw [← hroute.length, List.length_cons, Index.keys, List.length_map] at hle
  exact Nat.le_of_succ_le_succ hle

end Searching

/-- The steps that are given to a search are enough. -/
theorem searches_searchRoot {steps : Nat} (h : g.Searching target trail depth done queue)
    (hsteps : g.budget GraphNode.parents ≤ steps + done.length) :
    g.Searches target trail queue (searchRoot g target steps trail queue) := by
  induction steps generalizing trail depth done queue with
  | zero =>
    obtain rfl := h.walking.queue_eq_nil (fun _ => sum_liveParents_lt) (by omega)
    exact .exhausted
  | succ steps ih =>
    cases queue with
    | nil => exact .exhausted
    | cons id queue =>
      unfold searchRoot
      split
      · next hroot => exact .root (by simpa using hroot)
      · next hroot =>
        have hroot : id ∉ g.roots := by simpa using hroot
        obtain ⟨n, hn, -⟩ := h.live id (by simp)
        obtain ⟨depth', hstep⟩ := h.step hn hroot
        rw [hn]
        refine .next hroot hn (ih hstep ?_)
        rw [List.length_append, List.length_singleton]
        omega

/-- When a root comes up, it stands at the front of the queue of a search. -/
theorem Searches.exists_searching {root : GraphNodeId} {trail' : Trail}
    (hs : g.Searches target trail queue (some (root, trail')))
    (h : g.Searching target trail depth done queue) :
    root ∈ g.roots ∧
      ∃ depth' done' queue', g.Searching target trail' depth' done' (root :: queue') := by
  generalize hresult : some (root, trail') = result at hs
  induction hs generalizing depth done with
  | exhausted => cases hresult
  | root hroot =>
    cases hresult
    exact ⟨hroot, depth, done, _, h⟩
  | @next trail id queue n result hroot hn _ ih =>
    obtain ⟨depth', hstep⟩ := h.step hn hroot
    exact ih hstep hresult

end Searching

/-! ## Shortest paths -/

/-- The path that is found is the one that the trail gives, and no path from a root is shorter. -/
theorem Searches.shortest {root : GraphNodeId} (hlive : g.Live target)
    (hs : g.Searches target .empty [target] (some (root, trail))) :
    Follows trail target root (follow trail target trail.size root) ∧
      g.RootPath target (follow trail target trail.size root) ∧
      (follow trail target trail.size root).nodes.Nodup ∧
      ∀ other, g.RootPath target other →
        (follow trail target trail.size root).nodes.length ≤ other.nodes.length := by
  obtain ⟨hroot, depth, done, queue, h⟩ := hs.exists_searching (searching_start hlive)
  obtain ⟨path, hfollows, hroute, hlength, hnodup, hnodes⟩ :=
    h.exists_follows (i := root) (by simp)
  have hsize := h.length_le_size hroute hnodup fun j hj => (hnodes j hj).1
  rw [hfollows.follow_eq hsize]
  have hpath := hroute.rootPath hroot
  refine ⟨hfollows, hpath, hnodup, fun other hother => ?_⟩
  obtain ⟨root', hroot', hroute'⟩ := hother.exists_route
  have hle : depth root ≤ other.edges.length := by
    rcases h.depth_le_of_route hroute' with ⟨hdone, -⟩ | hle
    · exact absurd hroot' (h.noRoot root' hdone)
    · exact hle
  have := hpath.length
  have := hother.length
  omega

/-- The search ends with what `pathTo` gives. -/
theorem searchEnds_pathTo (g : ReachGraph ν) (target : GraphNodeId) :
    g.SearchEnds target (g.pathTo target) := by
  by_cases hlive : g.Live target
  · have hs : g.Searches target .empty [target]
        (searchRoot g target (g.budget GraphNode.parents) .empty [target]) :=
      searches_searchRoot (searching_start hlive) (Nat.le_refl _)
    rw [pathTo, if_pos (isLive_iff.2 hlive)]
    show g.SearchEnds target
      ((searchRoot g target (g.budget GraphNode.parents) .empty [target]).map _)
    cases hresult : searchRoot g target (g.budget GraphNode.parents) .empty [target] with
    | none => exact .rootless hlive (hresult ▸ hs)
    | some found =>
      obtain ⟨root, trail⟩ := found
      rw [hresult] at hs
      exact .found hlive hs (hs.shortest hlive).1
  · rw [pathTo, if_neg fun hl => hlive (isLive_iff.1 hl)]
    exact .dead hlive

/-- The search for a path comes to an end, with a path exactly if a listed root leads to the live
target through live nodes. The path is a real one without repeated nodes, and no other is shorter.
-/
theorem pathTo_shortest (g : ReachGraph ν) (target : GraphNodeId) :
    (∀ result, g.SearchEnds target result ↔ result = g.pathTo target) ∧
    ((∃ path, g.pathTo target = some path) ↔
      g.Live target ∧ ∃ root ∈ g.roots, g.LeadsTo root target) ∧
    ∀ path, g.pathTo target = some path → g.RootPath target path ∧ path.nodes.Nodup ∧
      ∀ other, g.RootPath target other → path.nodes.length ≤ other.nodes.length := by
  have hends := searchEnds_pathTo g target
  refine ⟨fun result => ⟨fun h => h.unique hends, fun h => h ▸ hends⟩, ?_, fun path hpath => ?_⟩
  · rw [← Option.isSome_iff_exists]
    by_cases hlive : g.Live target
    · rw [pathTo_isSome hlive]
      simp [hlive]
    · have hnone : g.pathTo target = none := if_neg fun hl => hlive (isLive_iff.1 hl)
      simp [hnone, hlive]
  · rw [hpath] at hends
    cases hends with
    | found hlive hs hfollows =>
      obtain ⟨hfollows', hshortest⟩ := hs.shortest hlive
      rw [hfollows.unique hfollows']
      exact hshortest

end ProgramAnalysis.ReachGraph
