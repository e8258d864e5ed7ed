import Mathlib.Logic.Relation
import ProgramAnalysis.Cancellation
/-!
Cancellation flows down, and only down.

What a sequence of calls has made of the tokens can be told from the calls alone: which tokens are
copies of one another and so share a flag (`Sharing`), and which are above which (`Ancestor`). The
table of tokens agrees with the calls (`Reflects`), whatever is made, copied and cancelled in any
order. So a token is cancelled exactly if a token was cancelled that has the flag of the token or of
one above it (`Governs`). Tokens that hold copies of their parents say the same (`exists_nested`).

A token is older than the flags of its children, and copies have the same flag. Hence the number of
the flag goes down on the way up, which is why nothing above a token has its flag.
-/

namespace ProgramAnalysis.Tokens

/-! ## Calls -/

/-- One use of tokens. -/
inductive Call where
  | create
  | child (parent : TokenId)
  | copy (t : TokenId)
  | cancel (t : TokenId)
deriving DecidableEq

/-- The token that a call is made on. -/
def Call.subject? : Call → Option TokenId
  | create => none
  | child t | copy t | cancel t => some t

/-- Whether a call makes a token. -/
def Call.makes : Call → Bool
  | cancel _ => false
  | _ => true

/-- Carries out a call. -/
def perform (ts : Tokens) : Call → Tokens
  | .create => ts.create.2
  | .child parent => (ts.child parent).2
  | .copy t => (ts.copy t).2
  | .cancel t => ts.cancel t

/-- The tokens after calls. -/
def after (calls : List Call) : Tokens := calls.foldl perform empty

/-- The call that made a token. -/
def maker? (calls : List Call) (t : TokenId) : Option Call := (calls.filter Call.makes)[t.index]?

/-- The token was made by one of the calls. -/
def Known (calls : List Call) (t : TokenId) : Prop := (maker? calls t).isSome = true

instance {calls : List Call} {t : TokenId} : Decidable (Known calls t) := instDecidableEqBool _ _

/-- Calls on tokens that were made before. -/
inductive Possible : List Call → Prop where
  | nil : Possible []
  | snoc {calls} {c : Call} : Possible calls →
      (∀ t ∈ c.subject?, Known calls t) → Possible (calls ++ [c])

/-- The tokens are copies of one another, directly or not. -/
def Sharing (made : TokenId → Option Call) : TokenId → TokenId → Prop :=
  Relation.EqvGen fun t s => made t = some (.copy s)

/-- The token `a` is above another. A copy has above it what the token has that it was made from. -/
inductive Ancestor (made : TokenId → Option Call) (a : TokenId) : TokenId → Prop where
  | parent {t} : made t = some (.child a) → Ancestor made a t
  | above {t p} : made t = some (.child p) → Ancestor made a p → Ancestor made a t
  | copied {t s} : made t = some (.copy s) → Ancestor made a s → Ancestor made a t

/-- The token `c` has the flag of `t` or of a token above it. -/
def Governs (made : TokenId → Option Call) (c t : TokenId) : Prop :=
  Sharing made c t ∨ ∃ a, Ancestor made a t ∧ Sharing made c a

/-! ## More calls -/

section

variable {calls more : List Call} {d e : Call} {a c t : TokenId}

theorem known_iff : Known calls t ↔ t.index < (calls.filter Call.makes).length := by
  simp [Known, maker?]

theorem known_of_maker? (h : maker? calls t = some d) : Known calls t := by
  rw [Known, h]
  rfl

theorem maker?_append (ht : Known calls t) : maker? (calls ++ more) t = maker? calls t := by
  rw [maker?, List.filter_append, List.getElem?_append_left (known_iff.1 ht), maker?]

/-- A token is known already, or the last call made it. -/
theorem maker?_concat (h : maker? (calls ++ [d]) t = some e) :
    maker? calls t = some e ∨
      d.makes = true ∧ e = d ∧ t.index = (calls.filter Call.makes).length := by
  by_cases ht : Known calls t
  · rw [maker?_append ht] at h
    exact .inl h
  · rw [known_iff, Nat.not_lt] at ht
    rw [maker?, List.filter_append, List.getElem?_append_right ht] at h
    cases hd : d.makes with
    | false => simp [hd] at h
    | true =>
      rw [List.filter_cons_of_pos hd, List.filter_nil, List.getElem?_singleton] at h
      split at h
      · next hindex => exact .inr ⟨rfl, (Option.some.inj h).symm, by omega⟩
      · cases h

theorem maker?_cancel (calls : List Call) (c : TokenId) :
    maker? (calls ++ [.cancel c]) = maker? calls := by
  funext t
  simp [maker?, Call.makes]

theorem Governs.append (h : Governs (maker? calls) c t) : Governs (maker? (calls ++ more)) c t := by
  have hmade : ∀ {t d}, maker? calls t = some d → maker? (calls ++ more) t = some d :=
    fun hd => (maker?_append (known_of_maker? hd)).trans hd
  have hsharing : ∀ {s}, Sharing (maker? calls) c s → Sharing (maker? (calls ++ more)) c s :=
    Relation.EqvGen.mono (fun _ _ hd => hmade hd) _ _
  rcases h with h | ⟨a, ha, h⟩
  · exact .inl (hsharing h)
  · refine .inr ⟨a, ?_, hsharing h⟩
    clear h
    induction ha with
    | parent hd => exact .parent (hmade hd)
    | above hd _ ih => exact .above (hmade hd) ih
    | copied hd _ ih => exact .copied (hmade hd) ih

theorem Ancestor.known (h : Ancestor (maker? calls) a t) : Known calls t := by
  cases h with
  | parent ht | above ht | copied ht => exact known_of_maker? ht

theorem Ancestor.trans {made : TokenId → Option Call} {b : TokenId} (hab : Ancestor made a b)
    (hbt : Ancestor made b t) : Ancestor made a t := by
  induction hbt with
  | parent hmade => exact .above hmade hab
  | above hmade _ ih => exact .above hmade ih
  | copied hmade _ ih => exact .copied hmade ih

theorem after_concat (calls : List Call) (d : Call) :
    after (calls ++ [d]) = (after calls).perform d := by
  rw [after, List.foldl_append]
  rfl

end

/-! ## What the table of tokens tells of the calls -/

/-- The entry of a token that a call makes. -/
def Call.node (ts : Tokens) (t : TokenId) : Call → Option TokenNode
  | create => some ⟨t, none⟩
  | child parent => some ⟨t, some parent⟩
  | copy s => ts.node? s
  | cancel _ => none

/-- The tokens are what the calls have made. -/
structure Reflects (calls : List Call) (ts : Tokens) : Prop where
  size : ts.nodes.length = (calls.filter Call.makes).length
  older : ∀ {t d s}, maker? calls t = some d → d.subject? = some s → s.index < t.index
  node : ∀ {t d}, maker? calls t = some d → ts.node? t = d.node ts t
  known : ∀ {c}, .cancel c ∈ calls → Known calls c
  raised : ∀ f, f ∈ ts.raised ↔ ∃ c n, .cancel c ∈ calls ∧ ts.node? c = some n ∧ n.flag = f

/-- The table with one more entry. -/
def push (ts : Tokens) (n : TokenNode) : Tokens := { ts with nodes := ts.nodes ++ [n] }

theorem node?_push {ts : Tokens} {t : TokenId} (h : t.index < ts.nodes.length) (n : TokenNode) :
    (ts.push n).node? t = ts.node? t :=
  List.getElem?_append_left h

theorem node?_next (ts : Tokens) (n : TokenNode) : (ts.push n).node? ts.next = some n :=
  List.getElem?_concat_length

namespace Reflects

variable {calls : List Call} {ts : Tokens} {d : Call} {a c p q s t : TokenId} {n : TokenNode}
  (h : Reflects calls ts)

include h

theorem lt_of_known (ht : Known calls t) : t.index < ts.nodes.length := by
  rw [h.size]
  exact known_iff.1 ht

theorem exists_node (ht : Known calls t) : ∃ n, ts.node? t = some n :=
  ⟨_, List.getElem?_eq_getElem (h.lt_of_known ht)⟩

theorem make (hd : d.makes = true) (hold : ∀ s ∈ d.subject?, Known calls s)
    (hn : d.node ts ts.next = some n) : Reflects (calls ++ [d]) (ts.push n) := by
  have hcancel : ∀ c, Call.cancel c ∈ calls ++ [d] ↔ .cancel c ∈ calls := by
    intro c
    rw [List.mem_append, List.mem_singleton, or_iff_left]
    rintro rfl
    cases hd
  refine ⟨?_, fun {t e s} hmade hs => ?_, fun {t e} hmade => ?_, fun {c} hc => ?_, fun f => ?_⟩
  · have hsize := h.size
    simp [push, hd, hsize]
  · rcases maker?_concat hmade with hmade | ⟨-, rfl, ht⟩
    · exact h.older hmade hs
    · rw [ht]
      exact known_iff.1 (hold s hs)
  · rcases maker?_concat hmade with hmade | ⟨-, rfl, ht⟩
    · have hlt := h.lt_of_known (known_of_maker? hmade)
      rw [node?_push hlt, h.node hmade]
      cases e with
      | copy s => exact (node?_push (Nat.lt_trans (h.older hmade rfl) hlt) n).symm
      | _ => rfl
    · obtain rfl : t = ts.next := by
        cases t
        exact congrArg TokenId.mk (ht.trans h.size.symm)
      rw [node?_next, ← hn]
      cases e with
      | copy s => exact (node?_push (h.lt_of_known (hold s rfl)) n).symm
      | _ => rfl
  · have hknown := h.known ((hcancel c).1 hc)
    rw [Known, maker?_append hknown]
    exact hknown
  · show f ∈ ts.raised ↔ _
    rw [h.raised]
    refine exists_congr fun c => exists_congr fun m => ?_
    rw [hcancel]
    exact and_congr_right fun hc => by rw [node?_push (h.lt_of_known (h.known hc))]

theorem cancel (hc : Known calls c) : Reflects (calls ++ [.cancel c]) (ts.cancel c) := by
  obtain ⟨n, hn⟩ := h.exists_node hc
  have hcancel : ts.cancel c = { ts with raised := n.flag :: ts.raised } := by
    rw [Tokens.cancel, hn]
  have hmaker := maker?_cancel calls c
  rw [hcancel]
  refine ⟨?_, fun {t e s} => ?_, fun {t e} hmade => ?_, fun {b} hb => ?_, fun f => ?_⟩
  · simpa [Call.makes] using h.size
  · rw [hmaker]
    exact h.older
  · rw [hmaker] at hmade
    exact (h.node hmade).trans (by cases e <;> rfl)
  · rw [Known, hmaker]
    rcases List.mem_append.1 hb with hb | hb
    · exact h.known hb
    · cases List.mem_singleton.1 hb
      exact hc
  · show f ∈ n.flag :: ts.raised ↔ _
    rw [List.mem_cons, h.raised]
    constructor
    · rintro (rfl | ⟨b, m, hb, hm, rfl⟩)
      · exact ⟨c, n, by simp, hn, rfl⟩
      · exact ⟨b, m, by simp [hb], hm, rfl⟩
    · rintro ⟨b, m, hb, hm, rfl⟩
      rcases List.mem_append.1 hb with hb | hb
      · exact .inr ⟨b, m, hb, hm, rfl⟩
      · cases List.mem_singleton.1 hb
        cases hn.symm.trans hm
        exact .inl rfl

/-- The entries of tokens, in the order in which the tokens were made. -/
theorem node_induction {P : TokenId → TokenNode → Prop} (create : ∀ t, P t ⟨t, none⟩)
    (child : ∀ t p, maker? calls t = some (.child p) → P t ⟨t, some p⟩)
    (copy : ∀ t s n, maker? calls t = some (.copy s) → ts.node? s = some n → P s n → P t n)
    (hn : ts.node? t = some n) : P t n := by
  induction hk : t.index using Nat.strongRecOn generalizing t with
  | _ k ih =>
    have hlt : t.index < (calls.filter Call.makes).length := by
      rw [← h.size]
      exact (List.getElem?_eq_some_iff.1 hn).1
    have hmade : maker? calls t = some (calls.filter Call.makes)[t.index] :=
      List.getElem?_eq_getElem hlt
    have hnode := hn.symm.trans (h.node hmade)
    cases hd : (calls.filter Call.makes)[t.index] with
    | create =>
      rw [hd] at hnode
      cases hnode
      exact create t
    | child p =>
      rw [hd] at hmade hnode
      cases hnode
      exact child t p hmade
    | copy s =>
      rw [hd] at hmade hnode
      have hlt := h.older hmade rfl
      exact copy t s n hmade hnode.symm (ih s.index (hk ▸ hlt) hnode.symm rfl)
    | cancel c =>
      rw [hd] at hnode
      cases hnode

theorem node?_eq_of_sharing (hs : Sharing (maker? calls) s t) : ts.node? s = ts.node? t := by
  induction hs with
  | rel _ _ hmade => exact h.node hmade
  | refl => rfl
  | symm _ _ _ ih => exact ih.symm
  | trans _ _ _ _ _ ih ih' => exact ih.trans ih'

section

variable (hn : ts.node? t = some n)

include hn

theorem sharing_flag : Sharing (maker? calls) t n.flag :=
  h.node_induction (P := fun t n => Sharing (maker? calls) t n.flag) (fun t => .refl t)
    (fun t _ _ => .refl t) (fun t s n hmade _ hs => .trans t s n.flag (.rel t s hmade) hs) hn

theorem flag_le : n.flag.index ≤ t.index :=
  h.node_induction (P := fun t n => n.flag.index ≤ t.index) (fun _ => Nat.le_refl _)
    (fun _ _ _ => Nat.le_refl _)
    (fun _ _ _ hmade _ hs => Nat.le_trans hs (Nat.le_of_lt (h.older hmade rfl))) hn

/-- What is above a token is its parent and what is above the parent. -/
theorem ancestor_iff :
    Ancestor (maker? calls) a t ↔
      ∃ p, n.parent = some p ∧ (a = p ∨ Ancestor (maker? calls) a p) := by
  constructor
  · intro ha
    induction ha with
    | parent hmade =>
      cases hn.symm.trans (h.node hmade)
      exact ⟨a, rfl, .inl rfl⟩
    | above hmade ha _ =>
      cases hn.symm.trans (h.node hmade)
      exact ⟨_, rfl, .inr ha⟩
    | copied hmade _ ih => exact ih ((h.node hmade).symm.trans hn)
  · refine h.node_induction (P := fun t n => (∃ p, n.parent = some p ∧
      (a = p ∨ Ancestor (maker? calls) a p)) → Ancestor (maker? calls) a t) ?_ ?_ ?_ hn
    · rintro t ⟨p, hp, -⟩
      cases hp
    · rintro t _ hmade ⟨p, hp, rfl | ha⟩
      · cases hp
        exact .parent hmade
      · cases hp
        exact .above hmade ha
    · exact fun t s n hmade _ ih hp => .copied hmade (ih hp)

/-- A flag is raised by cancelling one of the tokens that have it. -/
theorem flag_raised_iff :
    n.flag ∈ ts.raised ↔ ∃ c, .cancel c ∈ calls ∧ Sharing (maker? calls) c t := by
  rw [h.raised]
  constructor
  · rintro ⟨c, m, hc, hm, hflag⟩
    refine ⟨c, hc, .trans c m.flag t (h.sharing_flag hm) ?_⟩
    rw [hflag]
    exact .symm _ _ (h.sharing_flag hn)
  · rintro ⟨c, hc, hs⟩
    exact ⟨c, n, hc, (h.node?_eq_of_sharing hs).trans hn, rfl⟩

/-- A token is governed through its own flag or through its parent. -/
theorem governs_iff : Governs (maker? calls) c t ↔
    Sharing (maker? calls) c t ∨ ∃ p, n.parent = some p ∧ Governs (maker? calls) c p := by
  refine or_congr_right ⟨?_, ?_⟩
  · rintro ⟨a, ha, hs⟩
    obtain ⟨p, hp, rfl | ha⟩ := (h.ancestor_iff hn).1 ha
    · exact ⟨a, hp, .inl hs⟩
    · exact ⟨p, hp, .inr ⟨a, ha, hs⟩⟩
  · rintro ⟨p, hp, hs | ⟨a, ha, hs⟩⟩
    · exact ⟨p, (h.ancestor_iff hn).2 ⟨p, hp, .inl rfl⟩, hs⟩
    · exact ⟨a, (h.ancestor_iff hn).2 ⟨p, hp, .inr ha⟩, hs⟩

/-- A token is older than the flags below it. -/
theorem lt_flag_of_ancestor (ha : Ancestor (maker? calls) a t) : a.index < n.flag.index := by
  induction ha generalizing n with
  | parent hmade =>
    cases hn.symm.trans (h.node hmade)
    exact h.older hmade rfl
  | @above t p hmade ha ih =>
    cases hn.symm.trans (h.node hmade)
    obtain ⟨m, hm⟩ := h.exists_node ha.known
    exact Nat.lt_trans (Nat.lt_of_lt_of_le (ih hm) (h.flag_le hm)) (h.older hmade rfl)
  | copied hmade _ ih => exact ih ((h.node hmade).symm.trans hn)

theorem parent_lt (hp : n.parent = some p) : p.index < t.index :=
  Nat.lt_of_lt_of_le (h.lt_flag_of_ancestor hn ((h.ancestor_iff hn).2 ⟨p, hp, .inl rfl⟩))
    (h.flag_le hn)

/-- The parents are older and older, so there are no more of them than the number of the token. -/
theorem cancelledWithin_iff {depth : Nat} (hdepth : t.index ≤ depth) :
    ts.cancelledWithin depth t = true ↔ ∃ c, .cancel c ∈ calls ∧ Governs (maker? calls) c t := by
  induction depth generalizing t n with
  | zero =>
    have hnone : n.parent = none := Option.eq_none_iff_forall_ne_some.2 fun p hp =>
      absurd (h.parent_lt hn hp) (by omega)
    simp [cancelledWithin, hn, h.flag_raised_iff hn, h.governs_iff hn, hnone]
  | succ depth ih =>
    rw [cancelledWithin, hn]
    cases hp : n.parent with
    | none => simp [h.flag_raised_iff hn, h.governs_iff hn, hp]
    | some p =>
      have hlt := h.parent_lt hn hp
      obtain ⟨m, hm⟩ : ∃ m, ts.node? p = some m :=
        ⟨_, List.getElem?_eq_getElem (Nat.lt_trans hlt (List.getElem?_eq_some_iff.1 hn).1)⟩
      simp [h.flag_raised_iff hn, h.governs_iff hn, hp, ih hm (by omega), and_or_left, exists_or]

end

theorem ancestor_of_sharing (hs : Sharing (maker? calls) s t) (ha : Ancestor (maker? calls) a t) :
    Ancestor (maker? calls) a s := by
  obtain ⟨n, hn⟩ := h.exists_node ha.known
  exact (h.ancestor_iff ((h.node?_eq_of_sharing hs).trans hn)).2 ((h.ancestor_iff hn).1 ha)

theorem not_sharing_of_ancestor (ha : Ancestor (maker? calls) a t) :
    ¬ Sharing (maker? calls) t a := by
  intro hs
  obtain ⟨n, hn⟩ := h.exists_node ha.known
  have hle := h.flag_le ((h.node?_eq_of_sharing hs).symm.trans hn)
  exact absurd (h.lt_flag_of_ancestor hn ha) (Nat.not_lt.2 hle)

theorem isCancelled_iff (ht : Known calls t) :
    ts.isCancelled t = true ↔ ∃ c, .cancel c ∈ calls ∧ Governs (maker? calls) c t :=
  have ⟨_, hn⟩ := h.exists_node ht
  h.cancelledWithin_iff hn (Nat.le_of_lt (h.lt_of_known ht))

theorem not_governs_above (ha : Ancestor (maker? calls) t c) : ¬ Governs (maker? calls) c t := by
  rintro (hs | ⟨a, hat, hs⟩)
  · exact h.not_sharing_of_ancestor ha hs
  · exact h.not_sharing_of_ancestor (hat.trans ha) hs

theorem not_governs_beside (hc : maker? calls c = some (.child p))
    (ht : maker? calls t = some (.child q)) (hpq : Sharing (maker? calls) p q) (hne : c ≠ t) :
    ¬ Governs (maker? calls) c t := by
  rintro (hs | ⟨a, ha, hs⟩)
  · have hnode := ((h.node hc).symm.trans (h.node?_eq_of_sharing hs)).trans (h.node ht)
    cases hnode
    exact hne rfl
  · obtain ⟨_, hp, rfl | ha⟩ := (h.ancestor_iff (h.node ht)).1 ha
    · cases hp
      exact h.not_sharing_of_ancestor (.parent hc) (.trans _ _ _ hs (.symm _ _ hpq))
    · cases hp
      exact h.not_sharing_of_ancestor (.above hc (h.ancestor_of_sharing hpq ha)) hs

end Reflects

theorem Possible.reflects {calls : List Call} (h : Possible calls) :
    Reflects calls (after calls) := by
  induction h with
  | nil =>
    refine ⟨rfl, fun h => ?_, fun h => ?_, fun h => ?_, fun f => ?_⟩
    · simp [maker?] at h
    · simp [maker?] at h
    · simp at h
    · simp [after, empty]
  | @snoc calls d _ hold ih =>
    rw [after_concat]
    cases d with
    | create => exact ih.make rfl hold rfl
    | child p => exact ih.make rfl hold rfl
    | copy s =>
      obtain ⟨n, hn⟩ := ih.exists_node (hold s rfl)
      have hcopy : (after calls).perform (.copy s) = (after calls).push n := by
        simp [perform, copy, push, hn]
      rw [hcopy]
      exact ih.make rfl hold hn
    | cancel c => exact ih.cancel (hold c rfl)

/-! ## Tokens with their parents inside -/

/-- A token that holds its flag and a copy of its parent. -/
inductive Nested where
  | root (flag : TokenId)
  | child (flag : TokenId) (parent : Nested)

namespace Nested

def flag : Nested → TokenId
  | root f | child f _ => f

/-- Whether the flag of the token or of one inside is raised. -/
def isCancelled (raised : List TokenId) : Nested → Bool
  | root f => raised.contains f
  | child f parent => raised.contains f || parent.isCancelled raised

/-- What the calls make of a token. A flag has the number of the token that it is made for. -/
inductive Made (calls : List Call) : TokenId → Nested → Prop where
  | create {t} : maker? calls t = some .create → Made calls t (root t)
  | child {t p parent} : maker? calls t = some (.child p) → Made calls p parent →
      Made calls t (child t parent)
  | copy {t s token} : maker? calls t = some (.copy s) → Made calls s token → Made calls t token

variable {calls : List Call} {ts : Tokens} {t : TokenId} {token : Nested}
  (h : Reflects calls ts)

include h

theorem exists_made (ht : Known calls t) : ∃ token, Made calls t token := by
  induction hk : t.index using Nat.strongRecOn generalizing t with
  | _ k ih =>
    obtain ⟨d, hd⟩ := Option.isSome_iff_exists.1 ht
    have hsubject : ∀ s ∈ d.subject?, ∃ token, Made calls s token := fun s hs =>
      have hlt := h.older hd hs
      ih s.index (hk ▸ hlt) (known_iff.2 (Nat.lt_trans hlt (known_iff.1 ht))) rfl
    cases d with
    | create => exact ⟨_, .create hd⟩
    | child p =>
      obtain ⟨parent, hp⟩ := hsubject p rfl
      exact ⟨_, .child hd hp⟩
    | copy s => exact (hsubject s rfl).imp fun _ => .copy hd
    | cancel c => simpa [Call.makes] using (List.mem_filter.1 (List.mem_of_getElem? hd)).2

namespace Made

variable (hmade : Made calls t token)

include hmade

theorem flag_eq : ∃ n, ts.node? t = some n ∧ n.flag = token.flag := by
  induction hmade with
  | create hd | child hd => exact ⟨_, h.node hd, rfl⟩
  | copy hd _ ih => exact h.node hd ▸ ih

/-- The parents are older and older, so the search through the table meets all of them. -/
theorem isCancelled_eq {depth : Nat} (hdepth : t.index ≤ depth) :
    token.isCancelled ts.raised = ts.cancelledWithin depth t := by
  induction hmade generalizing depth with
  | create hd => cases depth <;> simp [cancelledWithin, h.node hd, Call.node, isCancelled]
  | @child t p parent hd _ ih =>
    have hlt := h.older hd rfl
    obtain ⟨depth, rfl⟩ : ∃ k, depth = k + 1 := ⟨depth - 1, by omega⟩
    rw [cancelledWithin, h.node hd, isCancelled, ih (show p.index ≤ depth by omega)]
    rfl
  | copy hd _ ih =>
    rw [ih (Nat.le_trans (Nat.le_of_lt (h.older hd rfl)) hdepth), cancelledWithin,
      cancelledWithin, h.node hd]
    rfl

end Made

end Nested

/-- The table agrees with tokens that hold their parents: these are cancelled when it says so, and
cancelling one raises its flag. -/
theorem exists_nested {calls : List Call} (h : Possible calls) {t : TokenId} (ht : Known calls t) :
    ∃ token, Nested.Made calls t token ∧
      token.isCancelled (after calls).raised = (after calls).isCancelled t ∧
      ((after calls).cancel t).raised = token.flag :: (after calls).raised := by
  obtain ⟨token, hmade⟩ := Nested.exists_made h.reflects ht
  obtain ⟨n, hn, hflag⟩ := hmade.flag_eq h.reflects
  refine ⟨token, hmade, ?_, by rw [cancel, hn, ← hflag]⟩
  exact hmade.isCancelled_eq h.reflects (Nat.le_of_lt (h.reflects.lt_of_known ht))

/-! ## The flow of cancellation -/

section

variable {calls : List Call}

theorem cancel_unaffecting (h : Possible calls) {c t : TokenId} (hc : Known calls c)
    (ht : Known calls t) (hct : ¬ Governs (maker? calls) c t) :
    (after (calls ++ [.cancel c])).isCancelled t = (after calls).isCancelled t := by
  have hlater : Possible (calls ++ [.cancel c]) := h.snoc fun s hs => by
    cases hs
    exact hc
  have hmaker := maker?_cancel calls c
  rw [Bool.eq_iff_iff, hlater.reflects.isCancelled_iff (by rwa [Known, hmaker]),
    h.reflects.isCancelled_iff ht, hmaker]
  refine exists_congr fun b => and_congr_left fun hb => ?_
  rw [List.mem_append, List.mem_singleton, or_iff_left]
  rintro heq
  cases heq
  exact hct hb

theorem isCancelled_append {more : List Call} (h : Possible calls)
    (hmore : Possible (calls ++ more)) {t : TokenId} (ht : Known calls t)
    (hcancelled : (after calls).isCancelled t = true) :
    (after (calls ++ more)).isCancelled t = true := by
  obtain ⟨c, hc, hct⟩ := (h.reflects.isCancelled_iff ht).1 hcancelled
  refine (hmore.reflects.isCancelled_iff ?_).2 ⟨c, List.mem_append_left _ hc, hct.append⟩
  rwa [Known, maker?_append ht]

theorem isCancelled_child (h : Possible calls) {p : TokenId} (hp : Known calls p)
    (hcancelled : (after calls).isCancelled p = true) :
    (after (calls ++ [.child p])).isCancelled (after calls).next = true := by
  have hlater : Possible (calls ++ [.child p]) := h.snoc fun s hs => by
    cases hs
    exact hp
  have hmade : maker? (calls ++ [.child p]) (after calls).next = some (.child p) := by
    rw [maker?, List.filter_append, next, h.reflects.size]
    exact List.getElem?_concat_length
  obtain ⟨c, hc, hcp⟩ := (h.reflects.isCancelled_iff hp).1 hcancelled
  refine (hlater.reflects.isCancelled_iff (known_of_maker? hmade)).2
    ⟨c, List.mem_append_left _ hc, .inr ?_⟩
  rcases hcp.append with hs | ⟨a, ha, hs⟩
  · exact ⟨p, .parent hmade, hs⟩
  · exact ⟨a, .above hmade ha, hs⟩

/-- After any calls, a token is cancelled exactly if one of them has cancelled a token with the flag
of the token or of one above it. So to cancel a token changes nothing for the tokens above it, for
its siblings and for all others that it does not govern, what is made below a cancelled token is
cancelled, and a cancelled token stays so. -/
theorem cancellation_flows_down (h : Possible calls) :
    (∀ t, Known calls t → ((after calls).isCancelled t = true ↔
      ∃ c, .cancel c ∈ calls ∧ Governs (maker? calls) c t)) ∧
    (∀ c t, Known calls c → Known calls t → ¬ Governs (maker? calls) c t →
      (after (calls ++ [.cancel c])).isCancelled t = (after calls).isCancelled t) ∧
    (∀ c t, Ancestor (maker? calls) t c → ¬ Governs (maker? calls) c t) ∧
    (∀ c t p q, maker? calls c = some (.child p) → maker? calls t = some (.child q) →
      Sharing (maker? calls) p q → c ≠ t → ¬ Governs (maker? calls) c t) ∧
    (∀ p, Known calls p → (after calls).isCancelled p = true →
      (after (calls ++ [.child p])).isCancelled (after calls).next = true) ∧
    ∀ more t, Possible (calls ++ more) → Known calls t → (after calls).isCancelled t = true →
      (after (calls ++ more)).isCancelled t = true :=
  ⟨fun _ => h.reflects.isCancelled_iff, fun _ _ => cancel_unaffecting h,
    fun _ _ => h.reflects.not_governs_above, fun _ _ _ _ => h.reflects.not_governs_beside,
    fun _ => isCancelled_child h, fun _ _ hmore => isCancelled_append h hmore⟩

/-- A token with a child, a copy of the child that has a child of its own, and a token apart. When
the copy is cancelled, so are the child and what is below it, and nothing else. -/
theorem branch_flows_down :
    let calls : List Call := [.create, .child ⟨0⟩, .copy ⟨1⟩, .child ⟨2⟩, .create, .cancel ⟨2⟩]
    Possible calls ∧ [0, 1, 2, 3, 4].map (fun i => (after calls).isCancelled ⟨i⟩) =
      [false, true, true, true, false] ∧ ¬ Governs (maker? calls) ⟨2⟩ ⟨0⟩ ∧
      (∃ c, .cancel c ∈ calls ∧ Governs (maker? calls) c ⟨3⟩) ∧
      (after (calls ++ [.child ⟨3⟩])).isCancelled ⟨5⟩ = true := by
  intro calls
  have hpossible : Possible calls :=
    (((((Possible.nil.snoc (c := .create) (by decide)).snoc (c := .child ⟨0⟩) (by decide)).snoc
      (c := .copy ⟨1⟩) (by decide)).snoc (c := .child ⟨2⟩) (by decide)).snoc
      (c := .create) (by decide)).snoc (c := .cancel ⟨2⟩) (by decide)
  obtain ⟨hexact, -, habove, -, hbelow, -⟩ := cancellation_flows_down hpossible
  exact ⟨hpossible, by decide, habove ⟨2⟩ ⟨0⟩ (.copied rfl (.parent rfl)),
    (hexact ⟨3⟩ (by decide)).1 (by decide), hbelow ⟨3⟩ (by decide) (by decide)⟩

end

end ProgramAnalysis.Tokens
