import ProgramAnalysis.Proofs.Naming
/-!
Agreement does not see the names of handles.

Whether two states agree is decided by their handles at some places and by their contents at others.
Under a naming that is one-to-one, matching states agree with matching states in the same way; so do
precisions.
-/

namespace ProgramAnalysis

variable {ν ρ : Type} {U : Naming} {p q : Precision ρ}

/-- Lists that are matched as a whole are matched part by part. -/
theorem forall₂_of_append {α β : Type} {R : α → β → Prop} {as as' : List α} {bs bs' : List β}
    (h : List.Forall₂ R (as ++ as') (bs ++ bs')) (hlength : as.length = bs.length) :
    List.Forall₂ R as bs ∧ List.Forall₂ R as' bs' := by
  have htake := List.forall₂_take_append _ _ _ h
  have hdrop := List.forall₂_drop_append _ _ _ h
  rw [← hlength] at htake hdrop
  rw [List.take_left] at htake
  rw [List.drop_left] at hdrop
  exact ⟨htake, hdrop⟩

/-! ## States -/

namespace State

mutual

theorem length_handles_bare : (s : State ν) → s.bare.handles.length = s.handles.length
  | .location _ _ => rfl
  | .leaf _ _ => rfl
  | .tuple _ cs _ => congrArg (· + 1) (length_handlesAll_bareAll cs)
  | .monitored _ w _ _ => congrArg (· + 1) (length_handles_bare w)
  | .graphed _ _ w => congrArg (· + 1) (length_handles_bare w)

theorem length_handlesAll_bareAll : (cs : List (State ν)) →
    (handlesAll (bareAll cs)).length = (handlesAll cs).length
  | [] => rfl
  | c :: cs => by
    unfold bareAll handlesAll
    rw [List.length_append, List.length_append, length_handles_bare c, length_handlesAll_bareAll cs]

end

theorem Alike.length_handles {s t : State ν} (h : s.Alike t) :
    s.handles.length = t.handles.length := by
  rw [← length_handles_bare s, ← length_handles_bare t, h]

theorem forall₂_matches {cs ds : List (State ν)} (halike : bareAll cs = bareAll ds)
    (hhandles : List.Forall₂ U (handlesAll cs) (handlesAll ds)) :
    List.Forall₂ (Matches U) cs ds := by
  induction cs generalizing ds with
  | nil =>
    cases ds with
    | nil => exact .nil
    | cons d ds => cases halike
  | cons c cs ih =>
    cases ds with
    | nil => cases halike
    | cons d ds =>
      obtain ⟨hc, hcs⟩ : c.Alike d ∧ bareAll cs = bareAll ds := List.cons.inj halike
      have hsplit := forall₂_of_append hhandles hc.length_handles
      exact .cons ⟨hc, hsplit.1⟩ (ih hcs hsplit.2)

/-- Matching states have the same form, with matching states inside. -/
inductive MatchedForm (U : Naming) : State ν → State ν → Prop where
  | location {h k n} : MatchedForm U (.location h n) (.location k n)
  | leaf {h k v} : MatchedForm U (.leaf h v) (.leaf k v)
  | tuple {h k cs ds x} :
      List.Forall₂ (Matches U) cs ds → MatchedForm U (.tuple h cs x) (.tuple k ds x)
  | monitored {h k} {v : State ν} {w len x} :
      v.Matches U w → MatchedForm U (.monitored h v len x) (.monitored k w len x)
  | graphed {h k n} {v : State ν} {w} :
      v.Matches U w → MatchedForm U (.graphed h n v) (.graphed k n w)

theorem Matches.form {s t : State ν} (h : s.Matches U t) : MatchedForm U s t := by
  obtain ⟨halike, hhandles⟩ := h
  cases s with
  | location =>
    cases t with
    | location =>
      cases halike
      exact .location
    | _ => cases halike
  | leaf =>
    cases t with
    | leaf =>
      cases halike
      exact .leaf
    | _ => cases halike
  | tuple =>
    cases t with
    | tuple =>
      obtain ⟨-, hcs, rfl⟩ := State.tuple.inj halike
      exact .tuple (forall₂_matches hcs (List.forall₂_cons.1 hhandles).2)
    | _ => cases halike
  | monitored =>
    cases t with
    | monitored =>
      obtain ⟨-, hv, rfl, rfl⟩ := State.monitored.inj halike
      exact .monitored ⟨hv, (List.forall₂_cons.1 hhandles).2⟩
    | _ => cases halike
  | graphed =>
    cases t with
    | graphed =>
      obtain ⟨-, rfl, hv⟩ := State.graphed.inj halike
      exact .graphed ⟨hv, (List.forall₂_cons.1 hhandles).2⟩
    | _ => cases halike

/-- A state matches itself when its handles stand for themselves. -/
theorem matches_self {s : State ν} (h : ∀ k ∈ s.handles, U k k) : s.Matches U s :=
  ⟨rfl, List.forall₂_same.2 h⟩

theorem decide_handle (hU : U.OneToOne) {a a' b b' : State ν} (ha : a.Matches U a')
    (hb : b.Matches U b') : decide (a.handle = b.handle) = decide (a'.handle = b'.handle) :=
  decide_eq_decide.2 (hU.eq_iff ha.handle hb.handle)

variable [LeafValue ν]

mutual

theorem equals_congr (hU : U.OneToOne) : (a : State ν) → ∀ {a' b b'}, a.Matches U a' →
    b.Matches U b' → equals a b = equals a' b'
  | .location h n, _, _, _, ha, hb => by
    cases ha.form
    cases hb.form <;> rfl
  | .leaf h v, _, _, _, ha, hb => by
    cases ha.form
    cases hb.form <;> rfl
  | .tuple h cs x, _, _, _, ha, hb => by
    cases ha.form with
    | tuple hcs =>
      cases hb.form with
      | tuple hds => exact equalsAll_congr hU cs hcs hds
      | _ => rfl
  | .monitored h v len x, _, _, _, ha, hb => by
    cases ha.form with
    | monitored hv =>
      cases hb.form with
      | monitored hw =>
        unfold equals
        rw [decide_handle hU hv hw, equals_congr hU v hv hw]
      | _ => rfl
  | .graphed h n v, _, _, _, ha, hb => by
    cases ha.form with
    | graphed hv =>
      cases hb.form with
      | graphed hw =>
        unfold equals
        rw [decide_handle hU hv hw, equals_congr hU v hv hw]
      | _ => rfl

theorem equalsAll_congr (hU : U.OneToOne) : (as : List (State ν)) → ∀ {as' bs bs'},
    List.Forall₂ (Matches U) as as' → List.Forall₂ (Matches U) bs bs' →
    equalsAll as bs = equalsAll as' bs'
  | [], _, _, _, .nil, .nil => rfl
  | [], _, _, _, .nil, .cons _ _ => rfl
  | _ :: _, _, _, _, .cons _ _, .nil => rfl
  | a :: as, _, _, _, .cons ha has, .cons hb hbs => by
    unfold equalsAll
    rw [decide_handle hU ha hb, equals_congr hU a ha hb, equalsAll_congr hU as has hbs]

end

theorem agrees_congr (hU : U.OneToOne) {a a' b b' : State ν} (ha : a.Matches U a')
    (hb : b.Matches U b') : a.agrees b = a'.agrees b' := by
  unfold agrees
  rw [decide_handle hU ha hb, equals_congr hU a ha hb]

end State

/-! ## Precisions -/

namespace Precision

mutual

theorem length_handles_bare : (p : Precision ρ) → p.bare.handles.length = p.handles.length
  | .plain _ => rfl
  | .leaf _ _ => rfl
  | .tuple _ ps => congrArg (· + 1) (length_handlesAll_bareAll ps)

theorem length_handlesAll_bareAll : (ps : List (Precision ρ)) →
    (handlesAll (bareAll ps)).length = (handlesAll ps).length
  | [] => rfl
  | p :: ps => by
    unfold bareAll handlesAll
    rw [List.length_append, List.length_append, length_handles_bare p, length_handlesAll_bareAll ps]

end

theorem exists_handles (p : Precision ρ) : ∃ inner, p.handles = p.handle :: inner := by
  cases p <;> exact ⟨_, rfl⟩

theorem Matches.handle (h : p.Matches U q) : U p.handle q.handle := by
  obtain ⟨inner, hp⟩ := p.exists_handles
  obtain ⟨inner', hq⟩ := q.exists_handles
  have hall := h.2
  rw [hp, hq] at hall
  exact (List.forall₂_cons.1 hall).1

theorem forall₂_matches {ps qs : List (Precision ρ)} (halike : bareAll ps = bareAll qs)
    (hhandles : List.Forall₂ U (handlesAll ps) (handlesAll qs)) :
    List.Forall₂ (Matches U) ps qs := by
  induction ps generalizing qs with
  | nil =>
    cases qs with
    | nil => exact .nil
    | cons q qs => cases halike
  | cons p ps ih =>
    cases qs with
    | nil => cases halike
    | cons q qs =>
      obtain ⟨hp, hps⟩ : p.bare = q.bare ∧ bareAll ps = bareAll qs := List.cons.inj halike
      have hlength : p.handles.length = q.handles.length := by
        rw [← length_handles_bare p, ← length_handles_bare q, hp]
      have hsplit := forall₂_of_append hhandles hlength
      exact .cons ⟨hp, hsplit.1⟩ (ih hps hsplit.2)

/-- Matching precisions have the same form, with matching precisions inside. -/
inductive MatchedForm (U : Naming) : Precision ρ → Precision ρ → Prop where
  | plain {h k} : MatchedForm U (.plain h) (.plain k)
  | leaf {h k v} : MatchedForm U (.leaf h v) (.leaf k v)
  | tuple {h k ps qs} :
      List.Forall₂ (Matches U) ps qs → MatchedForm U (.tuple h ps) (.tuple k qs)

theorem Matches.form (h : p.Matches U q) : MatchedForm U p q := by
  obtain ⟨halike, hhandles⟩ := h
  cases p with
  | plain =>
    cases q with
    | plain => exact .plain
    | _ => cases halike
  | leaf =>
    cases q with
    | leaf =>
      cases halike
      exact .leaf
    | _ => cases halike
  | tuple =>
    cases q with
    | tuple =>
      exact .tuple (forall₂_matches (Precision.tuple.inj halike).2 (List.forall₂_cons.1 hhandles).2)
    | _ => cases halike

theorem matches_self (h : ∀ k ∈ p.handles, U k k) : p.Matches U p :=
  ⟨rfl, List.forall₂_same.2 h⟩

theorem decide_handle (hU : U.OneToOne) {p' q' : Precision ρ} (hp : p.Matches U p')
    (hq : q.Matches U q') : decide (p.handle = q.handle) = decide (p'.handle = q'.handle) :=
  decide_eq_decide.2 (hU.eq_iff hp.handle hq.handle)

variable [LeafPrecision ρ]

mutual

theorem equals_congr (hU : U.OneToOne) : (p : Precision ρ) → ∀ {p' q q'}, p.Matches U p' →
    q.Matches U q' → equals p q = equals p' q'
  | .plain h, _, _, _, hp, hq => by
    cases hp.form
    cases hq.form <;> rfl
  | .leaf h v, _, _, _, hp, hq => by
    cases hp.form
    cases hq.form <;> rfl
  | .tuple h ps, _, _, _, hp, hq => by
    cases hp.form with
    | tuple hps =>
      cases hq.form with
      | tuple hqs => exact equalsAll_congr hU ps hps hqs
      | _ => rfl

theorem equalsAll_congr (hU : U.OneToOne) : (ps : List (Precision ρ)) → ∀ {ps' qs qs'},
    List.Forall₂ (Matches U) ps ps' → List.Forall₂ (Matches U) qs qs' →
    equalsAll ps qs = equalsAll ps' qs'
  | [], _, _, _, .nil, .nil => rfl
  | [], _, _, _, .nil, .cons _ _ => rfl
  | _ :: _, _, _, _, .cons _ _, .nil => rfl
  | p :: ps, _, _, _, .cons hp hps, .cons hq hqs => by
    unfold equalsAll
    rw [decide_handle hU hp hq, equals_congr hU p hp hq, equalsAll_congr hU ps hps hqs]

end

theorem agrees_congr (hU : U.OneToOne) {p' q' : Precision ρ} (hp : p.Matches U p')
    (hq : q.Matches U q') : p.agrees q = p'.agrees q' := by
  unfold agrees
  rw [decide_handle hU hp hq, equals_congr hU p hp hq]

end Precision

end ProgramAnalysis
