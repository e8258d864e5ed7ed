import Mathlib.Data.List.Nodup
import Mathlib.Data.List.TakeWhile
import ProgramAnalysis.Proofs.Representation
/-!
The text of a configuration.

`Acceptable` and `Sets` are the grammar of a line, said on the trimmed line and apart from the
function that reads it. A text is read exactly when all its lines are acceptable, the first line
that is not is the one reported, and a key has the value that the last line setting it gives.

The pairs of a configuration that was read can be written down again, in any order, as lines
`key = value`. For this every key and value has to survive trimming, the splitting into lines, the
comment sign and the first equals sign; `Writable` says what that takes, and every line that sets a
key leaves a writable pair. A value may hold equals signs, comment signs and blanks inside, also
carriage returns; a key may not.
-/

namespace ProgramAnalysis

/-! ## Trimming -/

variable {all : List (List Char)} {pairs : List (String × String)}

namespace Text

variable {s t l r : List Char} {c : Char}

/-- There is no blank at the ends. -/
def Trimmed (s : List Char) : Prop :=
  (∀ c ∈ s.head?, isBlank c = false) ∧ ∀ c ∈ s.getLast?, isBlank c = false

theorem dropWhile_of_head? (h : ∀ c ∈ s.head?, isBlank c = false) : s.dropWhile isBlank = s := by
  cases s with
  | nil => rfl
  | cons c s => exact List.dropWhile_cons_of_neg (by simp [h c rfl])

/-- The blanks at the ends go, and nothing else does. -/
theorem trim_eq (hl : ∀ c ∈ l, isBlank c = true) (hr : ∀ c ∈ r, isBlank c = true)
    (ht : Trimmed t) : trim (l ++ t ++ r) = t := by
  unfold trim trimLeft trimRight
  rw [List.append_assoc, List.dropWhile_append_of_pos hl]
  cases t with
  | nil =>
    rw [List.nil_append, List.dropWhile_eq_nil_iff.2 hr]
    rfl
  | cons c t =>
    have hleft : (c :: t ++ r).dropWhile isBlank = c :: t ++ r := dropWhile_of_head? ht.1
    rw [hleft, List.reverse_append,
      List.dropWhile_append_of_pos fun c hc => hr c (List.mem_reverse.1 hc),
      dropWhile_of_head? (by rw [List.head?_reverse]; exact ht.2), List.reverse_reverse]

theorem exists_trim (s : List Char) : ∃ l r, s = l ++ trim s ++ r ∧
    (∀ c ∈ l, isBlank c = true) ∧ (∀ c ∈ r, isBlank c = true) ∧ Trimmed (trim s) := by
  have hright : trimLeft s = trim s ++ ((trimLeft s).reverse.takeWhile isBlank).reverse := by
    rw [trim, trimRight, ← List.reverse_append, List.takeWhile_append_dropWhile,
      List.reverse_reverse]
  refine ⟨s.takeWhile isBlank, ((trimLeft s).reverse.takeWhile isBlank).reverse, ?_,
    fun c => List.mem_takeWhile_imp, fun c hc => List.mem_takeWhile_imp (List.mem_reverse.1 hc),
    fun c hc => ?_, fun c hc => ?_⟩
  · rw [List.append_assoc, ← hright]
    exact List.takeWhile_append_dropWhile.symm
  · have hhead := List.head?_dropWhile_not isBlank s
    rw [show s.dropWhile isBlank = _ from hright, List.head?_append, hc] at hhead
    exact hhead
  · have hhead := List.head?_dropWhile_not isBlank (trimLeft s).reverse
    rw [trim, trimRight, List.getLast?_reverse] at hc
    rw [hc] at hhead
    exact hhead

theorem trimmed_trim (s : List Char) : Trimmed (trim s) := by
  obtain ⟨_, _, -, -, -, h⟩ := exists_trim s
  exact h

theorem trim_of_trimmed (h : Trimmed s) : trim s = s := by
  simpa using trim_eq (l := []) (r := []) (by simp) (by simp) h

theorem trimmed_of_no_blank (h : ∀ c ∈ s, isBlank c = false) : Trimmed s :=
  ⟨fun c hc => h c (List.mem_of_mem_head? hc), fun c hc => h c (List.mem_of_mem_getLast? hc)⟩

theorem mem_of_mem_trim (h : c ∈ trim s) : c ∈ s := by
  obtain ⟨l, r, hs, -⟩ := exists_trim s
  rw [hs]
  simp [h]

/-! ## Splitting -/

theorem splitFirst_append (h : c ∉ s) : splitFirst c (s ++ c :: t) = some (s, t) := by
  induction s with
  | nil => simp [splitFirst]
  | cons d s ih =>
    obtain ⟨hd, hs⟩ := List.ne_and_not_mem_of_not_mem_cons h
    simp [splitFirst, Ne.symm hd, ih hs]

theorem splitFirst_eq_some {before after : List Char}
    (h : splitFirst c s = some (before, after)) : s = before ++ c :: after ∧ c ∉ before := by
  induction s generalizing before with
  | nil => cases h
  | cons d s ih =>
    unfold splitFirst at h
    split at h
    · next hd =>
      cases h
      exact ⟨by rw [hd]; rfl, List.not_mem_nil⟩
    · next hd =>
      obtain ⟨⟨b, a⟩, hb, heq⟩ := Option.map_eq_some_iff.1 h
      cases heq
      obtain ⟨rfl, hmem⟩ := ih hb
      exact ⟨rfl, List.not_mem_cons_of_ne_of_not_mem (Ne.symm hd) hmem⟩

/-! ## Lines -/

variable {p : Char → Bool} {line : List Char}

theorem pieces_ne_nil (p : Char → Bool) (s : List Char) : pieces p s ≠ [] := by
  fun_cases pieces p s <;> simp

theorem pieces_append_cons (hs : ∀ d ∈ s, p d = false) (h : p c = true) :
    pieces p (s ++ c :: t) = s :: pieces p t := by
  induction s with
  | nil =>
    rw [List.nil_append, pieces]
    split
    · next hnil => exact absurd hnil (pieces_ne_nil p t)
    · next hcons => rw [if_pos h, hcons]
  | cons d s ih =>
    have hrest := ih fun e he => hs e (List.mem_cons_of_mem _ he)
    rw [List.cons_append, pieces, hrest]
    simp [hs d List.mem_cons_self]

theorem not_of_mem_pieces {piece : List Char} (h : piece ∈ pieces p s) (hc : c ∈ piece) :
    p c = false := by
  fun_induction pieces p s generalizing piece with
  | case1 => simp_all
  | case2 d s hnil => exact absurd hnil (pieces_ne_nil p s)
  | case3 d s first others hpieces hd ih => grind
  | case4 d s first others hpieces hd ih => grind

theorem mem_of_mem_dropReturn (h : c ∈ dropReturn s) : c ∈ s := by
  unfold dropReturn at h
  split at h
  · exact (List.dropLast_sublist s).subset h
  · exact h

theorem terminated_cons {others : List (List Char)} (h : others ≠ []) :
    terminated (line :: others) = dropReturn line :: terminated others := by
  cases others with
  | nil => exact absurd rfl h
  | cons _ _ => rfl

theorem exists_of_mem_terminated (h : line ∈ terminated all) :
    ∃ piece ∈ all, ∀ c ∈ line, c ∈ piece := by
  induction all with
  | nil => cases h
  | cons first others ih =>
    by_cases hothers : others = []
    · subst hothers
      unfold terminated at h
      split at h
      · cases h
      · exact ⟨line, h, fun _ hc => hc⟩
    · rw [terminated_cons hothers] at h
      rcases List.mem_cons.1 h with rfl | hlater
      · exact ⟨first, List.mem_cons_self, fun _ hc => mem_of_mem_dropReturn hc⟩
      · obtain ⟨piece, hpiece, hsub⟩ := ih hlater
        exact ⟨piece, List.mem_cons_of_mem _ hpiece, hsub⟩

/-- A line holds no line feed. -/
theorem newline_not_mem_line (h : line ∈ lines s) : '\n' ∉ line := by
  intro hmem
  obtain ⟨piece, hpiece, hsub⟩ := exists_of_mem_terminated h
  simpa using not_of_mem_pieces hpiece (hsub _ hmem)

/-- The lines with a line feed after each. -/
def unlines (all : List (List Char)) : List Char := all.flatMap (· ++ ['\n'])

theorem pieces_unlines (h : ∀ line ∈ all, '\n' ∉ line) :
    pieces (· = '\n') (unlines all) = all ++ [[]] := by
  induction all with
  | nil => rfl
  | cons line all ih =>
    have hrest := ih fun l hl => h l (List.mem_cons_of_mem _ hl)
    have hline : ∀ d ∈ line, decide (d = '\n') = false := fun d hd =>
      decide_eq_false fun heq => h line List.mem_cons_self (heq ▸ hd)
    rw [unlines, List.flatMap_cons, List.append_assoc, List.singleton_append,
      pieces_append_cons hline (by simp), ← unlines, hrest, List.cons_append]

theorem lines_unlines (h : ∀ line ∈ all, '\n' ∉ line)
    (hreturn : ∀ line ∈ all, line.getLast? ≠ some '\r') : lines (unlines all) = all := by
  rw [lines, pieces_unlines h]
  clear h
  induction all with
  | nil => rfl
  | cons line all ih =>
    have hkeep : dropReturn line = line := if_neg (hreturn line List.mem_cons_self)
    rw [List.cons_append, terminated_cons (by simp), hkeep,
      ih fun l hl => hreturn l (List.mem_cons_of_mem _ hl)]

end Text

/-! ## Pairs and look-ups -/

namespace Index

variable {κ β : Type} [DecidableEq κ]

theorem mem_pairs_iff {m : Index κ β} (h : m.keys.Nodup) {k : κ} {b : β} :
    (k, b) ∈ m.pairs ↔ m.get? k = some b := by
  obtain ⟨l⟩ := m
  unfold get?
  unfold keys at h
  induction l with
  | nil => simp [lookup]
  | cons q l ih =>
    obtain ⟨k', b'⟩ := q
    obtain ⟨hnew, hrest⟩ := List.nodup_cons.1 h
    by_cases hk : k' = k
    · subst hk
      have hl : (k', b) ∉ l := fun hmem => hnew (List.mem_map.2 ⟨_, hmem, rfl⟩)
      simp [lookup, hl, @eq_comm _ b]
    · simp [lookup, hk, Ne.symm hk, ih hrest]

end Index

namespace Configuration

open Text

variable {line : List Char} {rest earlier later : List (List Char)} {key value text : String}
  {c : Configuration} {n : Nat}

/-! ## The grammar of a line -/

/-- The line is blank or a comment. -/
def Silent (line : List Char) : Prop := trim line = [] ∨ (trim line).head? = some '#'

/-- The first equals sign of the trimmed line stands between the two texts, and the first of them
is a key when trimmed: not empty and without blanks. -/
def Divides (line before after : List Char) : Prop :=
  trim line = before ++ '=' :: after ∧ '=' ∉ before ∧
    trim before ≠ [] ∧ ∀ c ∈ trim before, isBlank c = false

/-- The line can stand in a configuration. -/
def Acceptable (line : List Char) : Prop :=
  Silent line ∨ ∃ before after, Divides line before after

/-- The line gives the key this value. -/
def Sets (line : List Char) (key value : String) : Prop :=
  ¬Silent line ∧ ∃ before after, Divides line before after ∧
    key = String.ofList (trim before) ∧ value = String.ofList (trim after)

/-- Some line gives the key this value, and no later line sets the key. -/
def LastSets (all : List (List Char)) (key value : String) : Prop :=
  ∃ earlier line later, all = earlier ++ line :: later ∧ Sets line key value ∧
    ∀ l ∈ later, ∀ v, ¬Sets l key v

theorem Acceptable.silent_or_sets (h : Acceptable line) :
    Silent line ∨ ∃ key value, Sets line key value := by
  by_cases hs : Silent line
  · exact .inl hs
  · obtain ⟨before, after, hdiv⟩ := h.resolve_left hs
    exact .inr ⟨_, _, hs, before, after, hdiv, rfl, rfl⟩

theorem Sets.acceptable (h : Sets line key value) : Acceptable line := by
  obtain ⟨-, before, after, hdiv, -⟩ := h
  exact .inr ⟨before, after, hdiv⟩

/-! ## Reading a line -/

theorem silent_iff :
    ((trim line).isEmpty || decide ((trim line).head? = some '#')) = true ↔ Silent line := by
  simp [Silent]

/-- The check of a key in the words of the grammar. -/
theorem not_key_iff {text : List Char} :
    (text.isEmpty || text.any isBlank) = true ↔
      ¬(text ≠ [] ∧ ∀ c ∈ text, isBlank c = false) := by
  rw [Bool.or_eq_true, List.isEmpty_iff, List.any_eq_true]
  grind

theorem Line.read_of_silent (h : Silent line) : Line.read line = .nothing :=
  if_pos (silent_iff.2 h)

theorem Line.read_of_sets (h : Sets line key value) : Line.read line = .setting key value := by
  obtain ⟨hs, before, after, ⟨htrim, hfirst, hkey⟩, rfl, rfl⟩ := h
  have hsplit : splitFirst '=' (trim line) = some (before, after) :=
    htrim ▸ splitFirst_append hfirst
  unfold Line.read
  rw [if_neg (mt silent_iff.1 hs), hsplit]
  exact if_neg fun hbad => not_key_iff.1 hbad hkey

theorem Line.read_of_not_acceptable (h : ¬Acceptable line) :
    Line.read line = .malformed (String.ofList (trim line)) := by
  obtain ⟨hs, hnone⟩ := not_or.1 h
  unfold Line.read
  rw [if_neg (mt silent_iff.1 hs)]
  rcases hsplit : splitFirst '=' (trim line) with _ | ⟨before, after⟩
  · rfl
  · obtain ⟨htrim, hfirst⟩ := splitFirst_eq_some hsplit
    exact if_pos (not_key_iff.2 fun hkey => hnone ⟨before, after, htrim, hfirst, hkey⟩)

theorem Sets.unique {key' value' : String} (h : Sets line key value) (h' : Sets line key' value') :
    key = key' ∧ value = value' := by
  have hread := (Line.read_of_sets h).symm.trans (Line.read_of_sets h')
  cases hread
  exact ⟨rfl, rfl⟩

/-! ## Reading all lines -/

theorem readLines_of_silent (h : Silent line) :
    readLines n (line :: rest) c = readLines (n + 1) rest c := by
  rw [readLines, Line.read_of_silent h]

theorem readLines_of_sets (h : Sets line key value) :
    readLines n (line :: rest) c = readLines (n + 1) rest (c.set key value) := by
  rw [readLines, Line.read_of_sets h]

theorem readLines_of_not_acceptable (h : ¬Acceptable line) :
    readLines n (line :: rest) c = .error (.malformedLine n (String.ofList (trim line))) := by
  rw [readLines, Line.read_of_not_acceptable h]

/-- The first line that is not acceptable ends the reading with its number and its text. -/
theorem readLines_of_first (hearlier : ∀ l ∈ earlier, Acceptable l) (h : ¬Acceptable line) :
    readLines n (earlier ++ line :: later) c =
      .error (.malformedLine (n + earlier.length) (String.ofList (trim line))) := by
  induction earlier generalizing n c with
  | nil => exact readLines_of_not_acceptable h
  | cons first earlier ih =>
    have hrest := fun l hl => hearlier l (List.mem_cons_of_mem _ hl)
    have hnumber : n + (first :: earlier).length = n + 1 + earlier.length := by
      rw [List.length_cons]
      omega
    rw [List.cons_append, hnumber]
    rcases (hearlier first List.mem_cons_self).silent_or_sets with hs | ⟨k, v, hs⟩
    · rw [readLines_of_silent hs, ih hrest]
    · rw [readLines_of_sets hs, ih hrest]

/-- Either all lines are acceptable or there is a first that is not. -/
theorem acceptable_or_first (all : List (List Char)) :
    (∀ l ∈ all, Acceptable l) ∨ ∃ earlier line later, all = earlier ++ line :: later ∧
      (∀ l ∈ earlier, Acceptable l) ∧ ¬Acceptable line := by
  induction all with
  | nil => exact .inl fun l hl => absurd hl List.not_mem_nil
  | cons first all ih =>
    by_cases hfirst : Acceptable first
    · rcases ih with hall | ⟨earlier, line, later, rfl, hearlier, hline⟩
      · exact .inl (List.forall_mem_cons.2 ⟨hfirst, hall⟩)
      · exact .inr ⟨first :: earlier, line, later, rfl,
          List.forall_mem_cons.2 ⟨hfirst, hearlier⟩, hline⟩
    · exact .inr ⟨[], first, all, rfl, fun l hl => absurd hl List.not_mem_nil, hfirst⟩

theorem lastSets_cons {first : List Char} :
    LastSets (first :: rest) key value ↔
      LastSets rest key value ∨ Sets first key value ∧ ∀ l ∈ rest, ∀ v, ¬Sets l key v := by
  constructor
  · rintro ⟨earlier, line, later, hsplit, hsets, hlater⟩
    cases earlier with
    | nil =>
      cases hsplit
      exact .inr ⟨hsets, hlater⟩
    | cons _ earlier =>
      cases hsplit
      exact .inl ⟨earlier, line, later, rfl, hsets, hlater⟩
  · rintro (⟨earlier, line, later, rfl, hsets, hlater⟩ | ⟨hsets, hlater⟩)
    · exact ⟨first :: earlier, line, later, rfl, hsets, hlater⟩
    · exact ⟨[], first, rest, rfl, hsets, hlater⟩

theorem LastSets.exists_mem (h : LastSets all key value) : ∃ line ∈ all, Sets line key value := by
  obtain ⟨earlier, line, later, rfl, hsets, -⟩ := h
  exact ⟨line, by simp, hsets⟩

/-- What the options are after acceptable lines: a key has the value of the last line that sets it,
and keeps its old value when no line does. -/
theorem readLines_of_acceptable (h : ∀ l ∈ all, Acceptable l) (hkeys : c.options.keys.Nodup) :
    ∃ c', readLines n all c = .ok c' ∧ c'.options.keys.Nodup ∧ ∀ key value,
      c'.options.get? key = some value ↔ LastSets all key value ∨
        c.options.get? key = some value ∧ ∀ l ∈ all, ∀ v, ¬Sets l key v := by
  induction all generalizing n c with
  | nil =>
    refine ⟨c, rfl, hkeys, fun key value => ⟨fun hget => .inr ⟨hget, by simp⟩, ?_⟩⟩
    rintro (hlast | ⟨hget, -⟩)
    · obtain ⟨_, hmem, -⟩ := hlast.exists_mem
      cases hmem
    · exact hget
  | cons first all ih =>
    obtain ⟨hfirst, hall⟩ := List.forall_mem_cons.1 h
    rcases hfirst.silent_or_sets with hs | ⟨k, v, hs⟩
    · obtain ⟨c', hread, hnodup, hget⟩ := ih (n := n + 1) hall hkeys
      refine ⟨c', (readLines_of_silent hs).trans hread, hnodup, fun key value => ?_⟩
      have hnone : ∀ v, ¬Sets first key v := fun v hsets => hsets.1 hs
      rw [hget, lastSets_cons]
      simp [hnone]
    · obtain ⟨c', hread, hnodup, hget⟩ :=
        ih (n := n + 1) (c := c.set k v) hall (Index.nodup_insert hkeys k v)
      refine ⟨c', (readLines_of_sets hs).trans hread, hnodup, fun key value => ?_⟩
      have hfirst : ∀ key value, Sets first key value ↔ k = key ∧ v = value := fun key value =>
        ⟨hs.unique, fun heq => heq.1 ▸ heq.2 ▸ hs⟩
      have hset : (c.set k v).options.get? key = if k = key then some v else c.options.get? key :=
        Index.get?_insert c.options k key v
      rw [hget, lastSets_cons, hset]
      by_cases hk : k = key <;> simp [hfirst, hk]

/-! ## Writing -/

/-- A pair that survives being written on a line: the key is a key and no comment, and the value
has no blanks at its ends and fits on one line. -/
structure Writable (pair : String × String) : Prop where
  key_ne_nil : pair.1.toList ≠ []
  key_not_blank : ∀ c ∈ pair.1.toList, isBlank c = false
  key_no_equals : '=' ∉ pair.1.toList
  key_no_comment : pair.1.toList.head? ≠ some '#'
  value_trimmed : Trimmed pair.2.toList
  value_one_line : '\n' ∉ pair.2.toList

/-- The line of a pair. -/
def writtenLine (pair : String × String) : List Char := (pair.1 ++ " = " ++ pair.2).toList

/-- The pairs as text, each on a line of its own. -/
def written (pairs : List (String × String)) : String :=
  String.ofList (unlines (pairs.map writtenLine))

/-- The key starts where the trimmed line starts. -/
theorem Divides.head?_eq {before after : List Char} (h : Divides line before after) :
    (trim before).head? = (trim line).head? := by
  obtain ⟨htrim, -, hne, -⟩ := h
  obtain ⟨l, r, hbefore, hl, -⟩ := exists_trim before
  have hstart := (trimmed_trim line).1
  rcases hkey : trim before with _ | ⟨c, key⟩
  · exact absurd hkey hne
  rw [hkey] at hbefore
  rw [htrim, hbefore] at hstart ⊢
  cases l with
  | nil => rfl
  | cons d l => exact absurd (hl d List.mem_cons_self) (by simp [hstart d rfl])

/-- A pair that comes from a line is writable. -/
theorem Sets.writable (h : Sets line key value) (hline : '\n' ∉ line) : Writable (key, value) := by
  obtain ⟨hs, before, after, hdiv, rfl, rfl⟩ := h
  have hstart := hdiv.head?_eq
  obtain ⟨htrim, hfirst, hne, hblank⟩ := hdiv
  have hafter : '\n' ∉ trim after := by
    intro hmem
    have htail : '\n' ∈ trim line := by simp [htrim, mem_of_mem_trim hmem]
    exact hline (mem_of_mem_trim htail)
  constructor <;> simp only [String.toList_ofList]
  · exact hne
  · exact hblank
  · exact fun hmem => hfirst (mem_of_mem_trim hmem)
  · rw [hstart]
    exact (not_or.1 hs).2
  · exact trimmed_trim after
  · exact hafter

namespace Writable

variable {pair : String × String}

theorem isBlank_space : ∀ c ∈ [' '], isBlank c = true := by
  intro c hc
  rw [List.mem_singleton.1 hc]
  decide

theorem writtenLine_eq (pair : String × String) :
    writtenLine pair = pair.1.toList ++ ' ' :: '=' :: ' ' :: pair.2.toList := by
  unfold writtenLine
  rw [String.toList_append, String.toList_append, List.append_assoc]
  rfl

theorem getLast?_writtenLine (h : pair.2.toList ≠ []) :
    (writtenLine pair).getLast? = pair.2.toList.getLast? := by
  have hline : writtenLine pair = pair.1.toList ++ [' ', '=', ' '] ++ pair.2.toList := by
    simp [writtenLine_eq]
  rw [hline, List.getLast?_append_of_ne_nil _ h]

/-- The trimmed line. Only the blank before an empty value is dropped. -/
theorem exists_trim_writtenLine (h : Writable pair) : ∃ after, trim after = pair.2.toList ∧
    trim (writtenLine pair) = pair.1.toList ++ [' '] ++ '=' :: after := by
  have hstart : ∀ t, ∀ c ∈ (pair.1.toList ++ t).head?, isBlank c = false := by
    intro t c hc
    rw [List.head?_append_of_ne_nil _ h.key_ne_nil] at hc
    exact h.key_not_blank c (List.mem_of_mem_head? hc)
  by_cases hvalue : pair.2.toList = []
  · refine ⟨[], hvalue.symm, ?_⟩
    have hline := trim_eq (l := []) (by simp) isBlank_space (t := pair.1.toList ++ [' ', '='])
      ⟨hstart _, by simp; decide⟩
    simpa [writtenLine_eq, hvalue] using hline
  · refine ⟨' ' :: pair.2.toList, ?_, ?_⟩
    · simpa using trim_eq (r := []) isBlank_space (by simp) h.value_trimmed
    · have hline : Trimmed (writtenLine pair) := by
        refine ⟨writtenLine_eq pair ▸ hstart _, ?_⟩
        rw [getLast?_writtenLine hvalue]
        exact h.value_trimmed.2
      rw [trim_of_trimmed hline, writtenLine_eq, List.append_assoc]
      rfl

/-- Reading the line of a pair gives the pair. -/
theorem sets (h : Writable pair) : Sets (writtenLine pair) pair.1 pair.2 := by
  obtain ⟨after, hvalue, hline⟩ := h.exists_trim_writtenLine
  have hkey : trim (pair.1.toList ++ [' ']) = pair.1.toList := by
    simpa using trim_eq (l := []) (r := [' ']) (by simp) isBlank_space
      (trimmed_of_no_blank h.key_not_blank)
  have hdiv : Divides (writtenLine pair) (pair.1.toList ++ [' ']) after := by
    refine ⟨hline, by simpa using h.key_no_equals, ?_, ?_⟩ <;> rw [hkey]
    · exact h.key_ne_nil
    · exact h.key_not_blank
  refine ⟨?_, _, after, hdiv, ?_, ?_⟩
  · rintro (hempty | hcomment)
    · simp [hline] at hempty
    · rw [← hdiv.head?_eq, hkey] at hcomment
      exact h.key_no_comment hcomment
  · rw [hkey, String.ofList_toList]
  · rw [hvalue, String.ofList_toList]

theorem newline_not_mem (h : Writable pair) : '\n' ∉ writtenLine pair := by
  have hkey : '\n' ∉ pair.1.toList := fun hmem => by
    have hblank := h.key_not_blank _ hmem
    revert hblank
    decide
  rw [writtenLine_eq]
  simpa [hkey] using h.value_one_line

theorem getLast?_ne (h : Writable pair) : (writtenLine pair).getLast? ≠ some '\r' := by
  intro hlast
  by_cases hvalue : pair.2.toList = []
  · simp [writtenLine_eq, hvalue] at hlast
  · rw [getLast?_writtenLine hvalue] at hlast
    have hblank := h.value_trimmed.2 _ hlast
    revert hblank
    decide

end Writable

theorem lines_written (h : ∀ pair ∈ pairs, Writable pair) :
    lines (written pairs).toList = pairs.map writtenLine := by
  rw [written, String.toList_ofList]
  apply lines_unlines
  · exact List.forall_mem_map.2 fun pair hpair => (h pair hpair).newline_not_mem
  · exact List.forall_mem_map.2 fun pair hpair => (h pair hpair).getLast?_ne

/-- In written lines with different keys every pair is the last word on its key. -/
theorem lastSets_map_iff (h : ∀ pair ∈ pairs, Writable pair) (hkeys : (pairs.map Prod.fst).Nodup) :
    LastSets (pairs.map writtenLine) key value ↔ (key, value) ∈ pairs := by
  constructor
  · intro hlast
    obtain ⟨line, hmem, hsets⟩ := hlast.exists_mem
    obtain ⟨pair, hpair, rfl⟩ := List.mem_map.1 hmem
    obtain ⟨rfl, rfl⟩ := hsets.unique (h pair hpair).sets
    exact hpair
  · intro hmem
    obtain ⟨earlier, later, rfl⟩ := List.append_of_mem hmem
    refine ⟨earlier.map writtenLine, writtenLine (key, value), later.map writtenLine, by simp,
      (h _ hmem).sets, List.forall_mem_map.2 fun pair hpair v hsets => ?_⟩
    have hsame : key = pair.1 := (hsets.unique (h pair (by simp [hpair])).sets).1
    rw [List.map_append, List.map_cons, List.nodup_append, List.nodup_cons] at hkeys
    exact hkeys.2.1.1 (List.mem_map.2 ⟨pair, hpair, hsame.symm⟩)

/-! ## Reading a text -/

theorem parse_of_acceptable (h : ∀ l ∈ lines text.toList, Acceptable l) :
    ∃ c, parse text = .ok c ∧ c.options.keys.Nodup ∧ ∀ key value,
      c.options.get? key = some value ↔ LastSets (lines text.toList) key value := by
  obtain ⟨c, hread, hkeys, hget⟩ :=
    readLines_of_acceptable (n := 1) (c := .empty) h List.nodup_nil
  refine ⟨c, hread, hkeys, fun key value => (hget key value).trans (or_iff_left ?_)⟩
  rintro ⟨hempty, -⟩
  cases hempty

theorem parse_of_first (hsplit : lines text.toList = earlier ++ line :: later)
    (hearlier : ∀ l ∈ earlier, Acceptable l) (h : ¬Acceptable line) :
    parse text = .error (.malformedLine (earlier.length + 1) (String.ofList (trim line))) := by
  rw [parse, hsplit, readLines_of_first hearlier h, Nat.add_comm]

theorem acceptable_of_parse (h : parse text = .ok c) : ∀ l ∈ lines text.toList, Acceptable l := by
  rcases acceptable_or_first (lines text.toList) with hall | ⟨earlier, line, later, hfirst⟩
  · exact hall
  · rw [parse_of_first hfirst.1 hfirst.2.1 hfirst.2.2] at h
    cases h

theorem parse_eq_error_iff {e : ConfigError} :
    parse text = .error e ↔ ∃ earlier line later, lines text.toList = earlier ++ line :: later ∧
      (∀ l ∈ earlier, Acceptable l) ∧ ¬Acceptable line ∧
      e = .malformedLine (earlier.length + 1) (String.ofList (trim line)) := by
  constructor
  · intro herror
    rcases acceptable_or_first (lines text.toList) with
      hall | ⟨earlier, line, later, hsplit, hearlier, hline⟩
    · obtain ⟨c, hparse, -⟩ := parse_of_acceptable hall
      rw [hparse] at herror
      cases herror
    · rw [parse_of_first hsplit hearlier hline] at herror
      exact ⟨earlier, line, later, hsplit, hearlier, hline, (Except.error.inj herror).symm⟩
  · rintro ⟨earlier, line, later, hsplit, hearlier, hline, rfl⟩
    exact parse_of_first hsplit hearlier hline

/-- What a configuration that was read looks like. -/
theorem exact_of_parse (h : parse text = .ok c) :
    c.options.keys.Nodup ∧ ∀ key value,
      c.options.get? key = some value ↔ LastSets (lines text.toList) key value := by
  obtain ⟨c', hparse, hexact⟩ := parse_of_acceptable (acceptable_of_parse h)
  obtain rfl : c' = c := Except.ok.inj (hparse.symm.trans h)
  exact hexact

theorem writable_of_parse (h : parse text = .ok c) : ∀ pair ∈ c.options.pairs, Writable pair := by
  obtain ⟨hkeys, hget⟩ := exact_of_parse h
  rintro ⟨key, value⟩ hpair
  have hlast := (hget key value).1 ((Index.mem_pairs_iff hkeys).1 hpair)
  obtain ⟨line, hline, hsets⟩ := hlast.exists_mem
  exact hsets.writable (newline_not_mem_line hline)

/-- A text whose lines are those of writable pairs with different keys is read as these pairs. -/
theorem parse_of_written (h : ∀ pair ∈ pairs, Writable pair) (hkeys : (pairs.map Prod.fst).Nodup)
    (hlines : lines text.toList = pairs.map writtenLine) :
    ∃ c, parse text = .ok c ∧ c.options.keys.Nodup ∧ ∀ key value,
      c.options.get? key = some value ↔ (key, value) ∈ pairs := by
  have hall : ∀ l ∈ lines text.toList, Acceptable l := by
    rw [hlines]
    exact List.forall_mem_map.2 fun pair hpair => (h pair hpair).sets.acceptable
  obtain ⟨c, hparse, hnodup, hget⟩ := parse_of_acceptable hall
  refine ⟨c, hparse, hnodup, fun key value => ?_⟩
  rw [hget, hlines, lastSets_map_iff h hkeys]

/-- A text is read exactly when all its lines are acceptable; otherwise the first line that is not
is reported, with its number counted from one and its trimmed text. What is read gives each key the
value of the last line that sets it. Written down again in any order, however the lines are ended,
it is read as the same options. -/
theorem parse_exactly_grammar (text : String) :
    ((∃ c, parse text = .ok c) ↔ ∀ line ∈ lines text.toList, Acceptable line) ∧
    (∀ e, parse text = .error e ↔
      ∃ earlier line later, lines text.toList = earlier ++ line :: later ∧
        (∀ l ∈ earlier, Acceptable l) ∧ ¬Acceptable line ∧
        e = .malformedLine (earlier.length + 1) (String.ofList (trim line))) ∧
    ∀ c, parse text = .ok c →
      (∀ key value,
        c.options.get? key = some value ↔ LastSets (lines text.toList) key value) ∧
      ∀ pairs, pairs.Perm c.options.pairs →
        lines (written pairs).toList = pairs.map writtenLine ∧
        ∀ again : String, lines again.toList = pairs.map writtenLine →
          ∃ c', parse again = .ok c' ∧ c'.options.pairs.Perm c.options.pairs ∧
            ∀ key, c'.options.get? key = c.options.get? key := by
  refine ⟨⟨?_, ?_⟩, fun e => parse_eq_error_iff, fun c hparse => ?_⟩
  · rintro ⟨c, hparse⟩
    exact acceptable_of_parse hparse
  · intro hall
    obtain ⟨c, hparse, -⟩ := parse_of_acceptable hall
    exact ⟨c, hparse⟩
  obtain ⟨hkeys, hget⟩ := exact_of_parse hparse
  refine ⟨hget, fun pairs hperm => ?_⟩
  have hwritable : ∀ pair ∈ pairs, Writable pair := fun pair hpair =>
    writable_of_parse hparse pair (hperm.mem_iff.1 hpair)
  refine ⟨lines_written hwritable, fun again hlines => ?_⟩
  have hdistinct : (pairs.map Prod.fst).Nodup := (hperm.map Prod.fst).nodup_iff.2 hkeys
  obtain ⟨c', hagain, hkeys', hget'⟩ := parse_of_written hwritable hdistinct hlines
  have hsame : ∀ key value, c'.options.get? key = some value ↔ c.options.get? key = some value := by
    intro key value
    rw [hget', hperm.mem_iff, Index.mem_pairs_iff hkeys]
  refine ⟨c', hagain, ?_, fun key => Option.ext fun value => hsame key value⟩
  refine (List.perm_ext_iff_of_nodup (List.Nodup.of_map _ hkeys') (List.Nodup.of_map _ hkeys)).2 ?_
  rintro ⟨key, value⟩
  rw [Index.mem_pairs_iff hkeys', Index.mem_pairs_iff hkeys, hsame]

end Configuration

end ProgramAnalysis
