import CodeSurvey.Language.Scala
import CodeSurvey.Proofs.Statements
import CodeSurvey.Scan.Facts
import Mathlib.Data.List.Forall2
/-!
# Parameters between commas

Which commas of a parameter list separate parameters is a matter of its brackets. `nesting` reads them:
an opening bracket waits for its own closing one, and the head of an arrow closes nothing. The search for
the commas keeps one number instead, and lowers it at every closing character (`level_next`): it is the
number of brackets that are open, less the closing characters that closed none. So a parameter list is
taken apart as its brackets say exactly if no such character stands in front of a separating comma and
no inner comma is taken for one (`parameterTexts_exact_iff`).
-/
namespace CodeSurvey

open Text

/-! ## Words one space apart -/

namespace Text

/-- A run of characters none of which is blank. -/
def IsWord (w : List Char) : Prop := w ≠ [] ∧ ∀ c ∈ w, isBlank c = false

/-- The second text has the words of the first, one space apart: every run of blanks between two words
becomes one space, and the blanks at the ends are gone. -/
inductive Collapses : List Char → List Char → Prop
  | blank {t : List Char} (ht : Blank t) : Collapses t []
  | last {lead w tail : List Char} (hlead : Blank lead) (hw : IsWord w) (htail : Blank tail) :
      Collapses (lead ++ (w ++ tail)) w
  | next {lead w rest u : List Char} {c : Char} (hlead : Blank lead) (hw : IsWord w)
      (hc : isBlank c = true) (hrest : Collapses rest u) (hu : u ≠ []) :
      Collapses (lead ++ (w ++ c :: rest)) (w ++ ' ' :: u)

/-- The characters of a text that are not blank. -/
def ink (t : List Char) : List Char := t.filter (!isBlank ·)

theorem ink_append (s t : List Char) : ink (s ++ t) = ink s ++ ink t := List.filter_append s t

theorem ink_of_blank {t : List Char} (h : Blank t) : ink t = [] :=
  List.filter_eq_nil_iff.2 fun c hc => by simp [h c hc]

theorem blank_of_ink {t : List Char} (h : ink t = []) : Blank t :=
  fun c hc => by simpa using List.filter_eq_nil_iff.1 h c hc

/-- Collapsing leaves all that is not blank. -/
theorem Collapses.ink_eq {t u : List Char} (h : Collapses t u) : ink u = ink t := by
  induction h with
  | blank ht => rw [ink_of_blank ht]; rfl
  | last hlead _ htail => simp [ink_append, ink_of_blank hlead, ink_of_blank htail]
  | @next lead w rest u c hlead _ hc _ _ ih =>
    have hgap : ink (c :: rest) = ink rest := List.filter_cons_of_neg (by simp [hc])
    have hspace : ink (' ' :: u) = ink u := List.filter_cons_of_neg (by decide)
    rw [ink_append, ink_append, ink_append, ink_of_blank hlead, hgap, hspace, ih, List.nil_append]

theorem splitBy_of_forall {p : Char → Bool} {s : List Char} (h : ∀ c ∈ s, p c = false) :
    splitBy p s = [s] := by
  induction s with
  | nil => rfl
  | cons c r ih =>
    obtain ⟨hc, hr⟩ := List.forall_mem_cons.1 h
    rw [splitBy, if_neg (by simp [hc]), ih hr]

theorem words_append {c : Char} (hc : isBlank c = true) (s t : List Char) :
    words (s ++ c :: t) = words s ++ words t := by
  simp [words, FileSystem.splitBy_append hc]

theorem words_of_isWord {w : List Char} (h : IsWord w) : words w = [w] := by
  simp [words, splitBy_of_forall h.2, h.1]

theorem words_append_of_blank {lead : List Char} (h : Blank lead) (s : List Char) :
    words (lead ++ s) = words s := by
  induction lead with
  | nil => rfl
  | cons c r ih =>
    obtain ⟨hc, hr⟩ := List.forall_mem_cons.1 h
    rw [List.cons_append, ← List.nil_append (c :: (r ++ s)), words_append hc, ih hr]
    rfl

theorem words_of_blank {t : List Char} (h : Blank t) : words t = [] := by
  simpa [words, splitBy] using words_append_of_blank h []

/-- A text is blank, or starts with a word behind its leading blanks. -/
theorem blank_or_word (t : List Char) :
    Blank t ∨ ∃ lead w, Blank lead ∧ IsWord w ∧
      (t = lead ++ w ∨ ∃ c rest, isBlank c = true ∧ t = lead ++ (w ++ c :: rest)) := by
  have hlead : Blank (t.takeWhile isBlank) := fun c hc => List.mem_takeWhile_imp hc
  have hsplit : t = t.takeWhile isBlank ++ t.dropWhile isBlank :=
    List.takeWhile_append_dropWhile.symm
  generalize t.takeWhile isBlank = lead at hlead hsplit
  cases hdrop : t.dropWhile isBlank with
  | nil =>
    rw [hdrop, List.append_nil] at hsplit
    exact .inl (hsplit ▸ hlead)
  | cons d r =>
    have hd : isBlank d = false := by
      simpa [hdrop] using List.head?_dropWhile_not isBlank t
    have hword : IsWord ((d :: r).takeWhile (!isBlank ·)) := by
      refine ⟨by simp [hd], fun c hc => ?_⟩
      simpa using List.mem_takeWhile_imp hc
    have hrest : d :: r = _ := (List.takeWhile_append_dropWhile (p := (!isBlank ·))).symm
    refine .inr ⟨lead, _, hlead, hword, ?_⟩
    rw [hsplit, hdrop]
    cases hafter : (d :: r).dropWhile (!isBlank ·) with
    | nil =>
      rw [hafter, List.append_nil] at hrest
      exact .inl (by rw [← hrest])
    | cons c rest =>
      rw [hafter] at hrest
      have hc : isBlank c = true := by
        simpa [hafter] using List.head?_dropWhile_not (!isBlank ·) (d :: r)
      exact .inr ⟨c, rest, hc, by rw [← hrest]⟩

/-- **Squeezing puts the words one space apart.** -/
theorem collapses_squeeze (t : List Char) : Collapses t (squeeze t) := by
  -- each word is taken off together with a blank, so the induction is on the length
  induction hn : t.length using Nat.strongRecOn generalizing t with
  | ind n ih =>
    subst hn
    rcases blank_or_word t with ht | ⟨lead, w, hlead, hw, rfl | ⟨c, rest, hc, rfl⟩⟩
    · rw [squeeze, words_of_blank ht]
      exact .blank ht
    · rw [squeeze, words_append_of_blank hlead, words_of_isWord hw, join_singleton]
      have hblank : Blank ([] : List Char) := by simp [Blank]
      simpa using Collapses.last hlead hw hblank
    · have hwords : words (lead ++ (w ++ c :: rest)) = w :: words rest := by
        rw [words_append_of_blank hlead, words_append hc, words_of_isWord hw, List.singleton_append]
      have hrest := ih rest.length (by simp; omega) rest rfl
      rw [squeeze, hwords]
      rw [squeeze] at hrest
      cases hlater : words rest with
      | nil =>
        rw [hlater] at hrest
        have htail : Blank rest := blank_of_ink hrest.ink_eq.symm
        rw [join_singleton]
        exact .last hlead hw (List.forall_mem_cons.2 ⟨hc, htail⟩)
      | cons v vs =>
        rw [hlater] at hrest
        rw [join_cons_cons, List.singleton_append]
        refine .next hlead hw hc hrest fun hnil => ?_
        rw [hnil] at hrest
        rw [words_of_blank (blank_of_ink hrest.ink_eq.symm)] at hlater
        cases hlater

end Text

namespace Scan

/-! ## Nesting -/

/-- The bracket that closes an opening one. -/
def closingOf? (c : Char) : Option Char :=
  if c = '<' then some '>' else if c = '(' then some ')' else if c = '[' then some ']'
  else if c = '\x7b' then some '\x7d' else none

/-- How far a text is inside brackets. -/
structure Nesting where
  /-- The brackets that are still to come, the one of the innermost part first. -/
  awaited : List Char
  /-- How many closing characters have closed nothing. -/
  loose : Nat
  /-- The character before. -/
  last : Option Char
deriving DecidableEq

namespace Nesting

/-- Outside of all brackets. -/
def start : Nesting := ⟨[], 0, none⟩

/-- Whether a character is the head of an arrow, behind its shaft. -/
def endsArrow (n : Nesting) (c : Char) : Bool :=
  c == '>' && (n.last == some '-' || n.last == some '=')

/-- The nesting behind one more character. A closing character closes the innermost part if this is
what the part awaits; the head of an arrow closes nothing. -/
def next (n : Nesting) (c : Char) : Nesting :=
  match closingOf? c with
  | some d => ⟨d :: n.awaited, n.loose, some c⟩
  | none =>
    if isClosing c then
      if n.awaited.head? = some c ∧ n.endsArrow c = false then ⟨n.awaited.tail, n.loose, some c⟩
      else ⟨n.awaited, n.loose + 1, some c⟩
    else ⟨n.awaited, n.loose, some c⟩

/-- Open parts, less the closing characters that closed none. -/
def level (n : Nesting) : Int := n.awaited.length - n.loose

theorem isOpening_eq (c : Char) : isOpening c = (closingOf? c).isSome := by
  unfold isOpening closingOf?
  split <;> rename_i h₁
  · simp [h₁]
  · split <;> rename_i h₂
    · simp [h₂]
    · split <;> rename_i h₃
      · simp [h₃]
      · split <;> rename_i h₄
        · simp [h₄]
        · simp [h₁, h₂, h₃, h₄]

/-- **The level goes up with every opening and down with every closing character.** -/
theorem level_next (n : Nesting) (c : Char) : (n.next c).level =
    if isOpening c then n.level + 1 else if isClosing c then n.level - 1 else n.level := by
  rw [isOpening_eq]
  unfold next level
  cases closingOf? c with
  | some d =>
    simp
    omega
  | none =>
    cases hclosing : isClosing c with
    | false => simp
    | true =>
      by_cases htop : n.awaited.head? = some c ∧ n.endsArrow c = false
      · obtain ⟨rest, hrest⟩ : ∃ rest, n.awaited = c :: rest := by
          cases hawaited : n.awaited with
          | nil => simp [hawaited] at htop
          | cons d rest => exact ⟨rest, by simp_all⟩
        simp [htop, hrest]
        omega
      · simp only [htop]
        simp
        omega

theorem loose_le_next (n : Nesting) (c : Char) : n.loose ≤ (n.next c).loose := by
  unfold next
  split
  · exact Nat.le_refl _
  · split
    · split
      · exact Nat.le_refl _
      · exact Nat.le_succ _
    · exact Nat.le_refl _

theorem loose_le_foldl (n : Nesting) (t : List Char) : n.loose ≤ (t.foldl next n).loose := by
  induction t generalizing n with
  | nil => exact Nat.le_refl _
  | cons c r ih => exact (n.loose_le_next c).trans (ih _)

/-- Blanks open nothing. -/
theorem awaited_of_blank {t : List Char} (h : Blank t) (n : Nesting) :
    (t.foldl next n).awaited = n.awaited := by
  induction t generalizing n with
  | nil => rfl
  | cons c r ih =>
    obtain ⟨hc, hr⟩ := List.forall_mem_cons.1 h
    have hopening : closingOf? c = none := by
      unfold closingOf?
      split_ifs with h₁ h₂ h₃ h₄
      · exact absurd hc (by rw [h₁]; decide)
      · exact absurd hc (by rw [h₂]; decide)
      · exact absurd hc (by rw [h₃]; decide)
      · exact absurd hc (by rw [h₄]; decide)
      · rfl
    have hclosing : isClosing c = false := by
      rw [← Bool.not_eq_true]
      intro hclosing
      simp only [isClosing, Bool.or_eq_true, beq_iff_eq] at hclosing
      rcases hclosing with ((rfl | rfl) | rfl) | rfl <;> exact absurd hc (by decide)
    rw [List.foldl_cons, ih hr, next, hopening]
    simp [hclosing]

end Nesting

/-- The nesting behind a text. -/
def nesting (t : List Char) : Nesting := t.foldl Nesting.next .start

/-- A text that is one parameter: it is not blank, the parts that it opens are closed in order, and each
of its commas stands in such a part. -/
structure IsParameter (t : List Char) : Prop where
  not_blank : ¬ Blank t
  closed : (nesting t).awaited = []
  inner : ∀ i < t.length, t[i]? = some ',' → (nesting (t.take i)).awaited ≠ []

instance (t : List Char) : Decidable (IsParameter t) :=
  decidable_of_iff (¬ Blank t ∧ (nesting t).awaited = [] ∧
      ∀ i < t.length, t[i]? = some ',' → (nesting (t.take i)).awaited ≠ [])
    ⟨fun h => ⟨h.1, h.2.1, h.2.2⟩, fun h => ⟨h.not_blank, h.closed, h.inner⟩⟩

/-- A comma of a text at which as many closing characters have closed nothing as parts are open. -/
def Exposed (t : List Char) (i : Nat) : Prop :=
  t[i]? = some ',' ∧ (nesting (t.take i)).loose = (nesting (t.take i)).awaited.length

instance (t : List Char) (i : Nat) : Decidable (Exposed t i) := inferInstanceAs (Decidable (_ ∧ _))

/-! ## Taking a list apart -/

theorem splitTopLevel_ne_nil (depth : Int) (s : List Char) : splitTopLevel depth s ≠ [] := by
  cases s with
  | nil => simp [splitTopLevel]
  | cons c r =>
    unfold splitTopLevel
    split
    · simp
    · dsimp only
      split <;> simp

/-- A comma at level zero ends a piece. -/
theorem splitTopLevel_comma {depth : Int} (h : depth = 0) (rest : List Char) :
    splitTopLevel depth (',' :: rest) = [] :: splitTopLevel 0 rest := by
  rw [h, splitTopLevel, if_pos (by decide)]

/-- A part without commas at level zero goes to one piece. -/
theorem splitTopLevel_append {n : Nesting} {t rest w : List Char} {ws : List (List Char)}
    (h : ∀ i, t[i]? = some ',' → ((t.take i).foldl Nesting.next n).level ≠ 0)
    (hrest : splitTopLevel (t.foldl Nesting.next n).level rest = w :: ws) :
    splitTopLevel n.level (t ++ rest) = (t ++ w) :: ws := by
  induction t generalizing n with
  | nil => exact hrest
  | cons c r ih =>
    have hcomma : (c = ',' && n.level = 0) = false := by
      have hfirst := h 0
      simp only [List.getElem?_cons_zero, Option.some.injEq, List.take_zero, List.foldl_nil] at hfirst
      simpa using hfirst
    have hlater : splitTopLevel (n.next c).level (r ++ rest) = (r ++ w) :: ws :=
      ih (fun i hi => h (i + 1) hi) hrest
    rw [Nesting.level_next] at hlater
    rw [List.cons_append, splitTopLevel, hcomma]
    simp [hlater]

theorem level_eq_zero_iff {n : Nesting} : n.level = 0 ↔ n.loose = n.awaited.length := by
  unfold Nesting.level
  omega

/-- A text none of whose commas is exposed is the start of one piece. -/
theorem splitTopLevel_of_not_exposed {t rest w : List Char} {ws : List (List Char)}
    (h : ∀ i, ¬ Exposed t i) (hrest : splitTopLevel (nesting t).level rest = w :: ws) :
    splitTopLevel 0 (t ++ rest) = (t ++ w) :: ws :=
  splitTopLevel_append (n := .start) (fun i hi hzero => h i ⟨hi, level_eq_zero_iff.1 hzero⟩) hrest

/-- Without loose characters the commas of a parameter are hidden in its parts. -/
theorem IsParameter.not_exposed {t : List Char} (h : IsParameter t) (hloose : (nesting t).loose = 0)
    (i : Nat) : ¬ Exposed t i := by
  rintro ⟨hcomma, hlevel⟩
  obtain ⟨hi, -⟩ := List.getElem?_eq_some_iff.1 hcomma
  have hle : (nesting (t.take i)).loose ≤ (nesting t).loose := by
    have hlater := Nesting.loose_le_foldl (nesting (t.take i)) (t.drop i)
    rwa [nesting, ← List.foldl_append, List.take_append_drop] at hlater
  refine h.inner i hi hcomma (List.eq_nil_of_length_eq_zero ?_)
  omega

/-- A parameter without loose characters is taken off in front of a comma. -/
theorem splitTopLevel_parameter {t : List Char} (h : IsParameter t) (hloose : (nesting t).loose = 0)
    (rest : List Char) : splitTopLevel 0 (t ++ ',' :: rest) = t :: splitTopLevel 0 rest := by
  have hlevel : (nesting t).level = 0 := level_eq_zero_iff.2 (by rw [hloose, h.closed]; rfl)
  simpa using splitTopLevel_of_not_exposed (h.not_exposed hloose) (splitTopLevel_comma hlevel rest)

/-- More or less than a text up to a comma is not the text. -/
theorem ink_append_comma_ne (a b : List Char) : ink (a ++ ',' :: b) ≠ ink a := by
  have hcomma : ink (',' :: b) = ',' :: ink b := List.filter_cons_of_pos (by decide)
  rw [ink_append, hcomma]
  simp

/-- A text with an exposed comma is cut in two at the first of them. -/
theorem exists_piece_of_exposed {t : List Char} (h : IsParameter t) {i : Nat} (hi : Exposed t i)
    (rest : List Char) :
    ∃ w ws, splitTopLevel 0 (t ++ rest) = w :: ws ∧ ¬ Blank w ∧ ink w ≠ ink t := by
  classical
  obtain ⟨i, ⟨hcomma, hlevel⟩, hfirst⟩ : ∃ i, Exposed t i ∧ ∀ j < i, ¬ Exposed t j :=
    ⟨Nat.find ⟨i, hi⟩, Nat.find_spec ⟨i, hi⟩, fun j hj => Nat.find_min ⟨i, hi⟩ hj⟩
  obtain ⟨hlt, hget⟩ := List.getElem?_eq_some_iff.1 hcomma
  have hsplit : t = t.take i ++ ',' :: t.drop (i + 1) := by
    rw [← hget, ← List.drop_eq_getElem_cons hlt, List.take_append_drop]
  have hbefore : ∀ j, ¬ Exposed (t.take i) j := by
    rintro j ⟨hj, hlevel⟩
    obtain ⟨hjlt, -⟩ := List.getElem?_eq_some_iff.1 hj
    rw [List.length_take] at hjlt
    rw [List.getElem?_take_of_lt (by omega)] at hj
    rw [List.take_take, Nat.min_eq_left (by omega)] at hlevel
    exact hfirst j (by omega) ⟨hj, hlevel⟩
  have hcut := splitTopLevel_comma (level_eq_zero_iff.2 hlevel) (t.drop (i + 1) ++ rest)
  have hpiece := splitTopLevel_of_not_exposed hbefore hcut
  rw [← List.cons_append, ← List.append_assoc, ← hsplit, List.append_nil] at hpiece
  have hless := ink_append_comma_ne (t.take i) (t.drop (i + 1))
  rw [← hsplit] at hless
  exact ⟨_, _, hpiece, fun hblank => h.inner i hlt hcomma (Nesting.awaited_of_blank hblank .start),
    hless.symm⟩

/-- A loose character keeps the comma behind the text from being found. -/
theorem exists_piece_of_loose {t : List Char} (h : IsParameter t) (hloose : (nesting t).loose ≠ 0)
    (rest : List Char) :
    ∃ w ws, splitTopLevel 0 (t ++ ',' :: rest) = w :: ws ∧ ¬ Blank w ∧ ink w ≠ ink t := by
  by_cases hexposed : ∃ i, Exposed t i
  · obtain ⟨i, hi⟩ := hexposed
    exact exists_piece_of_exposed h hi _
  · have hlevel : (nesting t).level ≠ 0 := by
      rw [Ne, level_eq_zero_iff, h.closed]
      exact hloose
    obtain ⟨v, vs, hlater⟩ := List.exists_cons_of_ne_nil (splitTopLevel_ne_nil (nesting t).level rest)
    have hkept : splitTopLevel (nesting t).level (',' :: rest) = (',' :: v) :: vs := by
      rw [splitTopLevel, if_neg (by simp [hlevel])]
      simp [isOpening, isClosing, hlater]
    refine ⟨_, _, splitTopLevel_of_not_exposed (not_exists.1 hexposed) hkept, fun hblank => ?_,
      ink_append_comma_ne t v⟩
    exact absurd (hblank ',' (by simp)) (by decide)

theorem parameterTexts_of_split {s w : List Char} {ws : List (List Char)}
    (hs : splitTopLevel 0 s = w :: ws) (hw : ¬ Blank w) :
    parameterTexts s = squeeze w :: (ws.filter fun p => !(trim p).isEmpty).map squeeze := by
  have htrim : (trim w).isEmpty = false := by
    rw [← Bool.not_eq_true, List.isEmpty_iff, trim_eq_nil_iff]
    exact hw
  rw [parameterTexts, hs, List.filter_cons_of_pos (by rw [htrim]; rfl), List.map_cons]

/-- A first piece other than the first text is not the text. -/
theorem not_forall₂_of_piece {s t w : List Char} {ts ws : List (List Char)}
    (hs : splitTopLevel 0 s = w :: ws) (hw : ¬ Blank w) (hink : ink w ≠ ink t) :
    ¬ List.Forall₂ Collapses (t :: ts) (parameterTexts s) := by
  rw [parameterTexts_of_split hs hw, List.forall₂_cons]
  rintro ⟨hfirst, -⟩
  exact hink ((collapses_squeeze w).ink_eq.symm.trans hfirst.ink_eq)

/-- **Parameters are told apart by the commas outside their brackets**, unless a closing character that
closes nothing, such as the head of an arrow, changes the count. Of texts joined with commas, each of
them one parameter, the list has the texts themselves, in their order and with their words one space
apart, if and only if no text but the last holds such a character and no comma inside the last has as
many of them in front of it as it has brackets around it. -/
theorem parameterTexts_exact_iff {ts : List (List Char)} (h : ∀ t ∈ ts, IsParameter t) :
    List.Forall₂ Collapses ts (parameterTexts (join [','] ts)) ↔
      (∀ t ∈ ts.dropLast, (nesting t).loose = 0) ∧
        ∀ t ∈ ts.getLast?, ∀ i < t.length, ¬ Exposed t i := by
  induction ts with
  | nil =>
    have hnone : parameterTexts (join [','] []) = [] := by decide
    simp [hnone]
  | cons t ts ih =>
    obtain ⟨ht, hts⟩ := List.forall_mem_cons.1 h
    cases ts with
    | nil =>
      have hjoin : join [','] [t] = t ++ [] := by rw [join_singleton, List.append_nil]
      rw [hjoin]
      by_cases hexposed : ∃ i, Exposed t i
      · obtain ⟨i, hi⟩ := hexposed
        obtain ⟨w, ws, hsplit, hw, hink⟩ := exists_piece_of_exposed ht hi []
        obtain ⟨hlt, -⟩ := List.getElem?_eq_some_iff.1 hi.1
        refine iff_of_false (not_forall₂_of_piece hsplit hw hink) fun hno => ?_
        exact hno.2 t rfl i hlt hi
      · have hnone := not_exists.1 hexposed
        have hsplit : splitTopLevel 0 (t ++ []) = [t ++ []] :=
          splitTopLevel_of_not_exposed hnone (by simp [splitTopLevel])
        rw [List.append_nil] at hsplit ⊢
        refine iff_of_true ?_ ⟨by simp, ?_⟩
        · rw [parameterTexts_of_split hsplit ht.not_blank]
          exact .cons (collapses_squeeze t) .nil
        · intro u hu i _
          cases hu
          exact hnone i
    | cons u us =>
      rw [join_cons_cons, List.singleton_append, List.dropLast_cons_cons, List.forall_mem_cons, List.getLast?_cons_cons]
      by_cases hloose : (nesting t).loose = 0
      · rw [parameterTexts_of_split (splitTopLevel_parameter ht hloose _) ht.not_blank,
          List.forall₂_cons, and_assoc]
        exact and_congr (iff_of_true (collapses_squeeze t) hloose) (ih hts)
      · obtain ⟨w, ws, hsplit, hw, hink⟩ := exists_piece_of_loose ht hloose (join [','] (u :: us))
        exact iff_of_false (not_forall₂_of_piece hsplit hw hink) fun hall => hloose hall.1.1

/-- Generics, a tuple and an arrow at the end. -/
theorem parameterTexts_exact_tuple :
    let ts := ["m: Map<K, List[V]>".toList, "  f: (A,  B) => C".toList]
    (∀ t ∈ ts, IsParameter t) ∧
      List.Forall₂ Collapses ts (parameterTexts (join [','] ts)) := by
  intro ts
  have hts : ∀ t ∈ ts, IsParameter t := by decide +kernel
  exact ⟨hts, (parameterTexts_exact_iff hts).2 (by decide +kernel)⟩

/-- The head of an arrow hides the comma behind it: two parameters become one. -/
theorem arrow_merges_parameters :
    let ts := ["g: Int => Int".toList, " x: Int".toList]
    (∀ t ∈ ts, IsParameter t) ∧
      parameterTexts (join [','] ts) = ["g: Int => Int, x: Int".toList] ∧
      ¬ List.Forall₂ Collapses ts (parameterTexts (join [','] ts)) ∧
      ((ofSource Language.Scala.table "def f(g: Int => Int, x: Int) = 1\n".toList).functions
        [] []).map (·.parameters) = [["g: Int => Int, x: Int"]] := by
  intro ts
  have hmerged : parameterTexts (join [','] ts) = ["g: Int => Int, x: Int".toList] := by
    decide +kernel
  refine ⟨by decide +kernel, hmerged, fun hall => ?_, by decide +kernel⟩
  have hlength := hall.length_eq
  rw [hmerged] at hlength
  exact absurd hlength (by decide)

end Scan

end CodeSurvey
