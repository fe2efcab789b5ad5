import CodeSurvey.Language.Go
import CodeSurvey.Proofs.Lines
import CodeSurvey.Proofs.Remasking
import CodeSurvey.Scan.Facts
import Mathlib.Algebra.GroupWithZero.Nat
import Mathlib.Data.List.Induction
import Mathlib.Data.List.Nodup
/-!
# Identifiers and their lines

A tally gives each name one entry, with the number of its occurrences and the line of the first
(`tallies_tally`). What is tallied are the words of a text in which the comments and then the string
literals have been blanked. The first keeps all offsets, but the second replaces characters, so that the
words of the blanked text stand at offsets of their own. No word reaches over the quotes of a literal:
so at each character outside the literals both texts have the same words behind the same number of
newlines (`map_wordsIn_blankOut`), and the lines are those of the source.
-/
namespace CodeSurvey

open Text Pattern

/-! ## Tallies -/

namespace IdentifierCount

/-- What a tally of occurrences, each a name on a line, says of them. -/
structure Tallies (found : List (String × Nat)) (tally : List IdentifierCount) : Prop where
  distinct : (tally.map (·.name)).Nodup
  complete : ∀ o ∈ found, o.1 ∈ tally.map (·.name)
  /-- A name stands in front of those that occur later for the first time. -/
  ordered : tally.Pairwise fun x y => (found.map (·.1)).idxOf x.name < (found.map (·.1)).idxOf y.name
  counted : ∀ x ∈ tally, x.count = (found.map (·.1)).count x.name
  total : (tally.map (·.count)).sum = found.length
  /-- The first occurrence of a name is on its line. -/
  first : ∀ x ∈ tally, found.find? (·.1 == x.name) = some (x.name, x.firstLine)

theorem sum_add (tally : List IdentifierCount) (name : String) (line : Nat) :
    ((add tally name line).map (·.count)).sum = (tally.map (·.count)).sum + 1 := by
  induction tally with
  | nil => rfl
  | cons t ts ih =>
    rw [add]
    split
    · simp only [List.map_cons, List.sum_cons]
      omega
    · rw [List.map_cons, List.map_cons, List.sum_cons, List.sum_cons, ih, Nat.add_assoc]

/-- The entry of a name with one occurrence more. -/
def bump (name : String) (x : IdentifierCount) : IdentifierCount :=
  { x with count := if name = x.name then x.count + 1 else x.count }

theorem add_of_mem {tally : List IdentifierCount} {name : String}
    (hdistinct : (tally.map (·.name)).Nodup) (h : name ∈ tally.map (·.name)) (line : Nat) :
    add tally name line = tally.map (bump name) := by
  induction tally with
  | nil => cases h
  | cons t ts ih =>
    rw [List.map_cons, List.nodup_cons] at hdistinct
    rw [add, List.map_cons]
    by_cases ht : t.name = name
    · -- no later entry has the name
      have hlater : ts.map (bump name) = ts := by
        refine (List.map_congr_left fun x hx => ?_).trans ts.map_id
        have hne : name ≠ x.name := by
          rintro rfl
          exact hdistinct.1 (ht ▸ List.mem_map_of_mem hx)
        simp [bump, hne]
      rw [if_pos ht, hlater, bump, if_pos ht.symm]
    · have hts : name ∈ ts.map (·.name) := (List.mem_cons.1 h).resolve_left (Ne.symm ht)
      rw [if_neg ht, ih hdistinct.2 hts, bump, if_neg (Ne.symm ht)]

theorem add_of_not_mem {tally : List IdentifierCount} {name : String}
    (h : name ∉ tally.map (·.name)) (line : Nat) :
    add tally name line = tally ++ [⟨name, 1, line⟩] := by
  induction tally with
  | nil => rfl
  | cons t ts ih =>
    rw [List.map_cons, List.mem_cons, not_or] at h
    rw [add, if_neg (Ne.symm h.1), ih h.2, List.cons_append]

namespace Tallies

variable {found : List (String × Nat)} {tally : List IdentifierCount}

theorem mem_names (h : Tallies found tally) {x : IdentifierCount} (hx : x ∈ tally) :
    x.name ∈ found.map (·.1) :=
  List.mem_map.2 ⟨_, List.mem_of_find?_eq_some (h.first x hx), rfl⟩

/-- What is said of a name stays true when a later occurrence follows. -/
theorem idxOf_concat (h : Tallies found tally) {x : IdentifierCount} (hx : x ∈ tally)
    (o : String × Nat) :
    ((found ++ [o]).map (·.1)).idxOf x.name = (found.map (·.1)).idxOf x.name := by
  rw [List.map_append, List.idxOf_append_of_mem (h.mem_names hx)]

theorem find?_concat (h : Tallies found tally) {x : IdentifierCount} (hx : x ∈ tally)
    (o : String × Nat) :
    (found ++ [o]).find? (·.1 == x.name) = some (x.name, x.firstLine) := by
  rw [List.find?_append, h.first x hx, Option.some_or]

theorem count_concat (h : Tallies found tally) {x : IdentifierCount} (hx : x ∈ tally)
    (o : String × Nat) : ((found ++ [o]).map (·.1)).count x.name =
      if o.1 = x.name then x.count + 1 else x.count := by
  rw [List.map_append, List.count_append, ← h.counted x hx]
  simp only [List.map_cons, List.map_nil, List.count_singleton]
  by_cases hname : o.1 = x.name <;> simp [hname]

/-- One more occurrence of a name that has an entry. -/
theorem concat_of_mem (h : Tallies found tally) {name : String} (hname : name ∈ tally.map (·.name))
    (line : Nat) : Tallies (found ++ [(name, line)]) (add tally name line) := by
  have htotal := sum_add tally name line
  have hnames : (tally.map (bump name)).map (·.name) = tally.map (·.name) := by
    rw [List.map_map]
    rfl
  rw [add_of_mem h.distinct hname] at htotal ⊢
  refine ⟨hnames ▸ h.distinct, fun o ho => ?_, ?_, fun y hy => ?_, ?_, fun y hy => ?_⟩
  · rw [hnames]
    rcases List.mem_append.1 ho with ho | ho
    · exact h.complete o ho
    · rwa [List.mem_singleton.1 ho]
  · rw [List.pairwise_map]
    refine h.ordered.imp_of_mem fun {x y} hx hy hlt => ?_
    show List.idxOf x.name _ < List.idxOf y.name _
    rwa [h.idxOf_concat hx, h.idxOf_concat hy]
  · obtain ⟨x, hx, rfl⟩ := List.mem_map.1 hy
    exact (h.count_concat hx (name, line)).symm
  · rw [htotal, h.total, List.length_append, List.length_singleton]
  · obtain ⟨x, hx, rfl⟩ := List.mem_map.1 hy
    exact h.find?_concat hx (name, line)

/-- The first occurrence of a name: its entry goes behind the others, and says what a tally of this
occurrence alone would say. -/
theorem concat_of_not_mem (h : Tallies found tally) {name : String}
    (hname : name ∉ tally.map (·.name)) (line : Nat) :
    Tallies (found ++ [(name, line)]) (add tally name line) := by
  have htotal := sum_add tally name line
  have hfresh : name ∉ found.map (·.1) := by
    intro hmem
    obtain ⟨o, ho, rfl⟩ := List.mem_map.1 hmem
    exact hname (h.complete o ho)
  have hother {y : IdentifierCount} (hy : y ∈ tally) : name ≠ y.name := by
    rintro rfl
    exact hname (List.mem_map_of_mem hy)
  rw [add_of_not_mem hname] at htotal ⊢
  refine ⟨?_, fun o ho => ?_, ?_, fun y hy => ?_, ?_, fun y hy => ?_⟩
  · rw [List.map_append]
    exact h.distinct.append (List.nodup_singleton name) (by simpa using hname)
  · rw [List.map_append, List.mem_append]
    rcases List.mem_append.1 ho with ho | ho
    · exact .inl (h.complete o ho)
    · exact .inr (by simp [List.mem_singleton.1 ho])
  · have hlast : ((found ++ [(name, line)]).map (·.1)).idxOf name = found.length := by
      rw [List.map_append, List.idxOf_append_of_notMem hfresh]
      simp
    rw [List.pairwise_append]
    refine ⟨h.ordered.imp_of_mem fun {x y} hx hy hlt => ?_, List.pairwise_singleton _ _, ?_⟩
    · rwa [h.idxOf_concat hx, h.idxOf_concat hy]
    · intro x hx y hy
      rw [List.mem_singleton.1 hy, h.idxOf_concat hx, hlast]
      simpa using List.idxOf_lt_length_of_mem (h.mem_names hx)
  · rcases List.mem_append.1 hy with hold | hlast
    · rw [h.count_concat hold, if_neg (hother hold)]
    · rw [List.mem_singleton.1 hlast, List.map_append, List.count_append,
        List.count_eq_zero_of_not_mem hfresh]
      simp
  · rw [htotal, h.total, List.length_append, List.length_singleton]
  · rcases List.mem_append.1 hy with hold | hlast
    · exact h.find?_concat hold (name, line)
    · have hnone : found.find? (·.1 == name) = none := by
        rw [List.find?_eq_none]
        intro o ho heq
        exact hfresh (List.mem_map.2 ⟨o, ho, by simpa using heq⟩)
      rw [List.mem_singleton.1 hlast, List.find?_append, hnone]
      simp

end Tallies

/-- **A tally is exact**, whatever it counts. -/
theorem tallies_tally (found : List (String × Nat)) : Tallies found (tally found) := by
  induction found using List.reverseRecOn with
  | nil =>
    have hnone (p : IdentifierCount → Prop) : ∀ x ∈ tally [], p x := fun x hx =>
      absurd hx List.not_mem_nil
    exact ⟨.nil, fun o ho => absurd ho List.not_mem_nil, .nil, hnone _, rfl, hnone _⟩
  | append_singleton found o ih =>
    rw [tally, List.foldl_append]
    by_cases hname : o.1 ∈ (tally found).map (·.name)
    · exact ih.concat_of_mem hname o.2
    · exact ih.concat_of_not_mem hname o.2

end IdentifierCount

namespace Scan

/-! ## Words of a text -/

theorem size_concat (s : List Char) (c : Char) : size (s ++ [c]) = size s + c.utf8Size :=
  size_append s [c]

/-- A character with which an identifier starts. -/
def startsName (c : Char) : Bool := c.isAlpha || c == '_' || c == '$'

/-- A character with which an identifier goes on. -/
def continuesName (c : Char) : Bool := c.isAlphanum || c == '_' || c == '$'

theorem continuesName_of_startsName {c : Char} (h : startsName c = true) : continuesName c = true := by
  simp only [startsName, continuesName, Char.isAlphanum, Bool.or_eq_true] at h ⊢
  tauto

/-- The farthest place comes first. -/
theorem exists_reaches {α : Type} (width : α → Nat) (p : α → Bool) (before : Option α) (offset : Nat)
    (s : List α) (acc : List (Cursor α)) : ∃ b more, reaches width p before offset s acc =
      ⟨b, offset + total width (s.takeWhile p), s.dropWhile p⟩ :: more := by
  induction s generalizing before offset acc with
  | nil => exact ⟨before, acc, rfl⟩
  | cons a r ih =>
    rw [reaches]
    by_cases ha : p a = true
    · obtain ⟨b, more, h⟩ := ih (some a) (offset + width a) (⟨before, offset, a :: r⟩ :: acc)
      refine ⟨b, more, ?_⟩
      simp only [if_pos ha, h, List.takeWhile_cons_of_pos ha, List.dropWhile_cons_of_pos ha, total,
        Nat.add_assoc]
    · refine ⟨before, acc, ?_⟩
      simp only [if_neg ha, List.takeWhile_cons_of_neg ha, List.dropWhile_cons_of_neg ha, total,
        Nat.add_zero]

/-- An identifier matches where one starts, up to its end. -/
theorem matchAt_identifier (before : Option Char) (offset : Nat) (s : List Char) :
    identifier.matchAt Char.utf8Size ⟨before, offset, s⟩ =
      if s.head?.any startsName then
        some ⟨⟨offset, offset + size (s.takeWhile continuesName)⟩, []⟩
      else none := by
  cases s with
  | nil => rfl
  | cons c r =>
    have hrun : identifier.matchAt Char.utf8Size ⟨before, offset, c :: r⟩ =
        (if startsName c then (reaches Char.utf8Size continuesName (some c) (offset + c.utf8Size) r
          []).findSome? (fun c' => some (c', [])) else none).map
            fun x : Cursor Char × Groups => ⟨⟨offset, x.1.offset⟩, x.2⟩ := rfl
    obtain ⟨b, more, hreaches⟩ :=
      exists_reaches Char.utf8Size continuesName (some c) (offset + c.utf8Size) r []
    rw [hrun, hreaches, List.head?_cons, Option.any_some]
    by_cases hc : startsName c = true
    · rw [if_pos hc, if_pos hc, List.takeWhile_cons_of_pos (continuesName_of_startsName hc), size,
        size_eq_total, ← Nat.add_assoc]
      rfl
    · rw [if_neg hc, if_neg hc]
      rfl

/-- The words of a text, each with what stands in front of it. The text stands behind `past`, which may
end inside a word. -/
def wordsIn (inside : Bool) (past : List Char) : List Char → List (List Char × List Char)
  | [] => []
  | c :: r =>
    let later := wordsIn (continuesName c && (inside || startsName c)) (past ++ [c]) r
    if startsName c && !inside then (past, (c :: r).takeWhile continuesName) :: later else later

/-- The search stands where the next word can start, or at the end of the one that it is inside. -/
def Resumes (inside : Bool) (resume offset : Nat) (s : List Char) : Prop :=
  if inside then resume = offset + size (s.takeWhile continuesName) else resume ≤ offset

/-- What the search finds at a place. -/
theorem matchesFrom_identifier_cons (resume : Nat) (before : Option Char) (offset : Nat) (c : Char)
    (r : List Char) : identifier.matchesFrom Char.utf8Size resume before offset (c :: r) =
      if resume ≤ offset ∧ startsName c then
        let stop := offset + size ((c :: r).takeWhile continuesName)
        ⟨⟨offset, stop⟩, []⟩ ::
          identifier.matchesFrom Char.utf8Size stop (some c) (offset + c.utf8Size) r
      else identifier.matchesFrom Char.utf8Size resume (some c) (offset + c.utf8Size) r := by
  rw [matchesFrom, matchAt_identifier, List.head?_cons, Option.any_some]
  by_cases hresume : resume ≤ offset
  · rw [if_neg (Nat.not_lt.2 hresume)]
    by_cases hc : startsName c = true
    · simp only [hc, hresume, and_self, if_true]
    · simp [hc]
  · simp [hresume, Nat.lt_of_not_le hresume]

theorem matchesFrom_identifier {inside : Bool} {resume : Nat} {before : Option Char}
    {past s : List Char} (h : Resumes inside resume (size past) s) :
    identifier.matchesFrom Char.utf8Size resume before (size past) s =
      (wordsIn inside past s).map fun x => ⟨⟨size x.1, size x.1 + size x.2⟩, []⟩ := by
  induction s generalizing inside resume before past with
  | nil =>
    rw [matchesFrom, matchAt_identifier]
    simp [wordsIn]
  | cons c r ih =>
    have hpast := size_concat past c
    have hwidth := Char.utf8Size_pos c
    -- a word that starts here, and none that does
    have hword (hc : startsName c = true) : Resumes true
        (size past + size ((c :: r).takeWhile continuesName)) (size (past ++ [c])) r := by
      rw [List.takeWhile_cons_of_pos (continuesName_of_startsName hc), size, hpast, Resumes,
        if_pos rfl, Nat.add_assoc]
    have hnone (hresume : resume ≤ size past) : Resumes false resume (size (past ++ [c])) r := by
      rw [Resumes, if_neg (by simp), hpast]
      omega
    rw [matchesFrom_identifier_cons, wordsIn, ← hpast]
    cases inside with
    | false =>
      replace h : resume ≤ size past := h
      by_cases hc : startsName c = true
      · simp only [h, hc, continuesName_of_startsName hc, and_self, if_true, Bool.not_false,
          Bool.and_self, Bool.or_true, List.map_cons, ih (hword hc)]
      · simp only [hc, and_false, if_false, Bool.false_and, Bool.false_or, Bool.and_false,
          Bool.false_eq_true, ih (hnone h)]
    | true =>
      replace h : resume = size past + size ((c :: r).takeWhile continuesName) := h
      simp only [Bool.not_true, Bool.and_false, Bool.false_eq_true, if_false, Bool.true_or,
        Bool.and_true]
      by_cases hc : continuesName c = true
      · rw [List.takeWhile_cons_of_pos hc, size] at h
        have hinside : Resumes true resume (size (past ++ [c])) r := by
          rw [Resumes, if_pos rfl, hpast]
          omega
        have hbehind : ¬ resume ≤ size past := by omega
        simp only [hbehind, false_and, if_false, hc, ih hinside]
      · rw [List.takeWhile_cons_of_neg hc, size, Nat.add_zero] at h
        have hstart : ¬ startsName c = true := fun hstart => hc (continuesName_of_startsName hstart)
        simp only [hstart, hc, Bool.false_eq_true, and_false, if_false, ih (hnone (Nat.le_of_eq h))]

theorem findAll_identifier (s : List Char) : identifier.findAll s =
    (wordsIn false [] s).map fun x => ⟨⟨size x.1, size x.1 + size x.2⟩, []⟩ := by
  have hstart : Resumes false 0 (size []) s := Nat.le_refl 0
  exact matchesFrom_identifier hstart

/-- A word stands in the text behind what is in front of it. -/
theorem mem_wordsIn {inside : Bool} {past s : List Char} {x : List Char × List Char}
    (h : x ∈ wordsIn inside past s) :
    (∃ rest, past ++ s = x.1 ++ (x.2 ++ rest)) ∧ x.2 ≠ [] ∧ ∀ c ∈ x.2, continuesName c = true := by
  induction s generalizing inside past with
  | nil => cases h
  | cons c r ih =>
    have hlater {inside : Bool} (h : x ∈ wordsIn inside (past ++ [c]) r) :
        (∃ rest, past ++ c :: r = x.1 ++ (x.2 ++ rest)) ∧ x.2 ≠ [] ∧
          ∀ c ∈ x.2, continuesName c = true := by
      rw [List.append_cons]
      exact ih h
    rw [wordsIn] at h
    split at h
    · rename_i hstart
      have hc := continuesName_of_startsName (Bool.and_eq_true_iff.1 hstart).1
      rcases List.mem_cons.1 h with rfl | h
      · refine ⟨⟨(c :: r).dropWhile continuesName, ?_⟩, ?_, fun d hd => List.mem_takeWhile_imp hd⟩
        · rw [List.takeWhile_append_dropWhile]
        · rw [List.takeWhile_cons_of_pos hc]
          exact List.cons_ne_nil _ _
      · exact hlater h
    · exact hlater h

/-! ## Literals -/

/-- A range of a text with a quote at both ends. -/
def Quoted (s : List Char) (sp : Span) : Prop :=
  ∃ a q body rest, Comment.isQuote q = true ∧ s = a ++ (q :: (body ++ [q]) ++ rest) ∧
    sp = ⟨size a, size a + size (q :: (body ++ [q]))⟩

/-- A literal has its quotes at its ends. -/
theorem exists_quote_of_takes {b : Option Char} {t r : List Char} {k : List (Capture Char)}
    (h : Takes quotedText b t r k) :
    ∃ q body, Comment.isQuote q = true ∧ t = q :: (body ++ [q]) := by
  have hquoted {q : Char} (hq : Comment.isQuote q = true) {inner : TextPattern}
      (h : Takes (TextPattern.inOrder [.one (· == q), inner, .one (· == q)]) b t r k) :
      ∃ q body, Comment.isQuote q = true ∧ t = q :: (body ++ [q]) := by
    obtain ⟨opening, later, _, _, rfl, -, hopening, h⟩ := TextPattern.takes_inOrder h
    obtain ⟨body, closing, _, _, rfl, -, -, hclosing⟩ := TextPattern.takes_inOrder h
    cases hopening with
    | one ho =>
      cases hclosing with
      | one hc =>
        rw [eq_of_beq ho, eq_of_beq hc]
        exact ⟨q, body, hq, rfl⟩
  obtain ⟨p, hp, h⟩ := TextPattern.takes_anyOf_iff.1 h
  simp only [List.mem_cons, List.not_mem_nil, or_false] at hp
  rcases hp with rfl | rfl | rfl
  · exact hquoted (by decide) h
  · exact hquoted (by decide) h
  · exact hquoted (by decide) h

theorem quoted_of_mem_findAll {s : List Char} {m : Match} (h : m ∈ quotedText.findAll s) :
    Quoted s m.span := by
  obtain ⟨a, t, rest, k, htaken⟩ := exists_taken_of_mem_findAll h
  obtain ⟨q, body, hq, rfl⟩ := exists_quote_of_takes htaken.takes
  exact ⟨a, q, body, rest, hq, htaken.text, htaken.span⟩

theorem continuesName_of_isQuote {q : Char} (h : Comment.isQuote q = true) :
    continuesName q = false := by
  simp only [Comment.isQuote, Bool.or_eq_true, beq_iff_eq] at h
  rcases h with (rfl | rfl) | rfl <;> decide

section

variable {spans : List Span} {s : List Char}

theorem lt_or_le_of_not_covered {n : Nat} (h : Comment.covered spans n = false) {sp : Span}
    (hsp : sp ∈ spans) : n < sp.start ∨ sp.stop ≤ n := by
  by_contra hcross
  rw [not_or, Nat.not_lt, Nat.not_le] at hcross
  rw [Comment.covered_iff.2 ⟨sp, hsp, hcross⟩] at h
  cases h

/-- No word goes from outside into a literal. -/
theorem continuesName_of_enter (h : ∀ sp ∈ spans, Quoted s sp) {a b : List Char} {c d : Char}
    (hs : s = a ++ c :: d :: b) (hout : Comment.covered spans (size a) = false)
    (hin : Comment.covered spans (size (a ++ [c])) = true) : continuesName d = false := by
  obtain ⟨sp, hsp, hstart, hstop⟩ := Comment.covered_iff.1 hin
  obtain ⟨u, q, body, rest, hq, hu, rfl⟩ := h sp hsp
  have hapart := lt_or_le_of_not_covered hout hsp
  have hbetween := Comment.apart_of_append (hs.symm.trans hu)
  have hsize := size_concat a c
  have heq : (a ++ [c]) ++ d :: b = u ++ (q :: (body ++ [q]) ++ rest) := by
    rw [← hu, hs, List.append_assoc, List.singleton_append]
  obtain ⟨-, hrest⟩ := Comment.eq_of_size_eq heq (by simp only at *; omega)
  rw [(List.cons.inj hrest).1]
  exact continuesName_of_isQuote hq

/-- No word goes from inside a literal out of it. -/
theorem continuesName_of_leave (h : ∀ sp ∈ spans, Quoted s sp) {a b : List Char} {c : Char}
    (hs : s = a ++ c :: b) (hin : Comment.covered spans (size a) = true)
    (hout : Comment.covered spans (size (a ++ [c])) = false) : continuesName c = false := by
  obtain ⟨sp, hsp, hstart, hstop⟩ := Comment.covered_iff.1 hin
  obtain ⟨u, q, body, rest, hq, hu, rfl⟩ := h sp hsp
  rw [← List.append_assoc] at hu
  have hapart := lt_or_le_of_not_covered hout hsp
  have hbetween := Comment.apart_of_append (hs.symm.trans hu)
  have hsize := size_concat a c
  have hwidth := Char.utf8Size_pos c
  have heq : (a ++ [c]) ++ b = (u ++ q :: (body ++ [q])) ++ rest := by
    rw [← hu, hs, List.append_assoc, List.singleton_append]
  rw [size_append u] at hbetween
  obtain ⟨hfront, -⟩ := Comment.eq_of_size_eq heq (by rw [size_append u]; simp only at *; omega)
  have hlast : some c = some q := by
    rw [← List.getLast?_concat (l := a), hfront, ← List.cons_append, ← List.append_assoc,
      List.getLast?_concat]
  rw [Option.some.inj hlast]
  exact continuesName_of_isQuote hq

/-! ## Words of a text without its literals -/

theorem continuesName_blanked (c : Char) : continuesName (if c != '\n' then ' ' else c) = false := by
  by_cases hc : c = '\n'
  · rw [hc]
    decide
  · rw [if_pos (by simpa using hc)]
    decide

/-- A word outside the literals is as long without them. -/
theorem takeWhile_blankOut (h : ∀ sp ∈ spans, Quoted s sp) {past r : List Char} (hs : s = past ++ r)
    (hfirst : Comment.covered spans (size past) = true → r.head?.any continuesName = false) :
    (blankOut spans (size past) r).takeWhile continuesName = r.takeWhile continuesName := by
  induction r generalizing past with
  | nil => rfl
  | cons c r ih =>
    rw [blankOut, ← size_concat]
    cases hcovered : Comment.covered spans (size past) with
    | true =>
      have hc : continuesName c = false := by simpa using hfirst hcovered
      rw [Bool.true_and, List.takeWhile_cons_of_neg (by rw [continuesName_blanked]; decide),
        List.takeWhile_cons_of_neg (by rw [hc]; decide)]
    | false =>
      simp only [Bool.false_and, Bool.false_eq_true, if_false, List.takeWhile_cons]
      rw [ih (by rw [hs, List.append_assoc, List.singleton_append])]
      intro hin
      cases r with
      | nil => rfl
      | cons d r => exact continuesName_of_enter h hs hcovered hin

/-- A word as a name, and the line on which it stands. -/
def named (x : List Char × List Char) : String × Nat := (String.ofList x.2, x.1.count '\n' + 1)

/-- **Without its literals a text has the words outside them**, each behind as many newlines. -/
theorem map_wordsIn_blankOut (h : ∀ sp ∈ spans, Quoted s sp) {inside inside' : Bool}
    {past past' r : List Char} (hs : s = past ++ r) (hlines : past'.count '\n' = past.count '\n')
    (hinside : Comment.covered spans (size past) = false → r ≠ [] → inside' = inside) :
    (wordsIn inside' past' (blankOut spans (size past) r)).map named =
      ((wordsIn inside past r).filter fun x => !Comment.covered spans (size x.1)).map named := by
  -- both searches stand at the same character; in a literal only that of the text can be inside a word
  induction r generalizing inside inside' past past' with
  | nil => rfl
  | cons c r ih =>
    have hs' : s = (past ++ [c]) ++ r := by rw [hs, List.append_assoc, List.singleton_append]
    have hword := takeWhile_blankOut h hs
    rw [blankOut, ← size_concat] at hword ⊢
    rw [wordsIn, wordsIn]
    cases hcovered : Comment.covered spans (size past) with
    | true =>
      have hblank := continuesName_blanked c
      have hstart : startsName (if c != '\n' then ' ' else c) = false := by
        rw [← Bool.not_eq_true]
        intro hstart
        rw [continuesName_of_startsName hstart] at hblank
        cases hblank
      have hlines' : (past' ++ [if c != '\n' then ' ' else c]).count '\n' =
          (past ++ [c]).count '\n' := by
        by_cases hc : c = '\n' <;> simp [hc, hlines]
      have hleave : Comment.covered spans (size (past ++ [c])) = false → r ≠ [] →
          false = (continuesName c && (inside || startsName c)) := by
        intro hout _
        rw [continuesName_of_leave h hs hcovered hout, Bool.false_and]
      have hlater := ih hs' hlines' hleave
      simp only [Bool.true_and, hstart, hblank, Bool.false_and, Bool.false_eq_true, if_false, hlater]
      split
      · rw [List.filter_cons_of_neg (by simp [hcovered])]
      · rfl
    | false =>
      obtain rfl := hinside hcovered (List.cons_ne_nil c r)
      have hlines' : (past' ++ [c]).count '\n' = (past ++ [c]).count '\n' := by
        rw [List.count_append, List.count_append, hlines]
      rw [hcovered] at hword
      simp only [Bool.false_and, Bool.false_eq_true, if_false] at hword ⊢
      rw [hword False.elim]
      have hsame : Comment.covered spans (size (past ++ [c])) = false → r ≠ [] →
          (continuesName c && (inside' || startsName c)) =
            (continuesName c && (inside' || startsName c)) := fun _ _ => rfl
      have hlater := ih hs' hlines' hsame
      split
      · rw [List.filter_cons_of_pos (by simp [hcovered]), List.map_cons, List.map_cons, hlater,
          named, named, hlines]
      · exact hlater

/-- A word overlaps no literal unless it starts in one. -/
theorem all_apart_iff (h : ∀ sp ∈ spans, Quoted s sp) {x : List Char × List Char}
    (hx : x ∈ wordsIn false [] s) :
    (spans.all fun sp => size x.1 + size x.2 ≤ sp.start || sp.stop ≤ size x.1) =
      !Comment.covered spans (size x.1) := by
  obtain ⟨⟨rest, hs⟩, hne, hname⟩ := mem_wordsIn hx
  have hpos : 0 < size x.2 := Nat.pos_of_ne_zero fun hzero => hne (Comment.size_eq_zero hzero)
  rw [Bool.eq_iff_iff, List.all_eq_true, Bool.not_eq_true']
  constructor
  · intro hall
    rw [← Bool.not_eq_true]
    intro hcovered
    obtain ⟨sp, hsp, hstart, hstop⟩ := Comment.covered_iff.1 hcovered
    have hapart := hall sp hsp
    simp only [Bool.or_eq_true, decide_eq_true_eq] at hapart
    omega
  · intro hout sp hsp
    rw [Bool.or_eq_true, decide_eq_true_eq, decide_eq_true_eq]
    refine (lt_or_le_of_not_covered hout hsp).imp_left fun hlt => ?_
    obtain ⟨u, q, body, rest', hq, hu, rfl⟩ := h sp hsp
    -- otherwise the opening quote would be a character of the word
    have hquote := continuesName_of_isQuote hq
    by_contra hlong
    obtain ⟨y, rfl, hy⟩ := Comment.exists_append_of_size_le (hs.symm.trans hu) (Nat.le_of_lt hlt)
    simp only [size_append] at hlong
    obtain ⟨z, hz, hrest⟩ := Comment.exists_append_of_size_le hy.symm (by omega)
    have hmem : q ∈ x.2 := by
      cases z with
      | nil =>
        rw [hz, List.append_nil] at hlong
        omega
      | cons d z =>
        rw [hz, (List.cons.inj hrest).1]
        simp
    rw [hname q hmem] at hquote
    cases hquote

end

/-! ## Identifiers of a source -/

/-- The words of the masked text that overlap no literal and are no keywords. -/
def namesOutside (sc : Scan) : List Match :=
  (identifier.findAll sc.masked).filter fun m =>
    ((quotedText.findAll sc.masked).all fun q => m.stop ≤ q.start || q.stop ≤ m.start) &&
      !keywords.contains (String.ofList (sc.text m.span))

/-- The name of a match in the masked text, and the line of the source on which it starts. -/
def nameOnLine (sc : Scan) (m : Match) : String × Nat :=
  (String.ofList (sc.text m.span), sc.lines.line m.start)

/-- What is read of a word where it stands. -/
theorem read_of_mem_wordsIn {s : List Char} {x : List Char × List Char}
    (hx : x ∈ wordsIn false [] s) :
    (String.ofList (slice (size x.1) (size x.1 + size x.2) s),
      (LineIndex.ofText s).line (size x.1)) = named x := by
  obtain ⟨⟨rest, hs⟩, -⟩ := mem_wordsIn hx
  rw [List.nil_append] at hs
  have hcuts : Cuts s ⟨size x.1, size x.1 + size x.2⟩ x.2 := ⟨⟨x.1, rest, hs, rfl⟩, rfl⟩
  rw [hcuts.slice_eq, hs, LineIndex.line_size]
  rfl

/-- The search in the masked text. -/
theorem map_namesOutside {sc : Scan} (hlines : sc.lines = LineIndex.ofText sc.masked)
    {spans : List Span} (hspans : (quotedText.findAll sc.masked).map (·.span) = spans)
    (hquoted : ∀ sp ∈ spans, Quoted sc.masked sp) :
    sc.namesOutside.map sc.nameOnLine =
      (((wordsIn false [] sc.masked).filter fun x => !Comment.covered spans (size x.1)).map
        named).filter fun o => !keywords.contains o.1 := by
  have hread {x : List Char × List Char} (hx : x ∈ wordsIn false [] sc.masked) :
      sc.nameOnLine ⟨⟨size x.1, size x.1 + size x.2⟩, []⟩ = named x := by
    rw [nameOnLine, hlines]
    exact read_of_mem_wordsIn hx
  have hkept {x : List Char × List Char} (hx : x ∈ wordsIn false [] sc.masked) :
      (((quotedText.findAll sc.masked).all fun q =>
        size x.1 + size x.2 ≤ q.start || q.stop ≤ size x.1) &&
          !keywords.contains (sc.nameOnLine ⟨⟨size x.1, size x.1 + size x.2⟩, []⟩).1) =
      (!keywords.contains (named x).1 && !Comment.covered spans (size x.1)) := by
    rw [hread hx, Bool.and_comm, ← all_apart_iff hquoted hx, ← hspans, List.all_map]
    rfl
  rw [namesOutside, findAll_identifier, List.filter_map, List.map_map, List.filter_map,
    List.filter_filter]
  refine Eq.trans ?_ (List.map_congr_left fun x hx => hread (List.mem_filter.1 hx).1)
  exact congrArg _ (List.filter_congr fun x hx => hkept hx)

/-- **The identifiers are those of the masked text outside its literals.** -/
theorem identifiers_eq {sc : Scan} (hlines : sc.lines = LineIndex.ofText sc.masked) :
    sc.identifiers = IdentifierCount.tally (sc.namesOutside.map sc.nameOnLine) := by
  generalize hspans : (quotedText.findAll sc.masked).map (·.span) = spans
  have hquoted : ∀ sp ∈ spans, Quoted sc.masked sp := by
    intro sp hsp
    rw [← hspans] at hsp
    obtain ⟨m, hm, rfl⟩ := List.mem_map.1 hsp
    exact quoted_of_mem_findAll hm
  have hplain : (identifier.findAll (blankOut spans 0 sc.masked)).map (fun m =>
      (String.ofList (slice m.start m.stop (blankOut spans 0 sc.masked)),
        (LineIndex.ofText (blankOut spans 0 sc.masked)).line m.start)) =
      ((wordsIn false [] sc.masked).filter fun x => !Comment.covered spans (size x.1)).map named := by
    rw [findAll_identifier, List.map_map]
    refine (List.map_congr_left fun x hx => read_of_mem_wordsIn hx).trans ?_
    have hstart : sc.masked = [] ++ sc.masked := rfl
    exact map_wordsIn_blankOut hquoted hstart rfl fun _ _ => rfl
  rw [map_namesOutside hlines hspans hquoted, ← hplain, ← hspans]
  rfl

/-- **Identifiers are tallied exactly and placed on their lines.** For every table and source, the
identifiers are a tally of the words that stand in the text without its comments, overlap no string
literal and are no keywords, each taken with the line of the source on which it starts: the names are
distinct, in the order of their first occurrences, and complete, the count of a name is the number of its
occurrences, the counts sum up to the number of all, and the line of a name is that of its first
occurrence. Each of these words is read in the source itself at the same offset, outside the comments,
and no name is a keyword. -/
theorem identifiers_tallied (l : Language) (source : List Char) :
    IdentifierCount.Tallies
      ((ofSource l source).namesOutside.map fun m =>
        (String.ofList ((ofSource l source).text m.span), (LineIndex.ofText source).line m.start))
      (ofSource l source).identifiers ∧
    (∀ m ∈ (ofSource l source).namesOutside,
      (ofSource l source).ReadsAt m.start ((ofSource l source).text m.span)) ∧
    ∀ x ∈ (ofSource l source).identifiers, x.name ∉ keywords := by
  have hlines : (ofSource l source).lines = LineIndex.ofText (ofSource l source).masked :=
    (Comment.ofText_mask _ source).symm
  have htallies := IdentifierCount.tallies_tally
    ((ofSource l source).namesOutside.map (ofSource l source).nameOnLine)
  rw [← identifiers_eq hlines] at htallies
  refine ⟨htallies, fun m hm => ?_, fun x hx => ?_⟩
  · exact readsAt_of_occurs (cuts_of_mem_findAll (List.mem_filter.1 hm).1).whole.occurs
  · obtain ⟨o, ho, hname⟩ := List.mem_map.1 (htallies.mem_names hx)
    obtain ⟨m, hm, rfl⟩ := List.mem_map.1 ho
    have hkeyword := (Bool.and_eq_true_iff.1 (List.mem_filter.1 hm).2).2
    rw [← hname]
    simpa [nameOnLine] using hkeyword

-- a literal of two lines with wide characters, and a literal with a word
example : (ofSource Language.Go.table "x := `é\né` + y('x') + x\n".toList).identifiers =
    [⟨"x", 2, 1⟩, ⟨"y", 1, 2⟩] := by decide +kernel

end Scan

end CodeSurvey
