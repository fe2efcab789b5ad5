import CodeSurvey.Proofs.MarkerLines
import Mathlib.Data.List.Forall2
/-!
# The text of block comments

The text of a comment is what stands between its delimiters, line by line: `Says` gives what one line
says, and `BlockText` puts the lines together. The opening delimiter of a documenting comment is longer by
one character and is tried first, so it takes the first character of what stands between the delimiters
(`dropDelimiters_block`). Where nothing stands there, this character belongs to the closing
delimiter, which is then not found, and its end is taken for text: that is the one block
comment whose text is not its own (`bareText_block_iff`).
-/
namespace CodeSurvey.Comment

open Text

/-! ## What lines say -/

/-- What a line of a comment can start with besides its text. -/
def gutters : List String := ["///", "//!", "//", "#", "*"]

/-- What a line of a comment says: its text without the longest gutter at its start, trimmed before and
after. -/
inductive Says (line : List Char) : List Char → Prop
  | plain (hnone : ∀ g ∈ gutters, ¬ g.toList <+: trim line) : Says line (trim line)
  | gutter {g : String} {rest : List Char} (hg : g ∈ gutters) (hline : trim line = g.toList ++ rest)
      (hlongest : ∀ g' ∈ gutters, g'.toList <+: trim line → g'.toList.length ≤ g.toList.length) :
      Says line (trim rest)

theorem says_bareLine (line : List Char) : Says line (bareLine line) := by
  have hdrop : dropGutter (trim line) =
      (gutters.findSome? fun g => afterStart? g.toList (trim line)).getD (trim line) := rfl
  rw [bareLine, hdrop]
  cases hfind : gutters.findSome? fun g => afterStart? g.toList (trim line) with
  | none =>
    rw [Option.getD_none, trim_of_trimmed (trimmed_trim line)]
    refine .plain fun g hg hprefix => ?_
    have hstart := startsWith_iff.2 hprefix
    rw [startsWith, List.findSome?_eq_none_iff.1 hfind g hg] at hstart
    cases hstart
  | some rest =>
    obtain ⟨before, g, after, hsplit, hg, hbefore⟩ := List.findSome?_eq_some_iff.1 hfind
    refine .gutter (by simp [hsplit]) (eq_append_of_afterStart? hg) fun g' hg' hprefix => ?_
    -- longer gutters are tried before shorter ones
    have hdescending : gutters.Pairwise fun a b => b.toList.length ≤ a.toList.length := by decide
    rw [hsplit] at hg' hdescending
    rcases List.mem_append.1 hg' with hearlier | hlater
    · have hstart := startsWith_iff.2 hprefix
      rw [startsWith, hbefore g' hearlier] at hstart
      cases hstart
    · rcases List.mem_cons.1 hlater with rfl | hlater
      · exact Nat.le_refl _
      · exact (List.pairwise_cons.1 (List.pairwise_append.1 hdescending).2.1).1 g' hlater

/-! ## What stands between the delimiters -/

/-- The text between delimiters without the mark of a documenting comment at its start. -/
def dropMark : List Char → List Char
  | [] => []
  | c :: r => if c = '*' ∨ c = '!' then r else c :: r

/-- The text of a block comment: what its lines say, empty lines left out. -/
def BlockText (body text : List Char) : Prop :=
  ∃ said, List.Forall₂ Says (lines (dropMark body)) said ∧
    text = join ['\n'] (said.filter (! ·.isEmpty))

/-- A block comment with something between its delimiters. -/
def block (body : List Char) : List Char := "/*".toList ++ (body ++ "*/".toList)

theorem beforeEnd?_append (ending s : List Char) : beforeEnd? ending (s ++ ending) = some s := by
  rw [beforeEnd?, List.reverse_append, afterStart?_append, Option.map_some, List.reverse_reverse]

/-- The delimiters of a block are dropped, and the mark of a documenting comment with the first. -/
theorem dropDelimiters_block {body : List Char} (h : body ≠ []) :
    dropDelimiters (block body) = dropMark body := by
  cases body with
  | nil => exact absurd rfl h
  | cons c r =>
    have hclosing (s : List Char) : beforeEnd? ['*', '/'] (s ++ ['*', '/']) = some s :=
      beforeEnd?_append _ s
    by_cases hstar : c = '*'
    · subst hstar
      simp [dropDelimiters, block, between?, afterStart?, hclosing, dropMark]
    · by_cases hbang : c = '!'
      · subst hbang
        simp [dropDelimiters, block, between?, afterStart?, hclosing, dropMark]
      · have hbody := hclosing (c :: r)
        rw [List.cons_append] at hbody
        simp [dropDelimiters, block, between?, afterStart?, hbody, dropMark, hstar, hbang,
          Ne.symm hstar, Ne.symm hbang]

theorem trim_block (body : List Char) : trim (block body) = block body := by
  apply trim_of_trimmed
  constructor
  · intro c hc
    obtain rfl : '/' = c := by simpa [block] using hc
    decide
  · intro c hc
    have hlast : block body = ("/*".toList ++ (body ++ ['*'])) ++ ['/'] := by simp [block]
    rw [hlast, List.getLast?_concat] at hc
    cases hc
    decide

theorem blockText_bareText {body : List Char} (h : body ≠ []) :
    BlockText body (bareText (block body)) := by
  refine ⟨(lines (dropMark body)).map bareLine, ?_, ?_⟩
  · rw [List.forall₂_map_right_iff]
    exact List.forall₂_same.2 fun l _ => says_bareLine l
  · rw [bareText, trim_block, dropDelimiters_block h]
    rfl

/-! ## Where the text comes from -/

/-- What lines say is a part of the text that they are the lines of, newlines included. -/
theorem join_said_sublist (s : List Char) :
    (join ['\n'] (((lines s).map bareLine).filter (! ·.isEmpty))).Sublist s := by
  induction s using line_induction with
  | last s hs =>
    rcases eq_or_ne s [] with rfl | hne
    · exact List.nil_sublist _
    · rw [lines_of_not_mem hs hne, List.map_singleton]
      by_cases hempty : (bareLine s).isEmpty = true
      · rw [List.filter_cons_of_neg (by simp [hempty])]
        exact List.nil_sublist _
      · rw [List.filter_cons_of_pos (by simpa using hempty), List.filter_nil, join_singleton]
        exact (infix_bareLine s).sublist
  | line l r hl ih =>
    have hfirst : (bareLine (dropReturn l)).Sublist l :=
      (infix_bareLine _).sublist.trans (prefix_dropReturn l).sublist
    rw [lines_append hl, List.map_cons]
    by_cases hempty : (bareLine (dropReturn l)).isEmpty = true
    · rw [List.filter_cons_of_neg (by simp [hempty])]
      exact ih.trans ((List.sublist_cons_self '\n' r).trans (List.sublist_append_right l _))
    · rw [List.filter_cons_of_pos (by simpa using hempty)]
      cases hlater : ((lines r).map bareLine).filter (! ·.isEmpty) with
      | nil =>
        rw [join_singleton]
        exact hfirst.trans (List.sublist_append_left l _)
      | cons t ts =>
        rw [hlater] at ih
        rw [join_cons_cons]
        exact hfirst.append (ih.cons_cons '\n')

theorem dropMark_sublist (body : List Char) : (dropMark body).Sublist body := by
  cases body with
  | nil => exact List.Sublist.refl _
  | cons c r =>
    rw [dropMark]
    split
    · exact List.sublist_cons_self c r
    · exact List.Sublist.refl _

/-- Nothing between the delimiters: the closing one without its star is left. -/
theorem bareText_empty_block : bareText (block []) = ['/'] := by decide +kernel

theorem not_blockText_empty : ¬ BlockText [] (bareText (block [])) := by
  rintro ⟨said, hsaid, htext⟩
  obtain rfl := List.forall₂_nil_left_iff.1 hsaid
  rw [bareText_empty_block] at htext
  cases htext

/-- **The text of a block comment is the text between its delimiters**, unless nothing stands there. For
every text between the delimiters, the text of the comment is what the lines of that text say if and only
if it is not empty, and so the comment has no character of its delimiters: its text is a part of what
stands between them, again if and only if that is not empty. -/
theorem bareText_block_iff (body : List Char) :
    (BlockText body (bareText (block body)) ↔ body ≠ []) ∧
      ((bareText (block body)).Sublist body ↔ body ≠ []) := by
  refine ⟨⟨?_, blockText_bareText⟩, ?_, fun h => ?_⟩
  · rintro htext rfl
    exact not_blockText_empty htext
  · rintro hpart rfl
    rw [bareText_empty_block] at hpart
    cases hpart
  · rw [bareText, trim_block, dropDelimiters_block h]
    exact (join_said_sublist _).trans (dropMark_sublist body)

/-- The comment `/**/` has a text, although nothing stands between its delimiters. -/
theorem empty_block_has_text :
    holds "*/".toList [] = false ∧ block [] = "/**/".toList ∧
      ofRaw (LineIndex.ofText (block [])) (block []) 0 = ⟨"/", 1, .doc⟩ ∧
      ¬ BlockText [] (bareText (block [])) :=
  ⟨by decide, by decide, by decide +kernel, not_blockText_empty⟩

end CodeSurvey.Comment
