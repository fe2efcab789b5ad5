import CodeSurvey.Language.All
import CodeSurvey.Proofs.CommentSearch
import CodeSurvey.Proofs.Masking
import CodeSurvey.Proofs.Statements
/-!
# Comments of a masked text

Comments have forms: a mark up to the end of the line, or two marks and what is between them. Marks
survive masking only where they stand outside the comments, so a comment of the masked text could
start at the same place of the text itself (`Form.fits_of_mask`), and only a literal kept it from
being found. Blanking a comment changes the literals of the line behind it only if a quote stays open
in the comment (`foldl_mask`). So masking uncovers comments behind such quotes, and nowhere else
(`uncovered_behind_open_quote`).
-/
namespace CodeSurvey

open Text Pattern

/-! ## Ways to match -/

namespace TextPattern

variable {b : Option Char} {t r : List Char} {k : List (Capture Char)}

theorem takes_chars (w : String) : Takes (lit w) b w.toList r [] := by
  unfold lit
  generalize w.toList = chars
  induction chars generalizing b with
  | nil => exact .empty
  | cons x xs ih =>
    have hfirst : Takes (.one (· == x)) b [x] (xs ++ r) [] := .one (beq_self_eq_true x)
    exact .seq hfirst ih

theorem takes_anyOf_iff {ps : List TextPattern} :
    Takes (anyOf ps) b t r k ↔ ∃ p ∈ ps, Takes p b t r k := by
  fun_induction anyOf ps with
  | case1 =>
    simp only [List.not_mem_nil, false_and, exists_false, iff_false]
    intro h
    cases h with
    | one hp => cases hp
  | case2 p => simp
  | case3 p ps hps ih =>
    rw [List.exists_mem_cons_iff, ← ih]
    constructor
    · intro h
      cases h with
      | left hp => exact .inl hp
      | right hps => exact .inr hps
    · rintro (hp | hps)
      · exact .left hp
      · exact .right hps

end TextPattern

namespace Comment

open TextPattern

/-! ## Forms of comments -/

/-- A form of comments, with its marks. -/
inductive Form where
  /-- From a mark to the end of the line. -/
  | line (opening : String)
  /-- From one mark to another. -/
  | block (opening closing : String)
  /-- From one mark to another, both at the start of a line. -/
  | lines (opening closing : String)

/-- A character that is no blank and has no part in literals. -/
def isPlain (c : Char) : Bool := !(isBlank c || isQuote c || c == '\\')

/-- A word of plain characters. -/
def isMark (w : String) : Bool := !w.toList.isEmpty && w.toList.all isPlain

namespace Form

def pattern : Form → TextPattern
  | line opening => Language.lineComment opening
  | block opening closing => inOrder [lit opening, few fun _ => true, lit closing]
  | lines opening closing =>
    inOrder [lineStart, lit opening, few fun _ => true, lineStart, lit closing]

def isMarked : Form → Bool
  | line opening => isMark opening
  | block opening closing | lines opening closing => isMark opening && isMark closing

/-- A comment of a form can start behind a character and in front of a text. -/
def Fits : Form → Option Char → List Char → Prop
  | line opening, _, after => opening.toList <+: after
  | block opening closing, _, after =>
    ∃ lead rest, after = lead ++ (closing.toList ++ rest) ∧ opening.toList <+: lead
  | lines opening closing, before, after => before.all (· == '\n') = true ∧
    ∃ lead rest, after = lead ++ (closing.toList ++ rest) ∧ opening.toList <+: lead ∧
      lead.getLast?.all (· == '\n') = true

end Form

theorem exists_of_isMark {w : String} (h : isMark w = true) :
    ∃ c r, w.toList = c :: r ∧ isPlain c = true ∧ ∀ d ∈ r, isPlain d = true := by
  rw [isMark, Bool.and_eq_true, List.all_eq_true] at h
  cases hw : w.toList with
  | nil =>
    rw [hw] at h
    cases h.1
  | cons c r =>
    rw [hw, List.forall_mem_cons] at h
    exact ⟨c, r, rfl, h.2⟩

/-- A text that starts with a plain character. -/
def StartsPlain (s : List Char) : Prop := ∃ c r, s = c :: r ∧ isPlain c = true

theorem StartsPlain.append {s : List Char} (h : StartsPlain s) (t : List Char) :
    StartsPlain (s ++ t) := by
  obtain ⟨c, r, rfl, hc⟩ := h
  exact ⟨c, r ++ t, rfl, hc⟩

theorem startsPlain_of_isMark {w : String} (hw : isMark w = true) {s : List Char}
    (h : w.toList <+: s) : StartsPlain s := by
  obtain ⟨c, r, hcr, hc, -⟩ := exists_of_isMark hw
  obtain ⟨t, rfl⟩ := h
  exact StartsPlain.append ⟨c, r, hcr, hc⟩ t

namespace Form

variable {form : Form} {b : Option Char} {t r : List Char} {k : List (Capture Char)}

/-- What a form takes starts with its mark, and the form fits there. -/
theorem fits_of_takes (hform : form.isMarked = true) (h : Takes form.pattern b t r k) :
    StartsPlain t ∧ form.Fits b (t ++ r) := by
  cases form with
  | line opening =>
    cases h with
    | seq hopening _ =>
      obtain ⟨rfl, -⟩ := takes_lit hopening
      rw [List.append_assoc]
      exact ⟨startsPlain_of_isMark hform (List.prefix_append _ _), List.prefix_append _ _⟩
  | block opening closing =>
    obtain ⟨u, _, _, _, rfl, -, hopening, h⟩ := takes_inOrder h
    obtain ⟨v, w, _, _, rfl, -, -, hclosing⟩ := takes_inOrder h
    obtain ⟨rfl, -⟩ := takes_lit hopening
    obtain ⟨rfl, -⟩ := takes_lit hclosing
    refine ⟨startsPlain_of_isMark (Bool.and_eq_true_iff.1 hform).1 (List.prefix_append _ _), ?_⟩
    exact ⟨opening.toList ++ v, r, by simp, List.prefix_append _ _⟩
  | lines opening closing =>
    obtain ⟨_, _, _, _, rfl, -, hstart, h⟩ := takes_inOrder h
    obtain ⟨u, _, _, _, rfl, -, hopening, h⟩ := takes_inOrder h
    obtain ⟨v, _, _, _, rfl, -, -, h⟩ := takes_inOrder h
    obtain ⟨_, w, _, _, rfl, -, hagain, hclosing⟩ := takes_inOrder h
    obtain ⟨rfl, -⟩ := takes_lit hopening
    obtain ⟨rfl, -⟩ := takes_lit hclosing
    cases hstart with
    | edge hstart =>
      cases hagain with
      | edge hagain =>
        have hmark := (Bool.and_eq_true_iff.1 hform).1
        refine ⟨startsPlain_of_isMark hmark (List.prefix_append _ _), hstart, opening.toList ++ v, r,
          by simp, List.prefix_append _ _, ?_⟩
        -- the opening mark is not empty, so the last line starts behind it
        obtain ⟨c, cs, hopen, -, -⟩ := exists_of_isMark hmark
        rw [hopen] at hagain ⊢
        simpa [List.getLast?_append, List.getLast?_cons, Option.or_assoc] using hagain

theorem exists_takes_of_fits {after : List Char} (h : form.Fits b after) :
    ∃ t r k, after = t ++ r ∧ Takes form.pattern b t r k := by
  have hany (greedy : Bool) (b : Option Char) (u rest : List Char) :
      Takes (.span greedy fun _ => true) b u rest [] := .span fun _ _ => rfl
  cases form with
  | line opening =>
    obtain ⟨r, rfl⟩ := h
    have hnone : Takes (many (noneOf "\n")) (opening.toList.getLast?.or b) [] r [] := .span (by simp)
    exact ⟨_, r, _, by rw [List.append_nil], .seq (takes_chars opening) hnone⟩
  | block opening closing =>
    obtain ⟨_, rest, rfl, u, rfl⟩ := h
    have htakes : Takes (block opening closing).pattern b _ rest _ :=
      .seq (takes_chars opening) (.seq (hany false _ u _) (takes_chars closing))
    exact ⟨_, rest, _, by simp, htakes⟩
  | lines opening closing =>
    obtain ⟨hstart, _, rest, rfl, ⟨u, rfl⟩, hagain⟩ := h
    have hline : (u.getLast?.or (opening.toList.getLast?.or b)).all (· == '\n') = true := by
      rw [← Option.or_assoc, ← List.getLast?_append]
      cases hlast : (opening.toList ++ u).getLast? with
      | none => exact hstart
      | some c => rwa [hlast] at hagain
    have htakes : Takes (lines opening closing).pattern b _ rest _ :=
      .seq (.edge hstart) (.seq (takes_chars opening) (.seq (hany false _ u _)
        (.seq (.edge hline) (takes_chars closing))))
    exact ⟨_, rest, _, by simp, htakes⟩

end Form

/-- A pattern matches comments of some forms. -/
structure HasForms (p : TextPattern) (forms : List Form) : Prop where
  pattern : p = anyOf (forms.map Form.pattern)
  marked : ∀ form ∈ forms, form.isMarked = true

/-- **The comments of every language have forms.** -/
theorem exists_hasForms {l : Language} (h : l ∈ Language.all) :
    ∃ forms, HasForms l.comment forms := by
  have hof {p : TextPattern} (forms : List Form) (hpattern : p = anyOf (forms.map Form.pattern))
      (hmarked : forms.all Form.isMarked = true) : ∃ forms, HasForms p forms :=
    ⟨forms, hpattern, List.all_eq_true.1 hmarked⟩
  have hslash : ∃ forms, HasForms Language.slashComments forms :=
    hof [.line "//", .block "/*" "*/"] rfl (by decide)
  simp only [Language.all, List.mem_cons, List.not_mem_nil, or_false] at h
  rcases h with rfl | rfl | rfl | rfl | rfl | rfl | rfl | rfl | rfl | rfl | rfl | rfl | rfl | rfl
  · exact hslash
  · exact hslash
  · exact hof [.line "#"] rfl (by decide)
  · exact hslash
  · exact hslash
  · exact hslash
  · exact hof [.line "#", .lines "=begin" "=end"] rfl (by decide)
  · exact hof [.line "//", .line "#", .block "/*" "*/"] rfl (by decide)
  all_goals exact hslash

section

variable {p : TextPattern} {forms : List Form} (hp : HasForms p forms) {past after : List Char}

include hp

/-- A match is a comment of a form. -/
theorem HasForms.of_match {m : Match} (h : p.matchAt Char.utf8Size (place past after) = some m) :
    (∃ form ∈ forms, form.Fits past.getLast? after) ∧
    ∃ t rest, after = t ++ rest ∧ StartsPlain t ∧ m.span = ⟨size past, size past + size t⟩ := by
  obtain ⟨t, rest, k, hafter, htakes, hspan, -⟩ := takes_of_matchAt h
  rw [← size_eq_total] at hspan
  rw [hp.pattern, takes_anyOf_iff] at htakes
  obtain ⟨_, hmem, htakes⟩ := htakes
  obtain ⟨form, hform, rfl⟩ := List.mem_map.1 hmem
  obtain ⟨hplain, hfits⟩ := Form.fits_of_takes (hp.marked form hform) htakes
  rw [← hafter] at hfits
  exact ⟨⟨form, hform, hfits⟩, t, rest, hafter, hplain, hspan⟩

theorem HasForms.exists_match {form : Form} (hform : form ∈ forms)
    (h : form.Fits past.getLast? after) :
    ∃ m, p.matchAt Char.utf8Size (place past after) = some m ∧ m.start < m.stop := by
  obtain ⟨t, r, k, rfl, htakes⟩ := Form.exists_takes_of_fits h
  have hany : Takes p past.getLast? t r k := by
    rw [hp.pattern, takes_anyOf_iff]
    exact ⟨_, List.mem_map_of_mem hform, htakes⟩
  have hsome : (p.matchAt Char.utf8Size (place past (t ++ r))).isSome :=
    isSome_matchAt Char.utf8Size_pos rfl hany
  obtain ⟨m, hm⟩ := Option.isSome_iff_exists.1 hsome
  obtain ⟨-, t', -, -, ⟨c, r, rfl, -⟩, hspan⟩ := hp.of_match hm
  have hwidth := Char.utf8Size_pos c
  refine ⟨m, hm, ?_⟩
  rw [Match.start, Match.stop, hspan]
  show size past < size past + (c.utf8Size + size r)
  omega

end

/-! ## Forms in a masked text -/

section

variable {spans : List Span} {offset : Nat} {s a b : List Char}

theorem maskFrom_append (spans : List Span) (offset : Nat) (a b : List Char) :
    maskFrom spans offset (a ++ b) =
      maskFrom spans offset a ++ maskFrom spans (offset + size a) b := by
  induction a generalizing offset with
  | nil => simp [maskFrom, size]
  | cons c r ih =>
    rw [List.cons_append, maskFrom, maskFrom, ih, size, Nat.add_assoc]
    split <;> simp

theorem eq_nil_of_maskFrom (h : maskFrom spans offset s = []) : s = [] := by
  have hsize := size_maskFrom spans offset s
  rw [h] at hsize
  exact size_eq_zero hsize.symm

theorem ne_of_isPlain {c : Char} (h : isPlain c = true) : c ≠ ' ' ∧ c ≠ '\n' := by
  constructor <;> (rintro rfl; revert h; decide)

/-- Where a plain character follows, a masked text is cut as the text is. -/
theorem split_of_maskFrom (h : maskFrom spans offset s = a ++ b) (hb : StartsPlain b) :
    ∃ a' b', s = a' ++ b' ∧ maskFrom spans offset a' = a ∧
      maskFrom spans (offset + size a) b' = b ∧ covered spans (offset + size a) = false := by
  obtain ⟨c, r, rfl, hc⟩ := hb
  obtain ⟨hspace, hnewline⟩ := ne_of_isPlain hc
  obtain ⟨a', b', rfl, ha, hr, hout⟩ := exists_of_maskFrom h hspace
  refine ⟨a', c :: b', rfl, ha, ?_, hout hnewline⟩
  simp [maskFrom, hout hnewline, hr]

theorem prefix_of_maskFrom {w : List Char} (hw : ∀ c ∈ w, isPlain c = true)
    (h : w <+: maskFrom spans offset s) : w <+: s := by
  induction w generalizing offset s with
  | nil => exact List.nil_prefix
  | cons c w ih =>
    rw [List.forall_mem_cons] at hw
    obtain ⟨t, ht⟩ := h
    obtain ⟨a', b', rfl, ha, hb, -⟩ := exists_of_maskFrom (a := []) ht.symm (ne_of_isPlain hw.1).1
    obtain rfl := eq_nil_of_maskFrom ha
    exact List.cons_prefix_cons.2 ⟨rfl, ih hw.2 ⟨t, hb.symm⟩⟩

theorem mark_of_maskFrom {w : String} (hw : isMark w = true)
    (h : w.toList <+: maskFrom spans offset s) : w.toList <+: s :=
  prefix_of_maskFrom (List.all_eq_true.1 (Bool.and_eq_true_iff.1 hw).2) h

theorem lineStart_of_maskFrom (h : (maskFrom spans offset s).getLast?.all (· == '\n') = true) :
    s.getLast?.all (· == '\n') = true := by
  rcases List.eq_nil_or_concat' s with rfl | ⟨r, c, rfl⟩
  · rfl
  · rw [maskFrom_append, List.getLast?_append] at h
    rw [List.getLast?_concat]
    by_cases hblank : covered spans (offset + size r) && c != '\n'
    · -- a blank is no newline
      have hwidth := Char.utf8Size_pos c
      have hlast : (List.replicate c.utf8Size ' ').getLast? = some ' ' := by
        rw [List.getLast?_replicate, if_neg (by omega)]
      simp [maskFrom, hblank, hlast] at h
    · simpa [maskFrom, hblank] using h

theorem startsPlain_of_fits {form : Form} (hform : form.isMarked = true) {before : Option Char}
    (h : form.Fits before b) : StartsPlain b := by
  obtain ⟨t, r, k, rfl, htakes⟩ := Form.exists_takes_of_fits h
  exact (Form.fits_of_takes hform htakes).1.append r

/-- A closing mark of a masked text stands behind what the text had before it. -/
theorem closing_of_maskFrom {closing : String} (hclosing : isMark closing = true)
    {lead rest : List Char} (h : maskFrom spans offset s = lead ++ (closing.toList ++ rest)) :
    ∃ lead' rest', s = lead' ++ (closing.toList ++ rest') ∧ maskFrom spans offset lead' = lead := by
  have hplain := startsPlain_of_isMark hclosing (List.prefix_append closing.toList rest)
  obtain ⟨lead', after', rfl, hlead, hafter, -⟩ := split_of_maskFrom h hplain
  obtain ⟨rest', rfl⟩ := mark_of_maskFrom hclosing ⟨rest, hafter.symm⟩
  exact ⟨lead', rest', rfl, hlead⟩

/-- **A form that fits in a masked text fits in the text**, outside the ranges. -/
theorem Form.fits_of_mask {form : Form} (hform : form.isMarked = true)
    (h : mask spans s = a ++ b) (hfits : form.Fits a.getLast? b) :
    ∃ a' b', s = a' ++ b' ∧ mask spans a' = a ∧ covered spans (size a) = false ∧
      form.Fits a'.getLast? b' := by
  obtain ⟨a', b', rfl, rfl, hb, hout⟩ := split_of_maskFrom h (startsPlain_of_fits hform hfits)
  rw [Nat.zero_add] at hout
  refine ⟨a', b', rfl, rfl, hout, ?_⟩
  cases form with
  | line opening =>
    rw [← hb] at hfits
    exact mark_of_maskFrom hform hfits
  | block opening closing =>
    obtain ⟨hopening, hclosing⟩ := Bool.and_eq_true_iff.1 hform
    obtain ⟨lead, rest, rfl, hlead⟩ := hfits
    obtain ⟨lead', rest', rfl, rfl⟩ := closing_of_maskFrom hclosing hb
    exact ⟨lead', rest', rfl, mark_of_maskFrom hopening hlead⟩
  | lines opening closing =>
    obtain ⟨hopening, hclosing⟩ := Bool.and_eq_true_iff.1 hform
    obtain ⟨hstart, lead, rest, rfl, hlead, hagain⟩ := hfits
    obtain ⟨lead', rest', rfl, rfl⟩ := closing_of_maskFrom hclosing hb
    exact ⟨lineStart_of_maskFrom hstart, lead', rest', rfl, mark_of_maskFrom hopening hlead,
      lineStart_of_maskFrom hagain⟩

end

/-! ## Literals of a masked text -/

section

variable {s past : List Char} {found : List Span}

theorem foldl_spaces {q : Quoting} (hq : q.quote = none) {n : Nat} (hn : 0 < n) :
    (List.replicate n ' ').foldl Quoting.next q = .start := by
  have hnext : q.next ' ' = .start := by
    obtain ⟨quote, escaped⟩ := q
    obtain rfl : quote = none := hq
    cases escaped <;> rfl
  have hstay (n : Nat) : (List.replicate n ' ').foldl Quoting.next .start = .start := by
    induction n with
    | zero => rfl
    | succ n ih => exact ih
  obtain ⟨n, rfl⟩ := Nat.exists_eq_succ_of_ne_zero (Nat.ne_of_gt hn)
  rw [List.replicate_succ, List.foldl_cons, hnext, hstay]

/-- Behind a blanked range no literal is open, if none was open before it or a line ends in it. -/
theorem foldl_blanked {t : List Char} {offset : Nat} {q : Quoting}
    (hcovered : ∀ i < size t, covered found (offset + i) = true)
    (h : '\n' ∈ t ∨ q.quote = none ∧ t ≠ []) :
    (maskFrom found offset t).foldl Quoting.next q = .start := by
  induction t generalizing offset q with
  | nil => simp at h
  | cons c r ih =>
    have hwidth := Char.utf8Size_pos c
    have hhere : covered found offset = true := hcovered 0 (by rw [size]; omega)
    have hrest : ∀ i < size r, covered found (offset + c.utf8Size + i) = true := by
      intro i hi
      rw [Nat.add_assoc]
      exact hcovered _ (by rw [size]; omega)
    -- a range that goes on does so with no literal open
    have hon : (maskFrom found (offset + c.utf8Size) r).foldl Quoting.next .start = .start := by
      by_cases hr : r = []
      · rw [hr]
        rfl
      · exact ih hrest (.inr ⟨rfl, hr⟩)
    by_cases hc : c = '\n'
    · subst hc
      simp only [maskFrom, bne_self_eq_false, Bool.and_false, Bool.false_eq_true, if_false]
      exact hon
    · have hblank : (covered found offset && c != '\n') = true := by simp [hhere, hc]
      rw [maskFrom, if_pos hblank, List.foldl_append]
      rcases h with hnewline | ⟨hq, -⟩
      · have hr : '\n' ∈ r := (List.mem_cons.1 hnewline).resolve_left (Ne.symm hc)
        exact ih hrest (.inl hr)
      · rw [foldl_spaces hq hwidth]
        exact hon

/-- The literals behind a comment are those that it opens itself. -/
theorem foldl_comment {t : List Char} {q : Quoting} (h : '\n' ∈ t ∨ q.quote = none ∧ StartsPlain t) :
    t.foldl Quoting.next q = t.foldl Quoting.next .start := by
  rcases h with h | ⟨hq, c, r, rfl, hc⟩
  · rw [List.mem_iff_append] at h
    obtain ⟨a, b, rfl⟩ := h
    rw [List.foldl_append, List.foldl_append]
    rfl
  · have hnext {q : Quoting} (hq : q.quote = none) : q.next c = .start := by
      obtain ⟨-, hnewline⟩ := ne_of_isPlain hc
      simp only [isPlain, Bool.not_eq_true', Bool.or_eq_false_iff, beq_eq_false_iff_ne] at hc
      obtain ⟨quote, escaped⟩ := q
      obtain rfl : quote = none := hq
      cases escaped <;> simp [Quoting.next, Quoting.start, hnewline, hc]
    rw [List.foldl_cons, List.foldl_cons, hnext hq, hnext rfl]

/-- All literals are closed in the last line of a comment. -/
def LastLineClosed (s : List Char) (c : Span) : Prop :=
  Closed (afterLast '\n' (slice c.start c.stop s))

/-- A comment ends in the last line of a beginning of the text. -/
def EndsInLastLine (c : Span) (past : List Char) : Prop :=
  ∃ y mid, past = y ++ mid ∧ size y = c.stop ∧ '\n' ∉ mid

theorem EndsInLastLine.append {c : Span} (h : EndsInLastLine c past) {t : List Char}
    (ht : '\n' ∉ t) : EndsInLastLine c (past ++ t) := by
  obtain ⟨y, mid, rfl, hy, hmid⟩ := h
  exact ⟨y, mid ++ t, List.append_assoc .., hy, by simp [hmid, ht]⟩

/-- Comments that are found lie apart: none starts inside another. -/
theorem Greedy.apart {f : Finder} {pos : Nat} (h : Greedy f s pos found) {c c' : Span}
    (hc : c ∈ found) (hc' : c' ∈ found) : c.start ≤ c'.start ∨ c'.stop ≤ c.start := by
  induction h with
  | done _ => cases hc
  | @take pos sp found hat _ _ hrest ih =>
    obtain ⟨-, -, -, -, -, -, -, hlong, -⟩ := hat
    rcases List.mem_cons.1 hc with rfl | hlater
    · rcases List.mem_cons.1 hc' with rfl | hlater'
      · exact .inl (Nat.le_refl _)
      · have := (hrest.commentAt _ hlater').2
        exact .inl (by omega)
    · rcases List.mem_cons.1 hc' with rfl | hlater'
      · exact .inr (hrest.commentAt _ hlater).2
      · exact ih hlater hlater'

theorem covered_iff {n : Nat} : covered found n = true ↔ ∃ c ∈ found, c.start ≤ n ∧ n < c.stop := by
  simp [covered]

theorem not_inside_of_not_covered {n : Nat} (h : covered found n = false) :
    ∀ c ∈ found, n ≤ c.start ∨ c.stop ≤ n := by
  intro c hc
  by_contra hcross
  rw [not_or, Nat.not_le, Nat.not_le] at hcross
  have := covered_iff.2 ⟨c, hc, Nat.le_of_lt hcross.1, hcross.2⟩
  rw [h] at this
  cases this

/-- A place behind a character of a comment that is not inside the comment is its end. -/
theorem CommentAt.ends {f : Finder} (hf : f.Aligned s) {c : Span} (hat : CommentAt f s c)
    {q rest : List Char} {x : Char} (hs : s = q ++ x :: rest) (hstop : size q < c.stop)
    (hout : c.stop ≤ size (q ++ [x])) :
    ∃ a, q ++ [x] = a ++ slice c.start c.stop s ∧ size a = c.start ∧ size (q ++ [x]) = c.stop ∧
      endsQuoted a = false := by
  obtain ⟨⟨a, b, hsplit, ha⟩, hsize⟩ := hat.cuts hf
  generalize slice c.start c.stop s = t at hsplit hsize
  rw [← List.append_assoc] at hsplit
  have hapart := apart_of_append (hs.symm.trans hsplit)
  simp only [size_append, size] at hapart hout
  have hend : size (q ++ [x]) = size (a ++ t) := by
    simp only [size_append, size]
    omega
  have hs' : s = q ++ [x] ++ rest := by rw [hs, List.append_assoc, List.singleton_append]
  obtain ⟨hpast, rfl⟩ := eq_of_size_eq (hs'.symm.trans hsplit) hend
  refine ⟨a, hpast, ha, by rw [hend, size_append]; omega, ?_⟩
  obtain ⟨past, after, m, hs'', hpast', -, -, -, hquoted⟩ := hat
  rw [List.append_assoc] at hsplit
  obtain ⟨rfl, -⟩ := eq_of_size_eq (hsplit.symm.trans hs'') (ha.trans hpast'.symm)
  rwa [← endsQuoted_iff, Bool.not_eq_true] at hquoted

/-- Behind a comment that closes its literals, none is open, whether it is blanked or not. -/
theorem foldl_mask_comment {a t : List Char}
    (hcovered : ∀ i < size t, covered found (size a + i) = true) (hquoted : endsQuoted a = false)
    (hplain : StartsPlain t) (hclosed : Closed (afterLast '\n' t))
    (hbefore : '\n' ∉ t →
      (mask found a).foldl Quoting.next .start = a.foldl Quoting.next .start) :
    (mask found (a ++ t)).foldl Quoting.next .start = (a ++ t).foldl Quoting.next .start := by
  have hstart := (foldl_eq_start_iff t).2 hclosed
  rw [mask, maskFrom_append, Nat.zero_add, List.foldl_append, List.foldl_append]
  by_cases hline : '\n' ∈ t
  · rw [foldl_blanked hcovered (.inl hline), foldl_comment (.inl hline), hstart]
  · have hquote : (a.foldl Quoting.next .start).quote = none := by
      rwa [endsQuoted, Option.isSome_eq_false_iff, Option.isNone_iff_eq_none] at hquoted
    have ht : t ≠ [] := by
      obtain ⟨c, r, rfl, -⟩ := hplain
      exact List.cons_ne_nil c r
    rw [mask] at hbefore
    rw [hbefore hline, foldl_blanked hcovered (.inr ⟨hquote, ht⟩),
      foldl_comment (.inr ⟨hquote, hplain⟩), hstart]

/-- **Blanking keeps the literals**: up to a place outside the comments, if those that end in the last
line close all their literals. -/
theorem foldl_mask {f : Finder} (hf : f.Aligned s) (hgreedy : Greedy f s 0 found)
    (hplain : ∀ c ∈ found, StartsPlain (slice c.start c.stop s)) {past rest : List Char}
    (hs : s = past ++ rest) (hbetween : ∀ c ∈ found, size past ≤ c.start ∨ c.stop ≤ size past)
    (hclosed : ∀ c ∈ found, EndsInLastLine c past → LastLineClosed s c) :
    (mask found past).foldl Quoting.next .start = past.foldl Quoting.next .start := by
  induction hlength : past.length using Nat.strong_induction_on generalizing past rest with
  | _ n ih =>
    subst hlength
    rcases List.eq_nil_or_concat' past with rfl | ⟨q, x, rfl⟩
    · rfl
    · have hs' : s = q ++ x :: rest := by rw [hs, List.append_assoc]; rfl
      by_cases hin : covered found (size q) = true
      · -- a comment ends here
        obtain ⟨c, hc, hstart, hstop⟩ := covered_iff.1 hin
        have hlong : size q < size (q ++ [x]) := by
          have := Char.utf8Size_pos x
          simp [size, this]
        have hout : c.stop ≤ size (q ++ [x]) := (hbetween c hc).resolve_left (by omega)
        have hat := (hgreedy.commentAt c hc).1
        obtain ⟨a, hpast, ha, hend, hquoted⟩ := hat.ends hf hs' hstop hout
        rw [hpast] at hs hend hclosed ih ⊢
        have hcovered : ∀ i < size (slice c.start c.stop s), covered found (size a + i) = true := by
          intro i hi
          rw [size_append] at hend
          exact covered_iff.2 ⟨c, hc, by omega, by omega⟩
        have hlast := hclosed c hc ⟨_, [], (List.append_nil _).symm, hend, List.not_mem_nil⟩
        refine foldl_mask_comment hcovered hquoted (hplain c hc) hlast fun hline => ?_
        have hshort : a.length < (a ++ slice c.start c.stop s).length := by
          obtain ⟨d, r, ht, -⟩ := hplain c hc
          simp [ht]
        rw [List.append_assoc] at hs
        refine ih a.length hshort hs (fun c' hc' => ?_) (fun c' hc' hend' => ?_) rfl
        · rw [ha]
          exact hgreedy.apart hc hc'
        · exact hclosed c' hc' (hend'.append hline)
      · -- a character outside the comments
        rw [Bool.not_eq_true] at hin
        have hkeep : mask found (q ++ [x]) = mask found q ++ [x] := by
          rw [mask, maskFrom_append, Nat.zero_add, mask]
          simp [maskFrom, hin]
        rw [hkeep, List.foldl_append, List.foldl_append]
        by_cases hx : x = '\n'
        · subst hx
          rfl
        · rw [ih q.length (by simp) hs' (not_inside_of_not_covered hin) ?_ rfl]
          intro c hc hend
          exact hclosed c hc (hend.append (by simpa using Ne.symm hx))

end

/-! ## Comments that masking uncovers -/

/-- Nothing stays open behind a comment: its last line closes its literals, or ends with it. -/
def Settled (s : List Char) (c : Span) : Prop :=
  LastLineClosed s c ∨ (dropBytes c.stop s).head?.all (· == '\n') = true

/-- A place where a comment could start but for an open literal, which an earlier comment opens. -/
structure Hidden (p : TextPattern) (s past after : List Char) : Prop where
  text : s = past ++ after
  /-- No comment that is found holds the place. -/
  outside : covered (spans p s) (size past) = false
  matched : ∃ m, p.matchAt Char.utf8Size (place past after) = some m ∧ m.start < m.stop
  quoted : EndsInLiteral (afterLast '\n' past)
  /-- Without the comments of the line, no literal is open. -/
  unquoted : ¬ EndsInLiteral (afterLast '\n' (mask (spans p s) past))
  opened : ∃ c ∈ spans p s, EndsInLastLine c past ∧ ¬ LastLineClosed s c

section

variable {p : TextPattern} {forms : List Form} (hp : HasForms p forms) {s past after : List Char}

include hp

theorem HasForms.startsPlain_of_mem {c : Span} (hc : c ∈ spans p s) :
    StartsPlain (slice c.start c.stop s) := by
  have hat := ((greedy_spans p s).commentAt c hc).1
  obtain ⟨past, after, m, hs, hbegins, rfl⟩ := (commentAt_iff (aligned_matchAt p s)).1 hat
  obtain ⟨-, t, rest, rfl, hplain, hspan⟩ := hp.of_match hbegins.found
  have hcuts : Cuts s m.span t := by
    rw [hspan]
    exact ⟨⟨past, rest, hs, rfl⟩, rfl⟩
  rwa [hcuts.slice_eq]

/-- Outside the comments that are found, only literals hide others. -/
theorem HasForms.quoted_of_fits (hs : s = past ++ after)
    (hout : covered (spans p s) (size past) = false) {form : Form} (hform : form ∈ forms)
    (hfits : form.Fits past.getLast? after) : EndsInLiteral (afterLast '\n' past) := by
  obtain ⟨m, hm, hlong⟩ := hp.exists_match hform hfits
  by_contra hquoted
  rw [← endsQuoted_iff, Bool.not_eq_true] at hquoted
  have hat : CommentAt (p.matchAt Char.utf8Size) s m.span :=
    (commentAt_iff (aligned_matchAt p s)).2 ⟨past, after, m, hs, ⟨hm, hlong, hquoted⟩, rfl⟩
  obtain ⟨-, t, -, -, -, hspan⟩ := hp.of_match hm
  -- the comment would be found, or start inside one that is
  obtain ⟨c, hc, hin⟩ : ∃ c ∈ spans p s, c.start ≤ m.start ∧ m.start < c.stop := by
    rcases (greedy_spans p s).mem_or_inside hat (Nat.zero_le _) with hmem | ⟨c, hc, hstart, hstop⟩
    · exact ⟨m.span, hmem, Nat.le_refl _, hlong⟩
    · exact ⟨c, hc, Nat.le_of_lt hstart, hstop⟩
  rw [Match.start, hspan] at hin
  have := covered_iff.2 ⟨c, hc, hin⟩
  rw [hout] at this
  cases this

/-- **Masking uncovers hidden comments only.** -/
theorem HasForms.hidden_of_commentAt {sp : Span}
    (h : CommentAt (p.matchAt Char.utf8Size) (mask (spans p s) s) sp) :
    ∃ past after, Hidden p s past after ∧ size past = sp.start := by
  obtain ⟨a, b, m, hmask, hstart, hm, -, -, hunquoted⟩ := h
  obtain ⟨⟨form, hform, hfits⟩, -⟩ := hp.of_match hm
  obtain ⟨past, after, hs, rfl, hout, hfits'⟩ := Form.fits_of_mask (hp.marked form hform) hmask hfits
  rw [mask, size_maskFrom] at hout hstart
  have hquoted := hp.quoted_of_fits hs hout hform hfits'
  refine ⟨past, after, ⟨hs, hout, hp.exists_match hform hfits', hquoted, hunquoted, ?_⟩, hstart⟩
  by_contra hnone
  have hclosed : ∀ c ∈ spans p s, EndsInLastLine c past → LastLineClosed s c := by
    intro c hc hend
    by_contra hopen
    exact hnone ⟨c, hc, hend, hopen⟩
  have hsame := foldl_mask (aligned_matchAt p s) (greedy_spans p s)
    (fun c hc => hp.startsPlain_of_mem hc) hs (not_inside_of_not_covered hout) hclosed
  rw [← endsQuoted_iff, endsQuoted] at hquoted hunquoted
  rw [hsame] at hunquoted
  exact hunquoted hquoted

theorem HasForms.not_settled (h : Hidden p s past after) : ∃ c ∈ spans p s, ¬ Settled s c := by
  obtain ⟨c, hc, ⟨y, mid, rfl, hy, hmid⟩, hopen⟩ := h.opened
  refine ⟨c, hc, ?_⟩
  rintro (hclosed | hend)
  · exact hopen hclosed
  · obtain ⟨m, hm, -⟩ := h.matched
    obtain ⟨-, t, rest, rfl, ⟨d, r, rfl, hd⟩, -⟩ := hp.of_match hm
    rw [congrArg (dropBytes c.stop) h.text, ← hy, List.append_assoc, dropBytes_size_append] at hend
    cases mid with
    | nil => exact (ne_of_isPlain hd).2 (by simpa using hend)
    | cons e mid => exact hmid (by simpa using Or.inl (eq_of_beq hend).symm)

end

/-- **Blanking the comments uncovers others only behind an open quote in a comment**, in every
language and every text: where a comment stands in the masked text, it was hidden in the text by a
literal that an earlier comment of the same line opens. If each comment closes its literals or ends its
line, no comment stands in the masked text, and none is found there. -/
theorem uncovered_behind_open_quote {l : Language} (hl : l ∈ Language.all) (s : List Char) :
    let found := spans l.comment s
    let masked := mask found s
    (∀ sp, CommentAt (l.comment.matchAt Char.utf8Size) masked sp →
      ∃ past after, Hidden l.comment s past after ∧ size past = sp.start) ∧
    ((∀ c ∈ found, Settled s c) →
      (∀ sp, ¬ CommentAt (l.comment.matchAt Char.utf8Size) masked sp) ∧
      spans l.comment masked = []) := by
  intro found masked
  obtain ⟨forms, hp⟩ := exists_hasForms hl
  refine ⟨fun sp hat => hp.hidden_of_commentAt hat, fun hsettled => ?_⟩
  have hnone : ∀ sp, ¬ CommentAt (l.comment.matchAt Char.utf8Size) masked sp := by
    intro sp hat
    obtain ⟨past, after, hhidden, -⟩ := hp.hidden_of_commentAt hat
    obtain ⟨c, hc, hopen⟩ := hp.not_settled hhidden
    exact hopen (hsettled c hc)
  refine ⟨hnone, List.eq_nil_iff_forall_not_mem.2 fun sp hsp => ?_⟩
  exact hnone sp ((greedy_spans _ masked).commentAt sp hsp).1

/-- A literal with two slashes, a comment with a closed literal, and one with an open quote that ends
its line: all is blanked at once. Behind an open quote, a comment is hidden. -/
theorem uncovered_behind_apostrophe :
    let s := "f(\"//\"); /* \"q\" */ g(); // don't\n".toList
    let s' := "/* ' */ // x\n".toList
    Language.Script.javascript ∈ Language.all ∧
    spans Language.slashComments s = [⟨9, 18⟩, ⟨24, 32⟩] ∧
    (∀ c ∈ spans Language.slashComments s, Settled s c) ∧
    spans Language.slashComments (mask (spans Language.slashComments s) s) = [] ∧
    ∃ past after, Hidden Language.slashComments s' past after ∧ size past = 8 := by
  intro s s'
  have hl : Language.Script.javascript ∈ Language.all := by simp [Language.all]
  have hfound : spans Language.slashComments s = [⟨9, 18⟩, ⟨24, 32⟩] := by decide +kernel
  have hsettled : ∀ c ∈ spans Language.slashComments s, Settled s c := by
    rw [hfound]
    intro c hc
    simp only [List.mem_cons, List.not_mem_nil, or_false] at hc
    rcases hc with rfl | rfl
    · exact .inl ((foldl_eq_start_iff _).1 (by decide +kernel))
    · exact .inr (by decide +kernel)
  have hleft : (⟨8, 12⟩ : Span) ∈
      spans Language.slashComments (mask (spans Language.slashComments s') s') := by decide +kernel
  refine ⟨hl, hfound, hsettled, ((uncovered_behind_open_quote hl s).2 hsettled).2, ?_⟩
  exact (uncovered_behind_open_quote hl s').1 _ ((greedy_spans _ _).commentAt _ hleft).1

/-- An apostrophe in a comment hides the next one, and masking uncovers it. -/
theorem apostrophe_hides_comment :
    let s := "/* ' */ // x\n".toList
    Language.Script.javascript ∈ Language.all ∧
    spans Language.Script.javascript.comment s = [⟨0, 7⟩] ∧
    spans Language.Script.javascript.comment (mask [⟨0, 7⟩] s) = [⟨8, 12⟩] := by
  refine ⟨by simp [Language.all], by decide +kernel, by decide +kernel⟩

end Comment

end CodeSurvey
