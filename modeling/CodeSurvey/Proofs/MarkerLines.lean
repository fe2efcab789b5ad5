import CodeSurvey.Proofs.CommentSearch
import CodeSurvey.Proofs.Lines
import CodeSurvey.Proofs.Statements
/-!
# Markers and their lines

The text of a comment keeps the lines of the source that say something. `standing` numbers them while
the empty ones are still there, so it gives the line of the source on which each of them stands
(`mem_standing`). The markers are reported for the lines that a search finds: each text is looked for
from the line of the one before on. What it stands on is among these lines, so the search always
succeeds, and not behind that line (`found_placeLines`); it stops earlier if an earlier line holds the
same text (`Found.eq_iff`). So two equal lines of a comment are both reported on the first of them.
-/
namespace CodeSurvey.Comment

open Text Pattern

/-! ## Where text lines stand -/

theorem prefix_of_beforeEnd? {ending s rest : List Char} (h : beforeEnd? ending s = some rest) :
    rest <+: s := by
  obtain ⟨t, ht, rfl⟩ := Option.map_eq_some_iff.1 h
  have hsuffix := List.reverse_prefix.2 (suffix_of_afterStart? ht)
  rwa [List.reverse_reverse] at hsuffix

/-- What is dropped in front of the text of a block has no newline. -/
theorem exists_opening (s : List Char) :
    ∃ opening tail, s = opening ++ (dropDelimiters s ++ tail) ∧ '\n' ∉ opening := by
  have hplain : ∀ d ∈ [("/**", "*/"), ("/*!", "*/"), ("/*", "*/"), ("\"\"\"", "\"\"\""), ("'''", "'''"),
      ("=begin", "=end")], '\n' ∉ d.1.toList := by decide
  unfold dropDelimiters
  cases hfind : List.findSome? _ _ with
  | none => exact ⟨[], [], by simp, by simp⟩
  | some body =>
    obtain ⟨d, hd, hbetween⟩ := List.exists_of_findSome?_eq_some hfind
    obtain ⟨t, ht, rfl⟩ := Option.map_eq_some_iff.1 hbetween
    have hbody : (beforeEnd? d.2.toList t).getD t <+: t := by
      cases hend : beforeEnd? d.2.toList t with
      | none => exact List.prefix_rfl
      | some rest => exact prefix_of_beforeEnd? hend
    obtain ⟨tail, htail⟩ := hbody
    refine ⟨d.1.toList, tail, ?_, hplain d hd⟩
    rw [Option.getD_some, htail]
    exact eq_append_of_afterStart? ht

/-- A line of a comment without its gutter. -/
def bareLine (l : List Char) : List Char := trim (dropGutter (trim l))

theorem infix_bareLine (l : List Char) : bareLine l <:+: l := by
  have hgutter : dropGutter (trim l) <:+ trim l := by
    unfold dropGutter
    cases hfind : List.findSome? _ _ with
    | none => exact List.suffix_rfl
    | some rest =>
      obtain ⟨g, -, hg⟩ := List.exists_of_findSome?_eq_some hfind
      exact suffix_of_afterStart? hg
  exact (infix_trim _).trans (hgutter.isInfix.trans (infix_trim l))

/-- The lines of a comment's text, each with the line of the source on which it stands, if the raw text
starts on the given one. -/
def standing (first : Nat) (raw : List Char) : List (List Char × Nat) :=
  (((lines (dropDelimiters (trim raw))).zipIdx (first + (raw.takeWhile isBlank).count '\n')).map
    fun x => (bareLine x.1, x.2)).filter fun x => !x.1.isEmpty

/-- A text line is a piece of the raw text, and stands behind as many newlines as its number says. -/
theorem mem_standing {first : Nat} {raw : List Char} {x : List Char × Nat}
    (h : x ∈ standing first raw) :
    IsLine x.1 ∧ ∃ a b, raw = a ++ (x.1 ++ b) ∧ x.2 = first + a.count '\n' := by
  obtain ⟨hmem, hne⟩ := List.mem_filter.1 h
  obtain ⟨⟨l, n⟩, hl, rfl⟩ := List.mem_map.1 hmem
  obtain ⟨k, hk, rfl⟩ : ∃ k, (lines (dropDelimiters (trim raw)))[k]? = some l ∧
      n = first + (raw.takeWhile isBlank).count '\n' + k := by
    obtain ⟨hle, hget⟩ := List.mem_zipIdx_iff_le_and_getElem?_sub.1 hl
    exact ⟨_, hget, by omega⟩
  obtain ⟨c, d, hbody, rfl, hnewline⟩ := exists_of_getElem?_lines hk
  obtain ⟨u, v, hbare⟩ := infix_bareLine l
  obtain ⟨opening, tail, htrim, hopening⟩ := exists_opening (trim raw)
  obtain ⟨rest, hraw⟩ := prefix_takeWhile_append_trim raw
  have hu : '\n' ∉ u := fun hmem => hnewline (hbare ▸ by simp [hmem])
  have hlast := (trimmed_trim (dropGutter (trim l))).2
  refine ⟨⟨by simpa using hne, ?_, ?_⟩, ?_⟩
  · intro hmem
    exact hnewline ((infix_bareLine l).subset hmem)
  · intro hreturn
    have := hlast '\r' hreturn
    revert this
    decide
  · refine ⟨raw.takeWhile isBlank ++ opening ++ c ++ u, v ++ d ++ tail ++ rest, ?_, ?_⟩
    · conv_lhs => rw [← hraw, htrim, hbody, ← hbare]
      simp
    · simp only [List.count_append, List.count_eq_zero_of_not_mem hopening,
        List.count_eq_zero_of_not_mem hu]
      omega

/-- They are the lines of the comment's text. -/
theorem map_fst_standing (first : Nat) (raw : List Char) :
    (standing first raw).map (·.1) = lines (bareText raw) := by
  have hmap : (standing first raw).map (·.1) =
      ((lines (dropDelimiters (trim raw))).map bareLine).filter (! ·.isEmpty) := by
    conv_rhs => rw [← List.zipIdx_map_fst (first + (raw.takeWhile isBlank).count '\n')
      (lines (dropDelimiters (trim raw))), List.map_map, List.filter_map]
    rw [standing, List.filter_map, List.map_map]
    rfl
  have htext : bareText raw = join ['\n'] ((standing first raw).map (·.1)) := by
    rw [hmap]
    rfl
  rw [htext, lines_join]
  intro t ht
  obtain ⟨x, hx, rfl⟩ := List.mem_map.1 ht
  exact (mem_standing hx).1

/-- No two of them stand on one line. -/
theorem pairwise_standing (first : Nat) (raw : List Char) :
    (standing first raw).Pairwise fun x y => x.2 < y.2 := by
  apply List.Pairwise.filter
  rw [List.pairwise_map]
  apply List.pairwise_map.1
  rw [List.zipIdx_map_snd]
  exact List.pairwise_lt_range'

/-! ## Searching the lines -/

theorem holds_iff {t s : List Char} : holds t s = true ↔ t <:+: s := by
  induction s with
  | nil => simp [holds]
  | cons c r ih => rw [holds, Bool.or_eq_true, startsWith_iff, ih, List.infix_cons_iff]

/-- A text is part of a line of a source. -/
def OnLine (s : List Char) (n : Nat) (t : List Char) : Prop :=
  ∃ k l, n = k + 1 ∧ (lines s)[k]? = some l ∧ t <:+: l

instance (s : List Char) (n : Nat) (t : List Char) : Decidable (OnLine s n t) :=
  decidable_of_iff (0 < n ∧ (lines s)[n - 1]?.any (holds t) = true) <| by
    rw [Option.any_eq_true]
    constructor
    · rintro ⟨hn, l, hl, hholds⟩
      exact ⟨n - 1, l, by omega, hl, holds_iff.1 hholds⟩
    · rintro ⟨k, l, rfl, hl, hinfix⟩
      exact ⟨by omega, l, hl, holds_iff.2 hinfix⟩

/-- The same in the lines from a first one on. -/
theorem onLine_iff {s t : List Char} {first : Nat} (hfirst : 0 < first) (i : Nat) :
    OnLine s (first + i) t ↔ ∃ l, ((lines s).drop (first - 1))[i]? = some l ∧ holds t l = true := by
  have hindex : first + i = first - 1 + i + 1 := by omega
  rw [List.getElem?_drop]
  constructor
  · rintro ⟨k, l, hk, hl, hinfix⟩
    obtain rfl : k = first - 1 + i := by omega
    exact ⟨l, hl, holds_iff.2 hinfix⟩
  · rintro ⟨l, hl, hholds⟩
    exact ⟨first - 1 + i, l, hindex, hl, holds_iff.1 hholds⟩

/-- The search stops at the first line that holds a text. -/
theorem lineHolding_spec {s t : List Char} {first n : Nat} (hfirst : 0 < first) (hle : first ≤ n)
    (h : OnLine s n t) :
    ∃ r, lineHolding (lines s) (first - 1) t = some r ∧ first ≤ r ∧ r ≤ n ∧ OnLine s r t ∧
      ∀ m, first ≤ m → m < r → ¬ OnLine s m t := by
  obtain ⟨j, rfl⟩ := Nat.exists_eq_add_of_le hle
  obtain ⟨l, hl, hholds⟩ := (onLine_iff hfirst j).1 h
  have hsome : (((lines s).drop (first - 1)).findIdx? (holds t)).isSome = true := by
    rw [List.findIdx?_isSome, List.any_eq_true]
    exact ⟨l, List.mem_of_getElem? hl, hholds⟩
  obtain ⟨i, hi⟩ := Option.isSome_iff_exists.1 hsome
  obtain ⟨hlt, hfound, hbefore⟩ := List.findIdx?_eq_some_iff_getElem.1 hi
  have hearlier : ∀ m < i, ¬ OnLine s (first + m) t := by
    intro m hm hline
    obtain ⟨l', hl', hholds'⟩ := (onLine_iff hfirst m).1 hline
    obtain ⟨hmlt, rfl⟩ := List.getElem?_eq_some_iff.1 hl'
    exact hbefore m hm hholds'
  refine ⟨first + i, ?_, by omega, ?_, ?_, ?_⟩
  · rw [lineHolding, hi, Option.map_some]
    congr 1
    omega
  · by_contra hgt
    exact hearlier j (by omega) h
  · exact (onLine_iff hfirst i).2 ⟨_, List.getElem?_eq_getElem hlt, hfound⟩
  · intro m hm hmr
    obtain ⟨k, rfl⟩ := Nat.exists_eq_add_of_le hm
    exact hearlier k (by omega)

/-- Texts with the lines on which they stand, and with those on which a search finds them that goes on
from each line it stops at. -/
inductive Found (s : List Char) : Nat → List (List Char × Nat) → List (List Char × Nat) → Prop
  | nil (first : Nat) : Found s first [] []
  /-- The line that is found is the first one that holds the text, and not behind the one it stands
  on. -/
  | cons {first n r : Nat} {t : List Char} {rest placed : List (List Char × Nat)} (hfirst : first ≤ r)
    (hle : r ≤ n) (hline : OnLine s r t) (hbefore : ∀ m, first ≤ m → m < r → ¬ OnLine s m t)
    (hrest : Found s r rest placed) : Found s first ((t, n) :: rest) ((t, r) :: placed)

/-- No line from the one of the text before on, and in front of its own, holds a text. -/
def Clear (s : List Char) : Nat → List (List Char × Nat) → Prop
  | _, [] => True
  | first, (t, n) :: rest => (∀ m, first ≤ m → m < n → ¬ OnLine s m t) ∧ Clear s n rest

instance decidableClear (s : List Char) :
    (first : Nat) → (texts : List (List Char × Nat)) → Decidable (Clear s first texts)
  | _, [] => isTrue trivial
  | first, (t, n) :: rest =>
    have := decidableClear s n rest
    inferInstanceAs (Decidable ((∀ m, first ≤ m → m < n → ¬ OnLine s m t) ∧ Clear s n rest))

/-- Every text is found. -/
theorem found_placeLines {s : List Char} {first : Nat} (hfirst : 0 < first)
    {texts : List (List Char × Nat)} (hline : ∀ x ∈ texts, first ≤ x.2 ∧ OnLine s x.2 x.1)
    (hapart : texts.Pairwise fun x y => x.2 < y.2) (fallback : Nat) :
    Found s first texts (placeLines (lines s) fallback (first - 1) (texts.map (·.1))) := by
  induction texts generalizing first with
  | nil => exact .nil first
  | cons x texts ih =>
    obtain ⟨t, n⟩ := x
    obtain ⟨hn, hon⟩ := hline (t, n) List.mem_cons_self
    obtain ⟨hlater, hapart⟩ := List.pairwise_cons.1 hapart
    obtain ⟨r, hr, hfr, hrn, hrline, hbefore⟩ := lineHolding_spec hfirst hn hon
    rw [List.map_cons, placeLines, hr, Option.getD_some]
    refine .cons hfr hrn hrline hbefore (ih (by omega) ?_ hapart)
    intro y hy
    have hny : n < y.2 := hlater y hy
    exact ⟨by omega, (hline y (List.mem_cons_of_mem _ hy)).2⟩

/-- The lines that are found are the right ones if no line in between holds a text. -/
theorem Found.eq_iff {s : List Char} {first : Nat} {texts placed : List (List Char × Nat)}
    (h : Found s first texts placed) : placed = texts ↔ Clear s first texts := by
  induction h with
  | nil first => exact iff_of_true rfl trivial
  | @cons first n r t rest placed hfirst hle hline hbefore hrest ih =>
    rw [Clear]
    constructor
    · intro heq
      obtain ⟨hhead, htail⟩ := List.cons.inj heq
      obtain rfl : r = n := (Prod.mk.inj hhead).2
      exact ⟨hbefore, ih.1 htail⟩
    · rintro ⟨hclear, hrestClear⟩
      obtain rfl : r = n := by
        by_contra hne
        exact hclear r hfirst (by omega) hline
      rw [ih.2 hrestClear]

/-! ## Markers -/

/-- The text lines of the comment at a range, with the lines on which they stand. -/
def standingAt (s : List Char) (sp : Span) : List (List Char × Nat) :=
  standing ((LineIndex.ofText s).line sp.start) (slice sp.start sp.stop s)

/-- The same with the lines on which they are reported. -/
def placedAt (s : List Char) (sp : Span) : List (List Char × Nat) :=
  placedLines s [ofRaw (LineIndex.ofText s) (slice sp.start sp.stop s) sp.start]

/-- What the markers of some text lines are. -/
def marksOf (texts : List (List Char × Nat)) : List Todo × List Annotation :=
  (texts.filterMap fun x => todoOf x.1 x.2, texts.filterMap fun x => annotationOf x.1 x.2)

/-- How the text lines of a comment are located. -/
structure Located (s : List Char) (sp : Span) : Prop where
  /-- No line of the comment's text is left out. -/
  texts : (standingAt s sp).map (·.1) = lines (bareText (slice sp.start sp.stop s))
  /-- Each of them is a piece of the comment, on the line that its number says. -/
  stands : ∀ x ∈ standingAt s sp, ∃ a b, s = a ++ (x.1 ++ b) ∧ sp.start ≤ size a ∧
    size a + size x.1 ≤ sp.stop ∧ x.2 = a.count '\n' + 1
  /-- No two of them stand on one line. -/
  apart : (standingAt s sp).Pairwise fun x y => x.2 < y.2
  /-- Each is reported on the first line that holds it, from the line on which the one before is
  reported. -/
  found : Found s ((LineIndex.ofText s).line sp.start) (standingAt s sp) (placedAt s sp)
  /-- So all are reported on the lines on which they stand if no other line gets in between. -/
  right : placedAt s sp = standingAt s sp ↔
    Clear s ((LineIndex.ofText s).line sp.start) (standingAt s sp)

theorem located_of_cuts {s : List Char} {sp : Span} (h : Cuts s sp (slice sp.start sp.stop s)) :
    Located s sp := by
  obtain ⟨⟨a, b, hs, hstart⟩, hstop⟩ := h
  generalize hraw : slice sp.start sp.stop s = raw at hs hstop
  have hline : (LineIndex.ofText s).line sp.start = a.count '\n' + 1 := by
    rw [← hstart]
    conv_lhs => rw [hs]
    exact LineIndex.line_size a (raw ++ b)
  have hstanding : standingAt s sp = standing (a.count '\n' + 1) raw := by
    rw [standingAt, hline, hraw]
  have hplaced : placedAt s sp = placeLines (lines s) (a.count '\n' + 1) (a.count '\n' + 1 - 1)
      ((standing (a.count '\n' + 1) raw).map (·.1)) := by
    rw [map_fst_standing]
    simp [placedAt, placedLines, ofRaw, hline, hraw]
  have hstands : ∀ x ∈ standing (a.count '\n' + 1) raw, IsLine x.1 ∧
      ∃ c d, s = (a ++ c) ++ (x.1 ++ (d ++ b)) ∧ raw = c ++ (x.1 ++ d) ∧
        x.2 = (a ++ c).count '\n' + 1 := by
    intro x hx
    obtain ⟨hisLine, c, d, hcut, hnumber⟩ := mem_standing hx
    refine ⟨hisLine, c, d, ?_, hcut, ?_⟩
    · rw [hs, hcut]
      simp
    · rw [hnumber, List.count_append]
      omega
  have hfound : Found s (a.count '\n' + 1) (standingAt s sp) (placedAt s sp) := by
    rw [hstanding, hplaced]
    refine found_placeLines (by omega) ?_ (pairwise_standing _ raw) _
    intro x hx
    obtain ⟨hisLine, c, d, hcut, -, hnumber⟩ := hstands x hx
    obtain ⟨l, hl, hinfix⟩ := getElem?_lines_append hisLine (a ++ c) (d ++ b)
    rw [← hcut] at hl
    refine ⟨?_, _, l, hnumber, hl, hinfix⟩
    rw [hnumber, List.count_append]
    omega
  constructor
  · rw [hstanding, hraw, map_fst_standing]
  · intro x hx
    rw [hstanding] at hx
    obtain ⟨-, c, d, hcut, hpiece, hnumber⟩ := hstands x hx
    refine ⟨a ++ c, d ++ b, hcut, ?_, ?_, hnumber⟩
    · rw [size_append]
      omega
    · have hsize := congrArg size hpiece
      simp only [size_append] at hsize ⊢
      omega
  · rw [hstanding]
    exact pairwise_standing _ raw
  · rw [hline]
    exact hfound
  · rw [hline]
    exact hfound.eq_iff

/-- **Markers are reported on the first line that holds their text.** For every source and every list of
comments in it, among them what any pattern finds, the markers and annotations are those of the text
lines of the comments, in order. -/
theorem markers_on_first_holding_line (s : List Char) :
    (∀ p : TextPattern, ∀ sp ∈ spans p s, Cuts s sp (slice sp.start sp.stop s)) ∧
    ∀ found : List Span, (∀ sp ∈ found, Cuts s sp (slice sp.start sp.stop s)) →
      marksIn s (ofSpans (LineIndex.ofText s) s found) = marksOf (found.flatMap (placedAt s)) ∧
      (∀ sp ∈ found, Located s sp) ∧
      ((∀ sp ∈ found, Clear s ((LineIndex.ofText s).line sp.start) (standingAt s sp)) →
        marksIn s (ofSpans (LineIndex.ofText s) s found) = marksOf (found.flatMap (standingAt s))) := by
  refine ⟨fun p sp hsp => (cuts_of_mem_spans hsp).1, fun found hcuts => ?_⟩
  have hlocated : ∀ sp ∈ found, Located s sp := fun sp hsp => located_of_cuts (hcuts sp hsp)
  have hmarks : marksIn s (ofSpans (LineIndex.ofText s) s found) =
      marksOf (found.flatMap (placedAt s)) := by
    have hplaced : placedLines s (ofSpans (LineIndex.ofText s) s found) =
        found.flatMap (placedAt s) := by
      rw [placedLines, ofSpans, List.flatMap_map]
      apply List.flatMap_congr
      intro sp _
      simp [placedAt, placedLines]
    rw [marksIn, hplaced]
    rfl
  refine ⟨hmarks, hlocated, ?_⟩
  intro hclear
  have hright : found.flatMap (placedAt s) = found.flatMap (standingAt s) := by
    apply List.flatMap_congr
    intro sp hsp
    exact (hlocated sp hsp).right.2 (hclear sp hsp)
  rw [hmarks, hright]

/-- Lines that say nothing are left out of a text, and do not shift the others. -/
theorem markers_on_first_holding_line_block :
    let s := "x()\n/**\n * TODO(me): one\n *\n * @owner: a, b\n */\n".toList
    let found := spans Language.slashComments s
    (∀ sp ∈ found, Cuts s sp (slice sp.start sp.stop s)) ∧
      (∀ sp ∈ found, Clear s ((LineIndex.ofText s).line sp.start) (standingAt s sp)) ∧
      marksIn s (ofSpans (LineIndex.ofText s) s found) =
        ([⟨"TODO", "one", 3⟩], [⟨"owner", ["a", "b"], 5⟩]) := by
  intro s found
  obtain ⟨hfound, hlocated⟩ := markers_on_first_holding_line s
  have hcuts := hfound Language.slashComments
  have hclear : ∀ sp ∈ found, Clear s ((LineIndex.ofText s).line sp.start) (standingAt s sp) := by
    decide +kernel
  refine ⟨hcuts, hclear, ((hlocated found hcuts).2.2 hclear).trans ?_⟩
  decide +kernel

/-- Two equal lines of a comment are reported on the first of them. -/
theorem repeated_marker_misplaced :
    let s := "/*\n TODO a\n TODO a\n*/\n".toList
    let found := spans Language.slashComments s
    found.flatMap (standingAt s) = [("TODO a".toList, 2), ("TODO a".toList, 3)] ∧
      (marksIn s (ofSpans (LineIndex.ofText s) s found)).1 = [⟨"TODO", "a", 2⟩, ⟨"TODO", "a", 2⟩] := by
  decide +kernel

end CodeSurvey.Comment
