import CodeSurvey.Proofs.ScannedNames
/-!
# Statements that export from a module

The two forms of such statements are patterns; here they are read as grammar. Each word of the
pattern vocabulary takes what it says (`takes_lit` to `takes_inOrder`), so a match of either form is
a `Statement`: pads at the start of a line, the keyword, a clause, and a module between quotes
(`exists_listStatement`, `exists_starStatement`). The groups of a match hold the parts of its
clause.

The entries of a list are read without such patterns. Where spaces stand next to the words `type`
and `as`, an entry is read as it is meant (`specifierName?_of_specifies`).
-/
namespace CodeSurvey

open Text Pattern

/-! ## What the vocabulary takes -/

/-- A text of blanks. -/
def Text.Blank (t : List Char) : Prop := ∀ c ∈ t, isBlank c = true

-- the characters of the text are tried, not all characters there are
instance (t : List Char) : Decidable (Blank t) := List.decidableBAll (isBlank · = true) t

/-- Blanks between words. -/
def Text.Gap (t : List Char) : Prop := t ≠ [] ∧ Blank t

namespace TextPattern

variable {b : Option Char} {t r : List Char} {k : List (Capture Char)}

theorem takes_lit {w : String} (h : Takes (lit w) b t r k) : t = w.toList ∧ k = [] := by
  unfold lit at h
  generalize w.toList = chars at h ⊢
  induction chars generalizing b t k with
  | nil =>
    cases h
    exact ⟨rfl, rfl⟩
  | cons x xs ih =>
    cases h with
    | seq hfirst hrest =>
      cases hfirst with
      | one hx =>
        obtain ⟨rfl, rfl⟩ := ih hrest
        rw [eq_of_beq hx]
        exact ⟨rfl, rfl⟩

theorem takes_many {p : Char → Bool} (h : Takes (many p) b t r k) :
    (∀ x ∈ t, p x = true) ∧ k = [] := by
  cases h with
  | span hp => exact ⟨hp, rfl⟩

theorem takes_many1 {p : Char → Bool} (h : Takes (many1 p) b t r k) :
    t ≠ [] ∧ (∀ x ∈ t, p x = true) ∧ k = [] := by
  cases h with
  | seq hfirst hrest =>
    cases hfirst with
    | one hx =>
      obtain ⟨hall, rfl⟩ := takes_many hrest
      refine ⟨by simp, ?_, rfl⟩
      intro y hy
      rcases List.mem_cons.1 hy with rfl | hy
      · exact hx
      · exact hall y hy

theorem takes_kw {w : String} (h : Takes (kw w) b t r k) :
    ∃ d, t = w.toList ++ d ∧ Gap d ∧ k = [] := by
  cases h with
  | seq hword hgap =>
    obtain ⟨rfl, rfl⟩ := takes_lit hword
    obtain ⟨hne, hblank, rfl⟩ := takes_many1 hgap
    exact ⟨_, rfl, ⟨hne, hblank⟩, rfl⟩

theorem takes_opt {p : TextPattern} (h : Takes (opt p) b t r k) :
    Takes p b t r k ∨ t = [] ∧ k = [] := by
  cases h with
  | left hp => exact .inl hp
  | right hnone =>
    cases hnone
    exact .inr ⟨rfl, rfl⟩

theorem takes_cap {label : String} {p : TextPattern} (h : Takes (cap label p) b t r k) :
    ∃ k', k = ⟨label, [], t⟩ :: k' ∧ Takes p b t r k' := by
  cases h with
  | group hp => exact ⟨_, rfl, hp⟩

/-- Patterns in order: the first takes a piece, the others what follows. -/
theorem takes_inOrder {p q : TextPattern} {ps : List TextPattern}
    (h : Takes (inOrder (p :: q :: ps)) b t r k) :
    ∃ u v k₁ k₂, t = u ++ v ∧ k = k₂.map (Capture.behind u) ++ k₁ ∧ Takes p b u (v ++ r) k₁ ∧
      Takes (inOrder (q :: ps)) (u.getLast?.or b) v r k₂ := by
  cases h with
  | seq hp hrest => exact ⟨_, _, _, _, rfl, rfl, hp, hrest⟩

end TextPattern

/-- The texts of groups are those of the captures. -/
theorem Taken.map_group? {p : TextPattern} {s : List Char} {m : Match} {before : Option Char}
    {a t rest : List Char} {k : List (Capture Char)} (h : Taken p s m before a t rest k)
    (label : String) :
    (m.group? label).map (fun sp => slice sp.start sp.stop s) =
      (k.find? fun x => label == x.label).map (·.text) := by
  rw [h.group?_eq, Option.map_map]
  cases hfind : k.find? fun x => label == x.label with
  | none => rfl
  | some x => exact congrArg some (h.cuts (List.mem_of_find?_eq_some hfind)).slice_eq

theorem Taken.groupText_eq {p : TextPattern} {s : List Char} {m : Match} {before : Option Char}
    {a t rest : List Char} {k : List (Capture Char)} (h : Taken p s m before a t rest k)
    (label : String) :
    Comment.groupText s m label = ((k.find? fun x => label == x.label).map (·.text)).getD [] := by
  rw [← h.map_group?, Comment.groupText]
  cases m.group? label <;> rfl

namespace Export

open TextPattern

/-! ## Statements -/

/-- A mark around the name of a module. -/
def IsQuote (c : Char) : Prop := c = '"' ∨ c = '\''

/-- A statement of a text that exports from a module: it starts a line, perhaps indented, and the
module stands between quotes at its end. -/
structure Statement (s : List Char) where
  before : List Char
  indent : List Char
  /-- What stands between the keyword and the module. -/
  clause : List Char
  opening : Char
  module : List Char
  closing : Char
  after : List Char
  stands : s = before ++
    (indent ++ ("export".toList ++ (clause ++ (opening :: (module ++ [closing]))))) ++ after
  newLine : ∀ c, before.getLast? = some c → c = '\n'
  padded : ∀ c ∈ indent, c = ' ' ∨ c = '\t'
  quoted : IsQuote opening ∧ IsQuote closing
  named : module ≠ [] ∧ ∀ c ∈ module, ¬ IsQuote c ∧ c ≠ '\n'

namespace Statement

variable {s : List Char}

/-- The text of a statement. -/
def text (st : Statement s) : List Char :=
  st.indent ++ ("export".toList ++ (st.clause ++ (st.opening :: (st.module ++ [st.closing]))))

/-- Where a statement starts. -/
def start (st : Statement s) : Nat := size st.before

/-- Where the keyword of a statement stands. -/
def keyword (st : Statement s) : Nat := st.start + size st.indent

/-- Where a statement ends. -/
def stop (st : Statement s) : Nat := st.start + size st.text

/-- A match finds a statement and its module. -/
structure FoundBy (st : Statement s) (m : Match) : Prop where
  span : m.span = ⟨st.start, st.stop⟩
  module : Comment.groupText s m "source" = st.module

theorem slice_eq (st : Statement s) : slice st.start st.stop s = st.text := by
  have hcuts : Cuts s ⟨st.start, st.stop⟩ st.text :=
    ⟨⟨st.before, st.after, st.stands.trans (List.append_assoc ..), rfl⟩, rfl⟩
  exact hcuts.slice_eq

/-- The leading blanks of a statement are its indentation. -/
theorem takeWhile_text (st : Statement s) : st.text.takeWhile isBlank = st.indent := by
  have hpads : ∀ c ∈ st.indent, isBlank c = true := by
    intro c hc
    rcases st.padded c hc with rfl | rfl <;> decide
  have hkeyword (rest : List Char) : ("export".toList ++ rest).takeWhile isBlank = [] :=
    List.takeWhile_cons_of_neg (by decide)
  rw [text, List.takeWhile_append_of_pos hpads, hkeyword, List.append_nil]

end Statement

/-- A clause that exports what is listed between braces. -/
def ListClause (clause names : List Char) : Prop :=
  ∃ d typed d' d'', Gap d ∧ (typed = [] ∨ ∃ e, Gap e ∧ typed = "type".toList ++ e) ∧
    '\x7d' ∉ names ∧ Blank d' ∧ Blank d'' ∧ clause = d ++ (typed ++ ("\x7b".toList ++
      (names ++ ("\x7d".toList ++ (d' ++ ("from".toList ++ d''))))))

/-- A clause that exports everything, perhaps under one name. -/
def StarClause (clause : List Char) (renamed : Option (List Char)) : Prop :=
  ∃ d naming d' d'', Gap d ∧ Gap d' ∧ Blank d'' ∧
    (match renamed with
      | none => naming = []
      | some name => name ≠ [] ∧
          ∃ e e', Gap e ∧ Gap e' ∧ naming = e ++ ("as".toList ++ (e' ++ name))) ∧
    clause = d ++ ("*".toList ++ (naming ++ (d' ++ ("from".toList ++ d''))))

section

variable {b : Option Char} {t r : List Char} {k : List (Capture Char)}

theorem isQuote_of_among {x : Char} (h : among "\"'" x = true) : IsQuote x := by
  simpa [among, IsQuote] using h

/-- The module at the end of a statement. -/
theorem takes_reexportSource (h : Takes reexportSource b t r k) :
    ∃ d opening module closing lead, t = d ++ (opening :: (module ++ [closing])) ∧ Blank d ∧
      (IsQuote opening ∧ IsQuote closing) ∧ (module ≠ [] ∧ ∀ x ∈ module, ¬ IsQuote x ∧ x ≠ '\n') ∧
      k = [⟨"source", lead, module⟩] := by
  obtain ⟨d, t₁, k₁, k₁', rfl, rfl, hgap, h₁⟩ := takes_inOrder h
  obtain ⟨u, t₂, k₂, k₂', rfl, rfl, hopening, h₂⟩ := takes_inOrder h₁
  obtain ⟨module, t₃, k₃, k₃', rfl, rfl, hmodule, hclosing⟩ := takes_inOrder h₂
  obtain ⟨hblank, rfl⟩ := takes_many hgap
  obtain ⟨k₄, rfl, hinner⟩ := takes_cap hmodule
  obtain ⟨hne, hall, rfl⟩ := takes_many1 hinner
  cases hopening with
  | @one _ _ opening _ ho =>
    cases hclosing with
    | @one _ _ closing _ hc =>
      refine ⟨d, opening, module, closing, _, rfl, hblank,
        ⟨isQuote_of_among ho, isQuote_of_among hc⟩, ⟨hne, ?_⟩, rfl⟩
      intro x hx
      simpa [IsQuote, noneOf, and_assoc] using hall x hx

/-- The beginning of a statement. -/
theorem takes_head {p : TextPattern} {ps : List TextPattern}
    (h : Takes (inOrder (lineStart :: many isPad :: kw "export" :: p :: ps)) b t r k) :
    (∀ x, b = some x → x = '\n') ∧
    ∃ indent d rest b' k', t = indent ++ ("export".toList ++ (d ++ rest)) ∧
      (∀ x ∈ indent, x = ' ' ∨ x = '\t') ∧ Gap d ∧ Takes (inOrder (p :: ps)) b' rest r k' ∧
      k = k'.map (Capture.behind (indent ++ ("export".toList ++ d))) := by
  obtain ⟨u, t₁, k₁, k₁', rfl, rfl, hline, h₁⟩ := takes_inOrder h
  obtain ⟨indent, t₂, k₂, k₂', rfl, rfl, hindent, h₂⟩ := takes_inOrder h₁
  obtain ⟨w, rest, k₃, k₃', rfl, rfl, hkeyword, h₃⟩ := takes_inOrder h₂
  obtain ⟨hpads, rfl⟩ := takes_many hindent
  obtain ⟨d, rfl, hd, rfl⟩ := takes_kw hkeyword
  cases hline with
  | edge hedge =>
    refine ⟨?_, indent, d, rest, _, _, by simp, ?_, hd, h₃, ?_⟩
    · rintro x rfl
      simpa using hedge
    · intro x hx
      simpa [isPad] using hpads x hx
    · simp [Capture.behind, Function.comp_def]

theorem takes_type (h : Takes (optKw "type") b t r k) :
    (t = [] ∨ ∃ e, Gap e ∧ t = "type".toList ++ e) ∧ k = [] := by
  rcases takes_opt h with hword | ⟨rfl, rfl⟩
  · obtain ⟨e, rfl, he, rfl⟩ := takes_kw hword
    exact ⟨.inr ⟨e, he, rfl⟩, rfl⟩
  · exact ⟨.inl rfl, rfl⟩

theorem takes_naming
    (h : Takes (opt (inOrder [gap1, kw "as", cap "alias" (many1 (wordOr "$"))])) b t r k) :
    t = [] ∧ k = [] ∨ ∃ e e' name lead, Gap e ∧ Gap e' ∧ name ≠ [] ∧
      t = e ++ ("as".toList ++ (e' ++ name)) ∧ k = [⟨"alias", lead, name⟩] := by
  rcases takes_opt h with hnaming | hnone
  · obtain ⟨e, t₁, k₁, k₁', rfl, rfl, he, h₁⟩ := takes_inOrder hnaming
    obtain ⟨w, name, k₂, k₂', rfl, rfl, hword, hname⟩ := takes_inOrder h₁
    obtain ⟨hne, hblank, rfl⟩ := takes_many1 he
    obtain ⟨e', rfl, he', rfl⟩ := takes_kw hword
    obtain ⟨k₃, rfl, hinner⟩ := takes_cap hname
    obtain ⟨hnonempty, -, rfl⟩ := takes_many1 hinner
    exact .inr ⟨e, e', name, _, ⟨hne, hblank⟩, he', hnonempty, by simp, rfl⟩
  · exact .inl hnone

end

variable {s : List Char}

/-- A match that ends in a module finds a statement. -/
theorem exists_statement {p : TextPattern} {m : Match} {a indent clause module rest : List Char}
    {opening closing : Char} {k : List (Capture Char)}
    (h : Taken p s m a.getLast? a
      (indent ++ ("export".toList ++ (clause ++ (opening :: (module ++ [closing]))))) rest k)
    (hline : ∀ c, a.getLast? = some c → c = '\n') (hindent : ∀ c ∈ indent, c = ' ' ∨ c = '\t')
    (hquoted : IsQuote opening ∧ IsQuote closing)
    (hnamed : module ≠ [] ∧ ∀ c ∈ module, ¬ IsQuote c ∧ c ≠ '\n')
    (hsource : ((k.find? fun x => "source" == x.label).map (·.text)).getD [] = module) :
    ∃ st : Statement s, st.FoundBy m ∧ st.clause = clause :=
  ⟨⟨a, indent, clause, opening, module, closing, rest, h.text.trans (List.append_assoc ..).symm,
    hline, hindent, hquoted, hnamed⟩, ⟨h.span, (h.groupText_eq "source").trans hsource⟩, rfl⟩

/-- A match of the list form is a statement that lists names. -/
theorem exists_listStatement {m : Match} (h : m ∈ listForm.findAll s) :
    ∃ st : Statement s, st.FoundBy m ∧ ListClause st.clause (Comment.groupText s m "names") := by
  obtain ⟨a, t, rest, k, htaken⟩ := exists_taken_of_mem_findAll h
  obtain ⟨hline, indent, d, t₀, b₀, k₀, rfl, hindent, hd, h₀, rfl⟩ := takes_head htaken.takes
  obtain ⟨typed, t₁, k₁, k₁', rfl, rfl, htyped, h₁⟩ := takes_inOrder h₀
  obtain ⟨w, t₂, k₂, k₂', rfl, rfl, hopen, h₂⟩ := takes_inOrder h₁
  obtain ⟨names, t₃, k₃, k₃', rfl, rfl, hnames, h₃⟩ := takes_inOrder h₂
  obtain ⟨w', t₄, k₄, k₄', rfl, rfl, hclose, h₄⟩ := takes_inOrder h₃
  obtain ⟨d', t₅, k₅, k₅', rfl, rfl, hd', h₅⟩ := takes_inOrder h₄
  obtain ⟨w'', t₆, k₆, k₆', rfl, rfl, hfrom, h₆⟩ := takes_inOrder h₅
  obtain ⟨htype, rfl⟩ := takes_type htyped
  obtain ⟨rfl, rfl⟩ := takes_lit hopen
  obtain ⟨k₇, rfl, hinner⟩ := takes_cap hnames
  obtain ⟨hnone, rfl⟩ := takes_many hinner
  obtain ⟨rfl, rfl⟩ := takes_lit hclose
  obtain ⟨hblank, rfl⟩ := takes_many hd'
  obtain ⟨rfl, rfl⟩ := takes_lit hfrom
  obtain ⟨d'', opening, module, closing, lead, rfl, hd'', hquoted, hnamed, rfl⟩ :=
    takes_reexportSource h₆
  have hbrace : '\x7d' ∉ names := by
    intro hmem
    exact absurd (hnone _ hmem) (by decide)
  have hgroup : Comment.groupText s m "names" = names := by
    rw [htaken.groupText_eq "names"]
    simp [Capture.behind]
  have htext : indent ++ ("export".toList ++ (d ++ (typed ++ ("\x7b".toList ++ (names ++
      ("\x7d".toList ++ (d' ++ ("from".toList ++ (d'' ++ (opening :: (module ++ [closing]))))))))))) =
      indent ++ ("export".toList ++ ((d ++ (typed ++ ("\x7b".toList ++ (names ++ ("\x7d".toList ++
        (d' ++ ("from".toList ++ d''))))))) ++ (opening :: (module ++ [closing])))) := by
    simp
  rw [htext] at htaken
  obtain ⟨st, hfound, hclause⟩ := exists_statement htaken hline hindent hquoted hnamed (by simp [Capture.behind])
  refine ⟨st, hfound, ?_⟩
  rw [hclause, hgroup]
  exact ⟨d, typed, d', d'', hd, htype, hbrace, hblank, hd'', rfl⟩

/-- A match of the star form is a statement that exports everything. -/
theorem exists_starStatement {m : Match} (h : m ∈ starForm.findAll s) :
    ∃ st : Statement s, st.FoundBy m ∧
      StarClause st.clause ((m.group? "alias").map fun sp => slice sp.start sp.stop s) := by
  obtain ⟨a, t, rest, k, htaken⟩ := exists_taken_of_mem_findAll h
  obtain ⟨hline, indent, d, t₀, b₀, k₀, rfl, hindent, hd, h₀, rfl⟩ := takes_head htaken.takes
  obtain ⟨w, t₁, k₁, k₁', rfl, rfl, hstar, h₁⟩ := takes_inOrder h₀
  obtain ⟨naming, t₂, k₂, k₂', rfl, rfl, hnaming, h₂⟩ := takes_inOrder h₁
  obtain ⟨d', t₃, k₃, k₃', rfl, rfl, hd', h₃⟩ := takes_inOrder h₂
  obtain ⟨w', t₄, k₄, k₄', rfl, rfl, hfrom, h₄⟩ := takes_inOrder h₃
  obtain ⟨rfl, rfl⟩ := takes_lit hstar
  obtain ⟨hne, hblank, rfl⟩ := takes_many1 hd'
  obtain ⟨rfl, rfl⟩ := takes_lit hfrom
  obtain ⟨d'', opening, module, closing, lead, rfl, hd'', hquoted, hnamed, rfl⟩ :=
    takes_reexportSource h₄
  have htext : indent ++ ("export".toList ++ (d ++ ("*".toList ++ (naming ++ (d' ++
      ("from".toList ++ (d'' ++ (opening :: (module ++ [closing]))))))))) =
      indent ++ ("export".toList ++ ((d ++ ("*".toList ++ (naming ++ (d' ++
        ("from".toList ++ d''))))) ++ (opening :: (module ++ [closing])))) := by
    simp
  rw [htext] at htaken
  have hgroup := htaken.map_group? "alias"
  obtain ⟨st, hfound, hclause⟩ := exists_statement htaken hline hindent hquoted hnamed (by simp [Capture.behind])
  refine ⟨st, hfound, ?_⟩
  rw [hclause, hgroup]
  rcases takes_naming hnaming with ⟨rfl, rfl⟩ | ⟨e, e', name, lead', he, he', hname, rfl, rfl⟩
  · exact ⟨d, [], d', d'', hd, ⟨hne, hblank⟩, hd'', rfl, rfl⟩
  · exact ⟨d, _, d', d'', hd, ⟨hne, hblank⟩, hd'', ⟨hname, e, e', he, he', rfl⟩, rfl⟩

end Export

/-! ## Entries of a list -/

namespace Text

/-- At the ends of a text stands nothing that `p` accepts. -/
def Bare (p : Char → Bool) (t : List Char) : Prop :=
  (∀ c, t.head? = some c → p c = false) ∧ ∀ c, t.getLast? = some c → p c = false

/-- Nothing is dropped where `p` accepts nothing. -/
theorem dropWhile_of_head {p : Char → Bool} {t : List Char}
    (h : ∀ c, t.head? = some c → p c = false) : t.dropWhile p = t := by
  cases t with
  | nil => rfl
  | cons c r => exact List.dropWhile_cons_of_neg (by simp [h c rfl])

/-- What is dropped at both ends of a text. -/
theorem dropEndWhile_dropWhile {p : Char → Bool} {lead x tail : List Char}
    (hlead : ∀ c ∈ lead, p c = true) (htail : ∀ c ∈ tail, p c = true) (hx : Bare p x) :
    dropEndWhile p ((lead ++ (x ++ tail)).dropWhile p) = x := by
  have htail' : ∀ c ∈ tail.reverse, p c = true := fun c hc => htail c (List.mem_reverse.1 hc)
  rw [List.dropWhile_append_of_pos hlead]
  cases x with
  | nil =>
    rw [List.nil_append, ← List.append_nil tail, List.dropWhile_append_of_pos htail]
    rfl
  | cons c r =>
    have hstart : (c :: r ++ tail).dropWhile p = c :: r ++ tail :=
      dropWhile_of_head fun d hd => hx.1 d hd
    have hend : (c :: r).reverse.dropWhile p = (c :: r).reverse :=
      dropWhile_of_head fun d hd => hx.2 d (by rwa [List.head?_reverse] at hd)
    rw [hstart, dropEndWhile, List.reverse_append, List.dropWhile_append_of_pos htail', hend,
      List.reverse_reverse]

/-- A text with no blanks at its ends. -/
abbrev Trimmed (t : List Char) : Prop := Bare isBlank t

theorem trim_eq {lead x tail : List Char} (hlead : Blank lead) (htail : Blank tail)
    (hx : Trimmed x) : trim (lead ++ (x ++ tail)) = x :=
  dropEndWhile_dropWhile hlead htail hx

theorem trim_append {d x : List Char} (hd : Blank d) (hx : Trimmed x) : trim (d ++ x) = x := by
  simpa using trim_eq hd (by simp [Blank] : Blank []) hx

theorem trim_of_trimmed {x : List Char} (hx : Trimmed x) : trim x = x :=
  trim_append (by simp [Blank] : Blank []) hx

/-- What trimming leaves has no blanks at its ends. -/
theorem trimmed_trim (s : List Char) : Trimmed (trim s) := by
  constructor
  · intro c hc
    obtain ⟨tail, htail⟩ := prefix_trimEnd (trimStart s)
    have hhead : (s.dropWhile isBlank).head? = some c := by
      change (trimStart s).head? = some c
      rw [← htail, List.head?_append]
      change (trimEnd (trimStart s)).head? = some c at hc
      rw [hc]
      rfl
    simpa [hhead] using List.head?_dropWhile_not isBlank s
  · intro c hc
    rw [trim, trimEnd, dropEndWhile, List.getLast?_reverse] at hc
    simpa [hc] using List.head?_dropWhile_not isBlank (trimStart s).reverse

/-- Trimming leaves nothing of blanks, and something of anything else. -/
theorem trim_eq_nil_iff {s : List Char} : trim s = [] ↔ Blank s := by
  constructor
  · intro h c hc
    have hrest : Blank (trimStart s) := by
      intro x hx
      rw [trim, trimEnd, dropEndWhile, List.reverse_eq_nil_iff, List.dropWhile_eq_nil_iff] at h
      exact h x (List.mem_reverse.2 hx)
    rw [← List.takeWhile_append_dropWhile (p := isBlank) (l := s)] at hc
    rcases List.mem_append.1 hc with hc | hc
    · exact List.mem_takeWhile_imp hc
    · exact hrest c hc
  · intro h
    have hnil : Trimmed [] := ⟨by simp, by simp⟩
    simpa using trim_append h hnil

theorem afterStart?_append (start rest : List Char) :
    afterStart? start (start ++ rest) = some rest := by
  induction start with
  | nil => cases rest <;> rfl
  | cons a r ih => simpa [afterStart?] using ih

theorem eq_append_of_afterStart? {start s rest : List Char} (h : afterStart? start s = some rest) :
    s = start ++ rest := by
  induction start generalizing s with
  | nil =>
    cases h
    rfl
  | cons a r ih =>
    cases s with
    | nil => cases h
    | cons c s =>
      rw [afterStart?] at h
      split at h
      · rename_i hac
        rw [hac, ih h, List.cons_append]
      · cases h

theorem startsWith_iff {t s : List Char} : startsWith t s = true ↔ t <+: s := by
  unfold startsWith
  rw [Option.isSome_iff_exists]
  constructor
  · rintro ⟨rest, h⟩
    exact ⟨rest, (eq_append_of_afterStart? h).symm⟩
  · rintro ⟨rest, rfl⟩
    exact ⟨rest, afterStart?_append t rest⟩

end Text

namespace Export

/-- A name: some characters, none of them blank. -/
def IsName (w : List Char) : Prop := w ≠ [] ∧ ∀ c ∈ w, isBlank c = false

instance (w : List Char) : Decidable (IsName w) :=
  @instDecidableAnd _ _ _ (List.decidableBAll (isBlank · = false) w)

/-- A name of the module, perhaps with another name; spaces stand next to `as`. -/
inductive Names : List Char → List Char → Prop
  | own {w : List Char} (hw : IsName w) : Names w w
  | renamed {own d d' w : List Char} (hown : IsName own) (hd : Blank d) (hd' : Blank d')
      (hw : IsName w) : Names (own ++ (d ++ (" as ".toList ++ (d' ++ w)))) w

/-- An entry of a list exports a name: blanks around it do not count, and neither does the word
`type` with a space behind it. -/
inductive Specifies : List Char → List Char → Prop
  | value {lead named tail name : List Char} (hlead : Blank lead) (htail : Blank tail)
      (hnamed : Names named name) (htype : ¬ "type ".toList <+: named) :
      Specifies (lead ++ (named ++ tail)) name
  | type {lead d named tail name : List Char} (hlead : Blank lead) (hd : Blank d)
      (htail : Blank tail) (hnamed : Names named name) :
      Specifies (lead ++ (("type ".toList ++ (d ++ named)) ++ tail)) name

theorem IsName.trimmed {w : List Char} (h : IsName w) : Trimmed w := by
  constructor
  · intro c hc
    exact h.2 c (List.mem_of_head? hc)
  · intro c hc
    exact h.2 c (List.mem_of_getLast? hc)

theorem Trimmed.append {t u : List Char} (ht : Trimmed t) (hu : Trimmed u) (hne : t ≠ [])
    (hne' : u ≠ []) (x : List Char) : Trimmed (t ++ (x ++ u)) := by
  constructor
  · intro c hc
    rw [List.head?_append_of_ne_nil _ hne] at hc
    exact ht.1 c hc
  · intro c hc
    rw [← List.append_assoc, List.getLast?_append_of_ne_nil _ hne'] at hc
    exact hu.2 c hc

theorem Names.trimmed {named name : List Char} (h : Names named name) :
    named ≠ [] ∧ Trimmed named := by
  cases h with
  | own hw => exact ⟨hw.1, hw.trimmed⟩
  | @renamed own d d' w hown hd hd' hw =>
    refine ⟨by simp [hown.1], ?_⟩
    have hends := Trimmed.append hown.trimmed hw.trimmed hown.1 hw.1 (d ++ (" as ".toList ++ d'))
    simpa using hends

theorem splitOnce?_cons {sep r : List Char} {c : Char} (h : afterStart? sep (c :: r) = none) :
    splitOnce? sep (c :: r) = (splitOnce? sep r).map fun p => (c :: p.1, p.2) := by
  rw [splitOnce?, h]

/-- A name is no place to split. -/
theorem splitOnce?_name {w : List Char} (hw : ∀ c ∈ w, isBlank c = false) (t : List Char) :
    splitOnce? " as ".toList (w ++ t) =
      (splitOnce? " as ".toList t).map fun p => (w ++ p.1, p.2) := by
  induction w with
  | nil => simp
  | cons c r ih =>
    have hc : ' ' ≠ c := by
      rintro rfl
      exact absurd (hw _ List.mem_cons_self) (by decide)
    have hnone : afterStart? " as ".toList (c :: (r ++ t)) = none := if_neg hc
    rw [List.cons_append, splitOnce?_cons hnone, ih fun x hx => hw x (List.mem_cons_of_mem _ hx),
      Option.map_map]
    rfl

/-- Blanks in front of ` as ` are no place to split: another blank follows each of them. -/
theorem splitOnce?_blank {d : List Char} (hd : Blank d) (rest : List Char) :
    splitOnce? " as ".toList (d ++ (" as ".toList ++ rest)) = some (d, rest) := by
  induction d with
  | nil =>
    have hfound : afterStart? " as ".toList (' ' :: 'a' :: 's' :: ' ' :: rest) = some rest :=
      afterStart?_append " as ".toList rest
    change splitOnce? " as ".toList (' ' :: 'a' :: 's' :: ' ' :: rest) = some ([], rest)
    rw [splitOnce?, hfound]
  | cons c r ih =>
    obtain ⟨x, t, ht, hx⟩ : ∃ x t, r ++ (" as ".toList ++ rest) = x :: t ∧ isBlank x = true := by
      cases r with
      | nil => exact ⟨' ', _, rfl, by decide⟩
      | cons y r => exact ⟨y, _, rfl, hd y (by simp)⟩
    have hnone : afterStart? " as ".toList (c :: (r ++ (" as ".toList ++ rest))) = none := by
      rw [ht]
      have ha : 'a' ≠ x := by
        rintro rfl
        exact absurd hx (by decide)
      by_cases hc : ' ' = c
      · exact (if_pos hc).trans (if_neg ha)
      · exact if_neg hc
    rw [List.cons_append, splitOnce?_cons hnone, ih fun y hy => hd y (List.mem_cons_of_mem _ hy)]
    rfl

/-- What is left of an entry without blanks and the word `type` is a name, or the part behind
` as ` is. -/
theorem specifierName?_eq {entry bare : List Char}
    (hbare : trim ((afterStart? "type ".toList (trim entry)).getD (trim entry)) = bare)
    (hne : bare ≠ []) : specifierName? entry =
      some (((splitOnce? " as ".toList bare).map fun p => trim p.2).getD bare) := by
  simp only [specifierName?, hbare]
  rw [if_neg (by simpa using hne)]
  cases splitOnce? " as ".toList bare <;> rfl

theorem Names.read {named name : List Char} (h : Names named name) :
    ((splitOnce? " as ".toList named).map fun p => trim p.2).getD named = name := by
  cases h with
  | own hw =>
    have hnone := splitOnce?_name hw.2 []
    rw [List.append_nil] at hnone
    rw [hnone]
    rfl
  | @renamed own d d' _ hown hd hd' hw =>
    rw [splitOnce?_name hown.2, splitOnce?_blank hd]
    exact trim_append hd' hw.trimmed

/-- **An entry is read as it is meant.** -/
theorem specifierName?_of_specifies {entry name : List Char} (h : Specifies entry name) :
    specifierName? entry = some name := by
  cases h with
  | @value lead named tail _ hlead htail hnamed htype =>
    obtain ⟨hne, htrimmed⟩ := hnamed.trimmed
    have hnone : afterStart? "type ".toList named = none := by
      cases hafter : afterStart? "type ".toList named with
      | none => rfl
      | some rest => exact absurd ⟨rest, (eq_append_of_afterStart? hafter).symm⟩ htype
    have hbare : trim ((afterStart? "type ".toList (trim (lead ++ (named ++ tail)))).getD
        (trim (lead ++ (named ++ tail)))) = named := by
      rw [trim_eq hlead htail htrimmed, hnone, Option.getD_none, trim_of_trimmed htrimmed]
    rw [specifierName?_eq hbare hne, hnamed.read]
  | @type lead d named tail _ hlead hd htail hnamed =>
    obtain ⟨hne, htrimmed⟩ := hnamed.trimmed
    have hwhole : Trimmed ("type ".toList ++ (d ++ named)) := by
      have hword : IsName "type".toList := by decide
      simpa using Trimmed.append hword.trimmed htrimmed hword.1 hne (' ' :: d)
    have hbare : trim ((afterStart? "type ".toList
        (trim (lead ++ (("type ".toList ++ (d ++ named)) ++ tail)))).getD
          (trim (lead ++ (("type ".toList ++ (d ++ named)) ++ tail)))) = named := by
      rw [trim_eq hlead htail hwhole, afterStart?_append, Option.getD_some, trim_append hd htrimmed]
    rw [specifierName?_eq hbare hne, hnamed.read]

-- a line break next to `as`, or a name that is `type` itself, keeps the new name from being seen
example : specifierName? "a as\n b".toList = some "a as\n b".toList ∧
    specifierName? "type as b".toList = some "as b".toList := by decide +kernel

/-- Every entry that is not blank exports a name. -/
theorem exists_specifierName? {entry : List Char} (h : ¬ Blank entry) :
    ∃ name, specifierName? entry = some name := by
  have hne : trim entry ≠ [] := fun hnil => h (trim_eq_nil_iff.1 hnil)
  have hbare : trim ((afterStart? "type ".toList (trim entry)).getD (trim entry)) ≠ [] := by
    cases hafter : afterStart? "type ".toList (trim entry) with
    | none =>
      rw [Option.getD_none, trim_of_trimmed (trimmed_trim entry)]
      exact hne
    | some rest =>
      -- the last character of the entry is not blank, and it stands behind the word
      intro hnil
      have hblank : Blank rest := trim_eq_nil_iff.1 hnil
      have hlast := (trimmed_trim entry).2
      rw [eq_append_of_afterStart? hafter] at hlast
      cases hend : rest.getLast? with
      | none =>
        rw [List.getLast?_eq_none_iff] at hend
        exact absurd (hlast ' ' (by rw [hend]; rfl)) (by decide)
      | some c =>
        have hc : isBlank c = false := hlast c (by rw [List.getLast?_append, hend]; rfl)
        rw [hblank c (List.mem_of_getLast? hend)] at hc
        cases hc
  exact ⟨_, specifierName?_eq rfl hbare⟩

end Export

end CodeSurvey
