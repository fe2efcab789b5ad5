import CodeSurvey.Engine.Walk
import CodeSurvey.Proofs.Lines
import CodeSurvey.Proofs.Pipeline
import Mathlib.Data.List.Find
import Mathlib.Data.List.TakeWhile
/-!
# Which provider gets a file

The providers are asked in order, and each of them looks at the extension and at the first line by
itself. So a file goes to the first provider that interprets it among those that are asked before
the owner of its extension, and to the owner if there is none (`detect?_of_unambiguous`): an
interpreter line takes a file away from the owner of its extension, but only to a provider that is
asked earlier. Whether some built-in provider claims a file depends on its extension and on the
interpreter that its first line names (`isSome_detect?_iff`), and the interpreter is read in the first
line alone, up to a carriage return at its end (`interpreter?_append`).
-/
namespace CodeSurvey

open Text

/-! ## Interpreter lines -/

theorem words_append_blank {c : Char} (hc : isBlank c = true) (s : List Char) :
    words (s ++ [c]) = words s := by
  simp [words, FileSystem.splitBy_append hc, splitBy]

/-- The interpreter that a line names. -/
def interpreterOf? (line : List Char) : Option String := do
  let rest ← afterStart? ['#', '!'] line
  match words rest with
  | [] => none
  | command :: arguments =>
    let program := afterLast '/' command
    if program == "env".toList then
      interpreterName? (← arguments.find? fun a => !startsWith ['-'] a)
    else interpreterName? program

theorem interpreter?_eq (content : List Char) :
    interpreter? content = (lines content).head?.bind interpreterOf? := rfl

/-- A carriage return at the end of a line is a blank behind its words. -/
theorem interpreterOf?_return (line : List Char) :
    interpreterOf? (line ++ ['\r']) = interpreterOf? line := by
  have hstart : afterStart? ['#', '!'] (line ++ ['\r']) =
      (afterStart? ['#', '!'] line).map (· ++ ['\r']) := by
    match line with
    | [] => rfl
    | [a] => simp [afterStart?]
    | a :: b :: r =>
      simp only [List.cons_append, afterStart?]
      split
      · split <;> rfl
      · rfl
  have hwords (rest : List Char) : words (rest ++ ['\r']) = words rest :=
    words_append_blank (by decide) rest
  unfold interpreterOf?
  rw [hstart]
  cases afterStart? ['#', '!'] line with
  | none => rfl
  | some rest => simp only [Option.map_some, Option.bind_eq_bind, Option.bind_some, hwords]

theorem interpreterOf?_dropReturn (line : List Char) :
    interpreterOf? (dropReturn line) = interpreterOf? line := by
  rcases dropReturn_cases line with ⟨h, -⟩ | h
  · rw [h]
  · conv_rhs => rw [h, interpreterOf?_return]

/-- What can follow the text of a first line: nothing, the rest of a cut line end, or a line end. -/
inductive EndsLine : List Char → Prop
  | empty : EndsLine []
  | cut : EndsLine ['\r']
  | newline (rest : List Char) : EndsLine ('\n' :: rest)
  | returnNewline (rest : List Char) : EndsLine ('\r' :: '\n' :: rest)

/-- The interpreter is read in the first line alone. -/
theorem interpreter?_append {line tail : List Char} (hline : '\n' ∉ line) (h : EndsLine tail) :
    interpreter? (line ++ tail) = interpreterOf? line := by
  have hreturn : '\n' ∉ line ++ ['\r'] := by simpa using hline
  rw [interpreter?_eq]
  cases h with
  | empty =>
    rcases eq_or_ne line [] with rfl | hne
    · rfl
    · rw [List.append_nil, lines_of_not_mem hline hne]
      rfl
  | cut =>
    rw [lines_of_not_mem hreturn (by simp)]
    exact interpreterOf?_return line
  | newline rest =>
    rw [lines_append hline]
    exact interpreterOf?_dropReturn line
  | returnNewline rest =>
    have hsplit : line ++ '\r' :: '\n' :: rest = (line ++ ['\r']) ++ '\n' :: rest := by simp
    rw [hsplit, lines_append hreturn]
    exact (interpreterOf?_dropReturn _).trans (interpreterOf?_return line)

/-! ## Asking in order -/

/-- The extension of a path in lower case; one that is not UTF-8 is none. -/
def Path.lowerExtension? (path : OsString) : Option String :=
  ((extension? path).bind OsString.text?).map fun e => e.map Char.toLower

namespace RuledProvider

/-- Whether the first line of a text names an interpreter of a provider. -/
def interprets (p : RuledProvider) (content : List Char) : Bool :=
  (interpreter? content).any p.rules.interpreters.contains

theorem claims_of_unambiguous {p : RuledProvider} {path : OsString}
    (h : ∀ e ∈ Path.lowerExtension? path, e ∉ p.rules.ambiguous) (content : Option (List Char)) :
    p.toProvider.claims path content =
      ((Path.lowerExtension? path).any p.rules.extensions.contains || content.any p.interprets) := by
  have hcontent : (content.bind interpreter?).any p.rules.interpreters.contains =
      content.any p.interprets := by
    cases content <;> rfl
  unfold Path.lowerExtension? at h ⊢
  simp only [toProvider, ClaimRules.claims]
  cases hext : ((Path.extension? path).bind OsString.text?).map fun e => e.map Char.toLower with
  | none => simp [hcontent]
  | some e =>
    have he : e ∉ p.rules.ambiguous := h e hext
    simp [he, hcontent]

end RuledProvider

/-- The first element with one of two properties is the first one with the second in front of the
first one with the first, or that one. -/
theorem find?_or {α : Type} (a b : α → Bool) (l : List α) :
    l.find? (fun x => a x || b x) = ((l.takeWhile fun x => !a x).find? b).or (l.find? a) := by
  induction l with
  | nil => rfl
  | cons x l ih => cases ha : a x <;> cases hb : b x <;> simp [ha, hb, ih]

namespace Providers

/-- The first provider that claims an extension whatever the content. -/
def owner? (ps : List RuledProvider) (ext : String) : Option RuledProvider :=
  ps.find? fun p => p.rules.extensions.contains ext

/-- The providers that are asked before the owner of an extension. -/
def askedBefore (ps : List RuledProvider) (ext : String) : List RuledProvider :=
  ps.takeWhile fun p => !p.rules.extensions.contains ext

/-- Each provider that is asked before the owner stands in front of it. -/
theorem rel_of_askedBefore {ps : List RuledProvider} {ext : String} {owner p : RuledProvider}
    {R : RuledProvider → RuledProvider → Prop} (hR : ps.Pairwise R) (ho : owner? ps ext = some owner)
    (hp : p ∈ askedBefore ps ext) : R p owner := by
  have hsplit := List.takeWhile_append_dropWhile
    (p := fun p : RuledProvider => !p.rules.extensions.contains ext) (l := ps)
  rw [← hsplit, List.pairwise_append] at hR
  apply hR.2.2 p hp
  -- the owner itself is not passed over
  have hmem : owner ∈ ps := List.mem_of_find?_eq_some ho
  have hext : ext ∈ owner.rules.extensions := by simpa using List.find?_some ho
  rw [← hsplit] at hmem
  rcases List.mem_append.1 hmem with hmem | hmem
  · have := List.mem_takeWhile_imp hmem
    simp [hext] at this
  · exact hmem

/-- A file goes to the owner of its extension unless a provider that is asked before interprets it. -/
theorem detect?_of_unambiguous {path : OsString} {ext : String}
    (hext : Path.lowerExtension? path = some ext) (h : ∀ p ∈ builtinList, ext ∉ p.rules.ambiguous)
    (content : Option (List Char)) : builtin.detect? path content =
      (((askedBefore builtinList ext).find? fun p => content.any p.interprets).or
        (owner? builtinList ext)).map (·.toProvider) := by
  unfold detect? askedBefore owner?
  rw [← find?_or, values_builtin, List.find?_map]
  congr 1
  apply List.find?_congr
  intro p hp
  rw [Function.comp_apply, RuledProvider.claims_of_unambiguous (by simpa [hext] using h p hp), hext]
  rfl

/-! ## The built-in providers -/

theorem mem_extensions {ext : String} :
    ext ∈ builtin.extensions ↔ (owner? builtinList ext).isSome = true := by
  rw [extensions, values_builtin]
  simp [owner?, List.find?_isSome, RuledProvider.toProvider]

theorem ambiguous_builtin : ∀ p ∈ builtinList, ∀ e ∈ p.rules.ambiguous, e = "h" := by decide

/-- A provider with interpreters shares its language with no provider that is asked later. -/
theorem language_builtin : builtinList.Pairwise fun p q =>
    p.rules.interpreters ≠ [] → p.language ≠ q.language := by decide

/-- Some built-in provider claims a file if its extension is known or its first line names a known
interpreter. -/
theorem isSome_detect?_iff (path : OsString) (content : Option (List Char)) :
    (builtin.detect? path content).isSome = true ↔
      (∃ e ∈ Path.lowerExtension? path, e ∈ builtin.extensions) ∨
      ∃ i ∈ content.bind interpreter?, ∃ p ∈ builtinList, i ∈ p.rules.interpreters := by
  have hbyName {e : String} : e ∈ builtin.extensions ↔ ∃ p ∈ builtinList, e ∈ p.rules.extensions := by
    rw [mem_extensions, owner?, List.find?_isSome]
    simp
  have hasked : (builtin.detect? path content).isSome = true ↔
      ∃ p ∈ builtinList, p.toProvider.claims path content = true := by
    rw [detect?, values_builtin, List.find?_map, Option.isSome_map, List.find?_isSome]
    rfl
  rw [hasked]
  by_cases hh : Path.lowerExtension? path = some "h"
  · -- headers go to C if C++ does not take them
    have hc : ∃ p ∈ builtinList, "h" ∈ p.rules.extensions ∧ "h" ∉ p.rules.ambiguous := by decide
    obtain ⟨p, hp, hext, hamb⟩ := hc
    refine iff_of_true ⟨p, hp, ?_⟩ (.inl ⟨"h", hh, hbyName.2 ⟨p, hp, hext⟩⟩)
    rw [RuledProvider.claims_of_unambiguous (by simpa [hh] using hamb), hh]
    simp [hext]
  · have hclaims (p : RuledProvider) (hp : p ∈ builtinList) := RuledProvider.claims_of_unambiguous
      (fun e he hamb => hh (he.trans (congrArg some (ambiguous_builtin p hp e hamb)))) content
    constructor
    · rintro ⟨p, hp, hclaim⟩
      rw [hclaims p hp, Bool.or_eq_true, Option.any_eq_true, Option.any_eq_true] at hclaim
      rcases hclaim with ⟨e, he, hext⟩ | ⟨text, rfl, hint⟩
      · exact .inl ⟨e, he, hbyName.2 ⟨p, hp, by simpa using hext⟩⟩
      · obtain ⟨i, hi, hmem⟩ := (Option.any_eq_true _ _).1 hint
        exact .inr ⟨i, hi, p, hp, by simpa using hmem⟩
    · rintro (⟨e, he, hext⟩ | ⟨i, hi, p, hp, hmem⟩)
      · obtain ⟨p, hp, hext⟩ := hbyName.1 hext
        refine ⟨p, hp, ?_⟩
        rw [hclaims p hp, he]
        simp [hext]
      · refine ⟨p, hp, ?_⟩
        obtain ⟨text, rfl, hname⟩ := Option.bind_eq_some_iff.1 hi
        rw [hclaims p hp, Option.any_some, RuledProvider.interprets, hname]
        simp [hmem]

end Providers

/-! ## A known extension -/

/-- A survey is in the language of the provider that parsed the text. -/
theorem Tools.language_parse (t : Tools) (w : Surroundings) (path : OsString) (c : SettledConfig)
    (p : RuledProvider) (source : List Char) :
    (t.parse w path c p.toProvider source).survey.language = p.language := by
  unfold Tools.parse
  dsimp only
  split <;> exact p.language_parse w.grammars path source

namespace Providers

/-- What the owner of a file's extension decides about the file. -/
structure OwnedBy (path : OsString) (ext : String) (owner : RuledProvider) : Prop where
  owns : owner? builtinList ext = some owner
  /-- By its name alone the file is the owner's. -/
  unread : builtin.language? path none = some owner.language
  /-- With its content it goes to a provider that interprets it and is asked before, if there is one. -/
  read : ∀ content, builtin.detect? path (some content) =
    some (((askedBefore builtinList ext).find? (·.interprets content)).getD owner).toProvider
  /-- The content changes the language if there is one. -/
  same : ∀ content, builtin.language? path (some content) = builtin.language? path none ↔
    ∀ p ∈ askedBefore builtinList ext, p.interprets content = false
  /-- A walk finds the file whatever it holds. -/
  found : ∀ relative bytes, Found.isClaimed builtin ⟨path, relative, bytes⟩ = true
  /-- The survey of a file that cannot be read is in the owner's language. -/
  unreadable : ∀ (t : Tools) (w : Surroundings) (c : SettledConfig) (e : IoError),
    t.providers = builtin → (t.passOn w path c (.error e)).survey.language = owner.language
  /-- The survey of one that can be read is so under the same condition. -/
  analyzed : ∀ (t : Tools) (w : Surroundings) (c : SettledConfig) (source : List Char),
    t.providers = builtin → ((t.passOn w path c (.ok source)).survey.language = owner.language ↔
      ∀ p ∈ askedBefore builtinList ext, p.interprets source = false)

/-- A known extension other than the ambiguous one decides the language, as long as no provider that
is asked before its owner has the interpreter that the first line names. -/
theorem known_extension_decides (path : OsString) (ext : String)
    (hext : Path.lowerExtension? path = some ext) (hknown : ext ∈ builtin.extensions)
    (hh : ext ≠ "h") : ∃ owner, OwnedBy path ext owner := by
  obtain ⟨owner, howner⟩ := Option.isSome_iff_exists.1 (mem_extensions.1 hknown)
  have hplain : ∀ p ∈ builtinList, ext ∉ p.rules.ambiguous :=
    fun p hp hamb => hh (ambiguous_builtin p hp ext hamb)
  have hdetect := detect?_of_unambiguous hext hplain
  have hunread : builtin.detect? path none = some owner.toProvider := by
    rw [hdetect, howner, List.find?_eq_none.2 (by simp), Option.none_or, Option.map_some]
  have hread (content : List Char) : builtin.detect? path (some content) =
      some (((askedBefore builtinList ext).find? (·.interprets content)).getD owner).toProvider := by
    rw [hdetect, howner]
    change (((askedBefore builtinList ext).find? (·.interprets content)).or _).map _ = _
    cases (askedBefore builtinList ext).find? (·.interprets content) <;> rfl
  have hlanguage (content : List Char) :
      (((askedBefore builtinList ext).find? (·.interprets content)).getD owner).language =
        owner.language ↔ ∀ p ∈ askedBefore builtinList ext, p.interprets content = false := by
    cases hfind : (askedBefore builtinList ext).find? (·.interprets content) with
    | none => simpa using hfind
    | some p =>
      -- a provider that interprets the text has interpreters, and so a language of its own
      have hp := List.mem_of_find?_eq_some hfind
      have hint : p.interprets content = true := by simpa using List.find?_some hfind
      have hne : p.rules.interpreters ≠ [] := by
        intro hnil
        obtain ⟨i, -, hi⟩ := (Option.any_eq_true _ _).1 hint
        simp [hnil] at hi
      have hlang := rel_of_askedBefore language_builtin howner hp hne
      exact iff_of_false hlang fun hall => by simp [hall p hp] at hint
  refine ⟨owner, howner, ?_, hread, ?_, ?_, ?_, ?_⟩
  · rw [language?, hunread]
    rfl
  · intro content
    rw [language?, language?, hunread, hread, Option.map_some, Option.map_some, Option.some.injEq]
    exact hlanguage content
  · intro relative bytes
    simp [Found.isClaimed, hunread]
  · intro t w c e ht
    change t.languageOf path = _
    rw [Tools.languageOf, ht, language?, hunread]
    rfl
  · intro t w c source ht
    have hpass : t.passOn w path c (.ok source) = t.parse w path c
        (((askedBefore builtinList ext).find? (·.interprets source)).getD owner).toProvider source := by
      simp only [Tools.passOn, ht, hread]
    rw [hpass, Tools.language_parse]
    exact hlanguage source

theorem known_extension_decides_ruby : Path.lowerExtension? "bin/Tool.RB" = some "rb" ∧
    "rb" ∈ builtin.extensions ∧ ∃ owner, OwnedBy "bin/Tool.RB" "rb" owner :=
  ⟨by decide +kernel, by decide +kernel,
    known_extension_decides "bin/Tool.RB" "rb" (by decide +kernel) (by decide +kernel) (by decide)⟩

/-- A script for another interpreter is not the file of its extension's owner. -/
theorem interpreter_overrides_extension : builtin.language? "a.rb" none = some "ruby" ∧
    builtin.language? "a.rb" (some "#!/usr/bin/env node\n".toList) = some "javascript" := by
  decide +kernel

end Providers

end CodeSurvey
