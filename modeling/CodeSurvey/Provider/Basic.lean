import CodeSurvey.Path
import CodeSurvey.Pattern.Chars
import CodeSurvey.Syntax.Tree
/-!
# Syntax providers

A provider claims files by their extension, by the first bytes of a file whose extension is
ambiguous, or by the interpreter that the first line names, and turns their text into a tree.
-/
namespace CodeSurvey

open Text Syntax

/-! ## Claims -/

/-- Number of bytes that are looked at when an extension is ambiguous. -/
def leadingBytes : Nat := 4096

/-- The first bytes of a text (`leading`). -/
def leading (s : List Char) : List Char := takeBytes leadingBytes s

/-- The name of an interpreter without its version. -/
def interpreterName? (program : List Char) : Option String :=
  let name := program.takeWhile fun c => !c.isDigit && c != '.'
  if name.isEmpty then none else some (String.ofList name)

/-- The interpreter that a first line `#!…` names (`shebang_interpreter`). -/
def interpreter? (content : List Char) : Option String := do
  let first ← (lines content).head?
  let rest ← afterStart? ['#', '!'] first
  match words rest with
  | [] => none
  | command :: arguments =>
    let program := afterLast '/' command
    if program == "env".toList then
      interpreterName? (← arguments.find? fun a => !startsWith ['-'] a)
    else interpreterName? program

/-- Rules by which a provider claims files (`DetectionRules`). -/
structure ClaimRules where
  /-- Extensions that are claimed whatever the content. -/
  extensions : List String
  /-- Extensions that are claimed if `sniff` accepts the first bytes. -/
  ambiguous : List String := []
  sniff : List Char → Bool := fun _ => false
  /-- Interpreters that are claimed if the extension is not. -/
  interpreters : List String := []

/-- Whether the rules claim a file, of which the content may be unknown (`claims`). -/
def ClaimRules.claims (r : ClaimRules) (path : OsString) (content : Option (List Char)) : Bool :=
  let byInterpreter := (content.bind interpreter?).any r.interpreters.contains
  match ((Path.extension? path).bind OsString.text?).map fun e => e.map Char.toLower with
  | none => byInterpreter
  | some e =>
    if r.ambiguous.contains e then content.any fun c => r.sniff (leading c)
    else r.extensions.contains e || byInterpreter

/-! ## Parsing -/

/-- What a provider makes of a text (`ParseResult`). -/
structure Parsed where
  language : String
  tree : Option Tree
  errors : List String := []
  warnings : List String := []

/-- The trees that grammars give to texts, by the name of the provider. -/
abbrev Grammars := String → List Char → Option Concrete

/-- A provider: whatever claims files and parses them (`SyntaxProvider`). -/
structure Provider where
  name : String
  language : String
  /-- The extensions that it knows. -/
  extensions : List String
  /-- Whether it claims a file, of which the content may be unknown. -/
  claims : OsString → Option (List Char) → Bool
  /-- What it makes of a text, given the path and what grammars say. -/
  parse : Grammars → OsString → List Char → Parsed
  hasGrammar : Bool := false

/-- A provider that claims files by rules, and parses with a grammar or without. -/
structure RuledProvider where
  name : String
  language : String
  rules : ClaimRules
  hasGrammar : Bool := false

namespace RuledProvider

/-- Why a text with a NUL character is refused (`binary_content`). -/
def binaryMessage : String := "content contains NUL bytes and is not source text"

def syntaxWarning (path : OsString) : String :=
  path.display ++ " contains syntax errors; facts near them may be incomplete"

def grammarWarning : String :=
  "grammar parse failed (failed to parse source); using pattern extraction"

/-- Parses a text (`parse`). -/
def parse (p : RuledProvider) (grammars : Grammars) (path : OsString) (source : List Char) :
    Parsed :=
  if source.contains '\x00' then ⟨p.language, none, [binaryMessage], []⟩
  else if p.hasGrammar then
    match grammars p.name source with
    | some c => ⟨p.language, some (.ofConcrete source c), [],
        if c.hasError then [syntaxWarning path] else []⟩
    | none => ⟨p.language, some (.plain source), [], [grammarWarning]⟩
  else ⟨p.language, some (.plain source), [], []⟩

/-- The provider itself. -/
def toProvider (p : RuledProvider) : Provider :=
  { name := p.name
    language := p.language
    extensions := p.rules.extensions
    claims := p.rules.claims
    parse := p.parse
    hasGrammar := p.hasGrammar }

end RuledProvider

end CodeSurvey
