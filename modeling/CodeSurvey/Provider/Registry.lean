import CodeSurvey.Provider.Basic
import CodeSurvey.Roster
/-!
# Provider registries

Providers in the order in which they are asked; the first that claims a file gets it.
-/
namespace CodeSurvey

/-- Providers in the order in which they are asked (`ParserRegistry`). -/
abbrev Providers := Roster Provider

namespace Providers

/-- Adds a provider (`register`); one of the same name is replaced in its place. -/
def register (ps : Providers) (p : Provider) : Providers := ps.put p.name p

/-- The first provider that claims a file (`detect_and_get_parser`). -/
def detect? (ps : Providers) (path : OsString) (content : Option (List Char)) : Option Provider :=
  ps.values.find? fun p => p.claims path content

/-- The language of a file (`detect_language`). -/
def language? (ps : Providers) (path : OsString) (content : Option (List Char)) : Option String :=
  (ps.detect? path content).map (·.language)

/-- The first provider of a language (`get`). -/
def ofLanguage? (ps : Providers) (language : String) : Option Provider :=
  ps.values.find? fun p => p.language == language

/-- The languages, each once (`supported_languages`). -/
def languages (ps : Providers) : List String := (ps.values.map (·.language)).eraseDups

/-- The extensions, each once (`supported_extensions`). -/
def extensions (ps : Providers) : List String :=
  (ps.values.flatMap (·.extensions)).eraseDups

/-! ## The built-in providers -/

open TextPattern in
/-- What only C++ headers hold. -/
def cppMarker : TextPattern :=
  let statement := anyOf [inOrder [lit "namespace", gap1, many1 Text.isWord],
    inOrder [lit "template", gap, lit "<"],
    inOrder [lit "class", gap1, many1 Text.isWord, many (noneOf ";"), lit "\x7b"],
    inOrder [oneOf ["public", "private", "protected"], gap, lit ":"],
    inOrder [lit "using", gap1, lit "namespace", wordEdge],
    inOrder [lit "#include", gap, lit "<", oneOf ["iostream", "string", "vector", "memory", "map"],
      lit ">"]]
  .alt (inOrder [lineStart, gap, statement]) (lit "std::")

/-- Whether a header is C++ rather than C (`looks_like_cpp`). -/
def hasCppMark (content : List Char) : Bool := (cppMarker.find? content).isSome

/-- A provider with a grammar (`TreeSitterProvider`). -/
def withGrammar (name language : String) (extensions interpreters : List String) :
    RuledProvider :=
  ⟨name, language, { extensions, interpreters }, true⟩

/-- A provider of a language that has a table only (`PatternProvider`). -/
def withTable (language : String) (rules : ClaimRules) : RuledProvider :=
  ⟨language, language, rules, false⟩

def builtinList : List RuledProvider :=
  [withGrammar "typescript" "typescript" ["ts", "mts", "cts"] [],
   withGrammar "tsx" "typescript" ["tsx"] [],
   withGrammar "javascript" "javascript" ["js", "jsx", "mjs", "cjs"] ["node"],
   withGrammar "python" "python" ["py", "pyi"] ["python"],
   withGrammar "go" "go" ["go"] [],
   withGrammar "java" "java" ["java"] [],
   withGrammar "rust" "rust" ["rs"] [],
   withTable "ruby" { extensions := ["rb", "rake", "gemspec"], interpreters := ["ruby"] },
   withTable "php" { extensions := ["php"], interpreters := ["php"] },
   withTable "csharp" { extensions := ["cs"] },
   withTable "kotlin" { extensions := ["kt", "kts"] },
   withTable "swift" { extensions := ["swift"] },
   withTable "scala" { extensions := ["scala", "sc"] },
   withTable "cpp"
     { extensions := ["cpp", "cc", "cxx", "hpp", "hh", "hxx"]
       ambiguous := ["h"]
       sniff := hasCppMark },
   withTable "c" { extensions := ["c", "h"] }]

/-- The registry of the built-in providers (`with_builtin`). -/
def builtin : Providers := (builtinList.map (·.toProvider)).foldl register Roster.empty

end Providers

end CodeSurvey
