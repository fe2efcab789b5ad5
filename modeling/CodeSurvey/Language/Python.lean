import CodeSurvey.Language.Basic
/-!
# Python
-/
namespace CodeSurvey.Language.Python

open TextPattern

def moduleName : TextPattern :=
  .seq (many1 (wordOr ".")) (opt (inOrder [gap1, kw "as", many1 Text.isWord]))

def publicName : TextPattern := cap "name" (.seq (.one Char.isAlpha) (many Text.isWord))

/-- The table of Python (`python`). -/
def table : Language where
  name := "python"
  dependencies :=
    [{ pattern := inOrder [margin, kw "import",
          cap "source" (.seq moduleName (.loop (inOrder [gap, lit ",", gap, moduleName])))]
       kind := .imports
       isLocal := Locality.dotted
       split := .commas },
     { pattern := inOrder [margin, kw "from",
          cap "source" (.seq (many (· == '.')) (many (wordOr "."))), gap1, lit "import", wordEdge]
       kind := .imports
       isLocal := Locality.dotted }]
  exports :=
    [{ pattern := inOrder [lineStart, optKw "async", kw "def", publicName], kind := .function },
     { pattern := inOrder [lineStart, kw "class", publicName], kind := .classType },
     { pattern := inOrder [lineStart,
          cap "name" (.seq (.one Char.isUpper)
            (many fun c => c.isUpper || c.isDigit || c == '_')),
          gap, opt (.seq (lit ":") (many1 (noneOf "=\n"))), lit "=", .one (noneOf "=")]
       kind := .variable }]
  comment := lineComment "#"
  functions := [inOrder [indentation, opt (cap "async" (kw "async")), kw "def", nameWord, gap,
    parameters]]
  classes := inOrder [indentation, cap "kind" (lit "class"), gap1, nameWord, gap,
    opt (inOrder [lit "(", cap "heritage" (many (noneOf ")")), lit ")"])]
  blocks := .indent
  isLocal source _ := Locality.dotted source
  resolver := some ⟨.dotted, [.append ".py", .join "__init__.py"]⟩

end CodeSurvey.Language.Python
