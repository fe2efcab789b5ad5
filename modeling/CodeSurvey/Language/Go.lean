import CodeSurvey.Language.Basic
/-!
# Go
-/
namespace CodeSurvey.Language.Go

open TextPattern

/-- The table of Go (`go`). -/
def table : Language where
  name := "go"
  dependencies :=
    [{ pattern := inOrder [lineGap, kw "import", opt (.seq (many1 (wordOr ".")) gap1), lit "\"",
          cap "source" (many1 (noneOf "\"")), lit "\""]
       kind := .imports
       isLocal := Locality.dotted },
     { pattern := inOrder [lineGap, lit "import", gap, lit "(", cap "source" (many (noneOf ")")),
          lit ")"]
       kind := .imports
       isLocal := Locality.dotted
       split := .quoted }]
  exports :=
    [{ pattern := inOrder [lineStart, kw "func",
          opt (inOrder [lit "(", many (noneOf ")"), lit ")", gap]), capitalName]
       kind := .function },
     { pattern := inOrder [lineStart, kw "type", capitalName, gap1, lit "struct", wordEdge]
       kind := .classType },
     { pattern := inOrder [lineStart, kw "type", capitalName, gap1, lit "interface", wordEdge]
       kind := .type },
     { pattern := inOrder [lineStart, oneOf ["const", "var"], gap1, capitalName]
       kind := .variable }]
  comment := slashComments
  functions := [inOrder [lineStart, cap "indent" .empty, kw "func",
    opt (inOrder [lit "(", cap "receiver" (many (noneOf ")")), lit ")", gap]), nameWord, gap,
    opt (inOrder [lit "[", many (noneOf "]"), lit "]"]), parameters]]
  classes := inOrder [lineStart, kw "type", nameWord, gap1,
    cap "kind" (oneOf ["struct", "interface"]), wordEdge]
  blocks := .braces
  isLocal source _ := Locality.dotted source
  resolver := some ⟨.asWritten, [.directory]⟩

end CodeSurvey.Language.Go
