import CodeSurvey.Language.Basic
/-!
# Scala
-/
namespace CodeSurvey.Language.Scala

open TextPattern

/-- The table of Scala (`scala`). -/
def table : Language where
  name := "scala"
  dependencies :=
    [{ pattern := inOrder [lineGap, kw "import",
          cap "source" (.seq (many1 (wordOr ".")) (opt (anyOf [
            inOrder [lit ".\x7b", many (noneOf "\x7d"), lit "\x7d"], lit "._", lit ".*"])))]
       kind := .imports
       isLocal := Locality.nothing }]
  exports :=
    [{ pattern := inOrder [lineStart, kws ["final", "sealed", "abstract", "case", "implicit"],
          oneOf ["class", "object"], gap1, nameWord]
       kind := .classType },
     { pattern := inOrder [lineStart, optKw "sealed", kw "trait", nameWord], kind := .type }]
  comment := slashComments
  functions := [inOrder [indentation,
    kws ["override", "private", "protected", "final", "implicit"], kw "def", nameWord, gap,
    opt (inOrder [lit "[", many (noneOf "]"), lit "]"]), gap, opt parameters]]
  classes := inOrder [margin,
    kws ["final", "sealed", "abstract", "case", "implicit", "private"],
    cap "kind" (oneOf ["class", "object", "trait"]), gap1, nameWord, heritageLine]
  blocks := .braces
  isLocal _ _ := false

end CodeSurvey.Language.Scala
