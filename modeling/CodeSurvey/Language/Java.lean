import CodeSurvey.Language.Basic
/-!
# Java
-/
namespace CodeSurvey.Language.Java

open TextPattern

def publicStart : TextPattern := .seq lineGap (kw "public")

/-- The table of Java (`java`). -/
def table : Language where
  name := "java"
  dependencies :=
    [{ pattern := inOrder [lineGap, kw "import", optKw "static",
          cap "source" (.seq (many1 (wordOr ".")) (opt (lit ".*"))), gap, lit ";"]
       kind := .imports
       isLocal := Locality.nothing }]
  exports :=
    [{ pattern := inOrder [publicStart, kws ["static", "final", "abstract", "sealed"],
          oneOf ["class", "record"], gap1, nameWord]
       kind := .classType },
     { pattern := inOrder [publicStart, kws ["static", "sealed", "abstract"], opt (lit "@"),
          kw "interface", nameWord]
       kind := .type },
     { pattern := inOrder [publicStart, optKw "static", kw "enum", nameWord], kind := .enum }]
  comment := slashComments
  functions := [inOrder [indentation,
    plus (.seq (oneOf ["public", "protected", "private", "static", "final", "abstract",
      "synchronized", "native", "default"]) gap1),
    opt (inOrder [lit "<", many1 (noneOf ">"), lit ">", gap1]), many1 (wordOr "<>[],.?"),
    opt (inOrder [gap, lit "<", many (noneOf ">"), lit ">"]), gap1, nameWord, gap, parameters]]
  classes := inOrder [margin,
    kws ["public", "protected", "private", "static", "final", "abstract", "sealed"],
    cap "kind" (oneOf ["class", "interface", "enum", "record"]), gap1, nameWord, heritageLine]
  blocks := .braces
  isLocal _ _ := false

end CodeSurvey.Language.Java
