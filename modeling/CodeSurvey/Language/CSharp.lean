import CodeSurvey.Language.Basic
/-!
# C#
-/
namespace CodeSurvey.Language.CSharp

open TextPattern

def publicStart : TextPattern := .seq lineGap (kw "public")

/-- The table of C# (`csharp`). -/
def table : Language where
  name := "csharp"
  dependencies :=
    [{ pattern := inOrder [lineGap, optKw "global", kw "using", optKw "static",
          opt (inOrder [many1 Text.isWord, gap, lit "=", gap]),
          cap "source" (many1 (wordOr ".")), gap, lit ";"]
       kind := .uses
       isLocal := Locality.nothing }]
  exports :=
    [{ pattern := inOrder [publicStart,
          kws ["static", "sealed", "abstract", "partial", "readonly"],
          oneOf ["class", "record", "struct"], gap1, nameWord]
       kind := .classType },
     { pattern := inOrder [publicStart, optKw "partial", kw "interface", nameWord]
       kind := .type },
     { pattern := inOrder [publicStart, kw "enum", nameWord], kind := .enum }]
  comment := slashComments
  functions := [inOrder [indentation,
    kws ["public", "private", "protected", "internal", "static", "virtual", "override",
      "abstract", "sealed", "extern", "unsafe", "new"],
    opt (cap "async" (kw "async")), many1 (wordOr "<>[],.?"), gap1, capitalName, gap,
    typeParameters, gap, parameters, gap, anyOf [lit "\x7b", lit "=>", lineEnd]]]
  classes := inOrder [margin,
    kws ["public", "private", "protected", "internal", "static", "sealed", "abstract", "partial"],
    cap "kind" (oneOf ["class", "interface", "struct", "enum", "record"]), gap1, nameWord,
    heritageLine]
  blocks := .braces
  isLocal _ _ := false

end CodeSurvey.Language.CSharp
