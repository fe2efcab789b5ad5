import CodeSurvey.Language.Basic
/-!
# Swift
-/
namespace CodeSurvey.Language.Swift

open TextPattern

/-- The keyword of a declaration that other modules see, and the blanks after it. -/
def openWord : TextPattern := .seq (oneOf ["public", "open"]) gap1

/-- The table of Swift (`swift`). -/
def table : Language where
  name := "swift"
  dependencies :=
    [{ pattern := inOrder [lineGap, optKw "@testable", kw "import",
          opt (.seq (oneOf ["class", "struct", "enum", "protocol", "func", "var", "let",
            "typealias"]) gap1),
          cap "source" (many1 (wordOr "."))]
       kind := .imports
       isLocal := Locality.nothing }]
  exports :=
    [{ pattern := inOrder [lineGap, openWord, optKw "final", oneOf ["class", "struct", "actor"],
          gap1, nameWord]
       kind := .classType },
     { pattern := inOrder [lineGap, openWord, kw "protocol", nameWord], kind := .type },
     { pattern := inOrder [lineGap, openWord, kw "enum", nameWord], kind := .enum },
     { pattern := inOrder [lineStart, openWord, kw "func", nameWord], kind := .function }]
  comment := slashComments
  functions := [inOrder [indentation,
    .loop (.seq (anyOf [oneOf ["public", "private", "internal", "fileprivate", "open", "static",
      "class", "override", "mutating", "final"], .seq (lit "@") (many1 Text.isWord)]) gap1),
    kw "func", nameWord, gap, typeParameters, gap, parameters]]
  classes := inOrder [margin,
    kws ["public", "private", "internal", "fileprivate", "open", "final"],
    cap "kind" (oneOf ["class", "struct", "enum", "protocol", "actor", "extension"]), gap1,
    nameWord, heritageLine]
  blocks := .braces
  isLocal _ _ := false

end CodeSurvey.Language.Swift
