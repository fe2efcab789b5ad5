import CodeSurvey.Language.Basic
/-!
# Kotlin
-/
namespace CodeSurvey.Language.Kotlin

open TextPattern

/-- The keyword of a function with type parameters and a receiver, and its name. -/
def functionName : TextPattern :=
  inOrder [kw "fun", opt (inOrder [lit "<", many (noneOf ">"), lit ">", gap]),
    opt (.seq (many1 (wordOr ".")) (lit ".")), nameWord]

/-- The table of Kotlin (`kotlin`). -/
def table : Language where
  name := "kotlin"
  dependencies :=
    [{ pattern := inOrder [lineGap, kw "import",
          cap "source" (.seq (many1 (wordOr ".")) (opt (lit ".*")))]
       kind := .imports
       isLocal := Locality.nothing }]
  exports :=
    [{ pattern := inOrder [lineStart,
          kws ["public", "internal", "open", "data", "sealed", "abstract", "inline", "value",
            "annotation"],
          oneOf ["class", "object"], gap1, nameWord]
       kind := .classType },
     { pattern := inOrder [lineStart, kws ["public", "internal", "sealed", "fun"],
          kw "interface", nameWord]
       kind := .type },
     { pattern := inOrder [lineStart, opt (.seq (oneOf ["public", "internal"]) gap1), kw "enum",
          kw "class", nameWord]
       kind := .enum },
     { pattern := inOrder [lineStart,
          kws ["public", "internal", "inline", "suspend", "operator", "infix"], functionName]
       kind := .function }]
  comment := slashComments
  functions := [inOrder [indentation,
    kws ["public", "private", "internal", "protected", "open", "override", "inline", "operator",
      "infix", "tailrec"],
    opt (cap "async" (kw "suspend")), functionName, gap, parameters]]
  classes := inOrder [margin,
    kws ["public", "private", "internal", "protected", "open", "data", "sealed", "abstract",
      "enum", "inner", "value", "annotation"],
    cap "kind" (oneOf ["class", "interface", "object"]), gap1, nameWord, heritageLine]
  blocks := .braces
  isLocal _ _ := false

end CodeSurvey.Language.Kotlin
