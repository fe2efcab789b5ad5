import CodeSurvey.Language.Basic
/-!
# PHP
-/
namespace CodeSurvey.Language.Php

open TextPattern

/-- The table of PHP (`php`). -/
def table : Language where
  name := "php"
  dependencies :=
    [{ pattern := inOrder [wordEdge, oneOf ["require", "include"], opt (lit "_once"), gap,
          opt (lit "("), gap, quotedSource]
       kind := .includes
       isLocal := Locality.relativeFile },
     { pattern := inOrder [lineGap, kw "use", opt (anyOf [kw "function", kw "const"]),
          cap "source" (many1 (wordOr "\\"))]
       kind := .uses
       isLocal := Locality.nothing }]
  exports :=
    [{ pattern := inOrder [lineGap, kws ["abstract", "final", "readonly"], kw "class", nameWord]
       kind := .classType },
     { pattern := inOrder [lineGap, oneOf ["interface", "trait"], gap1, nameWord], kind := .type },
     { pattern := inOrder [lineGap, kw "enum", nameWord], kind := .enum },
     { pattern := inOrder [lineStart, kw "function", nameWord], kind := .function }]
  comment := anyOf [lineComment "//", lineComment "#", blockComment]
  functions := [inOrder [indentation,
    kws ["public", "protected", "private", "static", "abstract", "final"], kw "function",
    nameWord, gap, parameters]]
  classes := inOrder [margin, kws ["abstract", "final", "readonly"],
    cap "kind" (oneOf ["class", "interface", "trait", "enum"]), gap1, nameWord, heritageLine]
  blocks := .braces
  isLocal source kind := kind = .includes && Locality.relativeFile source
  resolver := some ⟨.asWritten, [.asIs]⟩

end CodeSurvey.Language.Php
