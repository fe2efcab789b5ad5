import CodeSurvey.Language.Basic
/-!
# Rust
-/
namespace CodeSurvey.Language.Rust

open TextPattern

def visibility : TextPattern :=
  opt (inOrder [lit "pub", opt (inOrder [lit "(", many (noneOf ")"), lit ")"]), gap1])

def publicStart : TextPattern := .seq lineStart (kw "pub")

/-- The table of Rust (`rust`). -/
def table : Language where
  name := "rust"
  dependencies :=
    [{ pattern := inOrder [lineGap, visibility, kw "use", cap "source" (many1 (wordOr ":"))]
       kind := .uses
       isLocal := Locality.rooted },
     { pattern := inOrder [lineGap, visibility, kw "mod", cap "source" (many1 Text.isWord), gap,
          lit ";"]
       kind := .includes
       isLocal := Locality.everything },
     { pattern := inOrder [lineGap, kw "extern", kw "crate", cap "source" (many1 Text.isWord)]
       kind := .uses
       isLocal := Locality.nothing }]
  exports :=
    [{ pattern := inOrder [publicStart, optKw "async", optKw "const", optKw "unsafe", kw "fn",
          nameWord]
       kind := .function },
     { pattern := inOrder [publicStart, kw "struct", nameWord], kind := .classType },
     { pattern := inOrder [publicStart, kw "enum", nameWord], kind := .enum },
     { pattern := inOrder [publicStart, oneOf ["trait", "type"], gap1, nameWord], kind := .type },
     { pattern := inOrder [publicStart, oneOf ["const", "static"], gap1, nameWord]
       kind := .variable }]
  comment := slashComments
  functions := [inOrder [indentation, visibility, opt (cap "async" (kw "async")), optKw "const",
    optKw "unsafe", kw "fn", nameWord, gap, typeParameters, gap, parameters]]
  classes := inOrder [margin, visibility, cap "kind" (oneOf ["struct", "enum", "trait"]), gap1,
    nameWord]
  blocks := .braces
  isLocal source kind := kind = .includes || Locality.rooted source
  resolver := some ⟨.declared, [.append ".rs", .join "mod.rs"]⟩

end CodeSurvey.Language.Rust
