import CodeSurvey.Language.Basic
/-!
# Ruby
-/
namespace CodeSurvey.Language.Ruby

open TextPattern

def constantName : TextPattern := cap "name" (.seq (.one Char.isUpper) (many (wordOr ":")))

/-- A captured name of a method, perhaps of the enclosing module itself. -/
def methodName : TextPattern :=
  .seq (opt (lit "self.")) (cap "name" (.seq (many1 Text.isWord) (opt (.one (among "?!=")))))

def argument : TextPattern := inOrder [gap, opt (lit "("), gap, quotedSource]

/-- The table of Ruby (`ruby`). -/
def table : Language where
  name := "ruby"
  dependencies :=
    [{ pattern := inOrder [lineGap, lit "require_relative", argument]
       kind := .requires
       isLocal := Locality.everything },
     { pattern := inOrder [lineGap, oneOf ["require", "load"], argument]
       kind := .requires
       isLocal := Locality.dotted }]
  exports :=
    [{ pattern := inOrder [lineStart, oneOf ["class", "module"], gap1, constantName]
       kind := .classType },
     { pattern := inOrder [lineStart, kw "def", methodName], kind := .function }]
  comment := anyOf [lineComment "#",
    inOrder [lineStart, lit "=begin", few fun _ => true, lineStart, lit "=end"]]
  functions := [inOrder [indentation, kw "def", methodName, opt (.seq gap parameters)]]
  classes := inOrder [indentation, cap "kind" (oneOf ["class", "module"]), gap1, constantName,
    opt (inOrder [gap, lit "<", gap, cap "heritage" (many1 (wordOr ":"))])]
  blocks := .indent
  isLocal source _ := Locality.dotted source
  resolver := some ⟨.asWritten, [.append ".rb", .asIs]⟩

end CodeSurvey.Language.Ruby
