import CodeSurvey.Language.Basic
/-!
# C and C++

Both share their patterns for includes and functions and differ in their type declarations.
-/
namespace CodeSurvey.Language.CFamily

open TextPattern

def isFirst (c : Char) : Bool := c.isAlpha || c == '_'

def isJoint (c : Char) : Bool := Text.isPad c || c == '*' || c == '&'

def includeStart : TextPattern := inOrder [lineGap, lit "#", gap, lit "include", gap]

/-- Words that look like function names in front of a parenthesis (`is_control_keyword`). -/
def controlWords : List String :=
  ["if", "else", "for", "while", "switch", "return", "do", "case", "sizeof", "catch"]

/-- Whether a function match is visible outside its file (`c_function_is_exported`). -/
def isVisible (name : String) (whole : List Char) : Bool :=
  !controlWords.contains name && !Text.startsWith "static".toList (Text.trimStart whole)

def bodyParameters (inner : TextPattern) : TextPattern :=
  inOrder [gap, lit "(", inner, lit ")", gap, opt (.seq (lit "const") gap)]

def isParameter : Char → Bool := noneOf ";\x7b)"

def exportedFunction : TextPattern :=
  inOrder [lineStart, .one isFirst,
    few fun c => Text.isWord c || isJoint c || among ":<>," c,
    many1 isJoint, cap "name" (.seq (.one isFirst) (many (wordOr ":"))),
    bodyParameters (many isParameter), lit "\x7b"]

/-- A word of the type in front of a function name, with its stars and ampersands. -/
def typeWord : TextPattern := .seq (.one isFirst) (many (wordOr ":<>,*&"))

/-- The words of a type, and the joint between the type and the name after it. -/
def typeWords : TextPattern :=
  inOrder [typeWord, .loop (inOrder [.one Text.isPad, many isJoint, typeWord]), many isJoint,
    .edge fun before _ => before.any isJoint]

def function : TextPattern :=
  inOrder [indentation, typeWords,
    cap "name" (.seq (.one isFirst) (many (wordOr ":~"))),
    bodyParameters (cap "params" (many isParameter)), opt (.seq (lit "override") gap), lit "\x7b"]

/-- The table of a language of this family (`c_family`). -/
def table (language : String) (classes exportedType : TextPattern) : Language where
  name := language
  dependencies :=
    [{ pattern := inOrder [includeStart, lit "\"", cap "source" (many1 (noneOf "\"")), lit "\""]
       kind := .includes
       isLocal := Locality.everything },
     { pattern := inOrder [includeStart, lit "<", cap "source" (many1 (noneOf ">")), lit ">"]
       kind := .includes
       isLocal := Locality.nothing }]
  exports :=
    [{ pattern := exportedFunction, kind := .function, accept := isVisible },
     { pattern := exportedType, kind := .classType }]
  comment := slashComments
  functions := [function]
  classes := classes
  blocks := .braces
  isLocal _ kind := kind = .includes
  resolver := some ⟨.asWritten, [.asIs]⟩

/-- Template parameters in front of a declaration, if there are any. -/
def template : TextPattern :=
  opt (inOrder [lit "template", gap, lit "<", many (noneOf ">"), lit ">", gap])

def cpp : Language := table "cpp"
  (inOrder [margin, template, cap "kind" (oneOf ["class", "struct", "enum", "namespace"]),
    opt (.seq gap1 (lit "class")), gap1, nameWord, cap "heritage" (many (noneOf ";\x7b\n")),
    lit "\x7b"])
  (inOrder [lineStart, template, oneOf ["class", "struct"], gap1, nameWord,
    many (noneOf ";\x7b\n"), lit "\x7b"])

def c : Language := table "c"
  (inOrder [margin, optKw "typedef", cap "kind" (oneOf ["struct", "enum", "union"]), gap1,
    nameWord, gap, lit "\x7b"])
  (inOrder [lineStart, optKw "typedef", kw "struct", nameWord, gap, lit "\x7b"])

end CodeSurvey.Language.CFamily
