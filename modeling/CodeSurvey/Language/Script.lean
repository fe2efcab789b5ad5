import CodeSurvey.Language.Basic
/-!
# TypeScript and JavaScript

Both share their patterns and differ in the files that a relative import may name.
-/
namespace CodeSurvey.Language.Script

open TextPattern

/-- A character of a name: a word character or a dollar sign. -/
def isName : Char → Bool := wordOr "$"

def name : TextPattern := cap "name" (many1 isName)

def exportStart : TextPattern := .seq lineGap (kw "export")

def defaultStart : TextPattern := .seq exportStart (kw "default")

def functionWord : TextPattern := inOrder [lit "function", gap, opt (lit "*"), gap]

def annotation : TextPattern := opt (.seq (lit ":") (many1 (noneOf "=\n")))

def asyncWord : TextPattern := opt (cap "async" (kw "async"))

/-- Import statements, re-exports, and calls of `import` and `require`. -/
def dependencies : List DependencyRule :=
  let imported (c : Char) : Bool := isName c || Text.isBlank c || among "*\x7b\x7d," c
  let call (word : String) : TextPattern :=
    inOrder [wordEdge, lit word, gap, lit "(", gap, quotedSource, gap, lit ")"]
  [{ pattern := inOrder [lineGap, kw "import", optKw "type",
        opt (inOrder [few1 imported, gap1, kw "from"]), quotedSource]
     kind := .imports
     isLocal := Locality.relative },
   { pattern := inOrder [exportStart, optKw "type",
        anyOf [.seq (lit "*") (opt (inOrder [gap1, kw "as", many1 isName])),
          inOrder [lit "\x7b", many (noneOf "\x7d"), lit "\x7d"]],
        gap, kw "from", quotedSource]
     kind := .imports
     isLocal := Locality.relative },
   { pattern := call "import", kind := .imports, isLocal := Locality.relative },
   { pattern := call "require", kind := .requires, isLocal := Locality.relative }]

def exports : List ExportRule :=
  [{ pattern := inOrder [defaultStart, optKw "async", functionWord, name]
     kind := .function
     isDefault := true },
   { pattern := inOrder [defaultStart, optKw "abstract", kw "class", name]
     kind := .classType
     isDefault := true },
   { pattern := inOrder [defaultStart,
        cap "name" (.seq (.one fun c => c.isAlpha || c == '_' || c == '$') (many isName)),
        gap, opt (lit ";"), gap, lineEnd]
     kind := .variable
     isDefault := true },
   { pattern := inOrder [exportStart, optKw "declare", optKw "async", functionWord, name]
     kind := .function },
   { pattern := inOrder [exportStart, optKw "declare", optKw "abstract", kw "class", name]
     kind := .classType },
   { pattern := inOrder [exportStart, optKw "declare", oneOf ["const", "let", "var"], gap1, name]
     kind := .variable },
   { pattern := inOrder [exportStart, optKw "declare", oneOf ["interface", "type"], gap1, name]
     kind := .type },
   { pattern := inOrder [exportStart, optKw "declare", optKw "const", kw "enum", name]
     kind := .enum }]

def functions : List TextPattern :=
  [inOrder [indentation, optKw "export", optKw "default", asyncWord, functionWord, name, gap,
      typeParameters, gap, parameters],
   inOrder [indentation, optKw "export", oneOf ["const", "let", "var"], gap1, name, gap,
      annotation, lit "=", gap, asyncWord, parameters, gap, annotation, lit "=>"]]

def classes : TextPattern :=
  inOrder [margin, optKw "export", optKw "default", optKw "declare", optKw "abstract",
    cap "kind" (oneOf ["class", "interface", "enum"]), gap1, name, heritageLine]

/-- The table of a language of this family (`js_family`). -/
def table (language : String) (candidates : List Candidate) : Language where
  name := language
  dependencies := dependencies
  exports := exports
  comment := slashComments
  functions := functions
  classes := classes
  blocks := .braces
  isLocal source _ := Locality.relative source
  resolver := some ⟨.asWritten, candidates⟩
  reexports := true

def typescript : Language := table "typescript"
  [.asIsWithExtension, .replace ".js" ".ts", .replace ".js" ".tsx", .append ".ts",
    .join "index.ts", .append ".tsx", .join "index.tsx", .append ".d.ts"]

def javascript : Language := table "javascript"
  [.asIsWithExtension, .append ".js", .join "index.js", .append ".jsx", .append ".mjs",
    .append ".cjs", .replace ".js" ".ts", .append ".ts", .join "index.ts"]

end CodeSurvey.Language.Script
