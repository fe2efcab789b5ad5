import CodeSurvey.Pattern.Chars
import CodeSurvey.Resolver
/-!
# Language tables

What is known about a language without a grammar: patterns for its dependencies, exports, comments,
functions and classes, which dependencies are local, and how local ones are resolved.
-/
namespace CodeSurvey

/-- How a captured text splits into sources (`SourceSplit`). -/
inductive SourceForm where
  /-- It is one source. -/
  | whole
  /-- Sources stand between commas, each followed by an optional alias. -/
  | commas
  /-- Sources stand between double quotes. -/
  | quoted
deriving Repr, DecidableEq

/-- A form of dependency (`DependencyPattern`): its pattern has a group `source`. -/
structure DependencyRule where
  pattern : TextPattern
  kind : DependencyKind
  isLocal : String → Bool
  split : SourceForm := .whole

/-- A form of export (`ExportPattern`): its pattern has a group `name`. -/
structure ExportRule where
  pattern : TextPattern
  kind : ExportKind
  isDefault : Bool := false
  /-- Accepts a match by its name and its whole text. -/
  accept : String → List Char → Bool := fun _ _ => true

/-- How the extent of a body is found (`BlockStyle`). -/
inductive BodyStyle where
  | braces
  | indent
deriving Repr, DecidableEq

/-- The table of a language (`LanguageConfig`). -/
structure Language where
  name : String
  dependencies : List DependencyRule
  exports : List ExportRule
  /-- Matches every form of comment. -/
  comment : TextPattern
  /-- Patterns with groups `name` and `params`, and perhaps `indent`, `async` and `receiver`. -/
  functions : List TextPattern
  /-- A pattern with groups `name` and `kind`, and perhaps `indent` and `heritage`. -/
  classes : TextPattern
  blocks : BodyStyle
  /-- Locality of dependencies that a grammar finds. -/
  isLocal : String → DependencyKind → Bool
  resolver : Option Resolver := none
  /-- Whether re-exports are added from the text. -/
  reexports : Bool := false

/-- The path of a local dependency, if the language resolves it. -/
def Language.resolve (l : Language) (fs : FileSystem) (file : OsString) (source : String)
    (kind : DependencyKind) : Option String :=
  l.resolver.bind fun r => r.resolve fs file source kind

/-! ## Locality -/

namespace Locality

/-- A source that starts with a dot (`starts_with_dot`). -/
def dotted (source : String) : Bool := source.toList.head? == some '.'

/-- A source that starts with a dot or a slash (`starts_relative`). -/
def relative (source : String) : Bool :=
  source.toList.head? == some '.' || source.toList.head? == some '/'

/-- Every source (`always`). -/
def everything (_ : String) : Bool := true

/-- No source (`never`). -/
def nothing (_ : String) : Bool := false

/-- A source below one of the roots `crate`, `self` and `super` (`rust_use_is_local`). -/
def rooted (source : String) : Bool :=
  ["crate", "self", "super"].any fun root =>
    source == root || Text.startsWith (root ++ "::").toList source.toList

/-- A source that is neither absolute nor a URL (`php_include_is_local`). -/
def relativeFile (source : String) : Bool :=
  source.toList.head? != some '/' && !Text.holds "://".toList source.toList

end Locality

/-! ## Shared patterns -/

namespace Language

open TextPattern

def lineComment (start : String) : TextPattern := .seq (lit start) (many (noneOf "\n"))

/-- A block comment from slash and star to the next star and slash. -/
def blockComment : TextPattern := inOrder [lit "/*", few fun _ => true, lit "*/"]

/-- Line comments after two slashes, and block comments. -/
def slashComments : TextPattern := anyOf [lineComment "//", blockComment]

def margin : TextPattern := .seq lineStart (many Text.isPad)

/-- Blanks that keep the line, at its start, remembered as the indentation. -/
def indentation : TextPattern := .seq lineStart (cap "indent" (many Text.isPad))

/-- Any blanks after the start of a line. -/
def lineGap : TextPattern := .seq lineStart gap

def nameWord : TextPattern := cap "name" (many1 Text.isWord)

/-- A captured name that starts with an ASCII capital. -/
def capitalName : TextPattern := cap "name" (.seq (.one Char.isUpper) (many Text.isWord))

def parameters : TextPattern := inOrder [lit "(", cap "params" (many (noneOf ")")), lit ")"]

/-- Type parameters in angle brackets, if there are any. -/
def typeParameters : TextPattern := opt (inOrder [lit "<", many (noneOf ">"), lit ">"])

/-- What follows a class name on its line, captured as the heritage. -/
def heritageLine : TextPattern := cap "heritage" (many (noneOf "\x7b\n"))

/-- A quoted source without quotes or newlines in it. -/
def quotedSource : TextPattern :=
  inOrder [.one (among "\"'"), cap "source" (many1 (noneOf "\"'\n")), .one (among "\"'")]

end Language

end CodeSurvey
