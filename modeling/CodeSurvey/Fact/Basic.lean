import CodeSurvey.Fact.Location
/-!
# Facts

What a survey reports about one source: its dependencies, exports, functions, classes, identifiers
and comments. The shapes do not depend on how a fact was found.
-/
namespace CodeSurvey

/-! ## Dependencies -/

/-- How a dependency is brought into a source. -/
inductive DependencyKind where
  | imports
  | requires
  | includes
  | uses
deriving Repr, DecidableEq

/-- The word of a kind (`as_str`). -/
def DependencyKind.word : DependencyKind → String
  | .imports => "import"
  | .requires => "require"
  | .includes => "include"
  | .uses => "use"

def DependencyKind.all : List DependencyKind := [.imports, .requires, .includes, .uses]

/-- A dependency as it stands in the source, on a line (`RawDependency`). -/
structure DependencySite where
  source : String
  kind : DependencyKind
  line : Nat
deriving Repr, DecidableEq

/-- A dependency with its locality and, if it was found, the path that it names
(`DependencyInfo`). -/
structure Dependency where
  source : String
  kind : DependencyKind
  isLocal : Bool
  line : Nat
  resolvedPath : Option String
deriving Repr, DecidableEq

/-! ## Exports -/

/-- What kind of symbol an export is (`ExportType`). -/
inductive ExportKind where
  | function
  | classType
  | variable
  | type
  | enum
  | classMethod
  | classProperty
  | reExport
deriving Repr, DecidableEq

def ExportKind.word : ExportKind → String
  | .function => "function"
  | .classType => "class"
  | .variable => "variable"
  | .type => "type"
  | .enum => "enum"
  | .classMethod => "class_method"
  | .classProperty => "class_property"
  | .reExport => "re_export"

def ExportKind.all : List ExportKind :=
  [.function, .classType, .variable, .type, .enum, .classMethod, .classProperty, .reExport]

/-- Whether such an export belongs to a class (`is_member`). -/
def ExportKind.isMember : ExportKind → Bool
  | .classMethod | .classProperty => true
  | _ => false

/-- An exported symbol or class member (`ExportMethodInfo`). -/
structure Export where
  name : String
  kind : ExportKind
  /-- Form of the declaration. -/
  declaration : String
  location : Location
  parentClass : Option String := none
  isStatic : Option Bool := none
  isAsync : Option Bool := none
  visibility : Option String := none
  parameters : Option (List String) := none
  returnType : Option String := none
  isDefault : Bool := false
  /-- Module from which a re-export comes. -/
  source : Option String := none
deriving Repr, DecidableEq

/-- Two exports with one key are the same export (`dedup_key`). -/
def Export.key (e : Export) : String × ExportKind × Option String := (e.name, e.kind, e.parentClass)

def Export.qualifiedName (e : Export) : String :=
  match e.parentClass with
  | some c => c ++ "." ++ e.name
  | none => e.name

/-- An exported class with its members (`ClassExportInfo`). -/
structure ClassExport where
  name : String
  location : Location
  isDefault : Bool
  methods : List Export
  properties : List Export
deriving Repr, DecidableEq

/-- The exports of a source, its classes with their members, and the default export. -/
structure ExportFacts where
  exports : List Export
  classes : List ClassExport
  defaultExport : Option String
deriving Repr, DecidableEq, Inhabited

/-! ## Functions and classes -/

/-- A function or method (`FunctionInfo`). -/
structure FunctionFact where
  name : String
  kind : String
  parent : Option String
  location : Location
  parameters : List String
  isAsync : Bool
  isExported : Bool
  lineCount : Nat
  complexity : Nat
deriving Repr, DecidableEq

/-- The name with the parent in front (`qualified_name`). -/
def FunctionFact.qualifiedName (f : FunctionFact) : String :=
  match f.parent with
  | some p => p ++ "." ++ f.name
  | none => f.name

def FunctionFact.isMethod (f : FunctionFact) : Bool := f.kind == "method"

/-- The word for a function with or without a parent. -/
def functionKind (parent : Option String) : String :=
  if parent.isSome then "method" else "function"

/-- What kind of type a class-like declaration declares. -/
inductive ClassKind where
  | classType
  | interface
  | struct
  | enum
  | trait
  | module
deriving Repr, DecidableEq

def ClassKind.word : ClassKind → String
  | .classType => "class"
  | .interface => "interface"
  | .struct => "struct"
  | .enum => "enum"
  | .trait => "trait"
  | .module => "module"

def ClassKind.all : List ClassKind := [.classType, .interface, .struct, .enum, .trait, .module]

/-- The kind that a declaration keyword stands for (`from_keyword`). -/
def ClassKind.ofKeyword : String → ClassKind
  | "interface" | "protocol" => .interface
  | "struct" | "record" => .struct
  | "enum" => .enum
  | "trait" => .trait
  | "module" | "object" | "namespace" => .module
  | _ => .classType

/-- A class-like declaration (`ClassInfo`). -/
structure ClassFact where
  name : String
  kind : ClassKind
  location : Location
  methods : List String := []
  properties : List String := []
  heritage : List String := []
  isExported : Bool := false
deriving Repr, DecidableEq

/-! ## Identifiers -/

/-- An identifier with the number of its occurrences and the line of the first
(`IdentifierInfo`). -/
structure IdentifierCount where
  name : String
  count : Nat
  firstLine : Nat
deriving Repr, DecidableEq

namespace IdentifierCount

/-- Counts one more occurrence; a new name goes to the end. -/
def add (tally : List IdentifierCount) (name : String) (line : Nat) : List IdentifierCount :=
  match tally with
  | [] => [⟨name, 1, line⟩]
  | t :: ts =>
    if t.name = name then { t with count := t.count + 1 } :: ts else t :: add ts name line

/-- Occurrences counted by name, in the order of the first occurrences (`tally_identifiers`). -/
def tally (occurrences : List (String × Nat)) : List IdentifierCount :=
  occurrences.foldl (fun t o => add t o.1 o.2) []

end IdentifierCount

/-! ## Comments -/

/-- The form of a comment. -/
inductive CommentKind where
  | line
  | block
  | doc
deriving Repr, DecidableEq

def CommentKind.word : CommentKind → String
  | .line => "line"
  | .block => "block"
  | .doc => "doc"

def CommentKind.all : List CommentKind := [.line, .block, .doc]

/-- A comment without its delimiters, and the line on which it starts (`CommentInfo`). -/
structure Comment where
  text : String
  line : Nat
  kind : CommentKind
deriving Repr, DecidableEq

/-- A marker such as TODO in a comment (`TodoInfo`). -/
structure Todo where
  marker : String
  text : String
  line : Nat
deriving Repr, DecidableEq

/-- An annotation `@key: value, value` in a comment. -/
structure Annotation where
  key : String
  values : List String
  line : Nat
deriving Repr, DecidableEq

/-- The comments of a source with what they carry. -/
structure CommentFacts where
  comments : List Comment
  todos : List Todo
  annotations : List Annotation
deriving Repr, DecidableEq, Inhabited

end CodeSurvey
