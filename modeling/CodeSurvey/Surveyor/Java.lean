import CodeSurvey.Surveyor.Basic
/-!
# Java trees

Public top-level types are exported with their members other than private ones.
-/
namespace CodeSurvey.Surveyor.Java

open Syntax Text

def typeKinds : List String :=
  ["class_declaration", "interface_declaration", "enum_declaration", "record_declaration",
    "annotation_type_declaration"]

def isMethod (n : Node) : Bool :=
  n.kind == "method_declaration" || n.kind == "constructor_declaration"

def isField (n : Node) : Bool :=
  n.kind == "field_declaration" || n.kind == "constant_declaration"

/-- The modifiers of a declaration (`modifiers`); annotations do not count. -/
def modifiers (t : Tree) (n : Node) : List String :=
  match n.namedChildren.find? fun c => c.kind == "modifiers" with
  | none => []
  | some list =>
    (list.children.filter fun m => !holds "annotation".toList m.kind.toList).map t.text

/-- The visibility that modifiers give (`visibility`); members of interfaces are public. -/
def visibility (modifiers : List String) (inInterface : Bool) : String :=
  if modifiers.contains "public" || inInterface then "public"
  else if modifiers.contains "protected" then "protected"
  else if modifiers.contains "private" then "private"
  else "package"

/-- The members of a body, those after the constants of an enumeration included (`body_members`). -/
def bodyItems (body : Node) : List Node :=
  body.namedChildren.flatMap fun m =>
    if m.kind == "enum_body_declarations" then m.namedChildren else [m]

/-- The names that a field declaration declares (`field_names`). -/
def declaredNames (t : Tree) (field : Node) : List String :=
  (field.childrenIn "declarator").filterMap fun d => t.textAt? d "name"

/-! ## Dependencies -/

def import? (t : Tree) (n : Node) : Option DependencySite := do
  if n.kind != "import_declaration" then none
  let path ← n.firstNamed?
  return ⟨t.text path ++ (if n.hasChildOf "asterisk" then ".*" else ""), .imports, t.line n⟩

/-! ## Exports -/

/-- The kind of export that a type declaration is (`export_type_of`). -/
def exportKind (kind : String) : ExportKind :=
  match kind with
  | "interface_declaration" | "annotation_type_declaration" => .type
  | "enum_declaration" => .enum
  | _ => .classType

/-- The exports of a member of a type. -/
def memberExports (t : Tree) (typeName : String) (inInterface : Bool) (m : Node) : List Export :=
  let words := modifiers t m
  let access := visibility words inInterface
  let isStatic := words.contains "static"
  if access == "private" then []
  else if isMethod m then
    ((t.textAt? m "name").map fun name =>
      { name := name
        kind := .classMethod
        declaration := m.kind
        location := t.location m
        parentClass := some typeName
        isStatic := some isStatic
        visibility := some access
        parameters := t.declaredParameters m
        returnType := t.textAt? m "type" }).toList
  else if isField m then
    (declaredNames t m).map fun name =>
      { name := name
        kind := .classProperty
        declaration := m.kind
        location := t.location m
        parentClass := some typeName
        isStatic := some (isStatic || inInterface)
        visibility := some access }
  else []

/-- The exports of a type and its members. -/
def typeExports (t : Tree) (n : Node) : List Export :=
  match t.textAt? n "name" with
  | none => []
  | some name =>
    { name := name, kind := exportKind n.kind, declaration := n.kind, location := t.location n } ::
      (n.child? "body").elim [] fun body =>
        (bodyItems body).flatMap (memberExports t name (n.kind == "interface_declaration"))

/-- The export rules (`PublicTypeProcessor`): public types. -/
def exportSteps : List ExportStep :=
  [⟨fun t n => typeKinds.contains n.kind && (modifiers t n).contains "public",
    typeExports⟩]

def exports (t : Tree) : List Export := topLevelExports exportSteps t

/-! ## Functions and classes -/

def functionSite? (t : Tree) (s : Node.Site) : Option FunctionNode :=
  if isMethod s.node then
    (t.textAt? s.node "name").map fun name =>
      .of s.node name ((s.ancestor? typeKinds).bind fun n => t.textAt? n "name")
  else none

def heritageClauses : List String := ["superclass", "super_interfaces", "extends_interfaces"]

/-- The types in the heritage clauses of a declaration (`heritage`). -/
def heritage (t : Tree) (n : Node) : List String :=
  let passes (m : Node) : Bool := m.kind == "type_list" || heritageClauses.contains m.kind
  (n.namedChildren.filter fun c => heritageClauses.contains c.kind).flatMap fun clause =>
    (((clause.sites passes []).map (·.node)).filter fun m => !passes m && m.named).map t.text

def classKind (kind : String) : ClassKind :=
  match kind with
  | "interface_declaration" | "annotation_type_declaration" => .interface
  | "enum_declaration" => .enum
  | "record_declaration" => .struct
  | _ => .classType

/-- The properties that a member declares. -/
def memberProperties (t : Tree) (m : Node) : List String :=
  if isField m then declaredNames t m
  else if m.kind == "enum_constant" then (t.textAt? m "name").toList
  else []

def class? (t : Tree) (n : Node) : Option ClassFact := do
  if !typeKinds.contains n.kind then none
  let name ← t.textAt? n "name"
  let members := (n.child? "body").elim [] bodyItems
  return {
    name := name
    kind := classKind n.kind
    location := t.location n
    methods := (members.filter isMethod).filterMap fun m => t.textAt? m "name"
    properties := members.flatMap (memberProperties t)
    heritage := heritage t n
    isExported := (modifiers t n).contains "public" }

def branches : List Branch :=
  [.node "if_statement", .node "for_statement", .node "enhanced_for_statement",
    .node "while_statement", .node "do_statement", .node "switch_expression",
    .node "switch_block_statement_group", .node "catch_clause", .node "ternary_expression",
    .operation "binary_expression" "&&", .operation "binary_expression" "||"]

/-- The surveyor of Java (`JavaAnalyzer`). -/
def surveyor : Surveyor where
  language := "java"
  dependencies t := t.topLevel.filterMap (import? t)
  exports := exports
  functions t := measureAll t branches (exports t) (t.sites.filterMap (functionSite? t))
  classes t := t.sites.filterMap fun s => class? t s.node
  identifierKinds := ["identifier", "type_identifier"]
  comments t := t.comments ["line_comment", "block_comment"]
  branches := branches

end CodeSurvey.Surveyor.Java
