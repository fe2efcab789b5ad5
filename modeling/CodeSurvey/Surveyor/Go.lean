import CodeSurvey.Surveyor.Basic
/-!
# Go trees

A name is exported if it starts with a capital letter. Methods belong to the type of their receiver.
-/
namespace CodeSurvey.Surveyor.Go

open Syntax Text

/-- Whether a name is exported (`is_exported`). -/
def isVisible (name : String) : Bool := name.toList.head?.any isCapital

/-- The dependencies of a tree in the order of the text (`extract_imports`). -/
def dependencies (t : Tree) : List DependencySite :=
  let specs := (t.sites.map (·.node)).filter fun n => n.kind == "import_spec"
  let paths := specs.flatMap fun n => (n.childrenIn "path").filter (·.named)
  (paths.mergeSort fun a b => a.start ≤ b.start).map fun n => ⟨t.unquoted n, .imports, t.line n⟩

/-- The type name of the receiver of a method (`receiver_type`). -/
def receiver? (t : Tree) (method : Node) : Option String :=
  (method.child? "receiver").bind fun r =>
    ((r.allSites.map (·.node)).find? fun n => n.kind == "type_identifier").map t.text

/-! ## Struct and interface bodies -/

/-- The field list of a struct type (`field_list`). -/
def structFields? (structType : Node) : Option Node :=
  structType.namedChildren.find? fun c => c.kind == "field_declaration_list"

/-- The named fields of a field list with their declarations (`named_fields`). -/
def fieldsOf (t : Tree) (list : Node) : List (Node × String) :=
  (list.namedChildren.filter fun d => d.kind == "field_declaration").flatMap fun d =>
    (d.childrenIn "name").map fun n => (d, t.text n)

/-- The types that are embedded in a body (`embedded_types`). -/
def embeddedNames (t : Tree) (body : Node) : List String :=
  body.namedChildren.filterMap fun m =>
    match m.kind with
    | "field_declaration" =>
      if (m.child? "name").isNone then
        (m.child? "type").map fun ty => String.ofList ((t.chars ty).dropWhile (· == '*'))
      else none
    | "type_elem" | "constraint_elem" => some (t.text m)
    | _ => none

/-! ## Exports -/

/-- The export of a function (`function_export`). -/
def exportFunction (t : Tree) (n : Node) (name : String) : Export :=
  { name := name
    kind := .function
    declaration := n.kind
    location := t.location n
    parameters := t.declaredParameters n
    returnType := t.textAt? n "result" }

/-- The exports of a method (`MethodProcessor`). -/
def methodExports (t : Tree) (n : Node) : List Export :=
  match t.textAt? n "name", receiver? t n with
  | some name, some receiver =>
    [{ exportFunction t n name with
       kind := .classMethod
       parentClass := some receiver
       isStatic := some false
       visibility := some "public" }]
  | _, _ => []

/-- The exports of a type specification (`TypeProcessor`): the type and the exported fields of a
struct. -/
def specExports (t : Tree) (spec : Node) : List Export :=
  match (t.textAt? spec "name").filter isVisible with
  | none => []
  | some name =>
    let struct := (spec.child? "type").filter fun b => b.kind == "struct_type"
    let fields := ((struct.bind structFields?).elim [] (fieldsOf t)).filter fun f =>
      isVisible f.2
    { name := name
      kind := if struct.isSome then .classType else .type
      declaration := spec.kind
      location := t.location spec } ::
      fields.map fun (field, fieldName) =>
        { name := fieldName
          kind := .classProperty
          declaration := "field_declaration"
          location := t.location field
          parentClass := some name
          isStatic := some false
          visibility := some "public" }

/-- The exports of a constant or variable declaration (`ValueProcessor`). -/
def valueExports (t : Tree) (n : Node) : List Export :=
  let keyword := if n.kind == "const_declaration" then "const" else "var"
  (n.outermost ["const_spec", "var_spec"]).flatMap fun spec =>
    (((spec.childrenIn "name").map t.text).filter isVisible).map fun name =>
      { name := name, kind := .variable, declaration := keyword, location := t.location spec }

/-- The export rules: functions, methods, types, and values. -/
def exportSteps : List ExportStep :=
  [⟨fun t n => n.kind == "function_declaration" && (t.textAt? n "name").any isVisible,
      fun t n => ((t.textAt? n "name").map (exportFunction t n)).toList⟩,
   ⟨fun t n => n.kind == "method_declaration" && (t.textAt? n "name").any isVisible &&
      (receiver? t n).any isVisible, methodExports⟩,
   ⟨fun _ n => n.kind == "type_declaration", fun t n =>
      (n.namedChildren.filter fun s => s.kind == "type_spec" || s.kind == "type_alias").flatMap
        (specExports t)⟩,
   ⟨fun _ n => n.kind == "const_declaration" || n.kind == "var_declaration", valueExports⟩]

def exports (t : Tree) : List Export := topLevelExports exportSteps t

/-! ## Functions and classes -/

def functionSite? (t : Tree) (n : Node) : Option FunctionNode :=
  (t.textAt? n "name").bind fun name =>
    match n.kind with
    | "function_declaration" => some (.of n name none)
    | "method_declaration" => some (.of n name (receiver? t n))
    | _ => none

/-- The struct or interface that a type specification declares. -/
def class? (t : Tree) (n : Node) : Option ClassFact := do
  if n.kind != "type_spec" then none
  let name ← t.textAt? n "name"
  let body ← n.child? "type"
  match body.kind with
  | "struct_type" =>
    let list := structFields? body
    return { name := name
             kind := .struct
             location := t.location n
             properties := list.elim [] fun l => (fieldsOf t l).map (·.2)
             heritage := list.elim [] (embeddedNames t)
             isExported := isVisible name }
  | "interface_type" =>
    let methods := body.namedChildren.filter fun m =>
      m.kind == "method_elem" || m.kind == "method_spec"
    return { name := name
             kind := .interface
             location := t.location n
             methods := methods.filterMap fun m => t.textAt? m "name"
             heritage := embeddedNames t body
             isExported := isVisible name }
  | _ => none

def method? (t : Tree) (n : Node) : Option (String × String) := do
  if n.kind != "method_declaration" then none
  return (← receiver? t n, ← t.textAt? n "name")

/-- Gives a method to the first class of its receiver's name. -/
def addMethod (classes : List ClassFact) (m : String × String) : List ClassFact :=
  match classes with
  | [] => []
  | c :: cs =>
    if c.name = m.1 then { c with methods := c.methods ++ [m.2] } :: cs else c :: addMethod cs m

/-- The structs and interfaces of a tree with their methods. -/
def classes (t : Tree) : List ClassFact :=
  let nodes := t.sites.map (·.node)
  (nodes.filterMap (method? t)).foldl addMethod (nodes.filterMap (class? t))

def branches : List Branch :=
  [.node "if_statement", .node "for_statement", .node "expression_switch_statement",
    .node "type_switch_statement", .node "select_statement", .node "communication_case",
    .node "expression_case", .node "type_case", .operation "binary_expression" "&&",
    .operation "binary_expression" "||"]

/-- The surveyor of Go (`GoAnalyzer`). -/
def surveyor : Surveyor where
  language := "go"
  dependencies := dependencies
  exports := exports
  functions t := measureAll t branches (exports t) (t.topLevel.filterMap (functionSite? t))
  classes := classes
  identifierKinds := ["identifier", "field_identifier", "type_identifier", "package_identifier"]
  comments t := t.comments ["comment"]
  branches := branches

end CodeSurvey.Surveyor.Go
