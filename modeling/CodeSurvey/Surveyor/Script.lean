import CodeSurvey.Surveyor.Basic
/-!
# TypeScript and JavaScript trees

Both grammars agree on the kinds of nodes used here; forms that only TypeScript has simply do not
occur in JavaScript trees.
-/
namespace CodeSurvey.Surveyor.Script

open Syntax Text

def functionKinds : List String :=
  ["function_declaration", "generator_function_declaration", "function_signature"]

def classKinds : List String := ["class_declaration", "abstract_class_declaration"]

def functionValueKinds : List String :=
  ["arrow_function", "function_expression", "function", "generator_function"]

def variableKinds : List String := ["lexical_declaration", "variable_declaration"]

def typeKinds : List String :=
  ["interface_declaration", "type_alias_declaration", "enum_declaration"]

def isFunctionValue (n : Node) : Bool := functionValueKinds.contains n.kind

/-! ## Dependencies -/

/-- The source of a call of `require` or `import` with a literal argument (`call_dependency`). -/
def loaded? (t : Tree) (call : Node) : Option (Node × DependencyKind) := do
  let function ← call.child? "function"
  let kind ←
    if function.kind == "import" then some DependencyKind.imports
    else if function.kind == "identifier" && t.text function == "require" then
      some DependencyKind.requires
    else none
  let first ← (← call.child? "arguments").firstNamed?
  if first.kind == "string" then some (first, kind) else none

/-- The source that a node imports. -/
def dependency? (t : Tree) (n : Node) : Option (Node × DependencyKind) :=
  match n.kind with
  | "import_statement" | "export_statement" => (n.child? "source").map (·, .imports)
  | "import_require_clause" => (n.child? "source").map (·, .requires)
  | "call_expression" => loaded? t n
  | _ => none

def dependencies (t : Tree) : List DependencySite :=
  t.sites.filterMap fun s => (dependency? t s.node).map fun (source, kind) =>
    ⟨t.unquoted source, kind, t.line source⟩

/-! ## Parts of exports -/

/-- The declaration of an export statement (`declaration_of`); an ambient declaration stands for
what it declares. -/
def declared? (n : Node) : Option Node :=
  (n.child? "declaration").bind fun d =>
    if d.kind == "ambient_declaration" then d.firstNamed? else some d

/-- Whether a node exports a declaration of one of some kinds (`is_export_with_declaration`). -/
def exportsDeclaration (kinds : List String) (n : Node) : Bool :=
  n.kind == "export_statement" && (declared? n).any fun d => kinds.contains d.kind

/-- The return type of a function without its colon (`return_type`). -/
def resultType? (t : Tree) (n : Node) : Option String :=
  (n.child? "return_type").map fun r =>
    String.ofList (trim ((t.chars r).dropWhile (· == ':')))

/-- The export of a function (`function_export`). -/
def exportFunction (t : Tree) (n : Node) (name : String) : Export :=
  { name := name
    kind := .function
    declaration := n.kind
    location := t.location n
    isAsync := some (n.hasChildOf "async")
    parameters := t.declaredParameters n
    returnType := resultType? t n }

/-- The visibility of a class member (`visibility`). -/
def visibility? (t : Tree) (n : Node) (name : String) : Option String :=
  if startsWith ['#'] name.toList then some "private"
  else (n.children.find? fun c => c.kind == "accessibility_modifier").map t.text

/-- The kind of export that a class member is, and the field that holds its name. -/
def memberForm? (kind : String) : Option (ExportKind × String) :=
  match kind with
  | "method_definition" | "method_signature" | "abstract_method_signature" =>
    some (.classMethod, "name")
  | "public_field_definition" => some (.classProperty, "name")
  | "field_definition" => some (.classProperty, "property")
  | _ => none

/-- The export of a class member. -/
def memberExport? (t : Tree) (className : String) (n : Node) : Option Export := do
  let (kind, field) ← memberForm? n.kind
  let name := t.text (← n.child? field)
  let base : Export :=
    { name := name
      kind := kind
      declaration := n.kind
      location := t.location n
      parentClass := some className
      isStatic := some (n.hasChildOf "static")
      visibility := visibility? t n name }
  if kind = .classMethod then
    return { base with
      isAsync := some (n.hasChildOf "async")
      parameters := t.declaredParameters n
      returnType := resultType? t n }
  else return base

/-- The exports of a class and its members (`class_exports`). -/
def exportClass (t : Tree) (n : Node) (name : String) (isDefault : Bool) : List Export :=
  { name := name
    kind := .classType
    declaration := n.kind
    location := t.location n
    isDefault := isDefault } ::
    (n.child? "body").elim [] fun body => body.namedChildren.filterMap (memberExport? t name)

/-- The kind of the variable of a name among the declarators of a declaration. -/
def declaratorKind? (t : Tree) (name : String) (declaration : Node) : Option ExportKind :=
  (declaration.namedChildren.find? fun d =>
    d.kind == "variable_declarator" && (d.child? "name").any fun n => t.text n == name).map
      fun d => if (d.child? "value").any isFunctionValue then .function else .variable

/-- The kind of a declared name, by the kind of its declaration. -/
def declaredKind? (kind : String) : Option ExportKind :=
  if functionKinds.contains kind then some .function
  else if classKinds.contains kind then some .classType
  else if kind == "interface_declaration" || kind == "type_alias_declaration" then some .type
  else if kind == "enum_declaration" then some .enum
  else none

/-- What the first of some top-level nodes that declares a name declares it as. -/
def localKindIn? (t : Tree) (name : String) : List Node → Option ExportKind
  | [] => none
  | n :: ns =>
    match if n.kind == "export_statement" then declared? n else some n with
    | none => localKindIn? t name ns
    | some d =>
      if variableKinds.contains d.kind then
        (declaratorKind? t name d).or (localKindIn? t name ns)
      else if (d.child? "name").any fun m => t.text m == name then declaredKind? d.kind
      else localKindIn? t name ns

/-- What a name is declared as at the top level (`local_declaration_type`); a variable if nothing is
known. -/
def localKind (t : Tree) (name : String) : ExportKind :=
  (localKindIn? t name t.topLevel).getD .variable

/-! ## Export steps -/

/-- The text of the name of a node, or `default`. -/
def nameOrDefault (t : Tree) (n : Node) : String := (t.textAt? n "name").getD "default"

/-- What a default export exports (`DefaultExportProcessor`). -/
def defaultExports (t : Tree) (n : Node) : List Export :=
  match (declared? n).or (n.child? "value") with
  | none => []
  | some target =>
    if classKinds.contains target.kind || target.kind == "class" then
      exportClass t target (nameOrDefault t target) true
    else if functionKinds.contains target.kind || isFunctionValue target then
      [{ exportFunction t target (nameOrDefault t target) with isDefault := true }]
    else
      let (name, kind) :=
        if target.kind == "identifier" then
          let name := t.text target
          (name, localKind t name)
        else ("default", .variable)
      [{ name := name
         kind := kind
         declaration := "export_default"
         location := t.location n
         isDefault := true }]

mutual

/-- The names that a pattern binds (`bound_names`): identifiers at any depth, and of a pair only its
value. -/
def namesBound (t : Tree) : Node → List String
  | .mk kind named field start stop cs =>
    if kind == "shorthand_property_identifier_pattern" || kind == "identifier" then
      [t.text (.mk kind named field start stop cs)]
    else if kind == "pair_pattern" then boundInValue t cs
    else boundInAll t cs

/-- The names that the first of some nodes in the field `value` binds. -/
def boundInValue (t : Tree) : List Node → List String
  | [] => []
  | c :: cs => if c.field == "value" then namesBound t c else boundInValue t cs

/-- The names that some nodes bind, one after the other. -/
def boundInAll (t : Tree) : List Node → List String
  | [] => []
  | c :: cs => namesBound t c ++ boundInAll t cs

end

def declaratorExports (t : Tree) (keyword : String) (d : Node) : List Export :=
  match d.child? "name" with
  | none => []
  | some pattern =>
    (namesBound t pattern).map fun name =>
      match (d.child? "value").filter isFunctionValue with
      | some function =>
        if pattern.kind == "identifier" then
          { exportFunction t function name with
            declaration := keyword
            location := t.location d }
        else { name := name, kind := .variable, declaration := keyword, location := t.location d }
      | none =>
        { name := name, kind := .variable, declaration := keyword, location := t.location d }

/-- The exports of an exported variable or type declaration (`VariableTypeExportProcessor`). -/
def declarationExports (t : Tree) (n : Node) : List Export :=
  match declared? n with
  | none => []
  | some d =>
    if typeKinds.contains d.kind then
      match t.textAt? d "name" with
      | none => []
      | some name =>
        [{ name := name
           kind := if d.kind == "enum_declaration" then .enum else .type
           declaration := d.kind
           location := t.location d }]
    else
      let keyword := (d.children.head?.map t.text).getD "var"
      (d.namedChildren.filter fun c => c.kind == "variable_declarator").flatMap
        (declaratorExports t keyword)

/-- The exports of an exported declaration with a name. -/
def namedDeclaration (make : Tree → Node → String → List Export) (t : Tree) (n : Node) :
    List Export :=
  match declared? n with
  | none => []
  | some d => (t.textAt? d "name").elim [] (make t d)

/-- The target and the value of an assignment to the exports of a module (`commonjs_assignment`). -/
def moduleAssignment? (t : Tree) (n : Node) : Option (String × Node) := do
  if n.kind != "expression_statement" then none
  let assignment ← n.firstNamed?
  if assignment.kind != "assignment_expression" then none
  let target := t.text (← assignment.child? "left")
  let isModule := target == "module.exports" || startsWith "exports.".toList target.toList ||
    startsWith "module.exports.".toList target.toList
  if isModule then some (target, ← assignment.child? "right") else none

/-- The export of a value under a name (`value_export`). -/
def exportAssigned (t : Tree) (value : Node) (name declaration : String) : Export :=
  let base : Export :=
    if isFunctionValue value then exportFunction t value name
    else
      { name := name
        kind := match value.kind with
          | "identifier" => localKind t (t.text value)
          | "class" => .classType
          | _ => .variable
        declaration := declaration
        location := t.location value }
  { base with declaration := declaration, location := t.location value }

def entryExport? (t : Tree) (entry : Node) : Option Export :=
  match entry.kind with
  | "pair" => do
    let key ← entry.child? "key"
    let value ← entry.child? "value"
    return exportAssigned t value (t.unquoted key) "module.exports"
  | "shorthand_property_identifier" =>
    let name := t.text entry
    some { name := name, kind := localKind t name, declaration := "module.exports",
           location := t.location entry }
  | "method_definition" =>
    (t.textAt? entry "name").map fun name =>
      { exportFunction t entry name with declaration := "module.exports" }
  | _ => none

/-- The exports of an assignment to the exports of a module (`CommonJsExportProcessor`). -/
def moduleExports (t : Tree) (n : Node) : List Export :=
  match moduleAssignment? t n with
  | none => []
  | some (target, value) =>
    if target != "module.exports" then
      [exportAssigned t value (String.ofList (afterLast '.' target.toList)) "exports"]
    else match value.kind with
      | "object" => value.namedChildren.filterMap (entryExport? t)
      | "class" => exportClass t value (nameOrDefault t value) true
      | kind =>
        let name := if kind == "identifier" then t.text value else nameOrDefault t value
        [{ exportAssigned t value name "module.exports" with isDefault := true }]

def specifierExport? (t : Tree) (s : Node) : Option Export :=
  (t.textAt? s "name").map fun own =>
    let renamed := t.textAt? s "alias"
    { name := if renamed == some "default" then own else renamed.getD own
      kind := localKind t own
      declaration := "export_clause"
      location := t.location s
      isDefault := renamed == some "default" }

/-- The exports of an export clause (`NamedExportClauseProcessor`). -/
def clauseExports (t : Tree) (n : Node) : List Export :=
  match n.namedChildren.find? fun c => c.kind == "export_clause" with
  | none => []
  | some clause =>
    (clause.namedChildren.filter fun s => s.kind == "export_specifier").filterMap
      (specifierExport? t)

/-- The export rules, the first that accepts a node wins: default exports, functions, classes,
variables and types, module assignments, and export clauses. -/
def exportSteps : List ExportStep :=
  [⟨fun _ n => n.kind == "export_statement" && n.hasChildOf "default", defaultExports⟩,
   ⟨fun _ n => exportsDeclaration functionKinds n,
     namedDeclaration fun t d name => [exportFunction t d name]⟩,
   ⟨fun _ n => exportsDeclaration classKinds n,
     namedDeclaration fun t d name => exportClass t d name false⟩,
   ⟨fun _ n => exportsDeclaration (variableKinds ++ typeKinds) n,
     declarationExports⟩,
   ⟨fun t n => (moduleAssignment? t n).isSome, moduleExports⟩,
   ⟨fun _ n => n.kind == "export_statement" && (n.child? "source").isNone &&
     n.hasChildOf "export_clause", clauseExports⟩]

def exports (t : Tree) : List Export := topLevelExports exportSteps t

/-! ## Functions and classes -/

/-- The class that encloses a site (`enclosing_class`); none inside an object literal. -/
def owner? (t : Tree) (s : Node.Site) : Option String :=
  (s.ancestor? ["class_declaration", "abstract_class_declaration", "class", "object"]).bind
    fun n => if n.kind == "object" then none else some (nameOrDefault t n)

def functionSite? (t : Tree) (s : Node.Site) : Option FunctionNode :=
  let n := s.node
  match n.kind with
  | "function_declaration" | "generator_function_declaration" =>
    (t.textAt? n "name").map fun name => .of n name none
  | "method_definition" =>
    (t.textAt? n "name").map fun name => .of n name (owner? t s)
  | "variable_declarator" | "public_field_definition" | "field_definition" => do
    let name ← (n.child? "name").or (n.child? "property")
    let value ← (n.child? "value").filter isFunctionValue
    return .of value (t.text name)
      (if n.kind == "variable_declarator" then none else owner? t s)
  | _ => none

/-- The names in the heritage clauses of a class or interface (`heritage`). -/
def heritage (t : Tree) (n : Node) : List String :=
  let inClause (clause : Node) : List String :=
    if clause.kind == "extends_clause" || clause.kind == "implements_clause" then
      (clause.namedChildren.filter fun c => c.kind != "type_arguments").map t.text
    else [t.text clause]
  n.namedChildren.flatMap fun c =>
    match c.kind with
    | "class_heritage" => c.namedChildren.flatMap inClause
    | "extends_type_clause" => c.namedChildren.map t.text
    | _ => []

def methodName? (t : Tree) (m : Node) : Option String :=
  match m.kind with
  | "method_definition" | "method_signature" | "abstract_method_signature" => t.textAt? m "name"
  | _ => none

def propertyName? (t : Tree) (m : Node) : Option String :=
  match m.kind with
  | "public_field_definition" | "property_signature" | "enum_assignment" => t.textAt? m "name"
  | "field_definition" => t.textAt? m "property"
  | "property_identifier" => some (t.text m)
  | _ => none

def classKind? (kind : String) : Option ClassKind :=
  match kind with
  | "class_declaration" | "abstract_class_declaration" | "class" => some .classType
  | "interface_declaration" => some .interface
  | "enum_declaration" => some .enum
  | _ => none

def class? (t : Tree) (exports : List Export) (n : Node) : Option ClassFact := do
  let kind ← classKind? n.kind
  let name ← t.textAt? n "name"
  let members := (n.child? "body").elim [] (·.namedChildren)
  return {
    name := name
    kind := kind
    location := t.location n
    methods := members.filterMap (methodName? t)
    properties := members.filterMap (propertyName? t)
    heritage := heritage t n
    isExported := isExportedClass exports name }

def branches : List Branch :=
  [.node "if_statement", .node "for_statement", .node "for_in_statement", .node "while_statement",
    .node "do_statement", .node "switch_statement", .node "switch_case", .node "catch_clause",
    .node "ternary_expression", .operation "binary_expression" "&&",
    .operation "binary_expression" "||", .operation "binary_expression" "??"]

def surveyor (language : String) : Surveyor where
  language := language
  dependencies := dependencies
  exports := exports
  functions t := measureAll t branches (exports t) (t.sites.filterMap (functionSite? t))
  classes t :=
    let exports := exports t
    t.sites.filterMap fun s => class? t exports s.node
  identifierKinds :=
    ["identifier", "property_identifier", "private_property_identifier",
      "shorthand_property_identifier", "type_identifier"]
  comments t := t.comments ["comment"]
  branches := branches

end CodeSurvey.Surveyor.Script
