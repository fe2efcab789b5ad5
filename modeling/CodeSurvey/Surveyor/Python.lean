import CodeSurvey.Surveyor.Basic
/-!
# Python trees

A name is public unless it starts with an underscore. If a module lists its names in `__all__`, that
list decides what it exports.
-/
namespace CodeSurvey.Surveyor.Python

open Syntax Text

/-! ## Dependencies -/

def importedModule? (n : Node) : Option Node :=
  if n.kind == "dotted_name" then some n
  else if n.kind == "aliased_import" then
    (n.childrenIn "name").find? fun c => c.kind == "dotted_name"
  else none

/-- The modules that a node imports. -/
def importedModules (n : Node) : List Node :=
  match n.kind with
  | "import_statement" => (n.childrenIn "name").filterMap importedModule?
  | "import_from_statement" =>
    (n.childrenIn "module_name").filter fun c =>
      c.kind == "dotted_name" || c.kind == "relative_import"
  | _ => []

/-- The dependencies of a tree in the order of the text (`extract_imports`). -/
def dependencies (t : Tree) : List DependencySite :=
  let found := (t.sites.map (·.node)).flatMap importedModules
  (found.mergeSort fun a b => a.start ≤ b.start).map fun n => ⟨t.text n, .imports, t.line n⟩

/-! ## Exports -/

/-- The assignment of a statement that consists of one (`assignment_of`). -/
def assigned? (n : Node) : Option Node :=
  if n.kind == "expression_statement" then
    n.firstNamed?.filter fun c => c.kind == "assignment"
  else none

/-- The definition below decorators, or the node itself (`definition_of`). -/
def undecorated (n : Node) : Node :=
  if n.kind == "decorated_definition" then (n.child? "definition").getD n else n

/-- Whether a name is public (`is_public`). -/
def isPublic (name : String) : Bool := !startsWith ['_'] name.toList

/-- The visibility that a name implies (`visibility`). -/
def visibility (name : String) : String :=
  let cs := name.toList
  if startsWith ['_', '_'] cs then
    if endsWith ['_', '_'] cs then "public" else "private"
  else if startsWith ['_'] cs then "protected"
  else "public"

/-- Whether a definition carries a decorator (`decorated_with`). -/
def hasDecorator (t : Tree) (n : Node) (decorator : String) : Bool :=
  n.kind == "decorated_definition" && n.namedChildren.any fun c =>
    c.kind == "decorator" &&
      trim ((t.chars c).dropWhile (· == '@')) == decorator.toList

/-- The export of a function (`function_export`); its location includes decorators. -/
def exportFunction (t : Tree) (whole function : Node) (name : String) : Export :=
  { name := name
    kind := .function
    declaration := function.kind
    location := t.location whole
    isAsync := some (function.hasChildOf "async")
    parameters := t.declaredParameters function
    returnType := t.textAt? function "return_type" }

def memberExport? (t : Tree) (className : String) (member : Node) : Option Export :=
  let definition := undecorated member
  if definition.kind == "function_definition" then
    (t.textAt? definition "name").map fun name =>
      { exportFunction t member definition name with
        kind := .classMethod
        parentClass := some className
        isStatic := some (hasDecorator t member "staticmethod")
        visibility := some (visibility name) }
  else do
    let left ← (← assigned? member).child? "left"
    if left.kind == "identifier" then
      let name := t.text left
      return { name := name
               kind := .classProperty
               declaration := "assignment"
               location := t.location member
               parentClass := some className
               isStatic := some true
               visibility := some (visibility name) }
    else none

/-- The exports of a class and its members (`ClassProcessor`). -/
def exportClass (t : Tree) (n : Node) : List Export :=
  let definition := undecorated n
  match t.textAt? definition "name" with
  | none => []
  | some name =>
    { name := name
      kind := .classType
      declaration := definition.kind
      location := t.location n } ::
      (definition.child? "body").elim [] fun body =>
        body.namedChildren.filterMap (memberExport? t name)

/-- The exports of an assignment (`AssignmentProcessor`): its public targets. -/
def assignmentExports (t : Tree) (n : Node) : List Export :=
  match (assigned? n).bind (·.child? "left") with
  | none => []
  | some left =>
    let targets := if left.kind == "identifier" then [left]
      else left.namedChildren.filter fun c => c.kind == "identifier"
    ((targets.map t.text).filter isPublic).map fun name =>
      { name := name, kind := .variable, declaration := "assignment", location := t.location n }

/-- Whether a node defines a public name by a definition of a kind. -/
def definesPublic (kind : String) (t : Tree) (n : Node) : Bool :=
  let definition := undecorated n
  definition.kind == kind && (t.textAt? definition "name").any isPublic

/-- The export rules: functions, classes, and assignments. -/
def exportSteps : List ExportStep :=
  [⟨definesPublic "function_definition", fun t n =>
      let definition := undecorated n
      ((t.textAt? definition "name").map (exportFunction t n definition)).toList⟩,
   ⟨definesPublic "class_definition", exportClass⟩,
   ⟨fun _ n => (assigned? n).isSome, assignmentExports⟩]

/-- The names that a statement lists in `__all__`. -/
def listedNames? (t : Tree) (statement : Node) : Option (List String) := do
  let assignment ← assigned? statement
  let left ← assignment.child? "left"
  if t.text left != "__all__" then none
  let right ← assignment.child? "right"
  if right.kind == "list" || right.kind == "tuple" then
    return (right.namedChildren.filter fun c => c.kind == "string").map t.unquoted
  else none

/-- The names that the module lists in `__all__`, with the statement (`declared_all`). -/
def publicList? (t : Tree) : Option (List String × Node) :=
  t.topLevel.findSome? fun n => (listedNames? t n).map (·, n)

def isListed (names : List String) (e : Export) : Bool :=
  names.contains (e.parentClass.getD e.name)

/-- Exports narrowed to the listed names; a listed name without an export becomes a variable. -/
def narrow (t : Tree) (names : List String) (statement : Node) (exports : List Export) :
    List Export :=
  let kept := exports.filter (isListed names)
  let declared := kept.map (·.name)
  kept ++ (names.filter fun n => !declared.contains n).map fun name =>
    { name := name, kind := .variable, declaration := "__all__", location := t.location statement }

def exports (t : Tree) : List Export :=
  let found := topLevelExports exportSteps t
  match publicList? t with
  | some (names, statement) => narrow t names statement found
  | none => found

/-! ## Functions and classes -/

/-- The class whose body directly holds a function (`enclosing_class`). -/
def owner? (t : Tree) (s : Node.Site) : Option String :=
  let holders := match s.above with
    | [] => []
    | holder :: rest => if holder.kind == "decorated_definition" then rest else holder :: rest
  match holders with
  | _ :: container :: _ =>
    if container.kind == "class_definition" then t.textAt? container "name" else none
  | _ => none

def functionSite? (t : Tree) (s : Node.Site) : Option FunctionNode :=
  if s.node.kind == "function_definition" then
    (t.textAt? s.node "name").map fun name => .of s.node name (owner? t s)
  else none

/-- The attributes of the instance that assignments below a node set. -/
def selfAttributes (t : Tree) (body : Node) : List String :=
  body.allSites.filterMap fun s => do
    if s.node.kind != "assignment" then none
    let left ← s.node.child? "left"
    if left.kind == "attribute" && t.textAt? left "object" == some "self" then
      t.textAt? left "attribute"
    else none

def methodName? (t : Tree) (member : Node) : Option String :=
  let definition := undecorated member
  if definition.kind == "function_definition" then t.textAt? definition "name" else none

/-- The properties that a class member sets (`collect_members`): attributes set in the constructor,
or an assigned name. -/
def memberProperties (t : Tree) (member : Node) : List String :=
  let definition := undecorated member
  if definition.kind == "function_definition" then
    if t.textAt? definition "name" == some "__init__" then
      (definition.child? "body").elim [] (selfAttributes t)
    else []
  else match (assigned? member).bind (·.child? "left") with
    | some left => if left.kind == "identifier" then [t.text left] else []
    | none => []

def class? (t : Tree) (exports : List Export) (n : Node) : Option ClassFact := do
  if n.kind != "class_definition" then none
  let name ← t.textAt? n "name"
  let members := (n.child? "body").elim [] (·.namedChildren)
  return {
    name := name
    kind := .classType
    location := t.location n
    methods := members.filterMap (methodName? t)
    properties := (members.flatMap (memberProperties t)).eraseDups
    heritage := (n.child? "superclasses").elim [] fun s =>
      (s.namedChildren.filter fun c =>
        c.kind == "identifier" || c.kind == "attribute" || c.kind == "subscript").map t.text
    isExported := isExportedClass exports name }

/-! ## Comments -/

/-- The documentation string at the start of a body. -/
def docstring? (t : Tree) (body : Node) : Option Comment := do
  let first ← body.firstNamed?
  if first.kind != "expression_statement" then none
  let string ← first.firstNamed?
  if string.kind == "string" then return t.commentOf string else none

/-- The documentation strings of the module, its classes and its functions (`docstrings`). -/
def docstrings (t : Tree) : List Comment :=
  let bodies := t.sites.filterMap fun s =>
    if s.node.kind == "class_definition" || s.node.kind == "function_definition" then
      s.node.child? "body"
    else none
  (t.root?.toList ++ bodies).filterMap (docstring? t)

def branches : List Branch :=
  [.node "if_statement", .node "elif_clause", .node "for_statement", .node "while_statement",
    .node "except_clause", .node "with_statement", .node "conditional_expression",
    .operation "boolean_operator" "and", .operation "boolean_operator" "or",
    .node "list_comprehension", .node "dictionary_comprehension", .node "set_comprehension",
    .node "generator_expression"]

/-- The surveyor of Python (`PythonAnalyzer`). -/
def surveyor : Surveyor where
  language := "python"
  dependencies := dependencies
  exports := exports
  functions t := measureAll t branches (exports t) (t.sites.filterMap (functionSite? t))
  classes t :=
    let exports := exports t
    t.sites.filterMap fun s => class? t exports s.node
  identifierKinds := ["identifier"]
  comments t := (t.comments ["comment"] ++ docstrings t).mergeSort fun a b => a.line ≤ b.line
  branches := branches

end CodeSurvey.Surveyor.Python
