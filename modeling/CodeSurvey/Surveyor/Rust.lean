import CodeSurvey.Surveyor.Basic
/-!
# Rust trees

Items marked `pub` without a restriction are exported. Functions in an `impl` or `trait` block
belong to its type.
-/
namespace CodeSurvey.Surveyor.Rust

open Syntax Text

/-- Whether an item is public without a restriction (`is_public`). -/
def isPublic (t : Tree) (n : Node) : Bool :=
  n.namedChildren.any fun c => c.kind == "visibility_modifier" && t.text c == "pub"

/-- Whether a function is asynchronous (`is_async`). -/
def isAsync (n : Node) : Bool :=
  n.namedChildren.any fun c => c.kind == "function_modifiers" && c.hasChildOf "async"

mutual

/-- The name of a type without arguments, references and path (`type_name`). -/
def baseName (t : Tree) : Node → String
  | .mk kind named field start stop cs =>
    let here := Node.mk kind named field start stop cs
    if kind == "generic_type" || kind == "reference_type" then
      (innerBaseName? t cs).getD (t.text here)
    else if kind == "scoped_type_identifier" then (t.textAt? here "name").getD (t.text here)
    else t.text here

/-- The name of the first of some nodes in the field `type`. -/
def innerBaseName? (t : Tree) : List Node → Option String
  | [] => none
  | c :: cs => if c.field == "type" then some (baseName t c) else innerBaseName? t cs

end

/-! ## Use declarations -/

def dropAll (ending : String) (s : List Char) : List Char :=
  dropEndings ending.toList s.length s

/-- The module path that a use declaration names (`use_source`). -/
def importedPath (t : Tree) (argument : Node) : String :=
  match argument.kind with
  | "scoped_use_list" | "use_as_clause" =>
    (t.textAt? argument "path").getD (t.text argument)
  | "use_wildcard" => String.ofList (dropAll "::*" (t.chars argument))
  | _ => t.text argument

def joinPath (start path : String) : String :=
  if start.isEmpty then path
  else if path.isEmpty then start
  else start ++ "::" ++ path

/-- The module path of what an alias renames. -/
def aliasedPath (t : Tree) (argument : Node) : String :=
  match argument.child? "path" with
  | some p => if p.kind == "scoped_identifier" then (t.textAt? p "path").getD "" else ""
  | none => ""

mutual

/-- The names that a use argument brings in, each with its module path, below an outer path
(`use_bindings`). -/
def importedNames (t : Tree) (outer : String) : Node → List (String × String)
  | .mk kind named field start stop cs =>
    let here := Node.mk kind named field start stop cs
    match kind with
    | "identifier" => [(t.text here, outer)]
    | "scoped_identifier" =>
      [((t.textAt? here "name").getD "", joinPath outer ((t.textAt? here "path").getD ""))]
    | "use_as_clause" =>
      [((t.textAt? here "alias").getD "", joinPath outer (aliasedPath t here))]
    | "use_wildcard" =>
      let path := joinPath outer
        (String.ofList (dropEndWhile (· == '*') (dropAll "::*" (t.chars here))))
      [("* from " ++ path, path)]
    | "scoped_use_list" =>
      importedInList t (joinPath outer ((t.textAt? here "path").getD "")) cs
    | "use_list" => importedAll t outer cs
    | _ => []

def importedAll (t : Tree) (outer : String) : List Node → List (String × String)
  | [] => []
  | c :: cs =>
    (if c.named then importedNames t outer c else []) ++ importedAll t outer cs

/-- The bindings of the items of the first of some nodes in the field `list`. -/
def importedInList (t : Tree) (outer : String) : List Node → List (String × String)
  | [] => []
  | .mk _ _ field _ _ items :: cs =>
    if field == "list" then importedAll t outer items else importedInList t outer cs

end

/-! ## Dependencies -/

def dependency? (t : Tree) (n : Node) : Option (String × DependencyKind) :=
  match n.kind with
  | "use_declaration" => (n.child? "argument").map fun a => (importedPath t a, .uses)
  | "extern_crate_declaration" => (t.textAt? n "name").map (·, .uses)
  | "mod_item" =>
    if (n.child? "body").isNone then (t.textAt? n "name").map (·, .includes) else none
  | _ => none

def dependencies (t : Tree) : List DependencySite :=
  let sites := t.root?.elim [] fun r => r.sites (fun n => (dependency? t n).isNone) []
  sites.filterMap fun s => (dependency? t s.node).map fun (source, kind) =>
    ⟨source, kind, t.line s.node⟩

/-! ## Exports -/

/-- The export of a function (`function_export`). -/
def exportFunction (t : Tree) (n : Node) (name : String) : Export :=
  { name := name
    kind := .function
    declaration := n.kind
    location := t.location n
    isAsync := some (isAsync n)
    parameters := t.declaredParameters n
    returnType := t.textAt? n "return_type" }

def itemKinds : List String :=
  ["function_item", "struct_item", "union_item", "enum_item", "trait_item", "type_item",
    "const_item", "static_item"]

def itemKind (kind : String) : ExportKind :=
  match kind with
  | "struct_item" | "union_item" => .classType
  | "enum_item" => .enum
  | "trait_item" | "type_item" => .type
  | _ => .variable

/-- The exports of the public fields of a struct. -/
def fieldExports (t : Tree) (owner : String) (n : Node) : List Export :=
  let fields := (n.child? "body").elim [] fun body => body.namedChildren.filter fun f =>
    f.kind == "field_declaration" && isPublic t f
  fields.filterMap fun f => (t.textAt? f "name").map fun name =>
    { name := name
      kind := .classProperty
      declaration := "field_declaration"
      location := t.location f
      parentClass := some owner
      isStatic := some false
      visibility := some "public" }

/-- The exports of a public item (`PublicItemProcessor`). -/
def itemExports (t : Tree) (n : Node) : List Export :=
  match t.textAt? n "name" with
  | none => []
  | some name =>
    (if n.kind == "function_item" then exportFunction t n name
      else { name := name, kind := itemKind n.kind, declaration := n.kind,
             location := t.location n }) ::
      (if n.kind == "struct_item" then fieldExports t name n else [])

/-- The re-exports of a public use declaration (`PublicUseProcessor`). -/
def useExports (t : Tree) (n : Node) : List Export :=
  (n.child? "argument").elim [] fun argument =>
    (importedNames t "" argument).map fun (name, source) =>
      { name := name
        kind := .reExport
        declaration := "pub_use"
        location := t.location n
        source := some source }

/-- The exports of the public functions of an `impl` block (`InherentImplProcessor`). -/
def implExports (t : Tree) (n : Node) : List Export :=
  match n.child? "type", n.child? "body" with
  | some ty, some body =>
    let owner := baseName t ty
    (body.namedChildren.filter fun f => f.kind == "function_item" && isPublic t f).filterMap
      fun f => (t.textAt? f "name").map fun name =>
        { exportFunction t f name with
          kind := .classMethod
          parentClass := some owner
          isStatic := some !((f.child? "parameters").any fun p => p.hasChildOf "self_parameter")
          visibility := some "public" }
  | _, _ => []

/-- The export rules: public items, public use declarations, and `impl` blocks without a trait. -/
def exportSteps : List ExportStep :=
  [⟨fun t n => itemKinds.contains n.kind && isPublic t n, itemExports⟩,
   ⟨fun t n => n.kind == "use_declaration" && isPublic t n, useExports⟩,
   ⟨fun _ n => n.kind == "impl_item" && (n.child? "trait").isNone, implExports⟩]

def exports (t : Tree) : List Export := topLevelExports exportSteps t

/-! ## Functions and classes -/

/-- The type to whose block a function directly belongs (`owner_of`). -/
def owner? (t : Tree) (s : Node.Site) : Option String :=
  match s.above with
  | _ :: container :: _ =>
    match container.kind with
    | "impl_item" => (container.child? "type").map (baseName t)
    | "trait_item" => t.textAt? container "name"
    | _ => none
  | _ => none

def functionSite? (t : Tree) (s : Node.Site) : Option FunctionNode :=
  if s.node.kind == "function_item" then
    (t.textAt? s.node "name").map fun name => ⟨s.node, name, owner? t s, isAsync s.node⟩
  else none

/-- What an `impl` block gives to its type: methods, and the trait that it implements. -/
structure Impl where
  type : String
  methods : List String
  trait : Option String

def impl? (t : Tree) (n : Node) : Option Impl := do
  if n.kind != "impl_item" then none
  let ty ← n.child? "type"
  let body ← n.child? "body"
  let functions := body.namedChildren.filter fun f => f.kind == "function_item"
  return ⟨baseName t ty, functions.filterMap fun f => t.textAt? f "name",
    (n.child? "trait").map (baseName t)⟩

def classKind? (kind : String) : Option ClassKind :=
  match kind with
  | "struct_item" | "union_item" => some .struct
  | "enum_item" => some .enum
  | "trait_item" => some .trait
  | _ => none

def class? (t : Tree) (n : Node) : Option ClassFact := do
  let kind ← classKind? n.kind
  let name ← t.textAt? n "name"
  let members := (n.child? "body").elim [] (·.namedChildren)
  let namesOf (kinds : List String) : List String :=
    (members.filter fun m => kinds.contains m.kind).filterMap fun m => t.textAt? m "name"
  return {
    name := name
    kind := kind
    location := t.location n
    methods := namesOf ["function_item", "function_signature_item"]
    properties := namesOf ["field_declaration", "enum_variant"]
    heritage := (n.child? "bounds").elim [] fun b => b.namedChildren.map t.text
    isExported := isPublic t n }

/-- Gives the blocks of a type to the first declaration of its name. -/
def attach (impls : List Impl) : List ClassFact → List ClassFact
  | [] => []
  | c :: cs =>
    let own := impls.filter fun i => i.type == c.name
    { c with
      methods := c.methods ++ own.flatMap (·.methods)
      heritage := c.heritage ++ own.filterMap (·.trait) } ::
      attach (impls.filter fun i => i.type != c.name) cs

/-- The types of a tree with what their blocks give them. -/
def classes (t : Tree) : List ClassFact :=
  let nodes := t.sites.map (·.node)
  attach (nodes.filterMap (impl? t)) (nodes.filterMap (class? t))

def branches : List Branch :=
  [.node "if_expression", .node "else_clause", .node "for_expression", .node "while_expression",
    .node "loop_expression", .node "match_expression", .node "match_arm",
    .operation "binary_expression" "&&", .operation "binary_expression" "||"]

/-- The surveyor of Rust (`RustAnalyzer`). -/
def surveyor : Surveyor where
  language := "rust"
  dependencies := dependencies
  exports := exports
  functions t := measureAll t branches (exports t) (t.sites.filterMap (functionSite? t))
  classes := classes
  identifierKinds := ["identifier", "field_identifier", "type_identifier"]
  comments t := t.comments ["line_comment", "block_comment"]
  branches := branches

end CodeSurvey.Surveyor.Rust
