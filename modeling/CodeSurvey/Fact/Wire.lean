import CodeSurvey.Fact.Basic
import CodeSurvey.Json.Record
/-!
# Facts as JSON

Every fact has a JSON form and can be read back from it. Optional parts that are absent are not
written.
-/
namespace CodeSurvey

open Json

/-! ## Locations and dependencies -/

def Location.toJson (l : Location) : Json :=
  .obj [("line", ofNat l.line), ("column", ofNat l.column), ("endLine", ofNat l.endLine),
    ("endColumn", ofNat l.endColumn)]

def Location.ofJson? (j : Json) : Option Location := do
  let j ← j.record? ["line", "column", "endLine", "endColumn"]
  return ⟨← j.need "line" nat64?, ← j.need "column" nat64?, ← j.need "endLine" nat64?,
    ← j.need "endColumn" nat64?⟩

def DependencyKind.ofJson? : Json → Option DependencyKind := word? DependencyKind.all word

def Dependency.toJson (d : Dependency) : Json :=
  .obj (always "source" (.str d.source) ++ always "type" (.str d.kind.word) ++
    always "isLocal" (.bool d.isLocal) ++ always "line" (ofNat d.line) ++
    whenSome "resolvedPath" .str d.resolvedPath)

def Dependency.ofJson? (j : Json) : Option Dependency := do
  let j ← j.record? ["source", "type", "isLocal", "line", "resolvedPath"]
  return ⟨← j.need "source" text?, ← j.need "type" DependencyKind.ofJson?,
    ← j.need "isLocal" bool?, ← j.need "line" nat64?, ← j.maybe "resolvedPath" text?⟩

/-! ## Exports -/

def Export.toJson (e : Export) : Json :=
  .obj (always "name" (.str e.name) ++ always "exportType" (.str e.kind.word) ++
    always "declarationType" (.str e.declaration) ++ always "location" e.location.toJson ++
    whenSome "parentClass" .str e.parentClass ++ whenSome "isStatic" .bool e.isStatic ++
    whenSome "isAsync" .bool e.isAsync ++ whenSome "visibility" .str e.visibility ++
    whenSome "parameters" texts e.parameters ++ whenSome "returnType" .str e.returnType ++
    always "isDefault" (.bool e.isDefault) ++ whenSome "source" .str e.source)

def Export.ofJson? (j : Json) : Option Export := do
  let j ← j.record? ["name", "exportType", "declarationType", "location", "parentClass", "isStatic",
    "isAsync", "visibility", "parameters", "returnType", "isDefault", "source"]
  return ⟨← j.need "name" text?, ← j.need "exportType" (word? ExportKind.all ExportKind.word),
    ← j.need "declarationType" text?, ← j.need "location" Location.ofJson?,
    ← j.maybe "parentClass" text?, ← j.maybe "isStatic" bool?, ← j.maybe "isAsync" bool?,
    ← j.maybe "visibility" text?, ← j.maybe "parameters" texts?, ← j.maybe "returnType" text?,
    ← j.orElse "isDefault" bool? false, ← j.maybe "source" text?⟩

def ClassExport.toJson (c : ClassExport) : Json :=
  .obj [("name", .str c.name), ("location", c.location.toJson), ("isDefault", .bool c.isDefault),
    ("methods", list Export.toJson c.methods), ("properties", list Export.toJson c.properties)]

def ClassExport.ofJson? (j : Json) : Option ClassExport := do
  let j ← j.record? ["name", "location", "isDefault", "methods", "properties"]
  return ⟨← j.need "name" text?, ← j.need "location" Location.ofJson?, ← j.need "isDefault" bool?,
    ← j.need "methods" (list? Export.ofJson?), ← j.need "properties" (list? Export.ofJson?)⟩

def ExportFacts.toJson (f : ExportFacts) : Json :=
  .obj (always "exports" (list Export.toJson f.exports) ++
    always "classes" (list ClassExport.toJson f.classes) ++
    whenSome "defaultExport" .str f.defaultExport)

def ExportFacts.ofJson? (j : Json) : Option ExportFacts := do
  let j ← j.record? ["exports", "classes", "defaultExport"]
  return ⟨← j.need "exports" (list? Export.ofJson?), ← j.need "classes" (list? ClassExport.ofJson?),
    ← j.maybe "defaultExport" text?⟩

/-! ## Functions, classes and identifiers -/

def FunctionFact.toJson (f : FunctionFact) : Json :=
  .obj (always "name" (.str f.name) ++ always "kind" (.str f.kind) ++
    whenSome "parent" .str f.parent ++ always "location" f.location.toJson ++
    always "parameters" (texts f.parameters) ++ always "isAsync" (.bool f.isAsync) ++
    always "isExported" (.bool f.isExported) ++ always "lineCount" (ofNat f.lineCount) ++
    always "complexity" (ofNat f.complexity))

def FunctionFact.ofJson? (j : Json) : Option FunctionFact := do
  let j ← j.record? ["name", "kind", "parent", "location", "parameters", "isAsync", "isExported",
    "lineCount", "complexity"]
  return ⟨← j.need "name" text?, ← j.need "kind" text?, ← j.maybe "parent" text?,
    ← j.need "location" Location.ofJson?, ← j.need "parameters" texts?, ← j.need "isAsync" bool?,
    ← j.need "isExported" bool?, ← j.need "lineCount" nat64?, ← j.need "complexity" nat32?⟩

def ClassFact.toJson (c : ClassFact) : Json :=
  .obj [("name", .str c.name), ("kind", .str c.kind.word), ("location", c.location.toJson),
    ("methods", texts c.methods), ("properties", texts c.properties),
    ("heritage", texts c.heritage), ("isExported", .bool c.isExported)]

def ClassFact.ofJson? (j : Json) : Option ClassFact := do
  let j ← j.record? ["name", "kind", "location", "methods", "properties", "heritage", "isExported"]
  return ⟨← j.need "name" text?, ← j.need "kind" (word? ClassKind.all ClassKind.word),
    ← j.need "location" Location.ofJson?, ← j.need "methods" texts?, ← j.need "properties" texts?,
    ← j.need "heritage" texts?, ← j.need "isExported" bool?⟩

def IdentifierCount.toJson (i : IdentifierCount) : Json :=
  .obj [("name", .str i.name), ("count", ofNat i.count), ("firstLine", ofNat i.firstLine)]

def IdentifierCount.ofJson? (j : Json) : Option IdentifierCount := do
  let j ← j.record? ["name", "count", "firstLine"]
  return ⟨← j.need "name" text?, ← j.need "count" nat64?, ← j.need "firstLine" nat64?⟩

/-! ## Comments -/

def Comment.toJson (c : Comment) : Json :=
  .obj [("text", .str c.text), ("line", ofNat c.line), ("kind", .str c.kind.word)]

def Comment.ofJson? (j : Json) : Option Comment := do
  let j ← j.record? ["text", "line", "kind"]
  return ⟨← j.need "text" text?, ← j.need "line" nat64?,
    ← j.need "kind" (word? CommentKind.all CommentKind.word)⟩

def Todo.toJson (t : Todo) : Json :=
  .obj [("marker", .str t.marker), ("text", .str t.text), ("line", ofNat t.line)]

def Todo.ofJson? (j : Json) : Option Todo := do
  let j ← j.record? ["marker", "text", "line"]
  return ⟨← j.need "marker" text?, ← j.need "text" text?, ← j.need "line" nat64?⟩

def Annotation.toJson (a : Annotation) : Json :=
  .obj [("key", .str a.key), ("values", texts a.values), ("line", ofNat a.line)]

def Annotation.ofJson? (j : Json) : Option Annotation := do
  let j ← j.record? ["key", "values", "line"]
  return ⟨← j.need "key" text?, ← j.need "values" texts?, ← j.need "line" nat64?⟩

def CommentFacts.toJson (f : CommentFacts) : Json :=
  .obj [("comments", list Comment.toJson f.comments), ("todos", list Todo.toJson f.todos),
    ("annotations", list Annotation.toJson f.annotations)]

def CommentFacts.ofJson? (j : Json) : Option CommentFacts := do
  let j ← j.record? ["comments", "todos", "annotations"]
  return ⟨← j.need "comments" (list? Comment.ofJson?), ← j.need "todos" (list? Todo.ofJson?),
    ← j.need "annotations" (list? Annotation.ofJson?)⟩

end CodeSurvey
