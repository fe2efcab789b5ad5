import CodeSurvey.Fact.Set
/-!
# Interpretations

What one interpreter derives from the extracted facts: a summary of the dependencies, the surface
that a file offers, figures about its size and complexity, or a value of its own.
-/
namespace CodeSurvey

open Json

/-! ## Dependency summaries -/

/-- Counts of dependencies and the external packages among them. -/
structure DependencySummary where
  total : Nat
  byKind : Dict Nat
  localCount : Nat
  external : Nat
  resolved : Nat
  unresolvedLocal : Nat
  /-- The external packages, each once, in ascending order. -/
  externalPackages : List String
  /-- The local sources that name no path, in the order of the text. -/
  unresolved : List String

def DependencySummary.toJson (s : DependencySummary) : Json :=
  .obj [("total", ofNat s.total), ("byKind", dict ofNat s.byKind), ("local", ofNat s.localCount),
    ("external", ofNat s.external), ("resolved", ofNat s.resolved),
    ("unresolvedLocal", ofNat s.unresolvedLocal), ("externalPackages", texts s.externalPackages),
    ("unresolved", texts s.unresolved)]

def DependencySummary.ofJson? (j : Json) : Option DependencySummary := do
  let j ← j.record? ["total", "byKind", "local", "external", "resolved", "unresolvedLocal",
    "externalPackages", "unresolved"]
  return ⟨← j.need "total" nat64?, ← j.need "byKind" (dict? nat64?), ← j.need "local" nat64?,
    ← j.need "external" nat64?, ← j.need "resolved" nat64?, ← j.need "unresolvedLocal" nat64?,
    ← j.need "externalPackages" texts?, ← j.need "unresolved" texts?⟩

/-! ## Surfaces -/

/-- An exported class in numbers. -/
structure ClassSummary where
  name : String
  isDefault : Bool
  methodCount : Nat
  propertyCount : Nat
  staticMembers : List String

def ClassSummary.toJson (s : ClassSummary) : Json :=
  .obj [("name", .str s.name), ("isDefault", .bool s.isDefault),
    ("methodCount", ofNat s.methodCount), ("propertyCount", ofNat s.propertyCount),
    ("staticMembers", texts s.staticMembers)]

def ClassSummary.ofJson? (j : Json) : Option ClassSummary := do
  let j ← j.record? ["name", "isDefault", "methodCount", "propertyCount", "staticMembers"]
  return ⟨← j.need "name" text?, ← j.need "isDefault" bool?, ← j.need "methodCount" nat64?,
    ← j.need "propertyCount" nat64?, ← j.need "staticMembers" texts?⟩

/-- What a file offers to others. -/
structure ApiSurface where
  total : Nat
  byType : Dict Nat
  defaultExport : Option String
  /-- Names of exports that are neither members nor the default, in the order of the text. -/
  namedExports : List String
  classes : List ClassSummary
  /-- Modules from which something is re-exported, each once. -/
  reexportedModules : List String

def ApiSurface.toJson (s : ApiSurface) : Json :=
  .obj (always "total" (ofNat s.total) ++ always "byType" (dict ofNat s.byType) ++
    whenSome "defaultExport" .str s.defaultExport ++
    always "namedExports" (texts s.namedExports) ++
    always "classes" (list ClassSummary.toJson s.classes) ++
    always "reexportedModules" (texts s.reexportedModules))

def ApiSurface.ofJson? (j : Json) : Option ApiSurface := do
  let j ← j.record? ["total", "byType", "defaultExport", "namedExports", "classes",
    "reexportedModules"]
  return ⟨← j.need "total" nat64?, ← j.need "byType" (dict? nat64?),
    ← j.maybe "defaultExport" text?, ← j.need "namedExports" texts?,
    ← j.need "classes" (list? ClassSummary.ofJson?), ← j.need "reexportedModules" texts?⟩

/-! ## Code metrics -/

/-- A function whose complexity is above the threshold. -/
structure ComplexFunction where
  name : String
  complexity : Nat
  line : Nat

def ComplexFunction.toJson (f : ComplexFunction) : Json :=
  .obj [("name", .str f.name), ("complexity", ofNat f.complexity), ("line", ofNat f.line)]

def ComplexFunction.ofJson? (j : Json) : Option ComplexFunction := do
  let j ← j.record? ["name", "complexity", "line"]
  return ⟨← j.need "name" text?, ← j.need "complexity" nat32?, ← j.need "line" nat64?⟩

/-- Figures about the size and the complexity of a file. -/
structure CodeMetrics where
  functionCount : Nat
  methodCount : Nat
  averageComplexity : Double
  maxComplexity : Nat
  mostComplexFunction : Option String
  averageFunctionLength : Double
  complexityThreshold : Nat
  complexFunctions : List ComplexFunction
  commentCount : Option Nat
  todoCount : Option Nat
  todosByMarker : Dict Nat
  vocabularySize : Option Nat

def CodeMetrics.toJson (m : CodeMetrics) : Json :=
  .obj (always "functionCount" (ofNat m.functionCount) ++
    always "methodCount" (ofNat m.methodCount) ++
    always "averageComplexity" (ofDouble m.averageComplexity) ++
    always "maxComplexity" (ofNat m.maxComplexity) ++
    whenSome "mostComplexFunction" .str m.mostComplexFunction ++
    always "averageFunctionLength" (ofDouble m.averageFunctionLength) ++
    always "complexityThreshold" (ofNat m.complexityThreshold) ++
    always "complexFunctions" (list ComplexFunction.toJson m.complexFunctions) ++
    whenSome "commentCount" ofNat m.commentCount ++ whenSome "todoCount" ofNat m.todoCount ++
    always "todosByMarker" (dict ofNat m.todosByMarker) ++
    whenSome "vocabularySize" ofNat m.vocabularySize)

def CodeMetrics.ofJson? (j : Json) : Option CodeMetrics := do
  let j ← j.record? ["functionCount", "methodCount", "averageComplexity", "maxComplexity",
    "mostComplexFunction", "averageFunctionLength", "complexityThreshold", "complexFunctions",
    "commentCount", "todoCount", "todosByMarker", "vocabularySize"]
  return ⟨← j.need "functionCount" nat64?, ← j.need "methodCount" nat64?,
    ← j.need "averageComplexity" double?, ← j.need "maxComplexity" nat32?,
    ← j.maybe "mostComplexFunction" text?, ← j.need "averageFunctionLength" double?,
    ← j.need "complexityThreshold" nat32?,
    ← j.need "complexFunctions" (list? ComplexFunction.ofJson?), ← j.maybe "commentCount" nat64?,
    ← j.maybe "todoCount" nat64?, ← j.need "todosByMarker" (dict? nat64?),
    ← j.maybe "vocabularySize" nat64?⟩

/-! ## Interpretations -/

/-- The output of an interpreter. -/
inductive Interpretation where
  | dependencySummary (s : DependencySummary)
  | apiSurface (s : ApiSurface)
  | codeMetrics (m : CodeMetrics)
  | custom (value : Json)

namespace Interpretation

def kind : Interpretation → String
  | dependencySummary _ => "dependency_summary"
  | apiSurface _ => "api_surface"
  | codeMetrics _ => "code_metrics"
  | custom _ => "custom"

def data : Interpretation → Json
  | dependencySummary s => s.toJson
  | apiSurface s => s.toJson
  | codeMetrics m => m.toJson
  | custom v => v

def toJson (i : Interpretation) : Json := .obj [("kind", .str i.kind), ("data", i.data)]

/-- Reads the interpretation of a kind. -/
def ofData? (kind : String) (v : Json) : Option Interpretation :=
  match kind with
  | "dependency_summary" => (DependencySummary.ofJson? v).map dependencySummary
  | "api_surface" => (ApiSurface.ofJson? v).map apiSurface
  | "code_metrics" => (CodeMetrics.ofJson? v).map codeMetrics
  | "custom" => some (custom v)
  | _ => none

def ofJson? (j : Json) : Option Interpretation := do
  let j ← j.record? ["kind", "data"]
  ofData? (← j.need "kind" tag?) (← j.field? "data")

end Interpretation

/-- The outputs of interpreters by their names; none marks one that failed. -/
abbrev Interpretations := Dict (Option Interpretation)

def Interpretations.toJson (d : Interpretations) : Json := dict (orNull Interpretation.toJson) d

def Interpretations.ofJson? (j : Json) : Option Interpretations :=
  dict? (nullable Interpretation.ofJson?) j

end CodeSurvey
