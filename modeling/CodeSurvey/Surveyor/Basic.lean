import CodeSurvey.Fact.Basic
import CodeSurvey.Syntax.Complexity
import CodeSurvey.Syntax.Tree
/-!
# Surveyors

A surveyor reads the facts of one language off concrete syntax trees. Exports are found by a chain
of rules: each top-level node goes to the first rule that accepts it.
-/
namespace CodeSurvey

open Syntax

/-- What a language reads off its trees (`LanguageAnalyzer`). -/
structure Surveyor where
  language : String
  dependencies : Tree → List DependencySite
  /-- Exports before they are supplemented and settled. -/
  exports : Tree → List Export
  functions : Tree → List FunctionFact
  classes : Tree → List ClassFact
  identifierKinds : List String
  comments : Tree → List Comment
  branches : List Branch

namespace Surveyor

def identifiers (s : Surveyor) (t : Tree) : List IdentifierCount := t.identifiers s.identifierKinds

/-! ## Export chains -/

/-- A rule for top-level nodes of some form (`ExportProcessor`). -/
structure ExportStep where
  accepts : Tree → Node → Bool
  exports : Tree → Node → List Export

/-- The exports of one node: those of the first rule that accepts it. -/
def exportsAt (steps : List ExportStep) (t : Tree) (n : Node) : List Export :=
  match steps.find? fun step => step.accepts t n with
  | some step => step.exports t n
  | none => []

/-- The exports of all top-level nodes (`run_chain`). -/
def topLevelExports (steps : List ExportStep) (t : Tree) : List Export :=
  t.topLevel.flatMap (exportsAt steps t)

/-- Offsets of the top-level statements that export from another module (`reexport_anchors`). -/
def reexportOffsets (t : Tree) : List Nat :=
  (t.topLevel.filter fun n => n.kind == "export_statement" && (n.child? "source").isSome).map
    (·.start)

/-! ## Functions -/

/-- A function before it is measured (`FunctionSite`). -/
structure FunctionNode where
  node : Node
  name : String
  parent : Option String
  isAsync : Bool

/-- The function that a node declares; the word `async` among its children marks it. -/
def FunctionNode.of (n : Node) (name : String) (parent : Option String) : FunctionNode :=
  ⟨n, name, parent, n.hasChildOf "async"⟩

def FunctionNode.qualifiedName (s : FunctionNode) : String :=
  match s.parent with
  | some p => p ++ "." ++ s.name
  | none => s.name

/-- The fact about a function (`into_info`). -/
def FunctionNode.measure (s : FunctionNode) (t : Tree) (branches : List Branch)
    (exported : List String) : FunctionFact :=
  let location := t.location s.node
  { name := s.name
    kind := functionKind s.parent
    parent := s.parent
    location := location
    parameters := (t.declaredParameters s.node).getD []
    isAsync := s.isAsync
    isExported := exported.contains s.qualifiedName
    lineCount := location.endLine - location.line + 1
    complexity := Branch.complexity branches s.node }

/-- The facts about functions (`measure_functions`); one is exported if its qualified name is. -/
def measureAll (t : Tree) (branches : List Branch) (exports : List Export)
    (sites : List FunctionNode) : List FunctionFact :=
  let exported := exports.map (·.qualifiedName)
  sites.map fun s => s.measure t branches exported

def isExportedClass (exports : List Export) (name : String) : Bool :=
  exports.any fun e => e.parentClass.isNone && e.name == name

end Surveyor

end CodeSurvey
