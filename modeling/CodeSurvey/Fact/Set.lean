import CodeSurvey.Fact.Wire
/-!
# Fact sets

What one extractor reports about a source: one of the six kinds of facts, or a value of its own.
-/
namespace CodeSurvey

/-- The output of an extractor. -/
inductive FactSet where
  | dependencies (facts : List Dependency)
  | exports (facts : ExportFacts)
  | functions (facts : List FunctionFact)
  | classes (facts : List ClassFact)
  | identifiers (facts : List IdentifierCount)
  | comments (facts : CommentFacts)
  | custom (value : Json)

namespace FactSet

open Json

def kind : FactSet → String
  | dependencies _ => "dependencies"
  | exports _ => "exports"
  | functions _ => "functions"
  | classes _ => "classes"
  | identifiers _ => "identifiers"
  | comments _ => "comments"
  | custom _ => "custom"

/-- Number of facts at the top (`len`). -/
def size : FactSet → Nat
  | dependencies fs => fs.length
  | exports f => f.exports.length
  | functions fs => fs.length
  | classes fs => fs.length
  | identifiers fs => fs.length
  | comments f => f.comments.length
  | custom _ => 1

/-! ## Parts -/

def dependencies? : FactSet → Option (List Dependency)
  | dependencies fs => some fs
  | _ => none

def exports? : FactSet → Option ExportFacts
  | exports f => some f
  | _ => none

def functions? : FactSet → Option (List FunctionFact)
  | functions fs => some fs
  | _ => none

def classes? : FactSet → Option (List ClassFact)
  | classes fs => some fs
  | _ => none

def identifiers? : FactSet → Option (List IdentifierCount)
  | identifiers fs => some fs
  | _ => none

def comments? : FactSet → Option CommentFacts
  | comments f => some f
  | _ => none

/-! ## Wire format -/

def data : FactSet → Json
  | dependencies fs => list Dependency.toJson fs
  | exports f => f.toJson
  | functions fs => list FunctionFact.toJson fs
  | classes fs => list ClassFact.toJson fs
  | identifiers fs => list IdentifierCount.toJson fs
  | comments f => f.toJson
  | custom v => v

def toJson (f : FactSet) : Json := .obj [("kind", .str f.kind), ("data", f.data)]

/-- Reads the facts of a kind. -/
def ofData? (kind : String) (v : Json) : Option FactSet :=
  match kind with
  | "dependencies" => (list? Dependency.ofJson? v).map dependencies
  | "exports" => (ExportFacts.ofJson? v).map exports
  | "functions" => (list? FunctionFact.ofJson? v).map functions
  | "classes" => (list? ClassFact.ofJson? v).map classes
  | "identifiers" => (list? IdentifierCount.ofJson? v).map identifiers
  | "comments" => (CommentFacts.ofJson? v).map comments
  | "custom" => some (custom v)
  | _ => none

def ofJson? (j : Json) : Option FactSet := do
  let j ← j.record? ["kind", "data"]
  ofData? (← j.need "kind" tag?) (← j.field? "data")

end FactSet

/-- The outputs of extractors by their names; none marks one that failed. -/
abbrev Extracts := Dict (Option FactSet)

def Extracts.toJson (d : Extracts) : Json := Json.dict (Json.orNull FactSet.toJson) d

def Extracts.ofJson? (j : Json) : Option Extracts := Json.dict? (Json.nullable FactSet.ofJson?) j

/-- The facts of some kind (`find_facts`): those of the extractor of a name, or else the first by
name. -/
def Extracts.find? {α : Type} (d : Extracts) (name : String) (part : FactSet → Option α) :
    Option α :=
  (((d.get? name).join).bind part).or (d.entries.findSome? fun e => e.2.bind part)

end CodeSurvey
