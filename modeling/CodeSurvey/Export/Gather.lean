import CodeSurvey.Fact.Basic
/-!
# Gathering exports

Exports with one key are one export: the first stays where it is, and it is the default export if
any of them was. Class members are then grouped under their class.
-/
namespace CodeSurvey.Export

/-- Adds an export to those kept so far; one with a known key only passes on its default flag. -/
def keep (kept : List Export) (e : Export) : List Export :=
  match kept with
  | [] => [e]
  | k :: ks =>
    if k.key = e.key then { k with isDefault := k.isDefault || e.isDefault } :: ks
    else k :: keep ks e

def dedup (all : List Export) : List Export := all.foldl keep []

/-- The members of one kind of a class, public unless they say otherwise. -/
def membersOf (exports : List Export) (className : String) (kind : ExportKind) : List Export :=
  (exports.filter fun m => m.kind = kind && m.parentClass = some className).map fun m =>
    { m with visibility := some (m.visibility.getD "public") }

def classOf (exports : List Export) (e : Export) : ClassExport :=
  ⟨e.name, e.location, e.isDefault, membersOf exports e.name .classMethod,
    membersOf exports e.name .classProperty⟩

/-- The exports of a source, gathered (`finalize`). -/
def gather (all : List Export) : ExportFacts :=
  let exports := dedup all
  ⟨exports, (exports.filter (·.kind = .classType)).map (classOf exports),
    (exports.find? (·.isDefault)).map (·.name)⟩

end CodeSurvey.Export
