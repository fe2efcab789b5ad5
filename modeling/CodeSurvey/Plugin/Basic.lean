import CodeSurvey.FileSystem
import CodeSurvey.Json.Basic
/-!
# Plugins

A plugin is a named unit of work of an analysis: extractors turn a tree into facts, interpreters
turn facts into interpretations. It may fail or break down, and it judges its own output.
-/
namespace CodeSurvey

/-- What a plugin is told about the file at hand (`PluginContext`). -/
structure Context where
  path : OsString
  language : String
  files : FileSystem

/-- How a run of a plugin ends. -/
inductive Outcome (β : Type) where
  /-- It gives an output. -/
  | output (value : β)
  /-- It reports an error. -/
  | failed (message : String)
  /-- It breaks down, perhaps with a message. -/
  | panicked (message : Option String)

/-- A plugin from inputs to outputs (`Plugin`). -/
structure Plugin (α β : Type) where
  /-- Whether it handles a language. -/
  supports : String → Bool := fun _ => true
  /-- Runs on an input; the options are null if none are set. -/
  execute : α → Context → Json → Outcome β
  /-- Whether an output is acceptable, given the files. -/
  accepts : FileSystem → β → Bool := fun _ _ => true
  /-- Milliseconds that a run takes. -/
  cost : Nat := 0

end CodeSurvey
