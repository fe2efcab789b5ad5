import CodeSurvey.Json.Record
import CodeSurvey.Plugin.Registry
/-!
# Scripted plugins

A plugin that does what a script says, for trying out registries and engines: it repeats its input,
gives a fixed value, fails, breaks down or takes its time.
-/
namespace CodeSurvey

/-- What a scripted plugin does. -/
inductive Behavior where
  | echo
  | value
  | facts
  | invalid
  | fail
  | panicText
  | panicMessages
  | panicOther
  | slow
deriving Repr, DecidableEq

structure Script where
  behavior : Behavior
  /-- The languages that it handles; none means all. -/
  languages : Option (List String)
  value : Json
  messages : List String
  millis : Nat

namespace Script

/-- The text of an error: the first message, with each further one put in front. -/
def failureText (messages : List String) : String :=
  ": ".intercalate (if messages.isEmpty then ["boom"] else messages.reverse)

def outcome (s : Script) (input : Json) (c : Context) (options : Json) : Outcome Json :=
  match s.behavior with
  | .echo => .output (.object [("input", input), ("path", .str c.path.display),
      ("language", .str c.language), ("options", options)])
  | .value | .invalid | .facts => .output s.value
  | .fail => .failed (failureText s.messages)
  | .panicText => .panicked (some "static panic text")
  | .panicMessages => .panicked (some (" ".intercalate s.messages))
  | .panicOther => .panicked none
  | .slow => .output .null

/-- Applies a reading to an output; what cannot be read is a failure. -/
def mapOutput {β : Type} (read : Json → Option β) : Outcome Json → Outcome β
  | .output v => match read v with
    | some b => .output b
    | none => .failed "value does not have the expected form"
  | .failed m => .failed m
  | .panicked m => .panicked m

/-- The plugin of a script, given how inputs are described and how outputs are read. -/
def toPlugin {α β : Type} (s : Script) (describe : α → Json) (read : Behavior → Json → Option β) :
    Plugin α β where
  supports language := s.languages.all (·.contains language)
  execute input c options := mapOutput (read s.behavior) (s.outcome (describe input) c options)
  accepts _ _ := s.behavior != .invalid
  cost := if s.behavior == .slow then s.millis else 0

end Script

/-! ## Counting -/

/-- How often the plugins of a tag ran and were disposed of. -/
structure Activity where
  calls : Nat
  disposed : Nat
deriving Repr, DecidableEq

/-- The activity of some instances by tag, from the serial numbers of the runs and disposals. -/
def Activity.byTag (tags : List (Nat × String)) (runs disposals : List Nat) : Dict Activity :=
  tags.foldl (fun d (serial, tag) =>
    let a := (d.get? tag).getD ⟨0, 0⟩
    d.insert tag ⟨a.calls + runs.count serial, a.disposed + disposals.count serial⟩) .empty

/-- The activities of two counts together. -/
def Activity.merge (a b : Dict Activity) : Dict Activity :=
  b.entries.foldl (fun d (tag, x) =>
    let y := (d.get? tag).getD ⟨0, 0⟩
    d.insert tag ⟨y.calls + x.calls, y.disposed + x.disposed⟩) a

end CodeSurvey
