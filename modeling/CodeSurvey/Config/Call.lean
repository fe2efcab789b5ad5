import CodeSurvey.Digest.Base64
import CodeSurvey.Error
import CodeSurvey.Json.Printer
/-!
# Call configurations

What one call of an analysis asks for. Every part may be left open; open parts come from the
engine's defaults, and what is still open then gets a fixed value.
-/
namespace CodeSurvey

open Json

/-- Seconds for which a result is kept if nothing is said. -/
def defaultTtl : Nat := 3600

/-- What a call asks for (`AnalysisConfig`). -/
structure CallConfig where
  extractors : Option (List String) := none
  interpreters : Option (List String) := none
  useCache : Option Bool := none
  /-- Seconds for which a result is kept. -/
  cacheTtl : Option Nat := none
  extractorOptions : Option (Dict Json) := none
  interpreterOptions : Option (Dict Json) := none

/-- What a call asks for, with every part settled (`ResolvedConfig`). -/
structure SettledConfig where
  extractors : List String
  interpreters : List String
  useCache : Bool
  cacheTtl : Nat
  extractorOptions : Dict Json
  interpreterOptions : Dict Json

namespace CallConfig

/-- Sets the options of an extractor (`extractor_option`). -/
def withExtractorOption (c : CallConfig) (name : String) (value : Json) : CallConfig :=
  { c with extractorOptions := some ((c.extractorOptions.getD .empty).insert name value) }

/-- Sets the options of an interpreter (`interpreter_option`). -/
def withInterpreterOption (c : CallConfig) (name : String) (value : Json) : CallConfig :=
  { c with interpreterOptions := some ((c.interpreterOptions.getD .empty).insert name value) }

/-- Lays a configuration over another (`merge`): what it sets counts. -/
def merge (base call : CallConfig) : CallConfig where
  extractors := call.extractors.or base.extractors
  interpreters := call.interpreters.or base.interpreters
  useCache := call.useCache.or base.useCache
  cacheTtl := call.cacheTtl.or base.cacheTtl
  extractorOptions := call.extractorOptions.or base.extractorOptions
  interpreterOptions := call.interpreterOptions.or base.interpreterOptions

/-- Settles every part (`resolve`); open lists become the given names. -/
def resolve (c : CallConfig) (extractors interpreters : List String) : SettledConfig where
  extractors := c.extractors.getD extractors
  interpreters := c.interpreters.getD interpreters
  useCache := c.useCache.getD true
  cacheTtl := c.cacheTtl.getD defaultTtl
  extractorOptions := c.extractorOptions.getD .empty
  interpreterOptions := c.interpreterOptions.getD .empty

/-- Checks names in order (`check_names`): none is blank, and none comes twice. -/
def requireNames (field : String) (seen : List String) : List String → Except SurveyError Unit
  | [] => .ok ()
  | name :: names =>
    if (Text.trim name.toList).isEmpty then
      .error (.invalidConfig s!"{field} contains an empty name")
    else if seen.contains name then
      .error (.invalidConfig s!"{field} lists '{name}' more than once")
    else requireNames field (name :: seen) names

/-- Checks that a call can run with a configuration (`validate`). -/
def validate (c : CallConfig) : Except SurveyError Unit := do
  requireNames "extractors" [] (c.extractors.getD [])
  requireNames "interpreters" [] (c.interpreters.getD [])
  if c.useCache != some false && c.cacheTtl == some 0 then
    throw (.invalidConfig "cacheTtl must be positive while caching is enabled")

def fieldNames : List String :=
  ["extractors", "interpreters", "useCache", "cacheTtl", "extractorOptions", "interpreterOptions"]

def toJson (c : CallConfig) : Json :=
  .obj (whenSome "extractors" texts c.extractors ++ whenSome "interpreters" texts c.interpreters ++
    whenSome "useCache" .bool c.useCache ++ whenSome "cacheTtl" ofNat c.cacheTtl ++
    whenSome "extractorOptions" (dict fun v => v) c.extractorOptions ++
    whenSome "interpreterOptions" (dict fun v => v) c.interpreterOptions)

def ofJson? (j : Json) : Option CallConfig := do
  let j ← j.record? fieldNames
  return ⟨← j.maybe "extractors" texts?, ← j.maybe "interpreters" texts?,
    ← j.maybe "useCache" bool?, ← j.maybe "cacheTtl" nat64?,
    ← j.maybe "extractorOptions" (dict? some), ← j.maybe "interpreterOptions" (dict? some)⟩

end CallConfig

namespace SettledConfig

def toJson (c : SettledConfig) : Json :=
  .obj [("extractors", texts c.extractors), ("interpreters", texts c.interpreters),
    ("useCache", .bool c.useCache), ("cacheTtl", ofNat c.cacheTtl),
    ("extractorOptions", dict (fun v => v) c.extractorOptions),
    ("interpreterOptions", dict (fun v => v) c.interpreterOptions)]

/-- The text that stands for a settled configuration (`canonical_json`). -/
def canonical (c : SettledConfig) : List Char := compact c.toJson

/-- The key under which the result for a path is kept (`cache_key`): the path, a colon, and the
encoded configuration. -/
def key (path : String) (c : SettledConfig) : String :=
  path ++ ":" ++ String.ofList (Base64.encode (Utf8.encode c.canonical))

end SettledConfig

/-- The path in a key (`key_path`): what stands before the last colon. -/
def pathOfKey? (key : String) : Option String :=
  match key.toList.reverse.dropWhile (· != ':') with
  | _ :: r => some (String.ofList r.reverse)
  | [] => none

end CodeSurvey
