import CodeSurvey.FileSystem
import CodeSurvey.Json.Record
/-!
# Errors

What can go wrong, the kind under which it is recorded, and its text. Only a disabled engine and an
invalid configuration concern a whole call; everything else concerns one file.
-/
namespace CodeSurvey

/-- The kind under which an error is recorded. -/
inductive ErrorKind where
  | unsupportedLanguage
  | parseFailure
  | readFailure
  | extractorFailure
  | interpreterFailure
  | engineDisabled
  | cacheCorruption
  | invalidConfig
  | timeout
deriving Repr, DecidableEq

/-- The word of a kind (`as_str`). -/
def ErrorKind.word : ErrorKind → String
  | .unsupportedLanguage => "unsupported_language"
  | .parseFailure => "parse_failure"
  | .readFailure => "read_failure"
  | .extractorFailure => "extractor_failure"
  | .interpreterFailure => "interpreter_failure"
  | .engineDisabled => "engine_disabled"
  | .cacheCorruption => "cache_corruption"
  | .invalidConfig => "invalid_config"
  | .timeout => "timeout"

def ErrorKind.all : List ErrorKind :=
  [.unsupportedLanguage, .parseFailure, .readFailure, .extractorFailure, .interpreterFailure,
    .engineDisabled, .cacheCorruption, .invalidConfig, .timeout]

def ErrorKind.ofJson? : Json → Option ErrorKind := Json.word? all word

/-- An error (`AnalysisError`). -/
inductive SurveyError where
  | unsupportedLanguage (path : String)
  | parseFailure (path language message : String)
  | extractorFailure (name message : String)
  | interpreterFailure (name message : String)
  | engineDisabled
  | cacheCorruption (entries : List String)
  | invalidConfig (message : String)
  | timeout (path : String) (millis : Nat)
  | io (path : String) (cause : IoError)
  /-- A configuration text that cannot be read. -/
  | unreadableConfig
deriving Repr, DecidableEq

namespace SurveyError

def kind : SurveyError → ErrorKind
  | unsupportedLanguage _ => .unsupportedLanguage
  | parseFailure _ _ _ => .parseFailure
  | extractorFailure _ _ => .extractorFailure
  | interpreterFailure _ _ => .interpreterFailure
  | engineDisabled => .engineDisabled
  | cacheCorruption _ => .cacheCorruption
  | invalidConfig _ | unreadableConfig => .invalidConfig
  | timeout _ _ => .timeout
  | io _ _ => .readFailure

def message : SurveyError → String
  | unsupportedLanguage path => s!"no parser claims {path}"
  | parseFailure path language text => s!"failed to parse {path} as {language}: {text}"
  | extractorFailure name text => s!"extractor '{name}' failed: {text}"
  | interpreterFailure name text => s!"interpreter '{name}' failed: {text}"
  | engineDisabled => "analysis engine is disabled"
  | cacheCorruption entries => s!"cache corruption detected in {entries.length} entries"
  | invalidConfig text => s!"invalid configuration: {text}"
  | timeout path millis => s!"analysis of {path} timed out after {millis}ms"
  | io path cause => s!"failed to read {path}: {cause.message}"
  | unreadableConfig => "failed to load configuration"

/-- Whether an error concerns one file rather than a whole call (`is_per_file`). -/
def concernsFile : SurveyError → Bool
  | engineDisabled | invalidConfig _ | unreadableConfig => false
  | _ => true

end SurveyError

/-- An error as it is recorded on a result (`ResultError`). -/
structure ErrorRecord where
  kind : ErrorKind
  message : String
deriving Repr, DecidableEq

def SurveyError.record (e : SurveyError) : ErrorRecord := ⟨e.kind, e.message⟩

def ErrorRecord.toJson (r : ErrorRecord) : Json :=
  .obj [("kind", .str r.kind.word), ("message", .str r.message)]

def ErrorRecord.ofJson? (j : Json) : Option ErrorRecord := do
  let j ← j.record? ["kind", "message"]
  return ⟨← j.need "kind" ErrorKind.ofJson?, ← j.need "message" Json.text?⟩

end CodeSurvey
