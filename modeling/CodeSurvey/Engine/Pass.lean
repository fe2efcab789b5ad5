import CodeSurvey.Config.Call
import CodeSurvey.Engine.Survey
import CodeSurvey.Plugin.Report
import CodeSurvey.Provider.Registry
/-!
# One pass over a file

Read, parse, extract, interpret: what an analysis does when no cache helps. A problem with the file
ends the pass early and is recorded on the survey.
-/
namespace CodeSurvey

/-- The registries that a pass uses. -/
structure Tools where
  providers : Providers
  extractors : Registry Syntax.Tree FactSet
  interpreters : Registry Extracts Interpretation

/-- What an analysis finds around it. -/
structure Surroundings where
  grammars : Grammars
  files : FileSystem
  /-- The time in milliseconds. -/
  now : Nat

/-- Where the text of a file comes from. -/
inductive Origin where
  /-- It is given. -/
  | given (text : List Char)
  /-- It is read at the path. -/
  | onDisk

def Origin.read (o : Origin) (fs : FileSystem) (path : OsString) : Except IoError (List Char) :=
  match o with
  | .given text => .ok text
  | .onDisk => (fs.readText path).map (·.toList)

/-- What a pass gave. -/
structure Pass where
  survey : FileSurvey
  /-- The runs of extractors in order: name and serial number. -/
  extractorRuns : List (String × Nat) := []
  /-- The runs of interpreters in order. -/
  interpreterRuns : List (String × Nat) := []
  /-- Milliseconds that the plugins took. -/
  cost : Nat := 0

namespace Tools

/-- The language of a path, judged by its name alone. -/
def languageOf (t : Tools) (path : OsString) : String :=
  (t.providers.language? path none).getD FileSurvey.noLanguage

/-- Those of the selected names that have an output, in the order of selection (`produced`). -/
def produced {β : Type} (selected : List String) (outputs : Dict (Option β)) : List String :=
  selected.filter fun name => ((outputs.get? name).getD none).isSome

def timings {β : Type} (r : Report β) : Dict Double :=
  Dict.ofList (r.timed.map fun name => (name, Double.zero))

/-- Extracts and interprets a tree. -/
def examine (t : Tools) (w : Surroundings) (path : OsString) (c : SettledConfig)
    (start : FileSurvey) (tree : Syntax.Tree) : Pass :=
  let context : Context := ⟨path, start.language, w.files⟩
  let facts := t.extractors.execute (some c.extractors) tree context c.extractorOptions
  let readings := t.interpreters.execute (some c.interpreters) facts.outputs context
    c.interpreterOptions
  { survey := { start with
      extracted := facts.outputs
      interpreted := readings.outputs
      warnings := start.warnings ++ facts.failures.map (·.message) ++
        readings.failures.map (·.message)
      performance := { start.performance with
        extractorTimings := timings facts
        interpreterTimings := timings readings
        memory := { start.performance.memory with
          extractedBytes := Json.byteCount (Extracts.toJson facts.outputs)
          interpretedBytes := Json.byteCount (Interpretations.toJson readings.outputs) } }
      provenance := { start.provenance with
        extractorsUsed := produced c.extractors facts.outputs
        interpretersUsed := produced c.interpreters readings.outputs } }
    extractorRuns := facts.runs
    interpreterRuns := readings.runs
    cost := t.extractors.cost c.extractors start.language +
      t.interpreters.cost c.interpreters start.language }

/-- Parses a text with a provider, and goes on with the tree if there is one. -/
def parse (t : Tools) (w : Surroundings) (path : OsString) (c : SettledConfig) (p : Provider)
    (source : List Char) : Pass :=
  let parsed := p.parse w.grammars path source
  let start : FileSurvey :=
    { path := path.display, language := parsed.language, warnings := parsed.warnings,
      performance := { memory := { sourceBytes := Text.size source } },
      provenance := { timestamp := w.now } }
  match parsed.tree with
  | some tree => t.examine w path c start tree
  | none =>
    let e : SurveyError := .parseFailure path.display parsed.language ("; ".intercalate parsed.errors)
    { survey := { start with errors := [e.record] } }

/-- Passes over a file whose text was read (`pipeline`). -/
def passOn (t : Tools) (w : Surroundings) (path : OsString) (c : SettledConfig) :
    Except IoError (List Char) → Pass
  | .error e => { survey := .failed w.now path.display (t.languageOf path) (.io path.display e) }
  | .ok source => match t.providers.detect? path (some source) with
    | none =>
      { survey := .failed w.now path.display FileSurvey.noLanguage
          (.unsupportedLanguage path.display) }
    | some p => t.parse w path c p source

def pass (t : Tools) (w : Surroundings) (path : OsString) (c : SettledConfig) (o : Origin) : Pass :=
  t.passOn w path c (o.read w.files path)

end Tools

end CodeSurvey
