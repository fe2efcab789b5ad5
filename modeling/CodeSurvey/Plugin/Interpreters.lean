import CodeSurvey.Interpretation.Derive
import CodeSurvey.Plugin.Registry
/-!
# Built-in interpreters

Each interpreter fails if the facts that it needs were not extracted.
-/
namespace CodeSurvey.Interpreter

-- powers are those of the core library, whatever a later module imports
attribute [local instance(high)] instPowNat

def missing {β : Type} (name : String) : Outcome β := .failed s!"requires the {name} fact set"

/-- Summarizes dependencies (`DependencySummaryInterpreter`). -/
def dependencySummary : Plugin Extracts Interpretation where
  execute data c _ :=
    match data.find? "dependencies" FactSet.dependencies? with
    | some ds => .output (.dependencySummary (.ofDependencies c.language ds))
    | none => missing "dependencies"

def acceptsSurface : Interpretation → Bool
  | .apiSurface s => s.isConsistent
  | _ => false

/-- Describes the surface of a file (`ApiSurfaceInterpreter`). -/
def apiSurface : Plugin Extracts Interpretation where
  execute data _ _ :=
    match data.find? "exports" FactSet.exports? with
    | some f => .output (.apiSurface (.ofExports f))
    | none => missing "exports"
  accepts _ := acceptsSurface

/-- The complexity threshold that the options set. -/
def threshold (options : Json) : Nat :=
  (((options.field? "complexityThreshold").bind Json.nat64?).map (min · (2 ^ (32 : Nat) - 1))).getD
    defaultThreshold

/-- Measures a file (`CodeMetricsInterpreter`). -/
def codeMetrics : Plugin Extracts Interpretation where
  execute data _ options :=
    match data.find? "functions" FactSet.functions? with
    | some fs => .output (.codeMetrics (.ofFacts (threshold options) fs
        (data.find? "comments" FactSet.comments?) (data.find? "identifiers" FactSet.identifiers?)))
    | none => missing "functions"

def builtinList : List (String × Plugin Extracts Interpretation) :=
  [("dependency_summary", dependencySummary), ("api_surface", apiSurface),
    ("code_metrics", codeMetrics)]

/-- The registry of the built-in interpreters (`builtin_registry`). -/
def builtin : Registry Extracts Interpretation :=
  builtinList.foldl (fun r e => r.register e.1 e.2) (.empty "interpreter")

end CodeSurvey.Interpreter
