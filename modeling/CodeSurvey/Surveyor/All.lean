import CodeSurvey.Surveyor.Go
import CodeSurvey.Surveyor.Java
import CodeSurvey.Surveyor.Python
import CodeSurvey.Surveyor.Rust
import CodeSurvey.Surveyor.Script
/-!
# The languages with surveyors
-/
namespace CodeSurvey.Surveyor

/-- The surveyors of all languages that have a grammar (`register_analyzers`). -/
def all : List Surveyor :=
  [Go.surveyor, Java.surveyor, Script.surveyor "javascript", Python.surveyor, Rust.surveyor,
    Script.surveyor "typescript"]

/-- The surveyor of a language (`get_analyzer`). -/
def find? (language : String) : Option Surveyor := all.find? (·.language == language)

/-- The languages that have a surveyor (`registered_languages`). -/
def languages : List String := all.map (·.language)

end CodeSurvey.Surveyor
