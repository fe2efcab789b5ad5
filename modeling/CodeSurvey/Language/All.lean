import CodeSurvey.Language.CFamily
import CodeSurvey.Language.CSharp
import CodeSurvey.Language.Go
import CodeSurvey.Language.Java
import CodeSurvey.Language.Kotlin
import CodeSurvey.Language.Php
import CodeSurvey.Language.Python
import CodeSurvey.Language.Ruby
import CodeSurvey.Language.Rust
import CodeSurvey.Language.Scala
import CodeSurvey.Language.Script
import CodeSurvey.Language.Swift
/-!
# The known languages
-/
namespace CodeSurvey.Language

/-- The tables of all languages (`CONFIGS`). -/
def all : List Language :=
  [Script.typescript, Script.javascript, Python.table, Go.table, Java.table, Rust.table,
    Ruby.table, Php.table, CSharp.table, Kotlin.table, Swift.table, Scala.table, CFamily.cpp,
    CFamily.c]

/-- The table of a language (`config_for`). -/
def find? (name : String) : Option Language := all.find? (·.name == name)

def names : List String := all.map (·.name)

end CodeSurvey.Language
