import CodeSurvey.Cache.Directory
import CodeSurvey.Error
import CodeSurvey.Fact.Set
import CodeSurvey.Interpretation.Basic
/-!
# Surveys of files

Everything that is known about one file after an analysis: the facts, what they mean, what went
wrong, and how the survey came about.
-/
namespace CodeSurvey

open Json

/-- The bytes that the parts of a survey take (`MemoryUsage`). -/
structure Footprint where
  sourceBytes : Nat := 0
  extractedBytes : Nat := 0
  interpretedBytes : Nat := 0
deriving Repr, DecidableEq

namespace Footprint

def toJson (m : Footprint) : Json :=
  .obj [("sourceBytes", ofNat m.sourceBytes), ("extractedBytes", ofNat m.extractedBytes),
    ("interpretedBytes", ofNat m.interpretedBytes)]

def ofJson? (j : Json) : Option Footprint := do
  let j ← j.record? ["sourceBytes", "extractedBytes", "interpretedBytes"]
  return ⟨← j.need "sourceBytes" nat64?, ← j.need "extractedBytes" nat64?,
    ← j.need "interpretedBytes" nat64?⟩

end Footprint

/-- Milliseconds that the stages of an analysis took (`PerformanceMetrics`). -/
structure Performance where
  parse : Double := .zero
  extraction : Double := .zero
  interpretation : Double := .zero
  lookup : Double := .zero
  total : Double := .zero
  extractorTimings : Dict Double := .empty
  interpreterTimings : Dict Double := .empty
  memory : Footprint := {}

namespace Performance

def toJson (p : Performance) : Json :=
  .obj [("parseTimeMs", ofDouble p.parse), ("extractionTimeMs", ofDouble p.extraction),
    ("interpretationTimeMs", ofDouble p.interpretation), ("cacheLookupMs", ofDouble p.lookup),
    ("totalTimeMs", ofDouble p.total), ("extractorTimings", dict ofDouble p.extractorTimings),
    ("interpreterTimings", dict ofDouble p.interpreterTimings), ("memory", p.memory.toJson)]

def fieldNames : List String :=
  ["parseTimeMs", "extractionTimeMs", "interpretationTimeMs", "cacheLookupMs", "totalTimeMs",
    "extractorTimings", "interpreterTimings", "memory"]

def ofJson? (j : Json) : Option Performance := do
  let j ← j.record? fieldNames
  return ⟨← j.need "parseTimeMs" double?, ← j.need "extractionTimeMs" double?,
    ← j.need "interpretationTimeMs" double?, ← j.need "cacheLookupMs" double?,
    ← j.need "totalTimeMs" double?, ← j.need "extractorTimings" (dict? double?),
    ← j.need "interpreterTimings" (dict? double?), ← j.need "memory" Footprint.ofJson?⟩

end Performance

/-- How a survey came about (`ResultMetadata`). -/
structure Provenance where
  /-- When the analysis ran, in milliseconds. -/
  timestamp : Nat := 0
  extractorsUsed : List String := []
  interpretersUsed : List String := []
  fromCache : Bool := false
deriving Repr, DecidableEq

namespace Provenance

def toJson (p : Provenance) : Json :=
  .obj [("timestamp", ofNat p.timestamp), ("extractorsUsed", texts p.extractorsUsed),
    ("interpretersUsed", texts p.interpretersUsed), ("fromCache", .bool p.fromCache)]

def ofJson? (j : Json) : Option Provenance := do
  let j ← j.record? ["timestamp", "extractorsUsed", "interpretersUsed", "fromCache"]
  return ⟨← j.need "timestamp" nat64?, ← j.need "extractorsUsed" texts?,
    ← j.need "interpretersUsed" texts?, ← j.need "fromCache" bool?⟩

end Provenance

/-- What is known about a file (`AnalysisResult`). -/
structure FileSurvey where
  path : String
  language : String
  extracted : Extracts := .empty
  interpreted : Interpretations := .empty
  errors : List ErrorRecord := []
  warnings : List String := []
  performance : Performance := {}
  provenance : Provenance := {}

namespace FileSurvey

/-- The language of a file that no provider claims. -/
def noLanguage : String := "unknown"

/-- The survey of a file that could not be analyzed (`failed`). -/
def failed (now : Nat) (path language : String) (e : SurveyError) : FileSurvey :=
  { path, language, errors := [e.record], provenance := { timestamp := now } }

/-- Whether nothing went wrong (`is_success`). -/
def succeeded (s : FileSurvey) : Bool := s.errors.isEmpty

/-- Whether an error of a kind is recorded (`has_error`). -/
def failedWith (s : FileSurvey) (kind : ErrorKind) : Bool := s.errors.any (·.kind == kind)

/-- A survey as it comes out of a cache (`cache_hit`): its own timings say nothing about the
lookup. -/
def asCached (s : FileSurvey) : FileSurvey :=
  { s with performance := {}, provenance := { s.provenance with fromCache := true } }

/-! ## Parts -/

/-- A part of the fact set of an extractor (`facts`). -/
def part? {α : Type} (s : FileSurvey) (name : String) (part : FactSet → Option α) : Option α :=
  ((s.extracted.get? name).getD none).bind part

def dependencies? (s : FileSurvey) : Option (List Dependency) :=
  s.part? "dependencies" FactSet.dependencies?

def exports? (s : FileSurvey) : Option ExportFacts := s.part? "exports" FactSet.exports?

def functions? (s : FileSurvey) : Option (List FunctionFact) :=
  s.part? "functions" FactSet.functions?

def classes? (s : FileSurvey) : Option (List ClassFact) :=
  s.part? "classes" FactSet.classes?

def identifiers? (s : FileSurvey) : Option (List IdentifierCount) :=
  s.part? "identifiers" FactSet.identifiers?

def comments? (s : FileSurvey) : Option CommentFacts :=
  s.part? "comments" FactSet.comments?

/-! ## Writing and reading -/

def toJson (s : FileSurvey) : Json :=
  .obj [("filePath", .str s.path), ("language", .str s.language),
    ("extractedData", s.extracted.toJson), ("interpretedData", s.interpreted.toJson),
    ("errors", list ErrorRecord.toJson s.errors), ("warnings", texts s.warnings),
    ("performanceMetrics", s.performance.toJson), ("metadata", s.provenance.toJson)]

def fieldNames : List String :=
  ["filePath", "language", "extractedData", "interpretedData", "errors", "warnings",
    "performanceMetrics", "metadata"]

def ofJson? (j : Json) : Option FileSurvey := do
  let j ← j.record? fieldNames
  return ⟨← j.need "filePath" text?, ← j.need "language" text?,
    ← j.need "extractedData" Extracts.ofJson?,
    ← j.need "interpretedData" Interpretations.ofJson?,
    ← j.need "errors" (list? ErrorRecord.ofJson?), ← j.need "warnings" texts?,
    ← j.need "performanceMetrics" Performance.ofJson?, ← j.need "metadata" Provenance.ofJson?⟩

def codec : Codec FileSurvey := ⟨toJson, ofJson?⟩

end FileSurvey

end CodeSurvey
