import CodeSurvey.Engine.Survey
/-!
# Totals

Figures over all analyses of an engine. Averages are kept as running means, so that nothing grows
with the number of analyses.
-/
namespace CodeSurvey

/-- A mean that is kept up to date (`RunningAverage`). -/
structure RunningMean where
  count : Nat := 0
  average : Double := .zero
deriving Repr, DecidableEq

/-- Adds a value: the mean of `n` values is `(mean of the first n - 1 * (n - 1) + value) / n`. -/
def RunningMean.add (r : RunningMean) (value : Double) : RunningMean :=
  let n := (Double.ofNat (r.count + 1)).toFloat
  ⟨r.count + 1, .ofFloat ((r.average.toFloat * (n - 1.0) + value.toFloat) / n)⟩

def addAverage (d : Dict RunningMean) (name : String) (value : Double) : Dict RunningMean :=
  d.insert name (((d.get? name).getD {}).add value)

/-- Figures over all analyses (`EngineMetrics`). -/
structure EngineTotals where
  totalAnalyses : Nat := 0
  cacheHits : Nat := 0
  cacheMisses : Nat := 0
  cacheHitRate : Double := .zero
  failedAnalyses : Nat := 0
  totalTime : RunningMean := {}
  parseTime : RunningMean := {}
  extractionTime : RunningMean := {}
  interpretationTime : RunningMean := {}
  byLanguage : Dict RunningMean := .empty
  byExtractor : Dict RunningMean := .empty
  byInterpreter : Dict RunningMean := .empty

namespace EngineTotals

def countLookup (m : EngineTotals) (hit : Bool) : EngineTotals :=
  let hits := m.cacheHits + if hit then 1 else 0
  let misses := m.cacheMisses + if hit then 0 else 1
  { m with cacheHits := hits, cacheMisses := misses, cacheHitRate := .ratio hits (hits + misses) }

/-- Counts the stages of an analysis that ran. -/
def countStages (m : EngineTotals) (s : FileSurvey) : EngineTotals :=
  let p := s.performance
  { m with
    parseTime := m.parseTime.add p.parse
    extractionTime := m.extractionTime.add p.extraction
    interpretationTime := m.interpretationTime.add p.interpretation
    byLanguage := addAverage m.byLanguage s.language p.total
    byExtractor := p.extractorTimings.entries.foldl (fun d e => addAverage d e.1 e.2) m.byExtractor
    byInterpreter :=
      p.interpreterTimings.entries.foldl (fun d e => addAverage d e.1 e.2) m.byInterpreter }

/-- Adds a survey, given whether the cache was consulted for it (`record`). The stages of a survey
out of the cache did not run. -/
def record (m : EngineTotals) (s : FileSurvey) (consulted : Bool) : EngineTotals :=
  let m := { m with
    totalAnalyses := m.totalAnalyses + 1
    totalTime := m.totalTime.add s.performance.total
    failedAnalyses := m.failedAnalyses + if s.succeeded then 0 else 1 }
  let m := if consulted then m.countLookup s.provenance.fromCache else m
  if s.provenance.fromCache then m else m.countStages s

end EngineTotals

end CodeSurvey
