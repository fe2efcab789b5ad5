import CodeSurvey.Cache.Audit
import CodeSurvey.Engine.Totals
import CodeSurvey.Engine.Pass
import CodeSurvey.Engine.Walk
import CodeSurvey.Plugin.Extractors
import CodeSurvey.Plugin.Interpreters
/-!
# Engines

An engine runs analyses with its registries, keeps successful surveys in its cache and counts what
it does. Only a disabled engine or an invalid configuration refuses a call; a problem with a file is
recorded on the survey of that file. Every operation is a function of the engine and the files.
-/
namespace CodeSurvey

/-- Serial numbers of the plugins that ran, in order. -/
structure RunLog where
  extractors : List Nat := []
  interpreters : List Nat := []
deriving Repr, DecidableEq

/-- A pass whose survey has still to be kept and counted. -/
structure Job where
  /-- The key under which the survey is kept, if it is. -/
  key : Option String
  /-- Milliseconds for which it is kept. -/
  ttl : Nat
  pass : Pass

/-- An engine (`AnalysisEngine`). -/
structure Engine where
  config : EngineSettings
  exclude : EngineSettings.Exclusions
  tools : Tools
  cache : Cache FileSurvey
  metrics : EngineTotals := {}
  enabled : Bool := true
  log : RunLog := {}
  /-- Jobs that a caller has given up and that still run. -/
  abandoned : List Job := []

namespace Engine

/-- The registries of a new engine. -/
def builtinTools : Tools := ⟨.builtin, Extractor.builtin, Interpreter.builtin⟩

/-- A new engine (`with_config`); its cache directory is made if it is missing. -/
def ofConfig (c : EngineSettings) (platform : Option OsString) (fs : FileSystem) :
    Except SurveyError (Engine × FileSystem) := do
  c.validate
  let exclude ← c.exclusions
  let (cache, fs) := Cache.ofConfig c.cache platform fs
  return ({ config := c, exclude, tools := builtinTools, cache }, fs)

/-- A new engine with the settings of a file (`from_config_file`). -/
def ofConfigFile (path : OsString) (platform : Option OsString) (fs : FileSystem) :
    Except SurveyError (Engine × FileSystem) := do
  ofConfig (← EngineSettings.ofFile fs path) platform fs

/-! ## Registering -/

/-- Registers a provider (`register_parser`). -/
def addProvider (e : Engine) (p : Provider) : Engine :=
  { e with tools := { e.tools with providers := e.tools.providers.register p } }

/-- Registers an extractor (`register_extractor`). -/
def addExtractor (e : Engine) (name : String) (p : Plugin Syntax.Tree FactSet) : Engine :=
  { e with tools := { e.tools with extractors := e.tools.extractors.register name p } }

/-- Registers an interpreter (`register_interpreter`). -/
def addInterpreter (e : Engine) (name : String) (p : Plugin Extracts Interpretation) :
    Engine :=
  { e with tools := { e.tools with interpreters := e.tools.interpreters.register name p } }

/-- Takes out an extractor (`unregister_extractor`). -/
def dropExtractor (e : Engine) (name : String) : Engine :=
  { e with tools := { e.tools with extractors := e.tools.extractors.unregister name } }

/-- Takes out an interpreter (`unregister_interpreter`). -/
def dropInterpreter (e : Engine) (name : String) : Engine :=
  { e with tools := { e.tools with interpreters := e.tools.interpreters.unregister name } }

/-! ## Preparing a call -/

/-- Settles the configuration of a call, or refuses the call (`prepare`). -/
def prepare (e : Engine) (c : CallConfig) : Except SurveyError SettledConfig :=
  if e.enabled then
    let merged := e.config.defaults.merge c
    merged.validate.map fun _ => merged.resolve e.tools.extractors.names e.tools.interpreters.names
  else .error .engineDisabled

/-! ## Running one analysis -/

def record (e : Engine) (s : FileSurvey) (consulted : Bool) : Engine :=
  { e with metrics := e.metrics.record s consulted }

def note (e : Engine) (extractorRuns interpreterRuns : List (String × Nat)) : Engine :=
  { e with log := ⟨e.log.extractors ++ extractorRuns.map (·.2),
      e.log.interpreters ++ interpreterRuns.map (·.2)⟩ }

/-- Keeps the survey of a job if nothing went wrong. -/
def keep (e : Engine) (fs : FileSystem) (now : Nat) (job : Job) : Engine × FileSystem :=
  match job.key with
  | some key =>
    if job.pass.survey.succeeded then
      let (cache, fs) := e.cache.put FileSurvey.codec fs now key job.pass.survey job.ttl
      ({ e with cache }, fs)
    else (e, fs)
  | none => (e, fs)

/-- Completes a job: its survey is kept and counted, and its runs are noted. -/
def complete (now : Nat) (state : Engine × FileSystem) (job : Job) : Engine × FileSystem :=
  let (e, fs) := state.1.keep state.2 now job
  ((e.note job.pass.extractorRuns job.pass.interpreterRuns).record job.pass.survey
    job.key.isSome, fs)

/-- Completes the abandoned jobs of a key, which a lookup of that key waits for. -/
def settle (e : Engine) (fs : FileSystem) (now : Nat) (key : String) : Engine × FileSystem :=
  let mine := e.abandoned.filter fun job => job.key == some key
  let others := e.abandoned.filter fun job => job.key != some key
  mine.foldl (complete now) ({ e with abandoned := others }, fs)

/-- The start of an analysis: a survey out of the cache, or a job. -/
inductive Start where
  | cached (survey : FileSurvey)
  | work (job : Job)

/-- Starts an analysis: looks into the cache if it may be used, and passes over the file if that
does not help. -/
def start (e : Engine) (w : Surroundings) (path : OsString) (c : SettledConfig) (o : Origin) :
    Start × Engine × FileSystem :=
  if c.useCache then
    let key := c.key path.display
    let (e, fs) := e.settle w.files w.now key
    let (found, cache, fs) := e.cache.get FileSurvey.codec fs w.now key
    let e := { e with cache }
    match found with
    | some survey => (.cached survey.asCached, e, fs)
    | none =>
      (.work ⟨some key, c.cacheTtl * 1000, e.tools.pass { w with files := fs } path c o⟩, e, fs)
  else (.work ⟨none, 0, e.tools.pass w path c o⟩, e, w.files)

/-- Analyzes a file under a settled configuration (`run`). -/
def run (e : Engine) (w : Surroundings) (path : OsString) (c : SettledConfig) (o : Origin) :
    FileSurvey × Engine × FileSystem :=
  match e.start w path c o with
  | (.cached survey, e, fs) => (survey, e.record survey true, fs)
  | (.work job, e, fs) => (job.pass.survey, complete w.now (e, fs) job)

/-- Analyzes files one after the other under a settled configuration. -/
def runAll (e : Engine) (w : Surroundings) (c : SettledConfig) :
    List OsString → List FileSurvey × Engine × FileSystem
  | [] => ([], e, w.files)
  | path :: paths =>
    let (survey, e, fs) := e.run w path c .onDisk
    let (surveys, e, fs) := runAll e { w with files := fs } c paths
    (survey :: surveys, e, fs)

/-! ## Calls -/

/-- What a call gives: surveys or a refusal, and the engine and the files after it. -/
abbrev Answer (α : Type) := Except SurveyError α × Engine × FileSystem

def refuse {α : Type} (e : Engine) (w : Surroundings) (err : SurveyError) : Answer α :=
  (.error err, e, w.files)

/-- Analyzes a file (`analyze_file`, `analyze_content`). -/
def surveyFile (e : Engine) (w : Surroundings) (path : OsString) (c : CallConfig) (o : Origin) :
    Answer FileSurvey :=
  match e.prepare c with
  | .error err => e.refuse w err
  | .ok r => let (survey, state) := e.run w path r o; (.ok survey, state)

/-- Analyzes files one after the other (`analyze_batch`). -/
def surveyAll (e : Engine) (w : Surroundings) (paths : List OsString) (c : CallConfig) :
    Answer (List FileSurvey) :=
  match e.prepare c with
  | .error err => e.refuse w err
  | .ok r => let (surveys, state) := e.runAll w r paths; (.ok surveys, state)

/-- Analyzes the files below a root (`analyze_directory`). -/
def surveyBelow (e : Engine) (w : Surroundings) (root : OsString) (c : CallConfig) :
    Answer (List FileSurvey) :=
  e.surveyAll w (claimedFiles e.tools.providers e.exclude w.files root) c

/-! ## Deadlines -/

/-- The runs that begin within some milliseconds, and the later ones. -/
def splitRuns {α β : Type} (r : Registry α β) :
    Nat → List (String × Nat) → List (String × Nat) × List (String × Nat)
  | _, [] => ([], [])
  | limit, run :: runs =>
    let cost := (r.get? run.1).elim 0 (·.plugin.cost)
    if limit < cost then ([run], runs)
    else
      let (before, after) := splitRuns r (limit - cost) runs
      (run :: before, after)

/-- Gives a job up: the runs that have begun are noted, the others are left to the job. -/
def abandon (e : Engine) (limit : Nat) (job : Job) : Engine :=
  let (before, after) := splitRuns e.tools.extractors limit job.pass.extractorRuns
  let e := e.note before []
  let rest := { job with pass := { job.pass with extractorRuns := after } }
  { e with abandoned := e.abandoned ++ [rest] }

/-- Analyzes a file and gives up after some milliseconds (`analyze_file_with_timeout`). An analysis
that was given up still runs; its survey is kept and counted when it is done. -/
def surveyWithin (e : Engine) (w : Surroundings) (path : OsString) (c : CallConfig) (limit : Nat) :
    Answer FileSurvey :=
  match e.prepare c with
  | .error err => e.refuse w err
  | .ok r => match e.start w path r .onDisk with
    | (.cached survey, e, fs) => (.ok survey, e.record survey true, fs)
    | (.work job, e, fs) =>
      if job.pass.cost ≤ limit then (.ok job.pass.survey, complete w.now (e, fs) job)
      else
        let survey := FileSurvey.failed w.now path.display (e.tools.languageOf path)
          (.timeout path.display limit)
        let survey := { survey with performance := { total := .ofNat limit } }
        (.ok survey, (e.abandon limit job).record survey false, fs)

/-! ## Cache and metrics -/

/-- Takes what is kept for a path out of the cache, and gives the number of entries
(`invalidate`). -/
def invalidate (e : Engine) (fs : FileSystem) (path : OsString) : Nat × Engine × FileSystem :=
  let (n, cache, fs) := e.cache.invalidate FileSurvey.codec fs path.display
  (n, { e with cache }, fs)

/-- Takes everything out of the cache (`clear_cache`). -/
def emptyCache (e : Engine) (fs : FileSystem) : Engine × FileSystem :=
  let (cache, fs) := e.cache.clear fs
  ({ e with cache }, fs)

/-- Scans the cache directory (`validate_cache`). -/
def auditCache (e : Engine) (fs : FileSystem) (now : Nat) : Except SurveyError CacheAudit :=
  e.cache.scan FileSurvey.codec fs now

/-- Repairs the cache directory (`repair_cache`). -/
def mendCache (e : Engine) (fs : FileSystem) (now : Nat) :
    Except SurveyError CacheAudit × FileSystem :=
  e.cache.repair FileSurvey.codec fs now

/-- Starts counting anew (`reset_metrics`). -/
def recount (e : Engine) : Engine := { e with metrics := {}, cache := e.cache.resetCounters }

end Engine

end CodeSurvey
