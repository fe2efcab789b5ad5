import CodeSurvey.Config.Call
import CodeSurvey.Glob.Match
import CodeSurvey.Yaml.Reader
/-!
# Engine settings

The settings of an engine: the defaults of its calls, its cache, and what directory scans leave out.
They are read from YAML or from JSON and are checked before an engine uses them.
-/
namespace CodeSurvey

open Json

/-- Number of results that are kept in memory if nothing is said. -/
def defaultEntries : Nat := 1000

/-- The settings of a cache (`CacheConfig`). -/
structure CacheSettings where
  maxEntries : Nat := defaultEntries
  /-- Whether results are also kept on disk. -/
  persist : Bool := false
  directory : Option OsString := none

namespace CacheSettings

def toJson (c : CacheSettings) : Json :=
  .obj [("max_entries", ofNat c.maxEntries), ("persist", .bool c.persist),
    ("directory", orNull (.str ·.display) c.directory)]

def fieldNames : List String := ["max_entries", "persist", "directory"]

def ofJson? (j : Json) : Option CacheSettings := do
  let j ← j.record? fieldNames
  return ⟨← j.orElse "max_entries" nat64? defaultEntries, ← j.orElse "persist" bool? false,
    (← j.maybe "directory" text?).map OsString.ofText⟩

def ofYaml? (y : Yaml) : Option CacheSettings := do
  let fields ← y.record? fieldNames
  return ⟨← Yaml.field fields "max_entries" Yaml.nat64? defaultEntries,
    ← Yaml.field fields "persist" Yaml.bool? false,
    (← Yaml.field fields "directory" (Yaml.nullable Yaml.text?) none).map OsString.ofText⟩

end CacheSettings

def CallConfig.ofYaml? (y : Yaml) : Option CallConfig := do
  let fields ← y.record? fieldNames
  let names := Yaml.nullable (Yaml.list? Yaml.text?)
  let options := Yaml.nullable (Yaml.dict? Yaml.value?)
  return ⟨← Yaml.field fields "extractors" names none,
    ← Yaml.field fields "interpreters" names none,
    ← Yaml.field fields "useCache" (Yaml.nullable Yaml.bool?) none,
    ← Yaml.field fields "cacheTtl" (Yaml.nullable Yaml.nat64?) none,
    ← Yaml.field fields "extractorOptions" options none,
    ← Yaml.field fields "interpreterOptions" options none⟩

/-- The settings of an engine (`EngineConfig`). -/
structure EngineSettings where
  defaults : CallConfig := {}
  cache : CacheSettings := {}
  /-- Globs of what directory scans leave out. -/
  exclude : List String := []
  parallel : Bool := false

namespace EngineSettings

def toJson (c : EngineSettings) : Json :=
  .obj [("defaults", c.defaults.toJson), ("cache", c.cache.toJson), ("exclude", texts c.exclude),
    ("parallel", .bool c.parallel)]

def fieldNames : List String := ["defaults", "cache", "exclude", "parallel"]

def ofJson? (j : Json) : Option EngineSettings := do
  let j ← j.record? fieldNames
  return ⟨← j.orElse "defaults" CallConfig.ofJson? {}, ← j.orElse "cache" CacheSettings.ofJson? {},
    ← j.orElse "exclude" texts? [], ← j.orElse "parallel" bool? false⟩

def ofYaml? (y : Yaml) : Option EngineSettings := do
  let fields ← y.record? fieldNames
  return ⟨← Yaml.field fields "defaults" CallConfig.ofYaml? {},
    ← Yaml.field fields "cache" CacheSettings.ofYaml? {},
    ← Yaml.field fields "exclude" (Yaml.list? Yaml.text?) [],
    ← Yaml.field fields "parallel" Yaml.bool? false⟩

/-! ## Excluded paths -/

/-- Globs that are ready for matching. -/
abbrev Exclusions := List (List Glob.Token)

def readGlobs : List String → Except SurveyError Exclusions
  | [] => .ok []
  | text :: texts => match Glob.read text with
    | .error e => .error (.invalidConfig
        s!"invalid exclude glob '{text}': error parsing glob '{text}': {e.message}")
    | .ok ts => (readGlobs texts).map (ts :: ·)

/-- The globs of what directory scans leave out (`exclude_set`). -/
def exclusions (c : EngineSettings) : Except SurveyError Exclusions := readGlobs c.exclude

def Exclusions.isMatch (globs : Exclusions) (path : OsString) : Bool :=
  globs.any (Glob.isMatch · path)

/-! ## Checking and loading -/

/-- Checks that an engine can run with its settings (`validate`). -/
def validate (c : EngineSettings) : Except SurveyError Unit := do
  c.defaults.validate
  if c.cache.maxEntries == 0 then throw (.invalidConfig "cache.max_entries must be positive")
  discard c.exclusions

/-- Reads and checks settings from a text (`parse_str`); a blank one gives the default settings. -/
def ofText (text : List Char) : Except SurveyError EngineSettings := do
  if (Text.trim text).isEmpty then return {}
  match (Yaml.read? text).bind ofYaml? with
  | none => throw .unreadableConfig
  | some c =>
    c.validate
    return c

/-- Reads and checks settings from a file (`parse_file`). -/
def ofFile (fs : FileSystem) (path : OsString) : Except SurveyError EngineSettings :=
  match fs.readText path with
  | .error e => .error (.io path.display e)
  | .ok text => ofText text.toList

end EngineSettings

end CodeSurvey
