import CodeSurvey.Fact.Set
import CodeSurvey.Language.All
import CodeSurvey.Plugin.Registry
import CodeSurvey.Scan.Facts
import CodeSurvey.Surveyor.All
/-!
# Built-in extractors

Each extractor reports one kind of facts. Facts are read off the tree if there is one and the
language has a surveyor, and are found with the language's table otherwise.
-/
namespace CodeSurvey.Extractor

open Syntax

/-- Where facts about a tree come from (`Route`). -/
inductive Route where
  | grammar (surveyor : Surveyor)
  | table (language : Language)

/-- The route for a tree in a language (`route`). -/
def route? (t : Tree) (language : String) : Option Route :=
  match t.isPlain, Surveyor.find? language with
  | false, some s => some (.grammar s)
  | _, _ => (Language.find? language).map .table

/-- Whether facts can be found in a language (`supports_language`). -/
def supports (language : String) : Bool :=
  (Surveyor.find? language).isSome || (Language.find? language).isSome

/-- The extractor with one way of finding facts for either route. -/
def ofRoutes (grammar : Surveyor → Tree → Context → Json → FactSet)
    (table : Scan → Context → Json → FactSet)
    (accepts : FileSystem → FactSet → Bool) : Plugin Tree FactSet where
  supports := supports
  accepts := accepts
  execute t c options :=
    match route? t c.language with
    | some (.grammar s) => .output (grammar s t c options)
    | some (.table l) => .output (table (Scan.ofSource l t.source) c options)
    | none => .failed s!"no analyzer or pattern table for language '{c.language}'"

/-! ## Dependencies -/

/-- Whether dependencies are resolved: unless the options say `"resolve": false`. -/
def wantsResolution (options : Json) : Bool :=
  ((options.field? "resolve").bind Json.bool?).getD true

/-- A dependency of a tree with its locality and, if wanted, its path. -/
def settle (c : Context) (resolve : Bool) (d : DependencySite) : Dependency :=
  let table := Language.find? c.language
  let isLocal := table.any fun l => l.isLocal d.source d.kind
  ⟨d.source, d.kind, isLocal, d.line,
    if isLocal && resolve then table.bind fun l => l.resolve c.files c.path d.source d.kind
    else none⟩

/-- Whether dependencies stand on lines, and their paths are local and exist (`validate` of
`DependencyExtractor`). -/
def acceptsDependencies (files : FileSystem) (f : FactSet) : Bool :=
  f.dependencies?.any fun ds => ds.all fun d =>
    0 < d.line && d.resolvedPath.all fun p => d.isLocal && files.holds p

/-- Reports dependencies with their locality and paths (`DependencyExtractor`). -/
def dependencies : Plugin Tree FactSet :=
  ofRoutes
    (fun s t c options =>
      .dependencies ((s.dependencies t).map (settle c (wantsResolution options))))
    (fun sc c options =>
      let found := sc.dependencies c.files c.path
      .dependencies (if wantsResolution options then found
        else found.map fun d => { d with resolvedPath := none }))
    acceptsDependencies

/-! ## Exports -/

/-- The settled exports of a tree; re-exports are added from the text if the language says so. -/
def exportFacts (s : Surveyor) (t : Tree) (language : String) : ExportFacts :=
  let found := s.exports t
  Export.gather <| match (Language.find? language).filter (·.reexports) with
    | some l =>
      let masked := Comment.mask (Comment.spans l.comment t.source) t.source
      Export.addReexports masked t.lines (some (Surveyor.reexportOffsets t)) found
    | none => found

/-- Whether no two exports have one key (`validate` of `ExportExtractor`). -/
def acceptsExports (f : FactSet) : Bool :=
  f.exports?.any fun e => decide (e.exports.map (·.key)).Nodup

/-- Reports exports (`ExportExtractor`). -/
def exports : Plugin Tree FactSet :=
  ofRoutes (fun s t c _ => .exports (exportFacts s t c.language))
    (fun sc _ _ => .exports sc.exports)
    fun _ => acceptsExports

/-! ## Functions and classes -/

/-- The names that a scanned source exports (`exported_names`). -/
def publicNames (sc : Scan) : List String := sc.exports.exports.map (·.name)

/-- Whether every complexity is at least one (`validate` of `FunctionExtractor`). -/
def acceptsFunctions (f : FactSet) : Bool :=
  f.functions?.any fun fs => fs.all fun f => 1 ≤ f.complexity

/-- Reports functions and methods (`FunctionExtractor`). -/
def functions : Plugin Tree FactSet :=
  ofRoutes (fun s t _ _ => .functions (s.functions t))
    (fun sc _ _ =>
      let exported := publicNames sc
      .functions (sc.functions exported (sc.classes exported)))
    fun _ => acceptsFunctions

/-- Reports class-like declarations (`ClassExtractor`). -/
def classes : Plugin Tree FactSet :=
  ofRoutes (fun s t _ _ => .classes (s.classes t))
    (fun sc _ _ => .classes ((sc.classes (publicNames sc)).map (·.value)))
    fun _ _ => true

/-! ## Identifiers and comments -/

/-- Reports identifiers with their counts (`IdentifierExtractor`). -/
def identifiers : Plugin Tree FactSet :=
  ofRoutes (fun s t _ _ => .identifiers (s.identifiers t))
    (fun sc _ _ => .identifiers sc.identifiers) fun _ _ => true

/-- Reports comments with their markers and annotations (`CommentExtractor`). -/
def comments : Plugin Tree FactSet :=
  ofRoutes (fun s t _ _ => .comments (Comment.factsOf t.source (s.comments t)))
    (fun sc _ _ => .comments sc.commentFacts) fun _ _ => true

def builtinList : List (String × Plugin Tree FactSet) :=
  [("dependencies", dependencies), ("exports", exports), ("functions", functions),
    ("classes", classes), ("identifiers", identifiers), ("comments", comments)]

/-- The registry of the built-in extractors (`builtin_registry`). -/
def builtin : Registry Tree FactSet :=
  builtinList.foldl (fun r e => r.register e.1 e.2) (.empty "extractor")

end CodeSurvey.Extractor
