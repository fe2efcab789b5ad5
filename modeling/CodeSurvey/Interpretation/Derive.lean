import CodeSurvey.Interpretation.Basic
/-!
# Deriving interpretations

How the three built-in interpretations follow from facts.
-/
namespace CodeSurvey

-- sums begin with the zero of the core library, whatever a later module imports
attribute [local instance(high)] Zero.ofOfNat0

open Text

def countWord (d : Dict Nat) (w : String) : Dict Nat := d.insert w ((d.get? w).getD 0 + 1)

/-- Counts how often each word occurs. -/
def tallyWords (words : List String) : Dict Nat := words.foldl countWord Dict.empty

/-! ## Dependencies -/

/-- The package of a source in a language whose packages are named as by a JavaScript registry. -/
def scriptPackage (source : List Char) : List Char :=
  match splitAt '/' ((afterStart? "node:".toList source).getD source) with
  | scope :: package :: _ => if startsWith ['@'] scope then scope ++ '/' :: package else scope
  | first :: _ => first
  | [] => []

def goPackage (source : List Char) : List Char :=
  match splitAt '/' source with
  | host :: owner :: name :: _ =>
    if host.contains '.' then join ['/'] [host, owner, name] else source
  | _ => source

/-- The first part of a source that is not empty between slashes, colons and dots. -/
def firstPart (source : List Char) : List Char :=
  ((splitBy (fun c => c == '/' || c == ':' || c == '.') source).find? fun p => !p.isEmpty).getD
    source

/-- The package to which an external source belongs (`package_name`); a blank source belongs to
none. -/
def packageOf? (language source : String) : Option String :=
  let cs := trim source.toList
  if cs.isEmpty then none
  else some <| String.ofList <| match language with
    | "typescript" | "javascript" => scriptPackage cs
    | "python" => cs.takeWhile (· != '.')
    | "go" => goPackage cs
    | _ => firstPart cs

namespace DependencySummary

/-- The summary of so many dependencies before any of them is looked at. -/
def start (total : Nat) : DependencySummary :=
  { total, byKind := .empty, localCount := 0, external := 0, resolved := 0, unresolvedLocal := 0
    externalPackages := [], unresolved := [] }

/-- Adds a dependency to a summary and to the packages seen so far. -/
def add (language : String) (state : DependencySummary × Dict Unit) (d : Dependency) :
    DependencySummary × Dict Unit :=
  let (s, packages) := state
  let s := { s with byKind := countWord s.byKind d.kind.word }
  if d.isLocal then
    let s := { s with localCount := s.localCount + 1 }
    if d.resolvedPath.isSome then ({ s with resolved := s.resolved + 1 }, packages)
    else
      ({ s with
          unresolvedLocal := s.unresolvedLocal + 1
          unresolved := s.unresolved ++ [d.source] }, packages)
  else
    let s := { s with external := s.external + 1 }
    match packageOf? language d.source with
    | some package => (s, packages.insert package ())
    | none => (s, packages)

/-- The summary of dependencies (`summarize_dependencies`). -/
def ofDependencies (language : String) (ds : List Dependency) : DependencySummary :=
  let (s, packages) := ds.foldl (add language) (start ds.length, .empty)
  { s with externalPackages := packages.keys }

end DependencySummary

/-! ## Surfaces -/

def ClassSummary.ofClass (c : ClassExport) : ClassSummary where
  name := c.name
  isDefault := c.isDefault
  methodCount := c.methods.length
  propertyCount := c.properties.length
  staticMembers :=
    ((c.methods ++ c.properties).filter fun m => m.isStatic == some true).map (·.name)

/-- The surface of a file (`execute` of `ApiSurfaceInterpreter`). -/
def ApiSurface.ofExports (f : ExportFacts) : ApiSurface where
  total := f.exports.length
  byType := tallyWords (f.exports.map (·.kind.word))
  defaultExport := f.defaultExport
  namedExports := (f.exports.filter fun e => !e.isDefault && !e.kind.isMember).map (·.name)
  classes := f.classes.map ClassSummary.ofClass
  reexportedModules := (f.exports.filterMap (·.source)).eraseDups

/-- Whether the counts of a surface agree (`validate` of `ApiSurfaceInterpreter`): they sum to the
total, and there are at least as many class exports as classes. -/
def ApiSurface.isConsistent (s : ApiSurface) : Bool :=
  (s.byType.entries.map (·.2)).sum == s.total &&
    s.classes.length ≤ (s.byType.get? ExportKind.classType.word).getD 0

/-! ## Code metrics -/

/-- The complexity above which functions are listed if none is given. -/
def defaultThreshold : Nat := 10

/-- The first function of the greatest complexity. -/
def mostComplex? : List FunctionFact → Option FunctionFact
  | [] => none
  | f :: fs => match mostComplex? fs with
    | none => some f
    | some g => if f.complexity < g.complexity then some g else some f

/-- Figures about a file from its functions and, if they are known, comments and identifiers
(`execute` of `CodeMetricsInterpreter`). -/
def CodeMetrics.ofFacts (threshold : Nat) (functions : List FunctionFact)
    (comments : Option CommentFacts) (identifiers : Option (List IdentifierCount)) :
    CodeMetrics where
  functionCount := functions.length
  methodCount := (functions.filter (·.isMethod)).length
  averageComplexity := if functions.isEmpty then .zero
    else .ratio (functions.map (·.complexity)).sum functions.length
  maxComplexity := (mostComplex? functions).elim 0 (·.complexity)
  mostComplexFunction := (mostComplex? functions).map (·.qualifiedName)
  averageFunctionLength := if functions.isEmpty then .zero
    else .ratio (functions.map (·.lineCount)).sum functions.length
  complexityThreshold := threshold
  complexFunctions := (functions.filter fun f => threshold < f.complexity).map fun f =>
    ⟨f.qualifiedName, f.complexity, f.location.line⟩
  commentCount := comments.map (·.comments.length)
  todoCount := comments.map (·.todos.length)
  todosByMarker := comments.elim Dict.empty fun c => tallyWords (c.todos.map (·.marker))
  vocabularySize := identifiers.map (·.length)

end CodeSurvey
