import CodeSurvey.Fact.Basic
import CodeSurvey.FileSystem
/-!
# Resolving dependencies

A resolver turns the source of a dependency into a path relative to the directory of the importing
file and probes an ordered list of candidates. The first that exists wins, and nothing outside the
list is ever tried.
-/
namespace CodeSurvey

/-- One candidate made from a relative path. -/
inductive Candidate where
  /-- The path itself. -/
  | asIs
  /-- The path itself, if it has an extension. -/
  | asIsWithExtension
  /-- The path with an ending. -/
  | append (ending : String)
  /-- The path with one ending in place of another. -/
  | replace (old new : String)
  /-- A file in the directory that the path names. -/
  | join (name : String)
  /-- The path as a directory. -/
  | directory
deriving Repr, DecidableEq

namespace Candidate

/-- The path to try, if the candidate applies (`apply`). -/
def path? (path : String) : Candidate → Option String
  | .asIs | .directory => some path
  | .asIsWithExtension => (Path.extension? path).map fun _ => path
  | .append ending => some (path ++ ending)
  | .replace old new =>
    (Text.beforeEnd? old.toList path.toList).map fun stem => String.ofList stem ++ new
  | .join name =>
    some (String.ofList (Text.dropEndWhile (· == '/') path.toList) ++ "/" ++ name)

/-- Whether what has to be there is there (`exists`): a directory, or a file. -/
def existsAt (fs : FileSystem) (path : OsString) : Candidate → Bool
  | .directory => fs.isDir path
  | _ => fs.isFile path

end Candidate

/-- How the source of a dependency names a path. -/
inductive Naming where
  /-- The source is the path. -/
  | asWritten
  /-- Leading dots go up, other dots separate directories. -/
  | dotted
  /-- Only an inclusion names a path, its own source. -/
  | declared
deriving Repr, DecidableEq

/-- The path of a source with leading dots (`python_module`): one dot is the directory itself, each
further one goes one up. -/
def dottedPath? (source : String) : Option String :=
  let cs := source.toList
  let dots := (cs.takeWhile (· == '.')).length
  if dots = 0 then none
  else
    let start := if dots = 1 then "." else String.intercalate "/" (List.replicate (dots - 1) "..")
    let rest := (cs.drop dots).map fun c => if c == '.' then '/' else c
    some (if rest.isEmpty then start else start ++ "/" ++ String.ofList rest)

/-- The path that a source names. -/
def Naming.path? (source : String) (kind : DependencyKind) : Naming → Option String
  | .asWritten => some source
  | .dotted => dottedPath? source
  | .declared => if kind = .includes then some source else none

/-- A way to name paths and the candidates to try. -/
structure Resolver where
  naming : Naming
  candidates : List Candidate
deriving Repr, DecidableEq

namespace Resolver

/-- The full path of a candidate, taken from the directory of the importing file. -/
def fullPath (file : OsString) (relative : String) : OsString :=
  Path.render (Path.normalize (Path.joinComponents ((Path.parent? file).getD []) relative))

def probe (fs : FileSystem) (file : OsString) (path : String) (c : Candidate) : Option OsString :=
  (c.path? path).bind fun relative =>
    let full := fullPath file relative
    if c.existsAt fs full then some full else none

/-- The first candidate that exists. -/
def find? (r : Resolver) (fs : FileSystem) (file : OsString) (source : String)
    (kind : DependencyKind) : Option OsString :=
  (r.naming.path? source kind).bind fun path => r.candidates.findSome? (probe fs file path)

/-- The first candidate that exists, as a text (`resolve`). -/
def resolve (r : Resolver) (fs : FileSystem) (file : OsString) (source : String)
    (kind : DependencyKind) : Option String :=
  (r.find? fs file source kind).map OsString.display

end Resolver

end CodeSurvey
