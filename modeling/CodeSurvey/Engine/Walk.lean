import CodeSurvey.Config.Settings
import CodeSurvey.Provider.Registry
/-!
# Walking directories

The files below a directory that an engine analyzes: those that some provider claims and that no
exclude glob matches. Directories whose names start with a dot are passed over.
-/
namespace CodeSurvey

/-- A file that was found on a walk. -/
structure Found where
  /-- Its path, which starts with the root of the walk. -/
  path : OsString
  /-- Its path from the root on. -/
  relative : OsString
  bytes : List UInt8

namespace Found

def isClaimed (ps : Providers) (f : Found) : Bool :=
  (ps.detect? f.path none).isSome ||
    (ps.detect? f.path (some (Utf8.decodeLossy (f.bytes.take leadingBytes)))).isSome

def isExcluded (globs : EngineSettings.Exclusions) (f : Found) : Bool :=
  globs.isMatch f.relative || globs.isMatch f.path

/-- All files at and below a root. -/
def below (fs : FileSystem) (root : OsString) : List Found :=
  match fs.locate root with
  | .ok top => (fs.filesBelow top).map fun (names, bytes) =>
      ⟨names.foldl Path.join root, Path.render (names.map .name), bytes⟩
  | .error _ => []

end Found

/-- The paths of the files below a root that are to be analyzed, in order (`collect_files`). -/
def claimedFiles (ps : Providers) (globs : EngineSettings.Exclusions) (fs : FileSystem)
    (root : OsString) : List OsString :=
  (((Found.below fs root).filter fun f => !f.isExcluded globs && f.isClaimed ps).map
    (·.path)).mergeSort Path.le

end CodeSurvey
