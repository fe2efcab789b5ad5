import CodeSurvey.Cache.Basic
/-!
# Cache audits

A scan of a cache directory finds the files that are corrupt and those that have expired; a repair
deletes both.
-/
namespace CodeSurvey

open Json

/-- What a scan of a cache directory found (`CacheReport`). -/
structure CacheAudit where
  scanned : Nat := 0
  corrupt : List OsString := []
  expired : List OsString := []
  /-- The files that were deleted. -/
  removed : List OsString := []
deriving Repr, DecidableEq

namespace CacheAudit

def toJson (r : CacheAudit) : Json :=
  let paths (ps : List OsString) := texts (ps.map OsString.display)
  .obj [("scanned", ofNat r.scanned), ("corrupt", paths r.corrupt), ("expired", paths r.expired),
    ("removed", paths r.removed)]

/-- Whether nothing is corrupt (`is_clean`). -/
def isSound (r : CacheAudit) : Bool := r.corrupt.isEmpty

/-- The audit, or an error if something is corrupt (`into_result`). -/
def check (r : CacheAudit) : Except SurveyError CacheAudit :=
  if r.isSound then .ok r else .error (.cacheCorruption (r.corrupt.map OsString.display))

def add {α : Type} (now : Nat) (r : CacheAudit) (path : OsString) : Reading α → CacheAudit
  | .found _ h =>
    if h.isLive now then { r with scanned := r.scanned + 1 }
    else { r with scanned := r.scanned + 1, expired := r.expired ++ [path] }
  | .missing => { r with scanned := r.scanned + 1 }
  | .corrupt => { r with scanned := r.scanned + 1, corrupt := r.corrupt ++ [path] }

end CacheAudit

namespace Cache

variable {α : Type}

/-- Scans the directory (`validate`); without one there is nothing to find. -/
def scan (codec : Codec α) (c : Cache α) (fs : FileSystem) (now : Nat) :
    Except SurveyError CacheAudit :=
  match c.directory with
  | none => .ok {}
  | some dir => match CacheDir.files fs dir with
    | .error e => .error (.io dir.display e)
    | .ok paths => .ok (paths.foldl
        (fun r path => r.add now path (CacheDir.readEntry codec fs path)) {})

/-- Deletes files in order, up to the first one that cannot be deleted. -/
def removeFiles : List OsString → FileSystem → Except SurveyError Unit × FileSystem
  | [], fs => (.ok (), fs)
  | path :: paths, fs => match CacheDir.removeFile fs path with
    | .error e => (.error (.io path.display e), fs)
    | .ok fs => removeFiles paths fs

/-- Deletes the files that are corrupt and those that have expired (`repair`). -/
def repair (codec : Codec α) (c : Cache α) (fs : FileSystem) (now : Nat) :
    Except SurveyError CacheAudit × FileSystem :=
  match c.scan codec fs now with
  | .error e => (.error e, fs)
  | .ok r =>
    let doomed := r.corrupt ++ r.expired
    let (done, fs) := removeFiles doomed fs
    (done.map fun _ => { r with removed := doomed }, fs)

end Cache

end CodeSurvey
