import CodeSurvey.Cache.Recent
import CodeSurvey.Digest.Hex
import CodeSurvey.Digest.Sha256
import CodeSurvey.FileSystem
import CodeSurvey.Json.Printer
import CodeSurvey.Json.Reader
import CodeSurvey.Json.Record
/-!
# Cache directories

Entries in files of a directory, one file for a key. A file is named for the digest of its key and
holds the key itself as well, so that a misplaced file is noticed.
-/
namespace CodeSurvey

/-- How the values of a type are written and read. -/
structure Codec (α : Type) where
  write : α → Json
  read : Json → Option α

def Codec.json : Codec Json := ⟨fun v => v, some⟩

/-- What a file of a cache directory holds (`DiskRead`). -/
inductive Reading (α : Type) where
  | missing
  /-- It cannot be read, or it is not the file of its key. -/
  | corrupt
  | found (key : String) (held : Held α)

namespace CacheDir

variable {α : Type}

def fileName (key : String) : String :=
  String.ofList (Hex.encode (Sha256.digest (Utf8.encode key.toList))) ++ ".json"

/-- The file of a key (`path_for`). -/
def filePath (dir : OsString) (key : String) : OsString := Path.join dir (fileName key)

/-- The content of the file of a key (`Persisted`). -/
def content (codec : Codec α) (key : String) (h : Held α) : List UInt8 :=
  Utf8.encode (Json.compact (.obj [("key", .str key), ("expiresAtMs", Json.ofNat h.expires),
    ("value", codec.write h.value)]))

def ofContent? (codec : Codec α) (bytes : List UInt8) : Option (String × Held α) := do
  let j ← Json.read? (← Utf8.decode? bytes)
  let j ← j.record? ["key", "expiresAtMs", "value"]
  return (← j.need "key" Json.text?,
    ⟨← j.need "value" codec.read, ← j.need "expiresAtMs" Json.nat64?⟩)

/-- Reads a file and checks that it is the one of its key (`read_file`). -/
def readEntry (codec : Codec α) (fs : FileSystem) (path : OsString) : Reading α :=
  match fs.readBytes path with
  | .error .notFound => .missing
  | .error _ => .corrupt
  | .ok bytes => match ofContent? codec bytes with
    | none => .corrupt
    | some (key, h) => if Path.fileName? path == some (↑(fileName key)) then .found key h else .corrupt

def read (codec : Codec α) (fs : FileSystem) (dir : OsString) (key : String) : Reading α :=
  match readEntry codec fs (filePath dir key) with
  | .found k h => if k = key then .found k h else .corrupt
  | r => r

/-- Writes the entry of a key (`write`); where that is not possible nothing changes. -/
def write (codec : Codec α) (fs : FileSystem) (dir : OsString) (key : String) (h : Held α) :
    FileSystem :=
  (fs.writeFile (filePath dir key) (content codec key h)).toOption.getD fs

/-- Deletes a file (`remove_if_present`); a missing one is fine. -/
def removeFile (fs : FileSystem) (path : OsString) : Except IoError FileSystem :=
  match fs.removeFile path with
  | .error .notFound => .ok fs
  | r => r

def tryRemoveFile (fs : FileSystem) (path : OsString) : FileSystem :=
  (removeFile fs path).toOption.getD fs

def remove (fs : FileSystem) (dir : OsString) (key : String) : FileSystem :=
  tryRemoveFile fs (filePath dir key)

/-- The entry files of a directory in order (`files`). -/
def files (fs : FileSystem) (dir : OsString) : Except IoError (List OsString) :=
  (fs.names dir).map fun names =>
    ((names.filter fun n => Path.nameExtension? n == some ↑"json").mergeSort (· ≤ ·)).map
      (Path.join dir)

/-- Deletes the entry files of a directory as far as that is possible. -/
def clear (fs : FileSystem) (dir : OsString) : FileSystem :=
  ((files fs dir).toOption.getD []).foldl tryRemoveFile fs

/-- Deletes those of some files whose key is chosen, and gives the keys of those that went. -/
def removeWhere (codec : Codec α) (chosen : String → Bool) :
    List OsString → FileSystem → List String × FileSystem
  | [], fs => ([], fs)
  | path :: paths, fs => match readEntry codec fs path with
    | .found key _ =>
      if chosen key then
        match removeFile fs path with
        | .ok fs => let (keys, fs) := removeWhere codec chosen paths fs; (key :: keys, fs)
        | .error _ => removeWhere codec chosen paths fs
      else removeWhere codec chosen paths fs
    | _ => removeWhere codec chosen paths fs

end CacheDir

end CodeSurvey
