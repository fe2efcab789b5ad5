import CodeSurvey.Path
import CodeSurvey.Text.Utf8
/-!
# File systems

A `FileSystem` is a value: the directories and files below the root, and the working directory, from
which relative paths start. Paths are looked up step by step, so that a missing directory or a file
in the middle of a path is noticed where it stands.
-/
namespace CodeSurvey

/-- Why an operation on a file system fails. -/
inductive IoError where
  | notFound
  | notDirectory
  | isDirectory
  | exists
  | invalidText
  | invalidName
  | nameTooLong
  /-- Any other cause, with its text. -/
  | other (text : String)
deriving Repr, DecidableEq

def IoError.message : IoError → String
  | .notFound => "No such file or directory (os error 2)"
  | .notDirectory => "Not a directory (os error 20)"
  | .isDirectory => "Is a directory (os error 21)"
  | .exists => "File exists (os error 17)"
  | .invalidText => "stream did not contain valid UTF-8"
  | .invalidName => "file name contained an unexpected NUL byte"
  | .nameTooLong => "File name too long (os error 36)"
  | .other text => text

/-- What stands at a place. -/
inductive FileSystem.Entry where
  | dir
  | file (bytes : List UInt8)
deriving Repr, DecidableEq

/-- A place: the names that lead to it from the root. -/
abbrev FileSystem.Place := List OsString

/-- Directories and files by their places, and the place of the working directory. -/
structure FileSystem where
  entries : List (FileSystem.Place × FileSystem.Entry)
  cwd : FileSystem.Place := []
deriving Repr, DecidableEq

namespace FileSystem

def empty : FileSystem := ⟨[], []⟩

/-- What stands at a place. -/
def stored? (fs : FileSystem) : Place → Option Entry
  | [] => some .dir
  | p => fs.entries.lookup p

/-! ## Looking up -/

/-- The steps of a path: a slash at the end asks for a directory. -/
def steps (path : OsString) : List Path.Component :=
  let pieces := Text.splitAt Path.slash path.bytes
  let step (p : List UInt8) : Option Path.Component :=
    if p.isEmpty then none
    else if p = [Path.dot] then some .here
    else if p = [Path.dot, Path.dot] then some .up
    else some (.name ⟨p⟩)
  (if path.bytes.head? = some Path.slash then [.root] else []) ++ pieces.filterMap step ++
    (if path.bytes.getLast? = some Path.slash then [.here] else [])

def step (p : Place) : Path.Component → Except IoError Place
  | .root => .ok []
  | .here => .ok p
  | .up => .ok p.dropLast
  | .name s => if 255 < s.bytes.length then .error .nameTooLong else .ok (p ++ [s])

/-- Follows steps; each place left behind has to be a directory. -/
def follow (fs : FileSystem) (p : Place) : List Path.Component → Except IoError Place
  | [] => match fs.stored? p with
    | some _ => .ok p
    | none => .error .notFound
  | c :: rest => match fs.stored? p with
    | some .dir => match step p c with
      | .ok q => follow fs q rest
      | .error e => .error e
    | some (.file _) => .error .notDirectory
    | none => .error .notFound

/-- Where a path starts. -/
def origin (fs : FileSystem) (path : OsString) : Place :=
  if Path.isAbsolute path then [] else fs.cwd

def hasNul (path : OsString) : Bool := path.bytes.contains 0

/-- The place of an existing path. -/
def locate (fs : FileSystem) (path : OsString) : Except IoError Place :=
  if hasNul path then .error .invalidName
  else if path.isEmpty then .error .notFound
  else fs.follow (fs.origin path) (steps path)

def find (fs : FileSystem) (path : OsString) : Except IoError Entry :=
  match fs.locate path with
  | .ok p => match fs.stored? p with
    | some e => .ok e
    | none => .error .notFound
  | .error e => .error e

/-- Whether a path names a file (`is_file`). -/
def isFile (fs : FileSystem) (path : OsString) : Bool :=
  match fs.find path with
  | .ok (.file _) => true
  | _ => false

/-- Whether a path names something (`exists`). -/
def holds (fs : FileSystem) (path : OsString) : Bool := (fs.find path).isOk

/-- Whether a path names a directory (`is_dir`). -/
def isDir (fs : FileSystem) (path : OsString) : Bool :=
  match fs.find path with
  | .ok .dir => true
  | _ => false

/-- The bytes of a file (`read`). -/
def readBytes (fs : FileSystem) (path : OsString) : Except IoError (List UInt8) :=
  match fs.find path with
  | .ok (.file bytes) => .ok bytes
  | .ok .dir => .error .isDirectory
  | .error e => .error e

def readText (fs : FileSystem) (path : OsString) : Except IoError String :=
  match fs.readBytes path with
  | .ok bytes => match Utf8.decode? bytes with
    | some cs => .ok (String.ofList cs)
    | none => .error .invalidText
  | .error e => .error e

/-- The entries directly below a place, in the order in which they were made. -/
def children (fs : FileSystem) (p : Place) : List (OsString × Entry) :=
  fs.entries.filterMap fun (names, e) =>
    match names.getLast? with
    | some last => if names.dropLast = p then some (last, e) else none
    | none => none

/-- The names in a directory (`read_dir`). -/
def names (fs : FileSystem) (path : OsString) : Except IoError (List OsString) :=
  match fs.locate path with
  | .ok p => match fs.stored? p with
    | some .dir => .ok ((fs.children p).map (·.1))
    | _ => .error .notDirectory
  | .error e => .error e

/-! ## Changing -/

/-- Puts an entry at a place, instead of what stood there. -/
def put (fs : FileSystem) (p : Place) (e : Entry) : FileSystem :=
  if (fs.entries.lookup p).isSome then
    { fs with entries := fs.entries.map fun x => if x.1 = p then (p, e) else x }
  else { fs with entries := fs.entries ++ [(p, e)] }

def erase (fs : FileSystem) (p : Place) : FileSystem :=
  { fs with entries := fs.entries.filter fun x => x.1 != p }

/-- Takes away a place and everything below it. -/
def drop (fs : FileSystem) (p : Place) : FileSystem :=
  { fs with entries := fs.entries.filter fun x => !(p.isPrefixOf x.1) }

/-- Follows steps and makes the directories that are missing. -/
def makeSteps (fs : FileSystem) (p : Place) :
    List Path.Component → Except IoError (FileSystem × Place)
  | [] => .ok (fs, p)
  | c :: rest => match step p c with
    | .error e => .error e
    | .ok q => match fs.stored? q with
      | some .dir => makeSteps fs q rest
      | some (.file _) => .error (if rest.isEmpty then .exists else .notDirectory)
      | none => makeSteps (fs.put q .dir) q rest

/-- Makes a directory and those above it; nothing to do for the empty path (`create_dir_all`). -/
def makeDirs (fs : FileSystem) (path : OsString) : Except IoError FileSystem :=
  if hasNul path then .error .invalidName
  else if path.isEmpty then .ok fs
  else match fs.stored? (fs.origin path) with
    | some .dir => (fs.makeSteps (fs.origin path) (Path.components path)).map (·.1)
    | _ => .error .notFound

/-- Writes a file in an existing directory (`write`). -/
def writeFile (fs : FileSystem) (path : OsString) (bytes : List UInt8) :
    Except IoError FileSystem :=
  if hasNul path then .error .invalidName
  else
    let cs := steps path
    match cs.getLast? with
    | some (.name s) => match fs.follow (fs.origin path) cs.dropLast with
      | .error e => .error e
      | .ok p => match fs.stored? p with
        | some .dir => match step p (.name s) with
          | .error e => .error e
          | .ok q => match fs.stored? q with
            | some .dir => .error .isDirectory
            | _ => .ok (fs.put q (.file bytes))
        | _ => .error .notDirectory
    | none => .error .notFound
    | _ => .error .isDirectory

/-- Deletes a file (`remove_file`). -/
def removeFile (fs : FileSystem) (path : OsString) : Except IoError FileSystem :=
  match fs.locate path with
  | .error e => .error e
  | .ok p => match fs.stored? p with
    | some (.file _) => .ok (fs.erase p)
    | some .dir => .error .isDirectory
    | none => .error .notFound

/-- Deletes a file, or a directory with everything in it; nothing to do if there
is none. -/
def removeAll (fs : FileSystem) (path : OsString) : FileSystem :=
  match fs.locate path with
  | .ok (n :: ns) => fs.drop (n :: ns)
  | _ => fs

/-- Makes a file and the directories above it; what cannot be made is left out. -/
def plant (fs : FileSystem) (path : OsString) (bytes : List UInt8) : FileSystem :=
  let above := Path.render (Path.components path).dropLast
  let fs := (fs.makeDirs above).toOption.getD fs
  (fs.writeFile path bytes).toOption.getD fs

/-! ## Walking -/

/-- The files below a place: their names from there on. A directory whose name starts with a dot is
passed over. -/
def filesBelow (fs : FileSystem) (top : Place) : List (List OsString × List UInt8) :=
  fs.entries.filterMap fun (names, e) =>
    match e, top.isPrefixOf? names with
    | .file bytes, some rest =>
      if rest.dropLast.any fun d => d.bytes.head? == some Path.dot then none
      else some (rest, bytes)
    | _, _ => none

end FileSystem

end CodeSurvey
