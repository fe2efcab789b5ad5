import CodeSurvey.OsString
import CodeSurvey.Text.Basic
/-!
# Paths

What a path names is decided by its components. Repeated slashes and a slash at the end count for
nothing, and a dot is a component only at the start of a relative path. `normalize` folds dots and
double dots away as far as that can be done without looking at the file system.
-/
namespace CodeSurvey.Path

def slash : UInt8 := 0x2F

def dot : UInt8 := 0x2E

/-- One step of a path. -/
inductive Component where
  /-- The start of an absolute path. -/
  | root
  /-- The directory itself. -/
  | here
  /-- The directory above. -/
  | up
  /-- An entry of a directory. -/
  | name (s : OsString)
deriving Repr, DecidableEq

/-- The components of a path (`components`). -/
def components (path : OsString) : List Component :=
  let pieces := (Text.splitAt slash path.bytes).filter (! ·.isEmpty)
  let step (p : List UInt8) : Option Component :=
    if p = [dot] then none else if p = [dot, dot] then some .up else some (.name ⟨p⟩)
  let start := if path.bytes.head? = some slash then [Component.root]
    else if pieces.head? = some [dot] then [.here] else []
  start ++ pieces.filterMap step

/-- How a component is written. -/
def Component.bytes : Component → List UInt8
  | .root => []
  | .here => [dot]
  | .up => [dot, dot]
  | .name s => s.bytes

/-- The path of components. -/
def render : List Component → OsString
  | [.root] => ⟨[slash]⟩
  | cs => ⟨[slash].intercalate (cs.map Component.bytes)⟩

def isAbsolute (path : OsString) : Bool := path.bytes.head? == some slash

/-- The last component, if it names an entry (`file_name`). -/
def fileName? (path : OsString) : Option OsString :=
  match (components path).getLast? with
  | some (.name s) => some s
  | _ => none

/-- What follows the last dot of a name; a dot in front starts no extension. -/
def nameExtension? (name : OsString) : Option OsString :=
  let ext := Text.afterLast dot name.bytes
  if ext.length + 1 < name.bytes.length then some ⟨ext⟩ else none

def extension? (path : OsString) : Option OsString := (fileName? path).bind nameExtension?

/-- The components of the directory that holds a path (`parent`); the root and the empty path have
none. -/
def parent? (path : OsString) : Option (List Component) :=
  let cs := components path
  match cs.getLast? with
  | none | some .root => none
  | some _ => some cs.dropLast

/-- A path taken from a directory: an absolute one stands for itself. -/
def joinComponents (dir : List Component) (path : OsString) : List Component :=
  if isAbsolute path then components path else dir ++ components path

/-- A path taken from a directory, written down (`join`). -/
def join (dir path : OsString) : OsString :=
  if isAbsolute path || dir.isEmpty then path
  else if dir.bytes.getLast? == some slash then dir ++ path
  else ⟨dir.bytes ++ slash :: path.bytes⟩

/-- Takes one more component onto the steps so far, the last of which stands first. -/
def fold (done : List Component) : Component → List Component
  | .here => done
  | .up => match done with
    | .name _ :: rest => rest
    | _ => .up :: done
  | c => c :: done

/-- Components without dots, and without double dots after a name. -/
def normalize (cs : List Component) : List Component := (cs.foldl fold []).reverse

/-- The normal form of a path (`normalize_path`). -/
def normalizeText (path : OsString) : OsString := render (normalize (components path))

/-! ## Order -/

def Component.rank : Component → Nat
  | .root => 0
  | .here => 1
  | .up => 2
  | .name _ => 3

/-- Order of components: by kind, and names by their bytes. -/
def Component.le (a b : Component) : Bool :=
  match a, b with
  | .name s, .name t => decide (s ≤ t)
  | a, b => a.rank ≤ b.rank

/-- Order of paths, component by component. -/
def leComponents : List Component → List Component → Bool
  | [], _ => true
  | _ :: _, [] => false
  | a :: r, b :: s => if a = b then leComponents r s else a.le b

def le (p q : OsString) : Bool := leComponents (components p) (components q)

end CodeSurvey.Path
