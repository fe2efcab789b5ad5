import CodeSurvey.Json.Basic
/-!
# Records as JSON

Helpers for writing a record as an object and for reading it back. When reading, unknown fields are
passed over, an optional field may be absent or null, and an array stands for the object with the
same values in the order of the fields.
-/
namespace CodeSurvey.Json

/-! ## Writing -/

def always (name : String) (v : Json) : List (String × Json) := [(name, v)]

/-- A field that is written if there is a value (`skip_serializing_if`). -/
def whenSome {α : Type} (name : String) (write : α → Json) : Option α → List (String × Json)
  | some a => [(name, write a)]
  | none => []

def orNull {α : Type} (write : α → Json) : Option α → Json
  | some a => write a
  | none => .null

def list {α : Type} (write : α → Json) (xs : List α) : Json := .arr (xs.map write)

def texts (xs : List String) : Json := list .str xs

def dict {α : Type} (write : α → Json) (d : Dict α) : Json :=
  .obj (d.entries.map fun e => (e.1, write e.2))

/-! ## Reading -/

/-- A record given as an object, or as an array of the values of its first fields. -/
def record? (names : List String) : Json → Option Json
  | .obj fs => some (.obj fs)
  | .arr xs => if xs.length ≤ names.length then some (.obj (names.zip xs)) else none
  | _ => none

/-- A field that has to be there. -/
def need {α : Type} (j : Json) (name : String) (read : Json → Option α) : Option α :=
  (j.field? name).bind read

def nullable {α : Type} (read : Json → Option α) : Json → Option (Option α)
  | .null => some none
  | v => (read v).map some

/-- A field that may be absent or null. -/
def maybe {α : Type} (j : Json) (name : String) (read : Json → Option α) : Option (Option α) :=
  match j.field? name with
  | none => some none
  | some v => nullable read v

/-- A field that may be absent, with the value that it then has (`default`). -/
def orElse {α : Type} (j : Json) (name : String) (read : Json → Option α) (absent : α) : Option α :=
  match j.field? name with
  | none => some absent
  | some v => read v

def readAll {α : Type} (read : Json → Option α) : List Json → Option (List α)
  | [] => some []
  | x :: xs => match read x with
    | none => none
    | some a => (readAll read xs).map (a :: ·)

def list? {α : Type} (read : Json → Option α) (j : Json) : Option (List α) :=
  j.items?.bind (readAll read)

def texts? (j : Json) : Option (List String) := list? text? j

def dict? {α : Type} (read : Json → Option α) (j : Json) : Option (Dict α) :=
  j.fields?.bind fun fs =>
    (readAll (fun v => read v) (fs.map (·.2))).map fun vs => Dict.ofList ((fs.map (·.1)).zip vs)

/-- The word that a value gives: a text, or the only field of an object, which is then null. -/
def tag? : Json → Option String
  | .str s => some s
  | .obj [(s, .null)] => some s
  | _ => none

/-- The one of some values whose word is given. -/
def word? {α : Type} (all : List α) (word : α → String) (j : Json) : Option α :=
  j.tag?.bind fun s => all.find? (word · == s)

end CodeSurvey.Json
