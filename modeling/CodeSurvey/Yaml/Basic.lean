import CodeSurvey.Json.Basic
import CodeSurvey.Text.Basic
/-!
# YAML values

A parsed YAML document, and what its scalars mean. Scalars keep their text; whether one stands for a
number, a truth value or nothing is decided where it is used, and only plain scalars can.
-/
namespace CodeSurvey

-- powers are those of the core library, whatever a later module imports
attribute [local instance(high)] instPowNat

/-- A YAML value. -/
inductive Yaml where
  | scalar (text : String) (plain : Bool)
  | seq (items : List Yaml)
  | map (entries : List (Yaml × Yaml))
deriving Repr, Inhabited

namespace Yaml

open Text

/-- The value of a place where nothing is written. -/
def nothing : Yaml := .scalar "" true

def isNothing : Yaml → Bool
  | .scalar text plain => plain && text.isEmpty
  | _ => false

/-! ## Plain scalars -/

def meansNull (text : String) : Bool := ["", "null", "Null", "NULL", "~"].contains text

def truth? (text : String) : Option Bool :=
  if ["true", "True", "TRUE"].contains text then some true
  else if ["false", "False", "FALSE"].contains text then some false
  else none

def digitValue (c : Char) : Nat :=
  if c.isDigit then c.toNat - '0'.toNat
  else if 'a' ≤ c ∧ c ≤ 'z' then c.toNat - 'a'.toNat + 10
  else if 'A' ≤ c ∧ c ≤ 'Z' then c.toNat - 'A'.toNat + 10
  else 36

/-- A natural number from its digits in a base. -/
def digits? (base : Nat) (cs : List Char) : Option Nat :=
  if cs.isEmpty || cs.any fun c => base ≤ digitValue c then none
  else some (cs.foldl (fun n c => n * base + digitValue c) 0)

/-- The base that the start of a number names, with the digits after it. -/
def based? : List Char → Option (Nat × List Char)
  | '0' :: 'x' :: r => some (16, r)
  | '0' :: 'o' :: r => some (8, r)
  | '0' :: 'b' :: r => some (2, r)
  | _ => none

/-- Whether digits start with a needless zero; they are then a text. -/
def isPadded (digits : List Char) : Bool :=
  match digits with
  | '0' :: c :: r => (c :: r).all Char.isDigit
  | _ => false

/-- The magnitude of a number without its sign. -/
def magnitude? (cs : List Char) : Option Nat :=
  match based? cs with
  | some (base, digits) => digits? base digits
  | none => if isPadded cs then none else digits? 10 cs

def integer? (text : String) : Option Int :=
  match text.toList with
  | '-' :: cs => (magnitude? cs).map fun n => -(n : Int)
  | '+' :: cs => (magnitude? cs).map Int.ofNat
  | cs => (magnitude? cs).map Int.ofNat

/-- The exponent after the letter that announces it. -/
def exponent? : List Char → Option Int
  | '-' :: cs => (digits? 10 cs).map fun n => -(n : Int)
  | '+' :: cs => (digits? 10 cs).map Int.ofNat
  | cs => (digits? 10 cs).map Int.ofNat

/-- The double of decimal digits before and after the point and an exponent. -/
def decimal? (negative : Bool) (whole fraction : List Char) (exponent : Int) : Option Double :=
  match digits? 10 (whole ++ fraction) with
  | none => none
  | some m =>
    let e := exponent - fraction.length
    let x := Float.ofScientific m (e < 0) (min e.natAbs 100000)
    let x := if negative then -x else x
    if x.isFinite then some (.ofFloat x) else none

/-- The double that an unsigned decimal means. -/
def unsignedDouble? (negative : Bool) (cs : List Char) : Option Double :=
  let isExponent (c : Char) : Bool := c == 'e' || c == 'E'
  let mantissa := cs.takeWhile fun c => !isExponent c
  let tail := cs.dropWhile fun c => !isExponent c
  let whole := mantissa.takeWhile Char.isDigit
  match mantissa.dropWhile Char.isDigit, tail with
  | [], [] => decimal? negative whole [] 0
  | '.' :: fraction, [] => decimal? negative whole fraction 0
  | [], _ :: e => (exponent? e).bind (decimal? negative whole [])
  | '.' :: fraction, _ :: e => (exponent? e).bind (decimal? negative whole fraction)
  | _, _ => none

/-- The finite double that a plain scalar means. -/
def double? (text : String) : Option Double :=
  match text.toList with
  | '-' :: cs => unsignedDouble? true cs
  | '+' :: cs => unsignedDouble? false cs
  | cs => unsignedDouble? false cs

/-- Whether a plain scalar means an infinity or what is not a number. -/
def meansNonFinite (text : String) : Bool :=
  [".inf", ".Inf", ".INF", "+.inf", "+.Inf", "+.INF", "-.inf", "-.Inf", "-.INF", ".nan", ".NaN",
    ".NAN"].contains text

def unsigned (text : String) : List Char :=
  match text.toList with
  | '-' :: cs | '+' :: cs => cs
  | cs => cs

/-- What a plain scalar means if nothing is known about it. Integers beyond 64 bits that still fit
128 bits are refused, and numbers that are not finite mean null. -/
def plainValue? (text : String) : Option Json :=
  if meansNull text then some .null
  else match truth? text, integer? text with
    | some b, _ => some (.bool b)
    | none, some n =>
      if -(2 ^ (63 : Nat) : Int) ≤ n ∧ n < 2 ^ (64 : Nat) then some (.int n)
      else if -(2 ^ (127 : Nat) : Int) ≤ n ∧ n < 2 ^ (128 : Nat) then none
      else some (((double? text).map Json.ofDouble).getD (.str text))
    | none, none =>
      if isPadded (unsigned text) then some (.str text)
      else if meansNonFinite text then some .null
      else some (((double? text).map Json.ofDouble).getD (.str text))

/-! ## Typed readings -/

def text? : Yaml → Option String
  | .scalar text _ => some text
  | _ => none

def bool? : Yaml → Option Bool
  | .scalar text true => truth? text
  | _ => none

def nat64? : Yaml → Option Nat
  | .scalar text true => (integer? text).bind fun n =>
    if text.toList.head? != some '-' && n < 2 ^ (64 : Nat) then some n.toNat else none
  | _ => none

def nullable {α : Type} (read : Yaml → Option α) : Yaml → Option (Option α)
  | .scalar text true => if meansNull text then some none else (read (.scalar text true)).map some
  | y => (read y).map some

def readAll {α : Type} (read : Yaml → Option α) : List Yaml → Option (List α)
  | [] => some []
  | y :: ys => match read y with
    | none => none
    | some a => (readAll read ys).map (a :: ·)

/-- A list; where nothing is written it is empty. -/
def list? {α : Type} (read : Yaml → Option α) : Yaml → Option (List α)
  | .seq ys => readAll read ys
  | y => if y.isNothing then some [] else none

/-- Reads every entry of a map under its text. -/
def readEntries {α : Type} (read : Yaml → Option α) :
    List (Yaml × Yaml) → Option (List (String × α))
  | [] => some []
  | (k, v) :: es => match k.text?, read v with
    | some name, some a => (readEntries read es).map ((name, a) :: ·)
    | _, _ => none

/-- A dictionary, in which the last of several entries of one name counts; where nothing is written
it is empty. -/
def dict? {α : Type} (read : Yaml → Option α) : Yaml → Option (Dict α)
  | .map es => (readEntries read es).map Dict.ofList
  | y => if y.isNothing then some .empty else none

mutual

def value? : Yaml → Option Json
  | .scalar text true => plainValue? text
  | .scalar text false => some (.str text)
  | .seq ys => (values? ys).map .arr
  | .map es => (entries? es).map .object

def values? : List Yaml → Option (List Json)
  | [] => some []
  | y :: ys => match value? y, values? ys with
    | some j, some js => some (j :: js)
    | _, _ => none

def entries? : List (Yaml × Yaml) → Option (List (String × Json))
  | [] => some []
  | (k, v) :: es => match k.text?, value? v, entries? es with
    | some name, some j, some js => some ((name, j) :: js)
    | _, _, _ => none

end

/-! ## Records -/

/-- The fields of a record: a map in which no field is given twice, or a list of the values in the
order of the fields. Entries of other names are passed over. -/
def record? (names : List String) : Yaml → Option (List (String × Yaml))
  | .map es => (readEntries some es).bind fun fields =>
    let known := fields.filter fun f => names.contains f.1
    if (known.map (·.1)).Nodup then some known else none
  | .seq ys => if ys.length ≤ names.length then some (names.zip ys) else none
  | y => if y.isNothing then some [] else none

/-- A field, with the value that it has if it is absent. -/
def field {α : Type} (fields : List (String × Yaml)) (name : String) (read : Yaml → Option α)
    (absent : α) : Option α :=
  match fields.lookup name with
  | none => some absent
  | some y => read y

end Yaml

end CodeSurvey
