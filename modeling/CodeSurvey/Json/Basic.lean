import CodeSurvey.Dict
import CodeSurvey.Double
/-!
# JSON values

Integers and doubles are kept apart. A double is given by its bits, so that equal values are equal
terms, and it is always a number: where a double is none, the value is null. The fields of an object
stand in the order in which they are written.
-/
namespace CodeSurvey

-- powers are those of the core library, whatever a later module imports
attribute [local instance(high)] instPowNat

/-- A JSON value. -/
inductive Json where
  | null
  | bool (b : Bool)
  | int (n : Int)
  | double (x : Double) (finite : x.isFinite = true)
  | str (s : String)
  | arr (items : List Json)
  | obj (fields : List (String × Json))
deriving Repr, Inhabited

namespace Json

/-- A double as a value; null if it is no number. -/
def ofDouble (x : Double) : Json := if h : x.isFinite = true then .double x h else .null

def ofNat (n : Nat) : Json := .int n

/-- The object with the given fields in ascending order; of several with one name the last
counts. -/
def object (fields : List (String × Json)) : Json := .obj (Dict.ofList fields).entries

def fields? : Json → Option (List (String × Json))
  | .obj fs => some fs
  | _ => none

/-- The value of a field; absent fields and values that are no objects give none. -/
def field? (j : Json) (name : String) : Option Json :=
  j.fields?.bind (·.lookup name)

def items? : Json → Option (List Json)
  | .arr xs => some xs
  | _ => none

def text? : Json → Option String
  | .str s => some s
  | _ => none

def bool? : Json → Option Bool
  | .bool b => some b
  | _ => none

/-- A whole number that is not negative and below a bound. -/
def natBelow? (bound : Nat) : Json → Option Nat
  | .int n => if 0 ≤ n ∧ n < bound then some n.toNat else none
  | _ => none

theorem natBelow?_ofNat {b n : Nat} (h : n < b) : natBelow? b (.ofNat n) = some n := by
  have hb : (0 : Int) ≤ n ∧ (n : Int) < b := by omega
  rw [ofNat, natBelow?, if_pos hb]
  rfl

def nat64? : Json → Option Nat := natBelow? (2 ^ (64 : Nat))

def nat32? : Json → Option Nat := natBelow? (2 ^ (32 : Nat))

def double? : Json → Option Double
  | .int n => some (.ofInt n)
  | .double x _ => some x
  | _ => none

def isNull : Json → Bool
  | .null => true
  | _ => false

end Json

end CodeSurvey
