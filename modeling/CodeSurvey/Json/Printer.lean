import CodeSurvey.Decimal.Shortest
import CodeSurvey.Json.Basic
import CodeSurvey.Text.Basic
/-!
# Writing JSON

Compact text has no blanks; pretty text indents by two blanks and writes empty arrays and objects on
one line. Strings escape quotes, backslashes and control characters only. A double is written with
the fewest digits that read back.
-/
namespace CodeSurvey.Json

/-! ## Strings -/

/-- A character of a string as it is written. -/
def escapeChar (c : Char) : List Char :=
  if c = '"' then ['\\', '"']
  else if c = '\\' then ['\\', '\\']
  else if c.toNat = 8 then ['\\', 'b']
  else if c.toNat = 12 then ['\\', 'f']
  else if c = '\n' then ['\\', 'n']
  else if c = '\r' then ['\\', 'r']
  else if c = '\t' then ['\\', 't']
  else if c.toNat < 32 then
    ['\\', 'u', '0', '0', Nat.digitChar (c.toNat / 16), Nat.digitChar (c.toNat % 16)]
  else [c]

def quote (s : String) : List Char := '"' :: (s.toList.flatMap escapeChar ++ ['"'])

/-! ## Numbers -/

/-- Where a double changes from positional to exponential form, and how many digits an exponent has
at least. -/
structure DoubleFormat where
  leastExponent : Int
  greatestExponent : Int
  exponentDigits : Nat

/-- Exponents from -5 to 15 are written positionally, others with a sign and two digits or more. -/
def doubleFormat : DoubleFormat := ⟨-5, 15, 2⟩

/-- Digits with a decimal point after the first `n` of them, filled with zeros. -/
def placePoint (ds : List Char) (n : Nat) : List Char :=
  let whole := ds.take n ++ List.replicate (n - ds.length) '0'
  let rest := ds.drop n
  whole ++ '.' :: (if rest.isEmpty then ['0'] else rest)

/-- A decimal in the given format. -/
def DoubleFormat.write (f : DoubleFormat) (d : Decimal.Digits) : List Char :=
  if f.leastExponent ≤ d.exponent ∧ d.exponent ≤ f.greatestExponent then
    if d.exponent < 0 then
      ['0', '.'] ++ List.replicate (-d.exponent - 1).toNat '0' ++ d.digits
    else placePoint d.digits (d.exponent.toNat + 1)
  else
    let mantissa := match d.digits with
      | [] => []
      | [c] => [c]
      | c :: rest => c :: '.' :: rest
    let e := Nat.toDigits 10 d.exponent.natAbs
    mantissa ++ ['e', if d.exponent < 0 then '-' else '+'] ++
      List.replicate (f.exponentDigits - e.length) '0' ++ e

/-- The text of a double; infinities and what is not a number are written as null. -/
def writeDouble (bits : UInt64) : List Char :=
  match Decimal.parts? bits with
  | none => "null".toList
  | some p =>
    (if p.negative then ['-'] else []) ++
      (if p.m = 0 then "0.0".toList else doubleFormat.write (Decimal.shortest p))

def writeInt (n : Int) : List Char :=
  (if n < 0 then ['-'] else []) ++ Nat.toDigits 10 n.natAbs

/-! ## Values -/

mutual

/-- Compact text of a value (`to_string`). -/
def compact : Json → List Char
  | .null => "null".toList
  | .bool true => "true".toList
  | .bool false => "false".toList
  | .int n => writeInt n
  | .double x _ => writeDouble x.bits
  | .str s => quote s
  | .arr xs => '[' :: (Text.join [','] (compactItems xs) ++ [']'])
  | .obj fs => '\x7b' :: (Text.join [','] (compactFields fs) ++ ['\x7d'])

def compactItems : List Json → List (List Char)
  | [] => []
  | x :: xs => compact x :: compactItems xs

def compactFields : List (String × Json) → List (List Char)
  | [] => []
  | (k, v) :: fs => (quote k ++ ':' :: compact v) :: compactFields fs

end

def newLine (level : Nat) : List Char := '\n' :: List.replicate (2 * level) ' '

/-- Pieces on lines of their own between two brackets. -/
def block (level : Nat) (opening closing : Char) (pieces : List (List Char)) : List Char :=
  if pieces.isEmpty then [opening, closing]
  else opening :: (Text.join [','] (pieces.map (newLine (level + 1) ++ ·)) ++ newLine level ++
    [closing])

mutual

/-- Pretty text of a value whose line is indented by a number of levels. -/
def pretty (level : Nat) : Json → List Char
  | .arr xs => block level '[' ']' (prettyItems (level + 1) xs)
  | .obj fs => block level '\x7b' '\x7d' (prettyFields (level + 1) fs)
  | .null => "null".toList
  | .bool true => "true".toList
  | .bool false => "false".toList
  | .int n => writeInt n
  | .double x _ => writeDouble x.bits
  | .str s => quote s

def prettyItems (level : Nat) : List Json → List (List Char)
  | [] => []
  | x :: xs => pretty level x :: prettyItems level xs

def prettyFields (level : Nat) : List (String × Json) → List (List Char)
  | [] => []
  | (k, v) :: fs => (quote k ++ ':' :: ' ' :: pretty level v) :: prettyFields level fs

end

/-- The pretty text of a value (`to_string_pretty`). -/
def toPrettyText (j : Json) : String := String.ofList (pretty 0 j)

/-- Number of UTF-8 bytes of the compact text (`serialized_len`). -/
def byteCount (j : Json) : Nat := Text.size (compact j)

end CodeSurvey.Json
