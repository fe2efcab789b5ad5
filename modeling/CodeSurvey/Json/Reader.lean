import CodeSurvey.Json.Basic
/-!
# Reading JSON

`Json.read?` reads a whole text. Arrays and objects may be nested 127 deep. Whole numbers that fit
64 bits stay whole numbers; all others are read as a significand of 64 bits scaled by one power of
ten at a time, and a magnitude beyond the largest double is an error. Control characters in strings
and unpaired surrogates are errors.
-/
namespace CodeSurvey.Json

-- powers are those of the core library, whatever a later module imports
attribute [local instance(high)] instPowNat

/-- Reads something from the front of a text and leaves the rest. -/
abbrev Reader (α : Type) := List Char → Option (α × List Char)

def isSpace (c : Char) : Bool := c == ' ' || c == '\n' || c == '\t' || c == '\r'

def skipSpace (s : List Char) : List Char := s.dropWhile isSpace

/-! ## Numbers -/

/-- Digits accumulated into a significand as long as it stays below 2^64: the significand, how many
digits were taken, and the rest. -/
def significand (acc taken : Nat) : List Char → Nat × Nat × List Char
  | [] => (acc, taken, [])
  | c :: r =>
    if c.isDigit && acc * 10 + (c.toNat - 48) < 2 ^ (64 : Nat) then
      significand (acc * 10 + (c.toNat - 48)) (taken + 1) r
    else (acc, taken, c :: r)

/-- `f · 10 ^ exponent`, one multiplication or division by a power up to 10^308 at a time; none if
the magnitude is too large. -/
def scale : Nat → Float → Int → Option Float
  | 0, f, _ => some f
  | fuel + 1, f, exponent =>
    if exponent.natAbs ≤ 308 then
      let power := Float.ofScientific 1 false exponent.natAbs
      if 0 ≤ exponent then
        let g := f * power
        if g.isInf then none else some g
      else some (f / power)
    else if f == 0 then some f
    else if 0 ≤ exponent then none
    else scale fuel (f / Float.ofScientific 1 false 308) (exponent + 308)

/-- A double from its sign, significand and power of ten. -/
def assemble (negative : Bool) (sig : Nat) (exponent : Int) : Option Json :=
  (scale (exponent.natAbs / 308 + 2) (UInt64.ofNat sig).toFloat exponent).map fun f =>
    ofDouble (.ofFloat <| if negative then -f else f)

/-- Reads the digits of an exponent; the magnitude is capped far beyond every double. -/
def exponentDigits (acc : Nat) : List Char → Nat × List Char
  | [] => (acc, [])
  | c :: r => if c.isDigit then exponentDigits (min (acc * 10 + (c.toNat - 48)) (2 ^ (31 : Nat))) r
    else (acc, c :: r)

/-- Whether the sign of an exponent is negative, and what follows the sign. -/
def exponentSign : List Char → Bool × List Char
  | '+' :: r => (false, r)
  | '-' :: r => (true, r)
  | s => (false, s)

/-- Reads the rest of a number after the letter of its exponent. -/
def readExponent (negative : Bool) (sig : Nat) (start : Int) (s : List Char) :
    Option (Json × List Char) :=
  let (down, s) := exponentSign s
  match s with
  | c :: _ =>
    if c.isDigit then
      let (e, rest) := exponentDigits 0 s
      if 2 ^ (31 : Nat) ≤ e then
        if sig ≠ 0 && !down then none
        else some (ofDouble (.ofFloat <| if negative then -0.0 else 0.0), rest)
      else (assemble negative sig (if down then start - e else start + e)).map (·, rest)
    else none
  | [] => none

/-- Reads what follows the digits of a number: an exponent or nothing. -/
def readScaled (negative : Bool) (sig : Nat) (exponent : Int) (s : List Char) :
    Option (Json × List Char) :=
  match s with
  | 'e' :: r | 'E' :: r => readExponent negative sig exponent r
  | _ => (assemble negative sig exponent).map (·, s)

/-- Reads the digits after a decimal point; those beyond the significand's range are passed over. -/
def readFraction (negative : Bool) (sig : Nat) (exponent : Int) (s : List Char) :
    Option (Json × List Char) :=
  let (sig', taken, rest) := significand sig 0 s
  if taken = 0 ∧ !(rest.head?.any Char.isDigit) then none
  else readScaled negative sig' (exponent - taken) (rest.dropWhile Char.isDigit)

/-- Reads a number after its sign. -/
def readUnsigned (negative : Bool) (s : List Char) : Option (Json × List Char) :=
  match s with
  | [] => none
  | c :: after =>
    if !c.isDigit then none
    else if c == '0' && after.head?.any Char.isDigit then none
    else
      let (sig, _, rest) := significand 0 0 s
      if rest.head?.any Char.isDigit then
        let extra := rest.takeWhile Char.isDigit
        let rest := rest.dropWhile Char.isDigit
        match rest with
        | '.' :: r => readFraction negative sig extra.length r
        | _ => readScaled negative sig extra.length rest
      else match rest with
        | '.' :: r => readFraction negative sig 0 r
        | 'e' :: r | 'E' :: r => readExponent negative sig 0 r
        | _ =>
          if negative then
            if sig = 0 ∨ 2 ^ (63 : Nat) < sig then
              some (ofDouble (.ofFloat (-(UInt64.ofNat sig).toFloat)), rest)
            else some (.int (-sig), rest)
          else some (.int sig, rest)

def readNumber : Reader Json
  | '-' :: r => readUnsigned true r
  | s => readUnsigned false s

/-! ## Strings -/

def hexDigit? (c : Char) : Option Nat :=
  if c.isDigit then some (c.toNat - 48)
  else if 'a' ≤ c && c ≤ 'f' then some (c.toNat - 87)
  else if 'A' ≤ c && c ≤ 'F' then some (c.toNat - 55)
  else none

def hex4? (a b c d : Char) : Option Nat := do
  return (((← hexDigit? a) * 16 + (← hexDigit? b)) * 16 + (← hexDigit? c)) * 16 + (← hexDigit? d)

/-- The character of a one-letter escape. -/
def shortEscape? : Char → Option Char
  | '"' => some '"'
  | '\\' => some '\\'
  | '/' => some '/'
  | 'b' => some (Char.ofNat 8)
  | 'f' => some (Char.ofNat 12)
  | 'n' => some '\n'
  | 'r' => some '\r'
  | 't' => some '\t'
  | _ => none

/-- Reads the characters of a string after its opening quote. -/
def readChars (acc : List Char) : Reader (List Char)
  | [] => none
  | '"' :: r => some (acc.reverse, r)
  | '\\' :: 'u' :: a :: b :: c :: d :: r =>
    match hex4? a b c d with
    | none => none
    | some n =>
      if 0xD800 ≤ n ∧ n < 0xDC00 then
        match r with
        | '\\' :: 'u' :: a' :: b' :: c' :: d' :: r' =>
          match hex4? a' b' c' d' with
          | none => none
          | some m =>
            if 0xDC00 ≤ m ∧ m < 0xE000 then
              readChars (Char.ofNat (0x10000 + (n - 0xD800) * 0x400 + (m - 0xDC00)) :: acc) r'
            else none
        | _ => none
      else if 0xDC00 ≤ n ∧ n < 0xE000 then none
      else readChars (Char.ofNat n :: acc) r
  | '\\' :: c :: r => match shortEscape? c with
    | some e => readChars (e :: acc) r
    | none => none
  | c :: r => if c.toNat < 32 ∨ c = '\\' then none else readChars (c :: acc) r

def readString : Reader String
  | '"' :: r => (readChars [] r).map fun (cs, rest) => (String.ofList cs, rest)
  | _ => none

/-! ## Values -/

/-- Reads what remains of an array after its first item has begun, up to `fuel` items. -/
def readItems (element : Reader Json) : Nat → Reader (List Json)
  | 0, _ => none
  | fuel + 1, s =>
    match element s with
    | none => none
    | some (x, rest) => match skipSpace rest with
      | ',' :: r => (readItems element fuel (skipSpace r)).map fun (xs, t) => (x :: xs, t)
      | ']' :: r => some ([x], r)
      | _ => none

/-- Reads what remains of an object after its first field has begun, up to `fuel` fields. -/
def readFields (element : Reader Json) : Nat → Reader (List (String × Json))
  | 0, _ => none
  | fuel + 1, s =>
    match readString s with
    | none => none
    | some (k, rest) => match skipSpace rest with
      | ':' :: r => match element (skipSpace r) with
        | none => none
        | some (v, rest) => match skipSpace rest with
          | ',' :: r =>
            (readFields element fuel (skipSpace r)).map fun (fs, t) => ((k, v) :: fs, t)
          | '\x7d' :: r => some ([(k, v)], r)
          | _ => none
      | _ => none

def readWord (word : String) (value : Json) (s : List Char) : Option (Json × List Char) :=
  (word.toList.isPrefixOf? s).map (value, ·)

/-- Reads a value with arrays and objects nested less than `depth` deep. -/
def readValue : Nat → Reader Json
  | 0, _ => none
  | depth + 1, s => match s with
    | [] => none
    | 'n' :: _ => readWord "null" .null s
    | 't' :: _ => readWord "true" (.bool true) s
    | 'f' :: _ => readWord "false" (.bool false) s
    | '"' :: _ => (readString s).map fun (t, rest) => (.str t, rest)
    | '[' :: r =>
      if depth = 0 then none
      else match skipSpace r with
        | ']' :: rest => some (.arr [], rest)
        | r => (readItems (readValue depth) (r.length + 1) r).map fun (xs, rest) => (.arr xs, rest)
    | '\x7b' :: r =>
      if depth = 0 then none
      else match skipSpace r with
        | '\x7d' :: rest => some (.obj [], rest)
        | r =>
          (readFields (readValue depth) (r.length + 1) r).map fun (fs, rest) => (object fs, rest)
    | _ => readNumber s

/-- Reads a whole text as one value (`from_str`). -/
def read? (s : List Char) : Option Json :=
  match readValue 128 (skipSpace s) with
  | some (j, rest) => if (skipSpace rest).isEmpty then some j else none
  | none => none

end CodeSurvey.Json
