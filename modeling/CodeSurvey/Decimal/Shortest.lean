/-!
# Shortest decimals

A finite double is `m · 2 ^ q`. The reals that round to it form an interval, closed exactly when `m`
is even. `shortest` gives the decimal with the fewest digits in that interval, and among those the
one nearest to the double. All arithmetic is exact.
-/
namespace CodeSurvey.Decimal

-- powers are those of the core library, whatever a later module imports
attribute [local instance(high)] instPowNat

/-- A double taken apart: its sign, and its magnitude `m · 2 ^ q`. -/
structure Parts where
  negative : Bool
  m : Nat
  q : Int
  /-- Whether the gap below is half the gap above. -/
  tight : Bool
deriving Repr, DecidableEq

/-- The parts of a double given by its bits; none for infinities and for what is not a number. -/
def parts? (bits : UInt64) : Option Parts :=
  let n := bits.toNat
  let fraction := n % 2 ^ (52 : Nat)
  let exponent : Nat := n / 2 ^ (52 : Nat) % 2 ^ (11 : Nat)
  let negative := n / 2 ^ (63 : Nat) == 1
  if exponent = 2047 then none
  else if exponent = 0 then some ⟨negative, fraction, -1074, false⟩
  else some ⟨negative, fraction + 2 ^ (52 : Nat), (exponent : Int) - 1075,
    fraction == 0 && 1 < exponent⟩

/-- Decimal digits and the power of ten of the first of them. -/
structure Digits where
  digits : List Char
  exponent : Int
deriving Repr, DecidableEq

/-- The interval of a positive double as numerators over one denominator: the double, and the ends
of what rounds to it. -/
structure Interval where
  value : Nat
  low : Nat
  high : Nat
  den : Nat
  closed : Bool

/-- The interval of `m · 2 ^ q`. -/
def interval (p : Parts) : Interval :=
  let up := 2 ^ (p.q - 2).toNat
  ⟨4 * p.m * up, (4 * p.m - if p.tight then 1 else 2) * up, (4 * p.m + 2) * up,
    2 ^ (2 - p.q).toNat, p.m % 2 == 0⟩

def Interval.holds (i : Interval) (k : Nat) (e : Int) : Bool :=
  let left := k * 10 ^ e.toNat * i.den
  let scale := 10 ^ (-e).toNat
  if i.closed then i.low * scale ≤ left && left ≤ i.high * scale
  else i.low * scale < left && left < i.high * scale

/-- Of the two multiples of `10 ^ e` around the value, the one in the interval; of two the nearer,
and of two equally near the even one. -/
def Interval.candidate? (i : Interval) (e : Int) : Option Nat :=
  let num := i.value * 10 ^ (-e).toNat
  let den := i.den * 10 ^ e.toNat
  let below := num / den
  let rest := 2 * (num % den)
  match i.holds below e, i.holds (below + 1) e with
  | true, true =>
    some (if rest < den || (rest == den && below % 2 == 0) then below else below + 1)
  | true, false => some below
  | false, true => some (below + 1)
  | false, false => none

/-- Power of ten of the first digit of the value. -/
def Interval.magnitude (i : Interval) : Int :=
  (Nat.toDigits 10 (i.value * 10 ^ (400 : Nat) / i.den)).length - 401

/-- Tries grids of 1, 2, … digits. -/
def Interval.search (i : Interval) (magnitude : Int) : Nat → Nat → Nat × Int
  | 0, _ => (0, 0)
  | fuel + 1, count =>
    let e := magnitude - count
    match i.candidate? e with
    | some k => (k, e)
    | none => i.search magnitude fuel (count + 1)

def dropZeros (ds : List Char) : List Char := (ds.reverse.dropWhile (· == '0')).reverse

/-- The shortest decimal of a positive double. -/
def shortest (p : Parts) : Digits :=
  let i := interval p
  let (k, e) := i.search i.magnitude 18 0
  let ds := Nat.toDigits 10 k
  ⟨dropZeros ds, e + ds.length - 1⟩

end CodeSurvey.Decimal
