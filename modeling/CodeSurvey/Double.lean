/-!
# Doubles

A double is given by its bits, so that equal doubles are equal terms. Arithmetic goes through the
machine's floating-point numbers.
-/
namespace CodeSurvey

-- powers are those of the core library, whatever a later module imports
attribute [local instance(high)] instPowNat

/-- A double. -/
structure Double where
  bits : UInt64
deriving Repr, DecidableEq

namespace Double

def ofFloat (x : Float) : Double := ⟨x.toBits⟩

def toFloat (x : Double) : Float := Float.ofBits x.bits

/-- The double nearest to a natural number below `2 ^ 64`. -/
def ofNat (n : Nat) : Double := ofFloat (UInt64.ofNat n).toFloat

/-- The double nearest to an integer between `- 2 ^ 64` and `2 ^ 64`. -/
def ofInt (n : Int) : Double :=
  if n < 0 then ofFloat (-(UInt64.ofNat n.natAbs).toFloat) else ofNat n.toNat

def zero : Double := ⟨0⟩

/-- Whether a double is a number: neither an infinity nor the lack of a number. -/
def isFinite (x : Double) : Bool := x.bits.toNat / 2 ^ (52 : Nat) % 2 ^ (11 : Nat) != 2047

instance : Inhabited Double := ⟨zero⟩

/-- The quotient of two natural numbers. -/
def ratio (a b : Nat) : Double := ofFloat ((ofNat a).toFloat / (ofNat b).toFloat)

end Double

end CodeSurvey
