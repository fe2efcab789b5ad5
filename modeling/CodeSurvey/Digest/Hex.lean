/-!
# Hexadecimal text
-/
namespace CodeSurvey.Hex

def digit (n : Nat) : Char := Nat.digitChar n

/-- Two digits for every byte. -/
def encode (bs : List UInt8) : List Char :=
  bs.flatMap fun b => [digit (b.toNat / 16), digit (b.toNat % 16)]

end CodeSurvey.Hex
