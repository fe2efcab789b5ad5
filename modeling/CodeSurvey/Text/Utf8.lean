/-!
# UTF-8

Bytes of a text, reading bytes back strictly, and reading them with a replacement character for
every part that is not UTF-8. A faulty part is as long as it could still have been the beginning of
a character, and at least one byte.
-/
namespace CodeSurvey.Utf8

-- powers are those of the core library, whatever a later module imports
attribute [local instance(high)] instPowNat

def encodeChar (c : Char) : List UInt8 := String.utf8EncodeChar c

def encode (s : List Char) : List UInt8 := s.flatMap encodeChar

/-- What a sequence with the given first byte looks like: the number of continuation bytes and the
range of the first of them. -/
def leadShape (b : UInt8) : Option (Nat × UInt8 × UInt8) :=
  if 0xC2 ≤ b && b ≤ 0xDF then some (1, 0x80, 0xBF)
  else if b == 0xE0 then some (2, 0xA0, 0xBF)
  else if b == 0xED then some (2, 0x80, 0x9F)
  else if 0xE1 ≤ b && b ≤ 0xEF then some (2, 0x80, 0xBF)
  else if b == 0xF0 then some (3, 0x90, 0xBF)
  else if b == 0xF4 then some (3, 0x80, 0x8F)
  else if 0xF1 ≤ b && b ≤ 0xF3 then some (3, 0x80, 0xBF)
  else none

/-- Takes `n` continuation bytes, the first within the given range: the code point and the number of
bytes taken, or the number of bytes that fitted before the fault. -/
def continuation (lo hi : UInt8) : Nat → Nat → Nat → List UInt8 → Except Nat (Nat × Nat)
  | 0, code, used, _ => .ok (code, used)
  | _ + 1, _, used, [] => .error used
  | n + 1, code, used, b :: r =>
    if lo ≤ b && b ≤ hi then
      continuation 0x80 0xBF n (code * 64 + (b.toNat - 0x80)) (used + 1) r
    else .error used

/-- Reads one character: the character and its width, or the width of the faulty part. -/
def decodeOne (b : UInt8) (rest : List UInt8) : Except Nat (Char × Nat) :=
  if b < 0x80 then .ok (Char.ofNat b.toNat, 1)
  else match leadShape b with
    | none => .error 1
    | some (n, lo, hi) =>
      let lead := b.toNat % 2 ^ (6 - n)
      (continuation lo hi n lead 1 rest).map fun (code, used) => (Char.ofNat code, used)

/-- Reads characters, skipping the bytes already consumed. -/
def decodeFrom (lossy : Bool) : Nat → List UInt8 → Option (List Char)
  | _, [] => some []
  | skip + 1, _ :: r => decodeFrom lossy skip r
  | 0, b :: r => match decodeOne b r with
    | .ok (c, used) => (decodeFrom lossy (used - 1) r).map (c :: ·)
    | .error used =>
      if lossy then (decodeFrom lossy (used - 1) r).map (Char.ofNat 0xFFFD :: ·) else none

/-- The text of some bytes, if they are UTF-8 (`from_utf8`). -/
def decode? (bytes : List UInt8) : Option (List Char) := decodeFrom false 0 bytes

/-- The text of some bytes, each faulty part replaced (`from_utf8_lossy`). -/
def decodeLossy (bytes : List UInt8) : List Char := (decodeFrom true 0 bytes).getD []

end CodeSurvey.Utf8
