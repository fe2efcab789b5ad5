/-!
# Blank characters

The characters that separate words: those with the Unicode property *White_Space*.
-/
namespace CodeSurvey.Text

/-- A character that separates words. -/
def isBlank (c : Char) : Bool :=
  let n := c.toNat
  (9 ≤ n && n ≤ 13) || n == 0x20 || n == 0x85 || n == 0xA0 || n == 0x1680 ||
    (0x2000 ≤ n && n ≤ 0x200A) || n == 0x2028 || n == 0x2029 || n == 0x202F || n == 0x205F ||
    n == 0x3000

/-- A blank that keeps the line: a space or a tab. -/
def isPad (c : Char) : Bool := c == ' ' || c == '\t'

end CodeSurvey.Text
