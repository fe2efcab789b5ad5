import CodeSurvey.Text.Basic
/-!
# Lines and columns

A `LineIndex` holds the byte offsets at which the lines of a text start, and turns an offset into a
line and a column, both counted from one. An offset past the end belongs to the last line.
-/
namespace CodeSurvey.Text

/-- The byte offsets of the line starts of a text, in ascending order. -/
structure LineIndex where
  starts : List Nat
deriving Repr, DecidableEq

namespace LineIndex

/-- Line starts after the newlines of a text that begins at `offset`. -/
def startsFrom (offset : Nat) : List Char → List Nat
  | [] => []
  | c :: r =>
    let next := offset + c.utf8Size
    if c = '\n' then next :: startsFrom next r else startsFrom next r

/-- The index of a text: the first line starts at zero, each other one after a newline. -/
def ofText (s : List Char) : LineIndex := ⟨0 :: startsFrom 0 s⟩

def line (ix : LineIndex) (offset : Nat) : Nat := (ix.starts.takeWhile (· ≤ offset)).length

def lineStart (ix : LineIndex) (offset : Nat) : Nat :=
  (ix.starts.takeWhile (· ≤ offset)).getLast?.getD 0

/-- Line and column of an offset (`position`). -/
def position (ix : LineIndex) (offset : Nat) : Nat × Nat :=
  (ix.line offset, offset - ix.lineStart offset + 1)

/-- Number of lines (`line_count`); a text that ends in a newline has an empty last one. -/
def lineCount (ix : LineIndex) : Nat := ix.starts.length

end LineIndex

end CodeSurvey.Text
