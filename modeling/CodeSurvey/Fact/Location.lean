import CodeSurvey.Text.LineIndex
/-!
# Locations

A location is a range of a source, given by the lines and columns of its two ends.
-/
namespace CodeSurvey

/-- A range of a source, its lines and columns counted from one. -/
structure Location where
  line : Nat
  column : Nat
  endLine : Nat
  endColumn : Nat
deriving Repr, DecidableEq, Inhabited

namespace Location

/-- The location of the bytes between two offsets. -/
def ofOffsets (ix : Text.LineIndex) (start stop : Nat) : Location :=
  let a := ix.position start
  let b := ix.position stop
  ⟨a.1, a.2, b.1, b.2⟩

def label (l : Location) : String := s!"{l.line}:{l.column}"

end Location

end CodeSurvey
