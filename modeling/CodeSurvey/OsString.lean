import CodeSurvey.Text.Utf8
/-!
# Texts of the operating system

Names and paths are bytes that need not be UTF-8. A text is one of them by its UTF-8 bytes; the way
back either fails or replaces what is not UTF-8, so that different names may be shown alike.
-/
namespace CodeSurvey

/-- A name or a path as the operating system has it. -/
structure OsString where
  bytes : List UInt8
deriving Repr, DecidableEq

namespace OsString

def ofText (s : String) : OsString := ⟨Utf8.encode s.toList⟩

instance : Coe String OsString := ⟨ofText⟩

/-- The text of a name that is UTF-8 (`to_str`). -/
def text? (s : OsString) : Option String := (Utf8.decode? s.bytes).map String.ofList

/-- A name as it is shown: what is not UTF-8 is replaced (`to_string_lossy`, `display`). -/
def display (s : OsString) : String := String.ofList (Utf8.decodeLossy s.bytes)

def isEmpty (s : OsString) : Bool := s.bytes.isEmpty

instance : Append OsString := ⟨fun s t => ⟨s.bytes ++ t.bytes⟩⟩

/-- Names are in the order of their bytes. -/
instance : LE OsString := ⟨fun s t => s.bytes ≤ t.bytes⟩

instance (s t : OsString) : Decidable (s ≤ t) := inferInstanceAs (Decidable (s.bytes ≤ t.bytes))

end OsString

end CodeSurvey
