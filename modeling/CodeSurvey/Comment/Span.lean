import CodeSurvey.Pattern.Chars
/-!
# Where comments stand

A comment starts at the first place where the comment pattern of a language matches and the line is
not inside a string literal; the search goes on after its end. `mask` blanks ranges of a text and
keeps every offset and every newline.
-/
namespace CodeSurvey.Comment

open Pattern

/-! ## String literals on a line -/

/-- How far a line is inside a string literal: the quote that is open, and whether the next
character is escaped. -/
structure Quoting where
  quote : Option Char
  escaped : Bool
deriving Repr, DecidableEq

def Quoting.start : Quoting := ⟨none, false⟩

def isQuote (c : Char) : Bool := c == '"' || c == '\'' || c == Char.ofNat 0x60

/-- The state after one more character. -/
def Quoting.next (q : Quoting) (c : Char) : Quoting :=
  if c = '\n' then .start
  else if q.escaped then ⟨q.quote, false⟩
  else if c = '\\' then ⟨q.quote, true⟩
  else match q.quote with
    | none => if isQuote c then ⟨some c, false⟩ else q
    | some open' => if c = open' then ⟨none, false⟩ else q

/-- Whether a text ends inside a string literal of its last line (`inside_string`). -/
def endsQuoted (s : List Char) : Bool := (s.foldl Quoting.next .start).quote.isSome

/-! ## Search -/

/-- How a pattern matches in a text: its match at a place, if it has one there. -/
abbrev Finder := Cursor Char → Option Match

def place (past after : List Char) : Cursor Char := ⟨past.getLast?, Text.size past, after⟩

/-- The first match at or after a place, with the number of characters that are passed. -/
def firstMatch? (f : Finder) (before : Option Char) (offset : Nat) :
    List Char → Option (Nat × Match)
  | [] => (f ⟨before, offset, []⟩).map fun m => (0, m)
  | c :: r => match f ⟨before, offset, c :: r⟩ with
    | some m => some (0, m)
    | none => (firstMatch? f (some c) (offset + c.utf8Size) r).map fun hit => (hit.1 + 1, hit.2)

/-- The comments behind the characters that are past. A match that is empty or starts inside a string
literal is passed over, and the search goes on one character behind its start. -/
def spansFrom (f : Finder) (past : List Char) : List Char → List Span
  | [] => []
  | c :: r =>
    match firstMatch? f past.getLast? (Text.size past) (c :: r) with
    | none => []
    | some (n, m) =>
      let lead := past ++ (c :: r).take n
      let rest := (c :: r).drop n
      if m.stop ≤ m.start ∨ endsQuoted lead then
        spansFrom f (lead ++ rest.take 1) (rest.drop 1)
      else
        let width := m.stop - m.start
        m.span :: spansFrom f (lead ++ Text.takeBytes width rest) (Text.dropBytes width rest)
termination_by after => after.length
decreasing_by
  · rw [List.length_drop, List.length_drop, List.length_cons]
    omega
  · by_cases hrest : (c :: r).drop n = []
    · simp [hrest, Text.dropBytes]
    · have hlt := Text.length_dropBytes_lt (n := m.stop - m.start) (by omega) hrest
      have hle := List.length_drop (i := n) (l := c :: r)
      omega

/-- The comments of a text, from left to right (`find_comments`). -/
def spans (p : TextPattern) (s : List Char) : List Span := spansFrom (p.matchAt Char.utf8Size) [] s

/-! ## Masking -/

def covered (spans : List Span) (offset : Nat) : Bool :=
  spans.any fun sp => sp.start ≤ offset && offset < sp.stop

/-- Blanks the covered characters of a text that starts at `offset`. -/
def maskFrom (spans : List Span) (offset : Nat) : List Char → List Char
  | [] => []
  | c :: r =>
    let rest := maskFrom spans (offset + c.utf8Size) r
    if covered spans offset && c != '\n' then List.replicate c.utf8Size ' ' ++ rest
    else c :: rest

/-- The text with ranges blanked (`mask`): each byte in them becomes a space, newlines apart. -/
def mask (spans : List Span) (s : List Char) : List Char := maskFrom spans 0 s

theorem size_replicate_space (n : Nat) : Text.size (List.replicate n ' ') = n := by
  induction n with
  | zero => rfl
  | succ n ih =>
    have h : Char.utf8Size ' ' = 1 := rfl
    rw [List.replicate_succ, Text.size, ih, h]
    omega

/-- Masking keeps the length. -/
theorem size_maskFrom (spans : List Span) (offset : Nat) (s : List Char) :
    Text.size (maskFrom spans offset s) = Text.size s := by
  induction s generalizing offset with
  | nil => rfl
  | cons c r ih =>
    simp only [maskFrom]
    split
    · simp [size_replicate_space, ih, Text.size]
    · simp [Text.size, ih]

end CodeSurvey.Comment
