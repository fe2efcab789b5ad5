import CodeSurvey.Comment.Span
/-!
# Where bodies end

The extent of a declaration's body, found without a grammar: by matching braces, or by indentation.
-/
namespace CodeSurvey.Scan

open Text

/-! ## Braces -/

/-- Whether the line that starts here is blank, or there is none (`blank_line_at`). -/
def blankLine (s : List Char) : Bool :=
  match s.dropWhile fun c => isPad c || c == '\r' with
  | [] => true
  | c :: _ => c == '\n'

inductive Header where
  /-- There is no body; the declaration ends at an offset. -/
  | done (stop : Nat)
  /-- A body opens at an offset, or the text ends there. -/
  | body (offset : Nat) (rest : List Char)

/-- Looks for the opening brace; a semicolon or a blank line ends the search. -/
def header (offset : Nat) : List Char → Header
  | [] => .body offset []
  | c :: r =>
    if c = '\x7b' then .body offset (c :: r)
    else if c = ';' then .done (offset + 1)
    else if c = '\n' && blankLine r then .done offset
    else header (offset + c.utf8Size) r

/-- Offset after the brace that closes `depth` open ones; braces in string literals do not count,
and a literal ends with its line. -/
def matchBrace (depth : Nat) (quote : Option Char) (offset : Nat) : List Char → Nat
  | [] => offset
  | c :: r =>
    let next := offset + c.utf8Size
    match quote with
    | some q =>
      if c = '\\' then match r with
        | [] => next
        | d :: r' => matchBrace depth quote (next + d.utf8Size) r'
      else matchBrace depth (if c = q || c = '\n' then none else quote) next r
    | none =>
      if Comment.isQuote c then matchBrace depth (some c) next r
      else if c = '\x7b' then matchBrace (depth + 1) none next r
      else if c = '\x7d' then
        if depth ≤ 1 then next else matchBrace (depth - 1) none next r
      else matchBrace depth none next r

/-- End of a declaration with braces whose header ends at `start` (`brace_block_end`). A `start`
inside a character stands for the end of the character, and one behind the text for the end of the
text. -/
def braceEnd (s : List Char) (start : Nat) : Nat :=
  let rest := dropBytes start s
  match header (size s - size rest) rest with
  | .done stop => stop
  | .body offset rest => matchBrace 0 none offset rest

/-! ## Indentation -/

/-- Whether a line closes a block by a keyword. -/
def closesBlock (line : List Char) : Bool :=
  line == "end".toList || startsWith "end ".toList line || startsWith "end.".toList line

/-- Follows lines as long as they are blank or indented deeper; `stop` is the end of the last one
that counts. -/
def indentedLines (indent offset stop : Nat) : List (List Char) → Nat
  | [] => stop
  | line :: ls =>
    let content := dropEndWhile (fun c => c == '\n' || c == '\r') line
    let body := content.dropWhile isPad
    if body.isEmpty then indentedLines indent (offset + size line) stop ls
    else
      let width := size content - size body
      if width ≤ indent then
        if width = indent && closesBlock body then offset + size content else stop
      else indentedLines indent (offset + size line) (offset + size content) ls

/-- End of an indented block whose header ends at `start` (`indent_block_end`). -/
def indentEnd (s : List Char) (start indent : Nat) : Nat :=
  let rest := dropBytes start s
  let line := rest.takeWhile (· != '\n')
  let below := rest.drop (line.length + 1)
  let first := if line.length = rest.length then size s else start + size line + 1
  indentedLines indent first (max (first - 1) start) (linesKept below)

end CodeSurvey.Scan
