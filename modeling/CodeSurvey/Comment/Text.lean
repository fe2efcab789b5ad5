import CodeSurvey.Comment.Span
import CodeSurvey.Fact.Basic
/-!
# What comments say

The form of a comment, its text without delimiters and gutters, and the markers and annotations that
its lines carry.
-/
namespace CodeSurvey.Comment

open Text TextPattern

/-! ## Form and text -/

/-- The form of a comment from its raw text (`classify`). -/
def kindOf (raw : List Char) : CommentKind :=
  let s := trimStart raw
  let starts (t : String) := startsWith t.toList s
  if ["/**", "///", "//!", "/*!", "\"\"\"", "'''"].any starts then .doc
  else if ["/*", "=begin"].any starts then .block
  else .line

/-- The text between an opening and a closing delimiter; the closing one may be missing. -/
def between? (opening closing : String) (s : List Char) : Option (List Char) :=
  (afterStart? opening.toList s).map fun t => (beforeEnd? closing.toList t).getD t

def dropDelimiters (s : List Char) : List Char :=
  (([("/**", "*/"), ("/*!", "*/"), ("/*", "*/"), ("\"\"\"", "\"\"\""), ("'''", "'''"),
    ("=begin", "=end")].findSome? fun d => between? d.1 d.2 s)).getD s

/-- Drops the gutter of a line: a line comment's delimiter or a star. -/
def dropGutter (s : List Char) : List Char :=
  (["///", "//!", "//", "#", "*"].findSome? fun g => afterStart? g.toList s).getD s

/-- The text of a comment (`strip_delimiters`): its lines without delimiters and gutters, empty ones
left out. -/
def bareText (raw : List Char) : List Char :=
  let lines := Text.lines (dropDelimiters (trim raw))
  join ['\n'] ((lines.map fun l => trim (dropGutter (trim l))).filter (! ·.isEmpty))

/-- The comment with the given raw text at an offset (`comment_at`). -/
def ofRaw (ix : LineIndex) (raw : List Char) (offset : Nat) : Comment :=
  ⟨String.ofList (bareText raw), ix.line offset, kindOf raw⟩

/-- The comments of a text at the given ranges (`collect`). -/
def ofSpans (ix : LineIndex) (s : List Char) (spans : List Pattern.Span) : List Comment :=
  spans.map fun sp => ofRaw ix (slice sp.start sp.stop s) sp.start

/-! ## Markers and annotations -/

/-- A marker word, optionally with an owner in parentheses and a colon, and the text after it. -/
def todoForm : TextPattern :=
  inOrder [wordEdge, cap "marker" (oneOf ["TODO", "FIXME", "HACK", "NOTE", "XXX"]), wordEdge,
    opt (inOrder [lit "(", many (noneOf ")"), lit ")"]), gap, opt (lit ":"), gap,
    cap "text" (many (noneOf "\n"))]

/-- A key after an at sign, a colon, and a value. -/
def annotationForm : TextPattern :=
  inOrder [lit "@", cap "key" (.seq (.one Char.isAlpha) (many (wordOr "-"))), gap, lit ":", gap,
    cap "value" (many1 (noneOf "\n"))]

def groupText (s : List Char) (m : Pattern.Match) (label : String) : List Char :=
  match m.group? label with
  | some sp => slice sp.start sp.stop s
  | none => []

def todoOf (s : List Char) (line : Nat) : Option Todo :=
  (todoForm.find? s).map fun m =>
    ⟨String.ofList (groupText s m "marker"), String.ofList (trim (groupText s m "text")), line⟩

def annotationOf (s : List Char) (line : Nat) : Option Annotation :=
  (annotationForm.find? s).map fun m =>
    let value := groupText s m "value"
    let values := (splitAt ',' (dropEndings ['*', '/'] value.length value)).map trim
    ⟨String.ofList (groupText s m "key"), (values.filter (! ·.isEmpty)).map String.ofList, line⟩

/-- Number of the first line at or after index `from` that holds a text (`locate_line`). -/
def lineHolding (lines : List (List Char)) (start : Nat) (part : List Char) : Option Nat :=
  ((lines.drop start).findIdx? (holds part)).map (· + start + 1)

/-- The lines of one comment's text with the source lines on which they stand: each is looked for
from the line of the previous one on, and stands on the comment's first line if it is not found. -/
def placeLines (source : List (List Char)) (first : Nat) (start : Nat) :
    List (List Char) → List (List Char × Nat)
  | [] => []
  | l :: ls =>
    let line := (lineHolding source start l).getD first
    (l, line) :: placeLines source first (line - 1) ls

/-- The text lines of comments with the source lines on which they stand. -/
def placedLines (source : List Char) (comments : List Comment) : List (List Char × Nat) :=
  let sourceLines := Text.lines source
  comments.flatMap fun c =>
    placeLines sourceLines c.line (c.line - 1) (Text.lines c.text.toList)

/-- The markers and annotations of comments. -/
def marksIn (source : List Char) (comments : List Comment) : List Todo × List Annotation :=
  let placed := placedLines source comments
  (placed.filterMap fun p => todoOf p.1 p.2, placed.filterMap fun p => annotationOf p.1 p.2)

/-- Comments with their markers and annotations (`mine`). -/
def factsOf (source : List Char) (comments : List Comment) : CommentFacts :=
  let mined := marksIn source comments
  ⟨comments, mined.1, mined.2⟩

end CodeSurvey.Comment
