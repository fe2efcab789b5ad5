import CodeSurvey.Pattern.Basic
import CodeSurvey.Text.Basic
import CodeSurvey.Text.Word
/-!
# Patterns over characters

The vocabulary in which the language tables are written, and the search for matches in a text. The
offsets of a match count UTF-8 bytes.
-/
namespace CodeSurvey

abbrev TextPattern := Pattern Char

namespace TextPattern

open Text Pattern

/-! ## Vocabulary -/

def lit (s : String) : TextPattern :=
  s.toList.foldr (fun c p => .seq (.one (· == c)) p) .empty

def inOrder : List TextPattern → TextPattern
  | [] => .empty
  | [p] => p
  | p :: ps => .seq p (inOrder ps)

/-- The first of several patterns that leads to a match. -/
def anyOf : List TextPattern → TextPattern
  | [] => .one fun _ => false
  | [p] => p
  | p :: ps => .alt p (anyOf ps)

def oneOf (ws : List String) : TextPattern := anyOf (ws.map lit)

def opt (p : TextPattern) : TextPattern := .alt p .empty

def plus (p : TextPattern) : TextPattern := .seq p (.loop p)

def many (p : Char → Bool) : TextPattern := .span true p

def many1 (p : Char → Bool) : TextPattern := .seq (.one p) (many p)

/-- Any number of characters of a class, as few as possible. -/
def few (p : Char → Bool) : TextPattern := .span false p

def few1 (p : Char → Bool) : TextPattern := .seq (.one p) (few p)

def gap : TextPattern := many isBlank

def gap1 : TextPattern := many1 isBlank

def cap (label : String) (p : TextPattern) : TextPattern := .group label p

def kw (s : String) : TextPattern := .seq (lit s) gap1

def optKw (s : String) : TextPattern := opt (kw s)

/-- Any number of the given keywords, each followed by blanks. -/
def kws (ws : List String) : TextPattern := .loop (.seq (oneOf ws) gap1)

def lineStart : TextPattern := .edge fun before _ => before.all (· == '\n')

def lineEnd : TextPattern := .edge fun _ after => after.all (· == '\n')

/-- A place where a word starts or ends. -/
def wordEdge : TextPattern := .edge fun before after => before.any isWord != after.any isWord

def noneOf (s : String) (c : Char) : Bool := !s.toList.contains c

def wordOr (s : String) (c : Char) : Bool := isWord c || s.toList.contains c

def among (s : String) (c : Char) : Bool := s.toList.contains c

/-! ## Search -/

def findAll (p : TextPattern) (s : List Char) : List Match :=
  p.matchesFrom Char.utf8Size 0 none 0 s

def find? (p : TextPattern) (s : List Char) : Option Match := (findAll p s).head?

end TextPattern

end CodeSurvey
