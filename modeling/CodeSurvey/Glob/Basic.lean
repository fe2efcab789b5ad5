/-!
# Globs

A glob as a sequence of tokens, and reading one from its text. Two stars between slashes stand for
any number of steps of a path; a group in braces lists alternatives, which may hold groups
themselves.
-/
namespace CodeSurvey.Glob

inductive Token where
  | char (c : Char)
  /-- Any one byte. -/
  | any
  /-- Any number of bytes. -/
  | star
  /-- Any number of steps at the start. -/
  | leadingSteps
  /-- Everything below a step. -/
  | trailingSteps
  /-- Any number of steps in the middle. -/
  | innerSteps
  /-- One byte of a class. -/
  | oneIn (negated : Bool) (ranges : List (Char × Char))
  | alternatives (branches : List (List Token))
deriving Repr, Inhabited

/-- Why a text is not a glob. -/
inductive GlobError where
  | unclosedClass
  | invalidRange (low high : Char)
  | unopenedGroup
  | unclosedGroup
  | danglingEscape
deriving Repr, DecidableEq

def GlobError.message : GlobError → String
  | .unclosedClass => "unclosed character class; missing ']'"
  | .invalidRange low high => s!"invalid range; '{low}' > '{high}'"
  | .unopenedGroup =>
    "unopened alternate group; missing '\x7b' (maybe escape '\x7d' with '[\x7d]'?)"
  | .unclosedGroup =>
    "unclosed alternate group; missing '\x7d' (maybe escape '\x7b' with '[\x7b]'?)"
  | .danglingEscape => "dangling '\\'"

/-! ## Classes -/

/-- Makes a character the end of the latest range. -/
def extendRange (high : Char) : List (Char × Char) → Except GlobError (List (Char × Char))
  | [] => .ok []
  | (low, _) :: rs =>
    if high < low then .error (.invalidRange low high) else .ok ((low, high) :: rs)

/-- Reads a class up to its closing bracket, with the ranges in reverse: whether this is the first
character, and whether a dash has opened a range. -/
def readRanges (first inRange : Bool) (ranges : List (Char × Char)) :
    List Char → Except GlobError (List (Char × Char) × List Char)
  | [] => .error .unclosedClass
  | c :: r =>
    if c == ']' && !first then .ok (((if inRange then [('-', '-')] else []) ++ ranges).reverse, r)
    else if c == '-' && !first && !inRange then readRanges false true ranges r
    else if inRange then match extendRange c ranges with
      | .ok ranges => readRanges false false ranges r
      | .error e => .error e
    else readRanges false false ((c, c) :: ranges) r

/-- Reads a class after its opening bracket. -/
def readClass (s : List Char) : Except GlobError (Token × List Char) :=
  let (negated, body) := match s with
    | '!' :: r | '^' :: r => (true, r)
    | r => (false, r)
  (readRanges true false [] body).map fun (ranges, rest) => (.oneIn negated ranges, rest)

/-! ## Groups and stars -/

/-- A glob that is being read: the branches so far, each and all in reverse, and how many there were
when each open group was opened. -/
structure Draft where
  branch : List Token
  outer : List (List Token)
  opened : List Nat

namespace Draft

def push (d : Draft) (t : Token) : Draft := { d with branch := t :: d.branch }

def isNested (d : Draft) : Bool := !d.outer.isEmpty

def openGroup (d : Draft) : Draft :=
  ⟨[], d.branch :: d.outer, (d.outer.length + 1) :: d.opened⟩

/-- Starts another branch of the innermost group; outside of groups this is a comma. -/
def comma (d : Draft) : Draft :=
  if d.opened.isEmpty then d.push (.char ',')
  else { d with branch := [], outer := d.branch :: d.outer }

def closeGroup (d : Draft) : Except GlobError Draft :=
  match d.opened with
  | [] => .error .unopenedGroup
  | count :: opened =>
    let all := d.branch :: d.outer
    let branches := (all.take (all.length - count)).reverse.map List.reverse
    match all.drop (all.length - count) with
    | branch :: outer => .ok ⟨.alternatives branches :: branch, outer, opened⟩
    | [] => .error .unopenedGroup

/-- Adds two stars that stand for no steps. -/
def pushStars (d : Draft) : Draft := (d.push .star).push .star

/-- Replaces the latest token by steps, unless it stands for steps at an end already. -/
def pushSteps (d : Draft) (t : Token) : Draft :=
  match d.branch with
  | .leadingSteps :: _ | .trailingSteps :: _ => d
  | _ :: ts => { d with branch := t :: ts }
  | [] => d

end Draft

/-- Adds two stars after the character `before`; what follows them decides what they stand for. -/
def readStars (d : Draft) (before : Option Char) (s : List Char) : Draft × List Char :=
  if d.branch.isEmpty then
    match s with
    | [] => (d.push .leadingSteps, [])
    | '/' :: r => (d.push .leadingSteps, r)
    | _ => (d.pushStars, s)
  else if before == some '/' ||
      (d.isNested && (before == some ',' || before == some '\x7b')) then
    match s with
    | [] => (d.pushSteps .trailingSteps, [])
    | '/' :: r => (d.pushSteps .innerSteps, r)
    | c :: _ =>
      if d.isNested && (c == ',' || c == '\x7d') then (d.pushSteps .trailingSteps, s)
      else (d.pushStars, s)
  else (d.pushStars, s)

/-! ## Reading -/

/-- Reads tokens; `before` is the character before the rest of the text. -/
def readTokens : Nat → Draft → Option Char → List Char → Except GlobError Draft
  | 0, d, _, _ => .ok d
  | _ + 1, d, _, [] => .ok d
  | fuel + 1, d, before, c :: r =>
    let goOn (d : Draft) (rest : List Char) : Except GlobError Draft :=
      let consumed := (c :: r).length - rest.length
      readTokens fuel d ((c :: r)[consumed - 1]?) rest
    match c with
    | '?' => goOn (d.push .any) r
    | '*' => match r with
      | '*' :: r' =>
        let (d, rest) := readStars d before r'
        goOn d rest
      | _ => goOn (d.push .star) r
    | '[' => match readClass r with
      | .ok (t, rest) => goOn (d.push t) rest
      | .error e => .error e
    | '\x7b' => goOn d.openGroup r
    | '\x7d' => match d.closeGroup with
      | .ok d => goOn d r
      | .error e => .error e
    | ',' => goOn d.comma r
    | '\\' => match r with
      | [] => .error .danglingEscape
      | e :: r' => goOn (d.push (.char e)) r'
    | c => goOn (d.push (.char c)) r

def read (text : String) : Except GlobError (List Token) :=
  match readTokens text.length ⟨[], [], []⟩ none text.toList with
  | .ok d => if d.isNested then .error .unclosedGroup else .ok d.branch.reverse
  | .error e => .error e

end CodeSurvey.Glob
