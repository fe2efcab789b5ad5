import CodeSurvey.Glob.Basic
import CodeSurvey.OsString
import CodeSurvey.Pattern.Basic
import CodeSurvey.Text.Utf8
/-!
# Matching globs

A glob matches the bytes of a whole path. A glob that asks for a certain base name or extension does
not match a path that ends in `..`, because such a path has no base name.
-/
namespace CodeSurvey.Glob

open Pattern

def charBytes (c : Char) : List UInt8 := Utf8.encode [c]

def byte (b : UInt8) : Pattern UInt8 := .one (· == b)

def bytes (bs : List UInt8) : Pattern UInt8 := bs.foldr (fun b p => .seq (byte b) p) .empty

def slash : Pattern UInt8 := bytes (charBytes '/')

def anything : Pattern UInt8 := .span true fun _ => true

/-- Whether a byte is in a class: one of the bytes of a character, or between the last byte of the
low end and the first byte of the high end of a range. -/
def inRanges (ranges : List (Char × Char)) (b : UInt8) : Bool :=
  ranges.any fun (low, high) =>
    let lows := charBytes low
    let highs := charBytes high
    lows.contains b || highs.contains b ||
      (low != high && lows.getLast?.any (· ≤ b) && highs.head?.any (b ≤ ·))

mutual

/-- Whether a token matches nothing but the empty sequence by being an empty group. -/
def isHollow : Token → Bool
  | .alternatives branches => allHollow branches
  | _ => false

def isHollowRun : List Token → Bool
  | [] => true
  | t :: ts => isHollow t && isHollowRun ts

def allHollow : List (List Token) → Bool
  | [] => true
  | b :: bs => isHollowRun b && allHollow bs

end

mutual

def tokenPattern : Token → Pattern UInt8
  | .char c => bytes (charBytes c)
  | .any => .one fun _ => true
  | .star => anything
  | .leadingSteps => .alt (.alt slash .empty) (.seq anything slash)
  | .trailingSteps => .seq slash anything
  | .innerSteps => .alt slash (.seq slash (.seq anything slash))
  | .oneIn negated ranges => .one fun b => inRanges ranges b != negated
  | .alternatives branches => branchesPattern branches

/-- The pattern of tokens one after the other. -/
def tokensPattern : List Token → Pattern UInt8
  | [] => .empty
  | t :: ts => .seq (tokenPattern t) (tokensPattern ts)

/-- The pattern of alternatives; empty ones do not count unless all are. -/
def branchesPattern : List (List Token) → Pattern UInt8
  | [] => .empty
  | b :: bs =>
    if isHollowRun b then branchesPattern bs
    else if allHollow bs then tokensPattern b
    else .alt (tokensPattern b) (branchesPattern bs)

end

/-- The pattern of a glob; steps alone match everything. -/
def pattern : List Token → Pattern UInt8
  | [.leadingSteps] => anything
  | ts => tokensPattern ts

/-! ## Base names -/

def isChar : Token → Bool
  | .char _ => true
  | _ => false

def isNameChar : Token → Bool
  | .char c => c != '/'
  | _ => false

def isExtension : List Token → Bool
  | .char '.' :: ts => ts.all fun t => isNameChar t && match t with
    | .char c => c != '.'
    | _ => false
  | _ => false

def afterSteps : List Token → List Token
  | .leadingSteps :: ts => ts
  | ts => ts

def afterStar : List Token → List Token
  | .star :: ts => ts
  | ts => ts

/-- Whether a glob is leading steps and a base name. -/
def asksForBaseName : List Token → Bool
  | .leadingSteps :: t :: ts => (t :: ts).all isNameChar
  | _ => false

/-- Whether a glob is a star and an extension. -/
def asksForExtension (ts : List Token) : Bool :=
  match afterSteps ts with
  | .star :: rest => isExtension rest
  | _ => false

/-- Whether a glob only asks how a path starts. -/
def asksForStart (ts : List Token) : Bool :=
  match ts.getLast? with
  | some .star => ts.dropLast.all isChar && 1 < ts.length
  | some .trailingSteps => ts.dropLast.all isChar
  | _ => ts.all isChar && !ts.isEmpty

/-- Whether a glob only asks how a path ends. -/
def asksForEnd (ts : List Token) : Bool :=
  let rest := afterStar (afterSteps ts)
  rest.all isChar && !rest.isEmpty

/-- Whether a glob ends in an extension. -/
def endsInExtension (ts : List Token) : Bool :=
  let name := (ts.reverse.takeWhile isNameChar).reverse
  name.any fun t => match t with
    | .char c => c == '.'
    | _ => false

/-- Whether a glob is decided by the base name of a path. -/
def needsBaseName (ts : List Token) : Bool :=
  asksForBaseName ts || (!ts.all isChar && (asksForExtension ts ||
    (!asksForStart ts && !asksForEnd ts && endsInExtension ts)))

/-- Whether a path has a base name, that is does not end in a step up. -/
def hasBaseName (path : List UInt8) : Bool :=
  let dots := charBytes '.' ++ charBytes '.'
  path != dots && !(charBytes '/' ++ dots).isSuffixOf path

/-- Whether a glob matches a path (`is_match`). -/
def isMatch (ts : List Token) (path : OsString) : Bool :=
  (!needsBaseName ts || hasBaseName path.bytes) && (pattern ts).matchesAll path.bytes

end CodeSurvey.Glob
