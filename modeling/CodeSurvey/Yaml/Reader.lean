import CodeSurvey.Yaml.Basic
/-!
# Reading YAML

One document of block and flow collections with plain and quoted scalars and comments. Anchors,
tags, block scalars and explicit keys are refused. A block belongs together by its column: the
entries of a map stand in one column, and what belongs to an entry stands further right; only the
items of a list may stand in the column of the map entry that they belong to.
-/
namespace CodeSurvey.Yaml

open Text

/-- A place in the text: what follows, and its line and column. -/
structure Spot where
  rest : List Char
  line : Nat
  column : Nat

/-- A reading of something and the place after it. -/
abbrev Reading (α : Type) := Option (α × Spot)

/-- Whether a place is followed by a blank, the end of the line or the end of the text. -/
def endsWord : List Char → Bool
  | [] => true
  | c :: _ => c == ' ' || c == '\t' || c == '\n'

def Spot.advance (s : Spot) : Nat → Spot
  | 0 => s
  | n + 1 => match s.rest with
    | [] => s
    | c :: r =>
      Spot.advance (if c == '\n' then ⟨r, s.line + 1, 0⟩ else ⟨r, s.line, s.column + 1⟩) n

/-- Whether a document ends or starts here: three dots or dashes at the start of a line. -/
def Spot.isMarker (s : Spot) : Bool :=
  s.column == 0 && match s.rest with
    | a :: b :: c :: r => a == b && b == c && (a == '-' || a == '.') && endsWord r
    | _ => false

def Spot.atEnd (s : Spot) : Bool := s.rest.isEmpty || s.isMarker

def Spot.isDash (s : Spot) : Bool :=
  match s.rest with
  | '-' :: r => endsWord r
  | _ => false

/-- Goes to the next character that is neither blank nor in a comment. A tab is refused where it
would indent, that is where `fresh` holds. -/
def toContent (flow fresh comment : Bool) (line column : Nat) : List Char → Option Spot
  | [] => some ⟨[], line, column⟩
  | c :: r =>
    if c == '\n' then toContent flow true false (line + 1) 0 r
    else if comment then toContent flow fresh true line (column + 1) r
    else if c == ' ' then toContent flow fresh false line (column + 1) r
    else if c == '\t' then
      if fresh && !flow then none else toContent flow fresh false line (column + 1) r
    else if c == '#' then toContent flow fresh true line (column + 1) r
    else some ⟨c :: r, line, column⟩

def Spot.next (s : Spot) (fresh : Bool) : Option Spot :=
  toContent false fresh false s.line s.column s.rest

def Spot.nextFlow (s : Spot) : Option Spot := toContent true false false s.line s.column s.rest

def Spot.lineIsOver (s : Spot) : Bool :=
  match s.rest.dropWhile fun c => c == ' ' || c == '\t' with
  | [] => true
  | c :: _ => c == '\n' || c == '#'

/-! ## Quoted scalars -/

def escape? (c : Char) : Option Char :=
  [('0', '\x00'), ('a', '\x07'), ('b', '\x08'), ('t', '\t'), ('\t', '\t'), ('n', '\n'),
    ('v', '\x0b'), ('f', '\x0c'), ('r', '\r'), ('e', '\x1b'), (' ', ' '), ('"', '"'), ('/', '/'),
    ('\\', '\\'), ('N', '\u0085'), ('_', '\u00a0'), ('L', '\u2028'), ('P', '\u2029')].lookup c

/-- Number of hexadecimal digits after the letter of a long escape. -/
def escapeWidth? (c : Char) : Option Nat := [('x', 2), ('u', 4), ('U', 8)].lookup c

def charOf? (n : Nat) : Option Char := if n.isValidChar then some (Char.ofNat n) else none

/-- Line breaks after a line: one becomes a blank, and further ones stay. -/
def foldBreaks (breaks : Nat) : List Char :=
  if breaks ≤ 1 then [' '] else List.replicate (breaks - 1) '\n'

/-- The breaks and blanks that follow, how many breaks there are, and what comes then. -/
def blankRun (breaks : Nat) : List Char → Nat × List Char
  | [] => (breaks, [])
  | c :: r =>
    if c == '\n' then blankRun (breaks + 1) r
    else if c == ' ' || c == '\t' then blankRun breaks r
    else (breaks, c :: r)

/-- Reads a quoted scalar after its opening quote: its characters, and what follows the closing
quote. -/
def quoted? (double : Bool) : Nat → List Char → List Char → Option (List Char × List Char)
  | 0, _, _ => none
  | _ + 1, _, [] => none
  | fuel + 1, acc, c :: r =>
    if c == '\n' || c == ' ' || c == '\t' then
      match blankRun 0 (c :: r) with
      | (0, rest) =>
        let blanks := (c :: r).takeWhile fun c => c == ' ' || c == '\t'
        quoted? double fuel (acc ++ blanks) rest
      | (breaks, rest) => quoted? double fuel (acc ++ foldBreaks breaks) rest
    else if double then
      if c == '"' then some (acc, r)
      else if c == '\\' then
        match r with
        | [] => none
        | e :: r' =>
          if e == '\n' then
            let (breaks, rest) := blankRun 1 r'
            quoted? double fuel (acc ++ List.replicate (breaks - 1) '\n') rest
          else match escape? e, escapeWidth? e with
            | some x, _ => quoted? double fuel (acc ++ [x]) r'
            | none, some width => match (digits? 16 (r'.take width)).bind charOf? with
              | some x =>
                if (r'.take width).length = width then
                  quoted? double fuel (acc ++ [x]) (r'.drop width)
                else none
              | none => none
            | none, none => none
      else quoted? double fuel (acc ++ [c]) r
    else if c == '\'' then
      match r with
      | '\'' :: r' => quoted? double fuel (acc ++ ['\'']) r'
      | _ => some (acc, r)
    else quoted? double fuel (acc ++ [c]) r

def Spot.isQuote (s : Spot) : Bool :=
  s.rest.head? == some '"' || s.rest.head? == some '\''

def quotedScalar? (s : Spot) : Reading Yaml :=
  match s.rest with
  | [] => none
  | q :: r => (quoted? (q == '"') (r.length + 1) [] r).map fun (text, rest) =>
    (.scalar (String.ofList text) false, s.advance (s.rest.length - rest.length))

/-! ## Plain scalars -/

/-- Characters that end a plain scalar in a flow collection. -/
def isFlowMark (c : Char) : Bool := [',', '[', ']', '\x7b', '\x7d'].contains c

/-- Whether a plain scalar can start here. -/
def startsPlain (flow : Bool) : List Char → Bool
  | [] => false
  | c :: r =>
    if c == '-' then !endsWord r
    else if c == '?' || c == ':' then !flow && !endsWord r
    else !(isFlowMark c || endsWord [c] ||
      ['#', '&', '*', '!', '|', '>', '\'', '"', '%', '@', Char.ofNat 0x60].contains c)

/-- The part of a plain scalar on one line, with the blanks after it. A colon before a mark of a
flow collection is refused. -/
def plainLine? (flow afterBlank : Bool) : List Char → Option (List Char)
  | [] => some []
  | c :: r =>
    if c == '\n' || (c == '#' && afterBlank) || (c == ':' && endsWord r) then some []
    else if flow && c == ':' && r.head?.any fun d => isFlowMark d || d == '?' then none
    else if flow && isFlowMark c then some []
    else (plainLine? flow (c == ' ' || c == '\t') r).map (c :: ·)

/-- The place of the content after line breaks, and their number. A tab is refused if it indents
less than the scalar has to be. -/
def plainGap? (flow : Bool) (indent : Nat) (breaks : Nat) (line column : Nat) :
    List Char → Option (Nat × Spot)
  | [] => some (breaks, ⟨[], line, column⟩)
  | c :: r =>
    if c == '\n' then plainGap? flow indent (breaks + 1) (line + 1) 0 r
    else if c == ' ' then plainGap? flow indent breaks line (column + 1) r
    else if c == '\t' then
      if column < indent && !flow then none else plainGap? flow indent breaks line (column + 1) r
    else some (breaks, ⟨c :: r, line, column⟩)

/-- The text of a line without the blanks at its end. -/
def chomp (s : List Char) : List Char := dropEndWhile (fun c => c == ' ' || c == '\t') s

/-- Reads the further lines of a plain scalar; those of a block stand at least at `indent`. -/
def plainMore? (flow : Bool) (indent : Nat) : Nat → List Char → Spot → Option (List Char × Spot)
  | 0, acc, s => some (acc, s)
  | fuel + 1, acc, s =>
    if s.rest.head? != some '\n' then some (acc, s)
    else match plainGap? flow indent 0 s.line s.column s.rest with
      | none => none
      | some (breaks, t) =>
        if t.atEnd || (!flow && t.column < indent) then some (acc, t)
        else match plainLine? flow true t.rest with
          | none => none
          | some [] => some (acc, t)
          | some part =>
            plainMore? flow indent fuel (acc ++ foldBreaks breaks ++ chomp part)
              (t.advance part.length)

def plainScalar? (flow : Bool) (indent : Nat) (s : Spot) : Reading Yaml :=
  if startsPlain flow s.rest then
    match plainLine? flow false s.rest with
    | none => none
    | some part =>
      (plainMore? flow indent s.rest.length (chomp part) (s.advance part.length)).map
        fun (text, t) => (.scalar (String.ofList text) true, t)
  else none

/-! ## Flow collections -/

mutual

def flowNode? : Nat → Spot → Reading Yaml
  | 0, _ => none
  | fuel + 1, s =>
    match s.rest with
    | '[' :: _ => (flowSeq? fuel [] (s.advance 1)).map fun (ys, t) => (.seq ys, t)
    | '\x7b' :: _ => (flowMap? fuel [] (s.advance 1)).map fun (es, t) => (.map es, t)
    | _ => if s.isQuote then quotedScalar? s else plainScalar? true 0 s

/-- Reads the rest of an entry after its key: the value after a colon on the same line, or
nothing. -/
def flowValue? : Nat → Nat → Spot → Reading (Option Yaml)
  | 0, _, _ => none
  | fuel + 1, line, s =>
    if s.rest.head? == some ':' then
      if s.line != line then none
      else match (s.advance 1).nextFlow with
        | none => none
        | some t =>
          if [some ',', some ']', some '\x7d'].contains t.rest.head? then some (some nothing, t)
          else match flowNode? fuel t with
            | none => none
            | some (y, u) => u.nextFlow.map fun v => (some y, v)
    else some (none, s)

/-- Reads the items of a flow list after its opening bracket. -/
def flowSeq? : Nat → List Yaml → Spot → Reading (List Yaml)
  | 0, _, _ => none
  | fuel + 1, acc, s =>
    match s.nextFlow with
    | none => none
    | some t =>
      if t.rest.head? == some ']' then some (acc, t.advance 1)
      else match flowNode? fuel t with
        | none => none
        | some (key, u) => match u.nextFlow.bind (flowValue? fuel t.line) with
          | none => none
          | some (value, v) =>
            let item := match value with
              | some y => Yaml.map [(key, y)]
              | none => key
            if v.rest.head? == some ',' then flowSeq? fuel (acc ++ [item]) (v.advance 1)
            else if v.rest.head? == some ']' then some (acc ++ [item], v.advance 1)
            else none

/-- Reads the entries of a flow map after its opening brace. -/
def flowMap? : Nat → List (Yaml × Yaml) → Spot → Reading (List (Yaml × Yaml))
  | 0, _, _ => none
  | fuel + 1, acc, s =>
    match s.nextFlow with
    | none => none
    | some t =>
      if t.rest.head? == some '\x7d' then some (acc, t.advance 1)
      else match flowNode? fuel t with
        | none => none
        | some (key, u) => match u.nextFlow.bind (flowValue? fuel t.line) with
          | none => none
          | some (value, v) =>
            let entries := acc ++ [(key, value.getD nothing)]
            if v.rest.head? == some ',' then flowMap? fuel entries (v.advance 1)
            else if v.rest.head? == some '\x7d' then some (entries, v.advance 1)
            else none

end

/-! ## Block collections -/

/-- Reads a scalar or a flow collection and goes to the content after its last line. Further lines
of a plain scalar stand at least at `indent`. -/
def inline? (indent : Nat) (s : Spot) : Reading Yaml :=
  let read := match s.rest with
    | '[' :: _ | '\x7b' :: _ => flowNode? (2 * s.rest.length + 2) s
    | _ => if s.isQuote then quotedScalar? s else plainScalar? false indent s
  match read with
  | none => none
  | some (y, t) =>
    if t.lineIsOver then (t.next false).map (y, ·)
    else match y with
      | .scalar _ true =>
        if s.line < t.line && (t.atEnd || t.column < indent) then some (y, t) else none
      | _ => none

/-- Reads a key of a block map: a scalar and a colon on one line. -/
def simpleKey? (s : Spot) : Reading Yaml :=
  let read : Reading Yaml :=
    if s.isQuote then quotedScalar? s
    else if startsPlain false s.rest then
      (plainLine? false false s.rest).map fun part =>
        (.scalar (String.ofList (chomp part)) true, s.advance part.length)
    else none
  match read with
  | none => none
  | some (key, t) =>
    let blanks := (t.rest.takeWhile fun c => c == ' ' || c == '\t').length
    let u := t.advance blanks
    match u.rest with
    | ':' :: r => if endsWord r && s.line == u.line then some (key, u.advance 1) else none
    | _ => none

mutual

/-- Reads the block value that starts here. -/
def block? : Nat → Nat → Spot → Reading Yaml
  | 0, _, _ => none
  | fuel + 1, indent, s =>
    if s.isDash then (blockSeq? fuel s.column false [] s).map fun (ys, t) => (.seq ys, t)
    else if (simpleKey? s).isSome then
      (blockMap? fuel s.column [] s).map fun (es, t) => (.map es, t)
    else inline? indent s

/-- Reads the value of a map entry after its colon; the map stands in `column`. -/
def entryValue? : Nat → Nat → Spot → Reading Yaml
  | 0, _, _ => none
  | fuel + 1, column, s =>
    if s.lineIsOver then
      match s.next false with
      | none => none
      | some t =>
        if t.atEnd then some (nothing, t)
        else if column < t.column then block? fuel (column + 1) t
        else if t.column == column && t.isDash then
          (blockSeq? fuel column true [] t).map fun (ys, u) => (.seq ys, u)
        else some (nothing, t)
    else (s.next false).bind (inline? (column + 1))

/-- Reads the entries of a block map. -/
def blockMap? : Nat → Nat → List (Yaml × Yaml) → Spot → Reading (List (Yaml × Yaml))
  | 0, _, _, _ => none
  | fuel + 1, column, acc, s =>
    match simpleKey? s with
    | none => none
    | some (key, t) => match entryValue? fuel column t with
      | none => none
      | some (value, u) =>
        let entries := acc ++ [(key, value)]
        if u.atEnd || u.column < column then some (entries, u)
        else if u.column == column then blockMap? fuel column entries u
        else none

/-- Reads the items of a block list; one that stands in the column of its map ends where another
entry of the map starts. -/
def blockSeq? : Nat → Nat → Bool → List Yaml → Spot → Reading (List Yaml)
  | 0, _, _, _, _ => none
  | fuel + 1, column, inMap, acc, s =>
    let afterDash := s.advance 1
    let item : Reading Yaml :=
      match afterDash.next true with
      | none => none
      | some t =>
        if t.rest.isEmpty then some (nothing, t)
        else if t.line == s.line then block? fuel (column + 1) t
        else if t.atEnd || t.column ≤ column then some (nothing, t)
        else block? fuel (column + 1) t
    match item with
    | none => none
    | some (y, u) =>
      let items := acc ++ [y]
      if u.atEnd || u.column < column then some (items, u)
      else if u.column == column then
        if u.isDash then blockSeq? fuel column inMap items u
        else if inMap then some (items, u)
        else none
      else none

end

/-! ## Documents -/

def isAllowed (c : Char) : Bool :=
  let n := c.toNat
  n == 9 || n == 10 || n == 13 || (0x20 ≤ n && n ≤ 0x7e) || n == 0x85 ||
    (0xa0 ≤ n && n ≤ 0xd7ff) || (0xe000 ≤ n && n ≤ 0xfffd && n != 0xfeff) || 0x10000 ≤ n

/-- The text with every line break as a newline. -/
def unifyBreaks : List Char → List Char
  | [] => []
  | '\r' :: '\n' :: r => '\n' :: unifyBreaks r
  | c :: r => (if c == '\r' || c == '\u0085' then '\n' else c) :: unifyBreaks r

/-- Whether only blanks and comments follow. -/
def Spot.isLast (s : Spot) : Bool := (s.next false).any fun t => t.rest.isEmpty

/-- Whether a document may end here. -/
def endsDocument (s : Spot) : Bool :=
  s.rest.isEmpty || (s.isMarker && s.rest.head? == some '.' && (s.advance 3).isLast)

/-- Reads the value of a document from its first content on. -/
def root? (fuel : Nat) (s : Spot) : Reading Yaml :=
  if s.isMarker && s.rest.head? == some '-' then
    let t := s.advance 3
    if t.lineIsOver then
      match t.next false with
      | none => none
      | some u => if u.atEnd then some (nothing, u) else block? fuel 0 u
    else (t.next false).bind (inline? 0)
  else if s.atEnd then some (nothing, s)
  else block? fuel 0 s

/-- Reads a text that is one document; a text without one is read as nothing. -/
def read? (text : List Char) : Option Yaml :=
  let body := unifyBreaks (match text with
    | '\ufeff' :: r => r
    | cs => cs)
  if body.all isAllowed then
    match toContent false true false 0 0 body with
    | none => none
    | some s => match root? (4 * body.length + 4) s with
      | some (y, t) => if endsDocument t then some y else none
      | none => none
  else none

end CodeSurvey.Yaml
