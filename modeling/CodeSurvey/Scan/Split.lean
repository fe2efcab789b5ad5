import CodeSurvey.Language.Basic
/-!
# Taking captures apart

Sources of a dependency, parameters of a function, names in a heritage clause, and the type of a
receiver.
-/
namespace CodeSurvey.Scan

open Text TextPattern

/-! ## Sources -/

def quotedPattern : TextPattern :=
  inOrder [lit "\"", cap "source" (many1 (noneOf "\"")), lit "\""]

/-- The first word of each part between commas, with its offset. -/
def commaSources (offset : Nat) : List (List Char) → List (List Char × Nat)
  | [] => []
  | part :: parts =>
    let rest := commaSources (offset + size part + 1) parts
    match words part with
    | [] => rest
    | w :: _ => (w, offset + size (part.takeWhile isBlank)) :: rest

/-- The sources in a captured text that starts at `offset`, each with its own offset
(`split_sources`). -/
def sourcesIn (split : SourceForm) (text : List Char) (offset : Nat) :
    List (List Char × Nat) :=
  match split with
  | .whole => [(trim text, offset)]
  | .commas => commaSources offset (splitAt ',' text)
  | .quoted => (quotedPattern.findAll text).filterMap fun m =>
    (m.group? "source").map fun sp => (slice sp.start sp.stop text, offset + sp.start)

/-! ## Parameters -/

def isOpening (c : Char) : Bool := c == '<' || c == '(' || c == '[' || c == '\x7b'

def isClosing (c : Char) : Bool := c == '>' || c == ')' || c == ']' || c == '\x7d'

/-- The pieces between the commas outside brackets; `depth` counts the brackets opened before. -/
def splitTopLevel (depth : Int) : List Char → List (List Char)
  | [] => [[]]
  | c :: r =>
    if c = ',' && depth = 0 then [] :: splitTopLevel depth r
    else
      let depth := if isOpening c then depth + 1 else if isClosing c then depth - 1 else depth
      match splitTopLevel depth r with
      | [] => [[c]]
      | w :: ws => (c :: w) :: ws

/-- The parameters of a list, their blanks squeezed (`split_parameters`). -/
def parameterTexts (text : List Char) : List (List Char) :=
  ((splitTopLevel 0 text).filter fun p => !(trim p).isEmpty).map squeeze

/-! ## Heritage and receivers -/

/-- Drops groups in angle or square brackets (`strip_type_arguments`). -/
def dropTypeArguments (depth : Nat) : List Char → List Char
  | [] => []
  | c :: r =>
    if c = '<' || c = '[' then dropTypeArguments (depth + 1) r
    else if (c = '>' || c = ']') && 0 < depth then dropTypeArguments (depth - 1) r
    else if depth = 0 then c :: dropTypeArguments depth r
    else dropTypeArguments depth r

/-- Words of a heritage clause that name nothing. -/
def heritageWords : List String :=
  ["extends", "implements", "with", "public", "private", "protected", "virtual", "where", "final",
    "sealed"]

def addNew {α : Type} [BEq α] (xs : List α) (x : α) : List α :=
  if xs.contains x then xs else xs ++ [x]

/-- The names in a heritage clause, each once (`parse_heritage`). -/
def heritageNames (text : List Char) : List String :=
  let plain := (dropTypeArguments 0 text).map fun c => if among "():\x7b" c then ',' else c
  let names := (splitAt ',' plain).flatMap words
  let isName (w : List Char) : Bool :=
    !heritageWords.contains (String.ofList w) && !w.contains '=' &&
      w.head?.any fun c => isLetter c || c == '_'
  ((names.filter isName).map String.ofList).foldl addNew []

/-- The type name of a receiver such as `s *Service` (`receiver_type`). -/
def receiverName? (text : List Char) : Option String :=
  ((words text).getLast?.map fun w =>
    (w.dropWhile fun c => c == '*' || c == '&').takeWhile (· != '[')).bind fun t =>
      if t.isEmpty then none else some (String.ofList t)

end CodeSurvey.Scan
