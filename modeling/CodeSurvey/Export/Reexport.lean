import CodeSurvey.Comment.Text
import CodeSurvey.Fact.Basic
import CodeSurvey.Pattern.Chars
/-!
# Re-exports from the text

Statements that export names of another module are found in the text, without its comments, and add
an export for every name that is not exported yet. With anchors, only statements whose keyword
stands at one of the given offsets count.
-/
namespace CodeSurvey.Export

open Text TextPattern Pattern

def reexportSource : TextPattern :=
  inOrder [gap, .one (among "\"'"), cap "source" (many1 (noneOf "\"'\n")), .one (among "\"'")]

/-- A statement that exports listed names of a module. -/
def listForm : TextPattern :=
  inOrder [lineStart, many isPad, kw "export", optKw "type", lit "\x7b",
    cap "names" (many (noneOf "\x7d")), lit "\x7d", gap, lit "from", reexportSource]

/-- A statement that exports everything of a module, perhaps under one name. -/
def starForm : TextPattern :=
  inOrder [lineStart, many isPad, kw "export", lit "*",
    opt (inOrder [gap1, kw "as", cap "alias" (many1 (wordOr "$"))]), gap1, lit "from",
    reexportSource]

def splitOnce? (sep : List Char) : List Char → Option (List Char × List Char)
  | [] => none
  | c :: r => match afterStart? sep (c :: r) with
    | some rest => some ([], rest)
    | none => (splitOnce? sep r).map fun p => (c :: p.1, p.2)

/-- The exported name of an entry of a list of names; none for a blank entry. -/
def specifierName? (entry : List Char) : Option (List Char) :=
  let entry := trim entry
  let entry := trim ((afterStart? "type ".toList entry).getD entry)
  if entry.isEmpty then none
  else match splitOnce? " as ".toList entry with
    | some (_, renamed) => some (trim renamed)
    | none => some entry

structure Reexport where
  offset : Nat
  /-- Where the keyword of the statement stands. -/
  keyword : Nat
  value : Export

def reexportOf (ix : LineIndex) (s : List Char) (m : Match) (declaration : String)
    (name : List Char) : Reexport where
  offset := m.start
  keyword := m.start + size ((slice m.start m.stop s).takeWhile isBlank)
  value :=
    { name := String.ofList name
      kind := .reExport
      declaration := declaration
      location := Location.ofOffsets ix m.start m.stop
      source := some (String.ofList (Comment.groupText s m "source")) }

/-- The re-exports of listed names, in the order of the text. -/
def namedReexports (ix : LineIndex) (s : List Char) : List Reexport :=
  (listForm.findAll s).flatMap fun m =>
    ((splitAt ',' (Comment.groupText s m "names")).filterMap specifierName?).map
      (reexportOf ix s m "export_from")

/-- The re-exports of whole modules, in the order of the text. -/
def wildcardReexports (ix : LineIndex) (s : List Char) : List Reexport :=
  (starForm.findAll s).map fun m =>
    let name := match m.group? "alias" with
      | some sp => slice sp.start sp.stop s
      | none => "* from ".toList ++ Comment.groupText s m "source"
    reexportOf ix s m "export_star" name

/-- Takes the re-exports whose names are new, each name once. -/
def takeNew (known : List String) : List Reexport → List Reexport
  | [] => []
  | r :: rs =>
    if known.contains r.value.name then takeNew known rs
    else r :: takeNew (r.value.name :: known) rs

/-- The exports with the re-exports that a text adds to them (`supplement_reexports`). -/
def addReexports (s : List Char) (ix : LineIndex) (anchors : Option (List Nat))
    (exports : List Export) : List Export :=
  let anchored (r : Reexport) : Bool := anchors.all (·.contains r.keyword)
  let found := (namedReexports ix s ++ wildcardReexports ix s).filter anchored
  let new := takeNew (exports.map (·.name)) found
  exports ++ (new.mergeSort fun a b => a.offset ≤ b.offset).map (·.value)

end CodeSurvey.Export
