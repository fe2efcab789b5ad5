import CodeSurvey.Comment.Text
import CodeSurvey.Export.Gather
import CodeSurvey.Export.Reexport
import CodeSurvey.Fact.Wire
import CodeSurvey.Scan.Block
import CodeSurvey.Scan.Keyword
import CodeSurvey.Scan.Split
/-!
# Facts by pattern

All facts of a source, found with the table of its language. The comments are blanked before
anything else is looked for, so that nothing in a comment is reported and every offset stays what it
was.
-/
namespace CodeSurvey

open Text TextPattern Pattern

structure Scan where
  language : Language
  source : List Char
  masked : List Char
  lines : LineIndex
  comments : List Span

namespace Scan

/-- A source with its comments found and blanked (`Scan::new`). -/
def ofSource (language : Language) (source : List Char) : Scan :=
  let comments := Comment.spans language.comment source
  ⟨language, source, Comment.mask comments source, LineIndex.ofText source, comments⟩

def location (sc : Scan) (start stop : Nat) : Location := Location.ofOffsets sc.lines start stop

def text (sc : Scan) (sp : Span) : List Char := slice sp.start sp.stop sc.masked

/-! ## Dependencies -/

/-- The dependencies that one rule finds, with their offsets. -/
def dependenciesBy (sc : Scan) (fs : FileSystem) (file : OsString) (rule : DependencyRule) :
    List (Nat × Dependency) :=
  (rule.pattern.findAll sc.masked).flatMap fun m =>
    match m.group? "source" with
    | none => []
    | some sp => (sourcesIn rule.split (sc.text sp) sp.start).map fun (cs, offset) =>
      let source := String.ofList cs
      let isLocal := rule.isLocal source
      (offset, ⟨source, rule.kind, isLocal, sc.lines.line offset,
        if isLocal then sc.language.resolve fs file source rule.kind else none⟩)

/-- Values in the order of their offsets; equal offsets keep their order. -/
def byOffset {α : Type} (xs : List (Nat × α)) : List α :=
  (xs.mergeSort fun a b => a.1 ≤ b.1).map (·.2)

/-- The dependencies in the order of the text (`dependencies_of`). -/
def dependencies (sc : Scan) (fs : FileSystem) (file : OsString) : List Dependency :=
  byOffset (sc.language.dependencies.flatMap (sc.dependenciesBy fs file))

/-! ## Exports -/

def exportsBy (sc : Scan) (rule : ExportRule) : List (Nat × Export) :=
  (rule.pattern.findAll sc.masked).filterMap fun m =>
    match m.group? "name" with
    | none => none
    | some sp =>
      let name := String.ofList (sc.text sp)
      if rule.accept name (sc.text m.span) then
        some (sp.start,
          { name := name
            kind := rule.kind
            declaration := String.ofList (squeeze (slice m.start sp.start sc.masked))
            location := sc.location sp.start sp.stop
            isDefault := rule.isDefault })
      else none

/-- The settled exports (`exports_of`). -/
def exports (sc : Scan) : ExportFacts :=
  let found := byOffset (sc.language.exports.flatMap sc.exportsBy)
  Export.gather
    (if sc.language.reexports then Export.addReexports sc.masked sc.lines none found else found)

/-! ## Classes and functions -/

/-- The indentation of a match (`indent_of`): its own group, or that of the line on which it
starts. -/
def marginOf (sc : Scan) (m : Match) : Nat :=
  match m.group? "indent" with
  | some sp => sp.stop - sp.start
  | none =>
    let before := (takeBytes m.start sc.masked).reverse
    let lineStart := m.start - size (before.takeWhile (· != '\n'))
    size ((dropBytes lineStart sc.masked).takeWhile isPad)

/-- End of the body of a declaration (`block_end`). -/
def bodyEnd (sc : Scan) (headerEnd indent : Nat) : Nat :=
  match sc.language.blocks with
  | .braces => braceEnd sc.masked headerEnd
  | .indent => indentEnd sc.masked headerEnd indent

structure ClassSite where
  value : ClassFact
  start : Nat
  stop : Nat

/-- The class-like declarations (`classes_of`). -/
def classes (sc : Scan) (exported : List String) : List ClassSite :=
  (sc.language.classes.findAll sc.masked).filterMap fun m =>
    (m.group? "name").map fun sp =>
      let name := String.ofList (sc.text sp)
      let keyword := ((m.group? "kind").bind fun k => (words (sc.text k)).head?).elim "class"
        String.ofList
      let stop := sc.bodyEnd sp.stop (sc.marginOf m)
      { value :=
          { name := name
            kind := .ofKeyword keyword
            location := sc.location m.start stop
            heritage := (m.group? "heritage").elim [] fun h => heritageNames (sc.text h)
            isExported := exported.contains name }
        start := m.stop
        stop := stop }

def narrowest : List ClassSite → Option ClassSite
  | [] => none
  | c :: cs => match narrowest cs with
    | none => some c
    | some d => if d.stop - d.start < c.stop - c.start then some d else some c

/-- The class whose body holds an offset, the innermost one. -/
def innermostClass (classes : List ClassSite) (offset : Nat) : Option String :=
  (narrowest (classes.filter fun c => c.start < offset && offset < c.stop)).map (·.value.name)

def functionOf (sc : Scan) (exported : List String) (classes : List ClassSite) (m : Match)
    (sp : Span) : Nat × FunctionFact :=
  let name := String.ofList (sc.text sp)
  let headerEnd := (m.group? "params").elim sp.stop (·.stop)
  let location := sc.location m.start (sc.bodyEnd headerEnd (sc.marginOf m))
  let receiver := (m.group? "receiver").bind fun r => receiverName? (sc.text r)
  let parent := receiver.or (innermostClass classes sp.start)
  (m.start,
    { name := name
      kind := functionKind parent
      parent := parent
      location := location
      parameters := (m.group? "params").elim [] fun p =>
        (parameterTexts (sc.text p)).map String.ofList
      isAsync := (m.group? "async").isSome
      isExported := exported.contains name
      lineCount := location.endLine - location.line + 1
      complexity := 1 })

/-- The name occurrences of functions, each once, with their matches. -/
def functionsBy (sc : Scan) (seen : List Nat) : List Match → List (Match × Span)
  | [] => []
  | m :: ms => match m.group? "name" with
    | none => functionsBy sc seen ms
    | some sp =>
      if controlWords.contains (String.ofList (sc.text sp)) || seen.contains sp.start then
        functionsBy sc seen ms
      else (m, sp) :: functionsBy sc (sp.start :: seen) ms

/-- The functions in the order of their headers (`functions_of`); one in a class body is a
method. -/
def functions (sc : Scan) (exported : List String) (classes : List ClassSite) :
    List FunctionFact :=
  let found := sc.language.functions.flatMap fun p => p.findAll sc.masked
  byOffset ((sc.functionsBy [] found).map fun (m, sp) => sc.functionOf exported classes m sp)

/-! ## Identifiers and comments -/

/-- A string literal: characters and escapes between two equal quotes, on one line unless the quote
is a back quote. -/
def quotedText : TextPattern :=
  let escape : TextPattern := .seq (lit "\\") (.one (noneOf "\n"))
  let quoted (q : Char) (inner : Char → Bool) : TextPattern :=
    inOrder [.one (· == q), .loop (.alt (.one inner) escape), .one (· == q)]
  anyOf [quoted '"' (noneOf "\"\\\n"), quoted '\'' (noneOf "'\\\n"),
    quoted (Char.ofNat 0x60) fun c => c != Char.ofNat 0x60 && c != '\\']

def identifier : TextPattern :=
  .seq (.one fun c => c.isAlpha || c == '_' || c == '$')
    (many fun c => c.isAlphanum || c == '_' || c == '$')

/-- Replaces each covered character by one space, newlines apart. -/
def blankOut (spans : List Span) (offset : Nat) : List Char → List Char
  | [] => []
  | c :: r =>
    (if Comment.covered spans offset && c != '\n' then ' ' else c) ::
      blankOut spans (offset + c.utf8Size) r

/-- The identifiers outside comments and string literals (`identifiers_of`). -/
def identifiers (sc : Scan) : List IdentifierCount :=
  let plain := blankOut ((quotedText.findAll sc.masked).map (·.span)) 0 sc.masked
  let ix := LineIndex.ofText plain
  let found := (identifier.findAll plain).map fun m =>
    (String.ofList (slice m.start m.stop plain), ix.line m.start)
  IdentifierCount.tally (found.filter fun o => !keywords.contains o.1)

/-- The comments with their markers and annotations (`comments_of`). -/
def commentFacts (sc : Scan) : CommentFacts :=
  Comment.factsOf sc.source (Comment.ofSpans sc.lines sc.source sc.comments)

end Scan

/-- All facts that patterns find in a source (`PatternFacts`). -/
structure ScannedFacts where
  dependencies : List Dependency
  exports : ExportFacts
  functions : List FunctionFact
  classes : List ClassFact
  identifiers : List IdentifierCount
  comments : CommentFacts

/-- All facts of a source by the table of its language (`extract_facts`). -/
def ScannedFacts.ofSource (language : Language) (fs : FileSystem) (file : OsString)
    (source : List Char) : ScannedFacts :=
  let sc := Scan.ofSource language source
  let exports := sc.exports
  let exported := exports.exports.map (·.name)
  let classes := sc.classes exported
  { dependencies := sc.dependencies fs file
    exports := exports
    functions := sc.functions exported classes
    classes := classes.map (·.value)
    identifiers := sc.identifiers
    comments := sc.commentFacts }

def ScannedFacts.toJson (f : ScannedFacts) : Json :=
  .obj [("dependencies", Json.list Dependency.toJson f.dependencies),
    ("exports", f.exports.toJson), ("functions", Json.list FunctionFact.toJson f.functions),
    ("classes", Json.list ClassFact.toJson f.classes),
    ("identifiers", Json.list IdentifierCount.toJson f.identifiers),
    ("comments", f.comments.toJson)]

end CodeSurvey
