import CodeSurvey.Comment.Text
import CodeSurvey.Syntax.Node
/-!
# Parsed sources

A source with the tree that a grammar gave it; without a grammar there is only the source.
-/
namespace CodeSurvey.Syntax

open Text

/-- What a grammar makes of a source: a tree, and whether it holds syntax errors. -/
structure Concrete where
  root : Node
  hasError : Bool

/-- A parsed source (`SyntaxTree`). -/
structure Tree where
  source : List Char
  lines : LineIndex
  concrete : Option Concrete

namespace Tree

/-- A source with the tree that a grammar gave it (`concrete`). -/
def ofConcrete (source : List Char) (c : Concrete) : Tree := ⟨source, .ofText source, some c⟩

/-- A source without a tree (`pattern_only`). -/
def plain (source : List Char) : Tree := ⟨source, .ofText source, none⟩

/-- Whether there is no tree (`is_pattern_only`). -/
def isPlain (t : Tree) : Bool := t.concrete.isNone

def root? (t : Tree) : Option Node := t.concrete.map (·.root)

/-- Whether the grammar reported errors (`has_syntax_errors`). -/
def isDamaged (t : Tree) : Bool := t.concrete.any (·.hasError)

def byteCount (t : Tree) : Nat := size t.source

def chars (t : Tree) (n : Node) : List Char := slice n.start n.stop t.source

def text (t : Tree) (n : Node) : String := String.ofList (t.chars n)

/-- The text of the first child in a field (`field_text`). -/
def textAt? (t : Tree) (n : Node) (field : String) : Option String :=
  (n.child? field).map t.text

/-- The location of a node (`location_of`). -/
def location (t : Tree) (n : Node) : Location := Location.ofOffsets t.lines n.start n.stop

/-- The line on which a node starts (`line_of`). -/
def line (t : Tree) (n : Node) : Nat := t.lines.line n.start

/-- Short description: its size and whether there is a tree. -/
def describe (t : Tree) : String :=
  s!"SyntaxTree \x7b bytes: {t.byteCount}, lines: {t.lines.lineCount}, pattern_only: {t.isPlain} \x7d"

def sites (t : Tree) : List Node.Site := t.root?.elim [] (·.allSites)

/-- The named nodes directly below the root. -/
def topLevel (t : Tree) : List Node := t.root?.elim [] (·.namedChildren)

/-! ## Texts of nodes -/

/-- The text of a literal without blanks and quotes around it (`unquote`). -/
def unquote (s : List Char) : List Char :=
  let isMark (c : Char) : Bool := Comment.isQuote c
  dropEndWhile isMark ((trim s).dropWhile isMark)

def unquoted (t : Tree) (n : Node) : String := String.ofList (unquote (t.chars n))

/-- The names that one parameter declares. -/
def namesOfParameter (t : Tree) (p : Node) : List String :=
  match p.childrenIn "name" with
  | [] =>
    let shown := (p.child? "pattern").or ((p.child? "left").or
      (if p.kind == "typed_parameter" then p.firstNamed? else none))
    [t.text (shown.getD p)]
  | declared => declared.map t.text

/-- The parameter names of a parameter list (`parameter_names`); comments in it are passed over. -/
def parametersOf (t : Tree) (params : Node) : List String :=
  (params.namedChildren.filter fun p => !holds "comment".toList p.kind.toList).flatMap
    t.namesOfParameter

def declaredParameters (t : Tree) (n : Node) : Option (List String) :=
  (n.child? "parameters").map t.parametersOf

/-! ## Identifiers and comments -/

/-- Counts of the nodes of some kinds by their text (`identifiers_in`). -/
def identifiers (t : Tree) (kinds : List String) : List IdentifierCount :=
  let found := (t.sites.map (·.node)).filter fun n => kinds.contains n.kind
  IdentifierCount.tally (found.map fun n => (t.text n, t.line n))

def commentOf (t : Tree) (n : Node) : Comment := Comment.ofRaw t.lines (t.chars n) n.start

/-- The comments that nodes of some kinds hold (`collect_comments`). -/
def comments (t : Tree) (kinds : List String) : List Comment :=
  (t.root?.elim [] (·.outermost kinds)).map t.commentOf

end Tree

end CodeSurvey.Syntax
