/-!
# Syntax nodes

A node of a concrete syntax tree: its kind, the field of its parent that it fills, the range of the
source that it spans, and its children. Anonymous nodes are the tokens whose kind is their text.
-/
namespace CodeSurvey.Syntax

/-- A node of a concrete syntax tree. -/
inductive Node where
  | mk (kind : String) (named : Bool) (field : String) (start stop : Nat) (children : List Node)
deriving Repr, Inhabited

namespace Node

def kind : Node → String
  | mk k _ _ _ _ _ => k

def named : Node → Bool
  | mk _ n _ _ _ _ => n

/-- The field of the parent that a node fills; empty if it fills none. -/
def field : Node → String
  | mk _ _ f _ _ _ => f

def start : Node → Nat
  | mk _ _ _ s _ _ => s

def stop : Node → Nat
  | mk _ _ _ _ e _ => e

def children : Node → List Node
  | mk _ _ _ _ _ cs => cs

/-! ## Children -/

def namedChildren (n : Node) : List Node := n.children.filter named

def firstNamed? (n : Node) : Option Node := n.namedChildren.head?

/-- The children that fill a field. -/
def childrenIn (n : Node) (field : String) : List Node :=
  n.children.filter fun c => c.field == field

/-- The first child that fills a field (`child_by_field_name`). -/
def child? (n : Node) (field : String) : Option Node :=
  n.children.find? fun c => c.field == field

/-- Whether some child, named or not, has a kind (`has_child`). -/
def hasChildOf (n : Node) (kind : String) : Bool := n.children.any fun c => c.kind == kind

/-! ## Walking -/

/-- A node with the nodes above it, the nearest first. -/
structure Site where
  node : Node
  above : List Node

mutual

/-- A node and the nodes below it in preorder (`walk`); those below a node that `descend` refuses
are left out. -/
def sites (descend : Node → Bool) (above : List Node) : Node → List Site
  | mk k n f s e cs =>
    let here := mk k n f s e cs
    ⟨here, above⟩ :: (if descend here then sitesAll descend (here :: above) cs else [])

def sitesAll (descend : Node → Bool) (above : List Node) : List Node → List Site
  | [] => []
  | c :: cs => sites descend above c ++ sitesAll descend above cs

end

/-- A node and all nodes below it in preorder. -/
def allSites (n : Node) : List Site := n.sites (fun _ => true) []

/-- The nodes of some kinds in preorder; nothing is looked for below them. -/
def outermost (kinds : List String) (n : Node) : List Node :=
  ((n.sites (fun m => !kinds.contains m.kind) []).map (·.node)).filter fun m =>
    kinds.contains m.kind

/-- The nearest node above of one of some kinds (`ancestor`). -/
def Site.ancestor? (s : Site) (kinds : List String) : Option Node :=
  s.above.find? fun n => kinds.contains n.kind

/-! ## Building from rows -/

/-- One row of a tree written in preorder. -/
structure Row where
  depth : Nat
  kind : String
  named : Bool
  field : String
  start : Nat
  stop : Nat

/-- Puts a row in front of the trees of the rows after it: the deeper ones directly after it become
its children. -/
def addRow (r : Row) (later : List (Nat × Node)) : List (Nat × Node) :=
  let below := later.takeWhile fun t => r.depth < t.1
  let rest := later.dropWhile fun t => r.depth < t.1
  (r.depth, mk r.kind r.named r.field r.start r.stop (below.map (·.2))) :: rest

/-- The tree of rows in preorder. -/
def ofRows? (rows : List Row) : Option Node := (rows.foldr addRow []).head?.map (·.2)

end Node

end CodeSurvey.Syntax
