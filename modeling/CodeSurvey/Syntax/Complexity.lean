import CodeSurvey.Syntax.Node
/-!
# Cyclomatic complexity

The complexity of a node is one plus the number of branches at or below it. A language lists its
branches: kinds of nodes, and operations with a certain operator.
-/
namespace CodeSurvey.Syntax

-- sums begin with the zero of the core library, whatever a later module imports
attribute [local instance(high)] Zero.ofOfNat0

inductive Branch where
  /-- Every node of a kind. -/
  | node (kind : String)
  /-- Every node of a kind with an operator. -/
  | operation (kind operator : String)
deriving Repr, DecidableEq

namespace Branch

/-- Whether a node is a branch of this form. -/
def accepts (n : Node) : Branch → Bool
  | .node kind => n.named && n.kind == kind
  | .operation kind operator =>
    n.named && n.kind == kind && (n.childrenIn "operator").any fun c => c.kind == operator

/-- The form as one line of a query. -/
def query : Branch → String
  | .node kind => s!"({kind}) @branch"
  | .operation kind operator => s!"({kind} operator: \"{operator}\") @branch"

/-- All forms as the text of a query (`complexity_query`). -/
def queryText (bs : List Branch) : String :=
  "\n" ++ String.join (bs.map fun b => b.query ++ "\n")

/-- The complexity of a node (`complexity`). -/
def complexity (bs : List Branch) (n : Node) : Nat :=
  1 + (n.allSites.map fun s => bs.countP (·.accepts s.node)).sum

end Branch

end CodeSurvey.Syntax
