/-!
# Patterns

A `Pattern α` describes pieces of a sequence of symbols: characters of a text, or bytes of a path.
Alternatives are ordered and repetitions prefer more or fewer rounds as stated, so of all the ways a
pattern can match at a place exactly one is chosen, the first in that order.
-/
namespace CodeSurvey

/-- A pattern over symbols of type `α`. -/
inductive Pattern (α : Type) where
  /-- Matches the empty sequence. -/
  | empty
  /-- Matches one symbol of a class. -/
  | one (p : α → Bool)
  /-- Matches any number of symbols of a class, as many as possible or as few as possible. -/
  | span (greedy : Bool) (p : α → Bool)
  /-- Matches one pattern, then another. -/
  | seq (a b : Pattern α)
  /-- Matches the first pattern or, failing that, the second. -/
  | alt (a b : Pattern α)
  /-- Matches a pattern any number of times, as often as possible; every round consumes a symbol. -/
  | loop (a : Pattern α)
  /-- Matches the empty sequence where the symbols before and after satisfy a test. -/
  | edge (p : Option α → Option α → Bool)
  /-- Matches a pattern and remembers where. -/
  | group (label : String) (a : Pattern α)

namespace Pattern

variable {α : Type}

/-- A place in a sequence: the symbol before it, its offset, and what follows. -/
structure Cursor (α : Type) where
  before : Option α
  offset : Nat
  after : List α

structure Span where
  start : Nat
  stop : Nat
deriving Repr, DecidableEq

/-- The groups remembered so far, the latest first. -/
abbrev Groups := List (String × Span)

/-- What to do after a pattern has matched up to a place. -/
abbrev Next (α : Type) := Cursor α → Groups → Option (Cursor α × Groups)

/-- The places reached by consuming 0, 1, 2, … symbols of a class, the farthest first. -/
def reaches (width : α → Nat) (p : α → Bool) (before : Option α) (offset : Nat) :
    List α → List (Cursor α) → List (Cursor α)
  | [], acc => ⟨before, offset, []⟩ :: acc
  | a :: r, acc =>
    let here : Cursor α := ⟨before, offset, a :: r⟩
    if p a then reaches width p (some a) (offset + width a) r (here :: acc) else here :: acc

/-- Rounds of a repetition, at most `n` of them: another round first, then going on without. -/
def rounds (step : Cursor α → Groups → Next α → Option (Cursor α × Groups)) :
    Nat → Cursor α → Groups → Next α → Option (Cursor α × Groups)
  | 0, c, g, k => k c g
  | n + 1, c, g, k =>
    match step c g fun c' g' => if c.offset < c'.offset then rounds step n c' g' k else none with
    | some r => some r
    | none => k c g

/-- The first way to match a pattern from a place such that what comes next succeeds. -/
def run (width : α → Nat) : Pattern α → Cursor α → Groups → Next α → Option (Cursor α × Groups)
  | .empty, c, g, k => k c g
  | .one p, c, g, k => match c.after with
    | a :: r => if p a then k ⟨some a, c.offset + width a, r⟩ g else none
    | [] => none
  | .span greedy p, c, g, k =>
    let places := reaches width p c.before c.offset c.after []
    (if greedy then places else places.reverse).findSome? fun c' => k c' g
  | .seq a b, c, g, k => a.run width c g fun c' g' => b.run width c' g' k
  | .alt a b, c, g, k => match a.run width c g k with
    | some r => some r
    | none => b.run width c g k
  | .loop a, c, g, k => rounds (a.run width) c.after.length c g k
  | .edge p, c, g, k => if p c.before c.after.head? then k c g else none
  | .group label a, c, g, k =>
    a.run width c g fun c' g' => k c' ((label, ⟨c.offset, c'.offset⟩) :: g')

/-- A match: where it lies and what its groups hold. -/
structure Match where
  span : Span
  groups : Groups
deriving Repr, DecidableEq

abbrev Match.start (m : Match) : Nat := m.span.start

abbrev Match.stop (m : Match) : Nat := m.span.stop

/-- Where a group matched, if it took part. -/
def Match.group? (m : Match) (label : String) : Option Span := m.groups.lookup label

/-- The match of a pattern at a place. -/
def matchAt (width : α → Nat) (p : Pattern α) (c : Cursor α) : Option Match :=
  (p.run width c [] fun c' g => some (c', g)).map fun (c', g) => ⟨⟨c.offset, c'.offset⟩, g⟩

/-- Whether a pattern matches a whole sequence. -/
def matchesAll (p : Pattern α) (s : List α) : Bool :=
  (p.run (fun _ => 1) ⟨none, 0, s⟩ [] fun c g =>
    if c.after.isEmpty then some (c, g) else none).isSome

/-- Matches from left to right from `offset` on, none starting before `resume`; each starts at the
first place possible after the end of the previous one. -/
def matchesFrom (width : α → Nat) (p : Pattern α) (resume : Nat) (before : Option α) (offset : Nat)
    (s : List α) : List Match :=
  let hit := if offset < resume then none else p.matchAt width ⟨before, offset, s⟩
  let resume := match hit with
    | some m => m.stop
    | none => resume
  let later := match s with
    | [] => []
    | a :: r => matchesFrom width p resume (some a) (offset + width a) r
  match hit with
  | some m => m :: later
  | none => later

end Pattern

end CodeSurvey
