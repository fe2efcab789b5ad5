import CodeSurvey.Engine.Basic
/-!
# Calls at the same time

Calls that run at the same time share an engine, its files and one slot for each key that is being
worked on. A slot is a lock that counts who refers to it: the table of the slots, as long as it
lists it, and every call that has taken it. A `Traffic` is all of that with the calls under way. One
`step` is what happens without an interruption: a call goes on by one stage, a new call comes, or
someone else takes entries out of the cache or changes the files.
-/
namespace CodeSurvey

/-! ## Slots -/

/-- A lock that the calls for a key share. -/
structure Slot where
  /-- How many refer to it. -/
  refs : Nat
  locked : Bool := false
deriving Repr, DecidableEq

/-- Slots by number, and the table that says which one is that of a key. -/
structure Slots where
  table : Dict Nat := .empty
  all : List Slot := []

namespace Slots

/-- How many refer to a slot (`strong_count`). -/
def refs (s : Slots) (n : Nat) : Nat := s.all[n]?.elim 0 (·.refs)

/-- Notes that one more refers to a slot. -/
def share (s : Slots) (n : Nat) : Slots :=
  { s with all := s.all.modify n fun x => { x with refs := x.refs + 1 } }

/-- Notes that one less refers to a slot. -/
def drop (s : Slots) (n : Nat) : Slots :=
  { s with all := s.all.modify n fun x => { x with refs := x.refs - 1 } }

/-- Adds a slot for a key, to which the table and one other refer. -/
def add (s : Slots) (key : String) : Slots :=
  { table := s.table.insert key s.all.length, all := s.all ++ [{ refs := 2 }] }

/-- Takes the slot of a key (`inflight_slot`); a key without one gets a new one. -/
def take (s : Slots) (key : String) : Nat × Slots :=
  match s.table.get? key with
  | some n => (n, s.share n)
  | none => (s.all.length, s.add key)

def isLocked (s : Slots) (n : Nat) : Bool := s.all[n]?.any (·.locked)

def setLock (s : Slots) (n : Nat) (locked : Bool) : Slots :=
  { s with all := s.all.modify n ({ · with locked }) }

/-- Takes the slot of a key out of the table if only the table and one other refer to it
(`release_slot`). -/
def release (s : Slots) (key : String) (n : Nat) : Slots :=
  if s.refs n ≤ 2 then
    match s.table.get? key with
    | some m => { s with table := s.table.erase key }.drop m
    | none => s
  else s

end Slots

/-! ## Calls -/

/-- What a call does next. -/
inductive Stage where
  /-- It takes the slot of its key. -/
  | arriving
  /-- It locks its slot. -/
  | waiting (slot : Nat)
  /-- It looks its key up. -/
  | looking (slot : Nat)
  /-- It reads the file. -/
  | reading (slot : Nat)
  /-- It makes the rest of its pass. -/
  | working (slot : Nat) (source : Except IoError (List Char))
  /-- It keeps its survey. -/
  | storing (slot : Nat) (pass : Pass)
  /-- It unlocks its slot. -/
  | unlocking (slot : Nat) (survey : FileSurvey)
  /-- It takes its slot out of the table, if it may. -/
  | leaving (slot : Nat) (survey : FileSurvey)
  /-- It refers to its slot no longer. -/
  | dropping (slot : Nat) (survey : FileSurvey)
  /-- It counts its survey. -/
  | counting (survey : FileSurvey)
  /-- It has returned. -/
  | returned (survey : FileSurvey)

structure Call where
  path : OsString
  config : SettledConfig
  origin : Origin
  stage : Stage := .arriving

def Call.key (c : Call) : String := c.config.key c.path.display

/-- The key of a call that may use the cache; such a call needs a slot. -/
def Call.key? (c : Call) : Option String := if c.config.useCache then some c.key else none

/-! ## Traffic -/

/-- What happened to surveys and the cache. Calls are known by their number. -/
inductive Traffic.Event where
  | began (call : Nat)
  /-- A call has read its file, to make the survey of a key if it may use the cache. -/
  | read (call : Nat) (key : Option String)
  /-- A call has put its survey into the cache. -/
  | stored (call : Nat) (key : String) (survey : FileSurvey)
  /-- A call has got a survey out of the cache. -/
  | found (call : Nat) (key : String) (survey : FileSurvey)
  | invalidated (path : OsString)
  | cleared

/-- An engine, its files, the calls under way and what happened so far. -/
structure Traffic where
  engine : Engine
  files : FileSystem
  slots : Slots := {}
  calls : List Call := []
  events : List Traffic.Event := []

namespace Traffic

/-- What can happen next. -/
inductive Action where
  | call (path : OsString) (c : CallConfig) (o : Origin)
  /-- A call goes on. -/
  | advance (call : Nat)
  | invalidate (path : OsString)
  | emptyCache
  /-- Someone else changes the files. -/
  | changeFiles (files : FileSystem)

def turn (s : Traffic) (i : Nat) (c : Call) (stage : Stage) : Traffic :=
  { s with calls := s.calls.set i { c with stage } }

def note (s : Traffic) (x : Event) : Traffic := { s with events := s.events ++ [x] }

/-- Looks up the key of a call, which holds a slot. -/
def look (now : Nat) (s : Traffic) (i : Nat) (c : Call) (n : Nat) : Traffic :=
  let (found, cache, files) := s.engine.cache.get FileSurvey.codec s.files now c.key
  let s := { s with engine := { s.engine with cache }, files }
  match found with
  | some survey => (s.note (.found i c.key survey)).turn i c (.unlocking n survey.asCached)
  | none => s.turn i c (.reading n)

/-- Keeps the survey of a pass if nothing went wrong. -/
def store (now : Nat) (s : Traffic) (i : Nat) (c : Call) (n : Nat) (pass : Pass) : Traffic :=
  let (engine, files) := s.engine.keep s.files now ⟨some c.key, c.config.cacheTtl * 1000, pass⟩
  let s := { s with engine, files }
  let s := if pass.survey.succeeded then s.note (.stored i c.key pass.survey) else s
  s.turn i c (.unlocking n pass.survey)

/-- The next stage of a call, unless it has to wait or has returned. A call that may not use the
cache needs no slot. -/
def advance (g : Grammars) (now : Nat) (s : Traffic) (i : Nat) : Option Traffic :=
  match s.calls[i]? with
  | none => none
  | some c => match c.stage with
    | .arriving =>
      if c.config.useCache then
        let (n, slots) := s.slots.take c.key
        some ({ s with slots }.turn i c (.waiting n))
      else
        let pass := s.engine.tools.pass ⟨g, s.files, now⟩ c.path c.config c.origin
        let engine := s.engine.note pass.extractorRuns pass.interpreterRuns
        some (({ s with engine }.note (.read i none)).turn i c (.counting pass.survey))
    | .waiting n =>
      if s.slots.isLocked n then none
      else some ({ s with slots := s.slots.setLock n true }.turn i c (.looking n))
    | .looking n => some (s.look now i c n)
    | .reading n =>
      some ((s.note (.read i (some c.key))).turn i c (.working n (c.origin.read s.files c.path)))
    | .working n source =>
      let pass := s.engine.tools.passOn ⟨g, s.files, now⟩ c.path c.config source
      let engine := s.engine.note pass.extractorRuns pass.interpreterRuns
      some ({ s with engine }.turn i c (.storing n pass))
    | .storing n pass => some (s.store now i c n pass)
    | .unlocking n survey =>
      some ({ s with slots := s.slots.setLock n false }.turn i c (.leaving n survey))
    | .leaving n survey =>
      some ({ s with slots := s.slots.release c.key n }.turn i c (.dropping n survey))
    | .dropping n survey =>
      some ({ s with slots := s.slots.drop n }.turn i c (.counting survey))
    | .counting survey =>
      some ({ s with engine := s.engine.record survey c.config.useCache }.turn i c
        (.returned survey))
    | .returned _ => none

/-- What happens next; a refused call leaves no trace. -/
def step (g : Grammars) (now : Nat) (s : Traffic) : Action → Option Traffic
  | .call path c o => match s.engine.prepare c with
    | .error _ => some s
    | .ok config => some { s.note (.began s.calls.length) with
        calls := s.calls ++ [{ path, config, origin := o }] }
  | .advance i => s.advance g now i
  | .invalidate path =>
    let (_, engine, files) := s.engine.invalidate s.files path
    some ({ s with engine, files }.note (.invalidated path))
  | .emptyCache =>
    let (engine, files) := s.engine.emptyCache s.files
    some ({ s with engine, files }.note .cleared)
  | .changeFiles files => some { s with files }

/-- What steps lead to from a start, each at any time, if all of them meet a condition. -/
inductive Reaches (g : Grammars) (ok : Traffic → Nat → Action → Traffic → Prop)
    (start : Traffic) : Traffic → Prop
  | refl : Reaches g ok start start
  | step {s s' : Traffic} (now : Nat) (a : Action) (h : Reaches g ok start s)
      (hstep : s.step g now a = some s') (hok : ok s now a s') : Reaches g ok start s'

/-- Performs actions in order, each at its time, as long as a condition is met. -/
def follow (g : Grammars) (ok : Traffic → Nat → Action → Traffic → Bool) (s : Traffic) :
    List (Nat × Action) → Option Traffic
  | [] => some s
  | (now, a) :: rest => match s.step g now a with
    | none => none
    | some s' => if ok s now a s' then follow g ok s' rest else none

end Traffic

end CodeSurvey
