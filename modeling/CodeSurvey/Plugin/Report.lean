import CodeSurvey.Plugin.Registry
/-!
# Running plugins

Selected plugins run one after the other on one input. A plugin that is missing, fails, breaks down
or gives an output that it does not accept leaves no output and a failure behind; the others run all
the same.
-/
namespace CodeSurvey

-- sums begin with the zero of the core library, whatever a later module imports
attribute [local instance(high)] Zero.ofOfNat0

/-- Why a selected plugin has no output (`FailureReason`). -/
inductive FailureCause where
  | notRegistered
  | error
  | panicked
  | invalidOutput
deriving Repr, DecidableEq

def FailureCause.word : FailureCause → String
  | .notRegistered => "not_registered"
  | .error => "error"
  | .panicked => "panicked"
  | .invalidOutput => "invalid_output"

/-- A plugin without output (`PluginFailure`). -/
structure Failure where
  name : String
  reason : FailureCause
  message : String
deriving Repr, DecidableEq

/-- What became of one selected name. -/
inductive Verdict (β : Type) where
  /-- The plugin does not handle the language. -/
  | skipped
  | failed (reason : FailureCause) (message : String)
  | produced (value : β)

/-- The attempt to run one selected name. -/
structure Attempt (β : Type) where
  /-- Serial number of the instance that ran. -/
  ran : Option Nat
  verdict : Verdict β

/-- What running the selected plugins gave (`ExecutionReport`). -/
structure Report (β : Type) where
  /-- An entry for every name that was attempted; none marks a failure. -/
  outputs : Dict (Option β)
  /-- The runs in order: name and serial number. -/
  runs : List (String × Nat)
  failures : List Failure
  /-- Names of plugins that do not handle the language. -/
  skipped : List String

namespace Report

variable {β : Type}

def empty : Report β := ⟨.empty, [], [], []⟩

def add (r : Report β) (name : String) (a : Attempt β) : Report β :=
  let r := { r with runs := r.runs ++ a.ran.toList.map (name, ·) }
  match a.verdict with
  | .skipped => { r with skipped := r.skipped ++ [name] }
  | .failed reason message =>
    { r with
      outputs := r.outputs.insert name none
      failures := r.failures ++ [⟨name, reason, message⟩] }
  | .produced value => { r with outputs := r.outputs.insert name (some value) }

def timed (r : Report β) : List String :=
  (Dict.ofList (r.runs.map fun e => (e.1, ()))).keys

/-- Names of the plugins with an output, in ascending order (`used`). -/
def used (r : Report β) : List String := (r.outputs.entries.filter (·.2.isSome)).map (·.1)

end Report

namespace Registry

variable {α β : Type}

/-- The verdict on how a run of a plugin ended. -/
def judge (kind name : String) (p : Plugin α β) (files : FileSystem) : Outcome β → Verdict β
  | .output value =>
    if p.accepts files value then .produced value
    else .failed .invalidOutput s!"{kind} '{name}' produced output that failed validation"
  | .failed message => .failed .error s!"{kind} '{name}' failed: {message}"
  | .panicked message =>
    let text := message.getD "unknown panic"
    .failed .panicked s!"{kind} '{name}' panicked: {text}"

/-- Attempts to run the plugin of a name. -/
def attempt (r : Registry α β) (input : α) (context : Context) (options : Dict Json)
    (name : String) : Attempt β :=
  match r.get? name with
  | none => ⟨none, .failed .notRegistered s!"{r.kind} '{name}' is not registered"⟩
  | some i =>
    if i.plugin.supports context.language then
      ⟨some i.serial, judge r.kind name i.plugin context.files
        (i.plugin.execute input context ((options.get? name).getD .null))⟩
    else ⟨none, .skipped⟩

/-- Runs the plugins of the selected names, or all plugins (`execute_selected`). -/
def execute (r : Registry α β) (selected : Option (List String)) (input : α) (context : Context)
    (options : Dict Json) : Report β :=
  (selected.getD r.names).foldl
    (fun report name => report.add name (r.attempt input context options name)) .empty

/-- Milliseconds that running the selected plugins takes. -/
def cost (r : Registry α β) (selected : List String) (language : String) : Nat :=
  (selected.map fun name => (r.get? name).elim 0 fun i =>
    if i.plugin.supports language then i.plugin.cost else 0).sum

end Registry

end CodeSurvey
