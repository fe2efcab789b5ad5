import CodeSurvey.Plugin.Report
import CodeSurvey.Proofs.Ownership
/-!
# Running plugins accounts for every name

What becomes of a selected name is settled by its own plugin: it delivers (`Registry.Delivers`), it
fails for one reason (`Registry.Fails`), or it is passed over (`Registry.Skips`). A report gathers
this name by name: what it holds about a name is what the attempt of that name gave
(`about_execute`). So a failing plugin disturbs no other, and every name is accounted for
(`execute_accounts`).
-/
namespace CodeSurvey

/-! ## Dictionaries -/

theorem Dict.mem_keys {β : Type} {d : Dict β} {k : String} :
    k ∈ d.keys ↔ (d.get? k).isSome = true := by
  simp [keys, get?, List.lookup_isSome_iff]

theorem Dict.mem_iff_lookup {β : Type} {l : List (String × β)} (h : l.Pairwise fun a b => a.1 < b.1)
    {k : String} {v : β} : (k, v) ∈ l ↔ l.lookup k = some v := by
  induction l with
  | nil => simp
  | cons e r ih =>
    obtain ⟨i, w⟩ := e
    obtain ⟨hfirst, hrest⟩ := List.pairwise_cons.1 h
    rw [lookup_entry, List.mem_cons, ih hrest]
    by_cases hk : k = i
    · subst hk
      -- the names behind the first entry are greater, so that the name has no second one
      have hnone : r.lookup k ≠ some v := fun hv =>
        String.lt_irrefl k (hfirst (k, v) ((ih hrest).2 hv))
      simp [hnone, eq_comm]
    · simp [hk]

theorem Dict.mem_keys_ofList {β : Type} {l : List (String × β)} {k : String} :
    k ∈ (ofList l).keys ↔ k ∈ l.map (·.1) := by
  induction l using List.reverseRecOn with
  | nil => simp [ofList, empty, keys]
  | append_singleton l e ih =>
    rw [mem_keys] at ih ⊢
    rw [ofList_concat, get?_insert, List.map_append, List.mem_append]
    by_cases hk : k = e.1
    · simp [hk]
    · simp [hk, ih]

/-! ## What an attempt adds -/

/-- What a verdict enters among the outputs. -/
def Verdict.entry {β : Type} : Verdict β → Option (Option β)
  | .skipped => none
  | .failed _ _ => some none
  | .produced value => some (some value)

namespace Attempt

variable {β : Type} (a : Attempt β) (name : String)

/-- The run that an attempt made. -/
def run : Option (String × Nat) := a.ran.map (name, ·)

/-- The failure of an attempt. -/
def failure : Option Failure :=
  match a.verdict with
  | .failed reason message => some ⟨name, reason, message⟩
  | _ => none

/-- The name, if it was passed over. -/
def passedOver : Option String :=
  match a.verdict with
  | .skipped => some name
  | _ => none

end Attempt

namespace Report

variable {β : Type} (r : Report β) (name : String) (a : Attempt β)

theorem runs_add : (r.add name a).runs = r.runs ++ (a.run name).toList := by
  unfold add Attempt.run
  cases a.verdict <;> cases a.ran <;> rfl

theorem failures_add : (r.add name a).failures = r.failures ++ (a.failure name).toList := by
  unfold add Attempt.failure
  cases a.verdict <;> simp

theorem skipped_add : (r.add name a).skipped = r.skipped ++ (a.passedOver name).toList := by
  unfold add Attempt.passedOver
  cases a.verdict <;> simp

theorem outputs_add (x : String) : (r.add name a).outputs.get? x =
    if x = name then a.verdict.entry.or (r.outputs.get? x) else r.outputs.get? x := by
  unfold add Verdict.entry
  cases a.verdict <;> simp [Dict.get?_insert]

/-- What a report says about one name. -/
structure Entry (β : Type) where
  output : Option (Option β)
  failures : List Failure
  skipped : List String
  runs : List (String × Nat)

/-- The part of a report about a name. -/
def about (x : String) : Entry β where
  output := r.outputs.get? x
  failures := r.failures.filter (·.name == x)
  skipped := r.skipped.filter (· == x)
  runs := r.runs.filter (·.1 == x)

end Report

/-! ## One name -/

namespace Registry

variable {α β : Type} (r : Registry α β) (input : α) (c : Context) (options : Dict Json)

/-- The plugin of a name runs: the name is registered and the plugin handles the language. -/
def Runs (language name : String) (i : Instance α β) : Prop :=
  r.get? name = some i ∧ i.plugin.supports language = true

/-- The plugin of a name is passed over, because it does not handle the language. -/
def Skips (language name : String) : Prop :=
  ∃ i, r.get? name = some i ∧ i.plugin.supports language = false

/-- The plugin of a name runs, and gives an output that it accepts. -/
def Delivers (name : String) (v : β) : Prop :=
  ∃ i, r.Runs c.language name i ∧
    i.plugin.execute input c ((options.get? name).getD .null) = .output v ∧
    i.plugin.accepts c.files v = true

/-- Why a name has no output. -/
inductive Fails (name : String) : FailureCause → Prop
  | notRegistered (h : r.get? name = none) : Fails name .notRegistered
  | error {i : Instance α β} {message : String} (h : r.Runs c.language name i)
    (ho : i.plugin.execute input c ((options.get? name).getD .null) = .failed message) :
    Fails name .error
  | panicked {i : Instance α β} {message : Option String} (h : r.Runs c.language name i)
    (ho : i.plugin.execute input c ((options.get? name).getD .null) = .panicked message) :
    Fails name .panicked
  | invalidOutput {i : Instance α β} {v : β} (h : r.Runs c.language name i)
    (ho : i.plugin.execute input c ((options.get? name).getD .null) = .output v)
    (ha : i.plugin.accepts c.files v = false) : Fails name .invalidOutput

/-- What the plugin of a name does decides the verdict on it. -/
def Judged (name : String) : Verdict β → Prop
  | .skipped => r.Skips c.language name
  | .failed reason _ => r.Fails input c options name reason
  | .produced v => r.Delivers input c options name v

/-- **The verdict on a name is right.** -/
theorem judged_attempt (name : String) :
    r.Judged input c options name (r.attempt input c options name).verdict := by
  unfold attempt
  cases hget : r.get? name with
  | none => exact .notRegistered hget
  | some i =>
    dsimp only
    split
    · rename_i hsupports
      have hruns : r.Runs c.language name i := ⟨hget, hsupports⟩
      unfold judge
      split
      · rename_i v ho
        split
        · rename_i haccepts
          exact ⟨i, hruns, ho, haccepts⟩
        · rename_i haccepts
          exact .invalidOutput hruns ho (Bool.eq_false_iff.2 haccepts)
      · rename_i message ho
        exact .error hruns ho
      · rename_i message ho
        exact .panicked hruns ho
    · rename_i hsupports
      exact ⟨i, hget, Bool.eq_false_iff.2 hsupports⟩

theorem verdict_eq_skipped {name : String} :
    (r.attempt input c options name).verdict = .skipped ↔ r.Skips c.language name := by
  constructor
  · intro h
    have hjudged := r.judged_attempt input c options name
    rwa [h] at hjudged
  · rintro ⟨i, hget, hsupports⟩
    simp [attempt, hget, hsupports]

theorem verdict_eq_produced {name : String} {v : β} :
    (r.attempt input c options name).verdict = .produced v ↔
      r.Delivers input c options name v := by
  constructor
  · intro h
    have hjudged := r.judged_attempt input c options name
    rwa [h] at hjudged
  · rintro ⟨i, ⟨hget, hsupports⟩, ho, haccepts⟩
    simp [attempt, hget, hsupports, ho, judge, haccepts]

theorem verdict_eq_failed {name : String} {reason : FailureCause} :
    (∃ message, (r.attempt input c options name).verdict = .failed reason message) ↔
      r.Fails input c options name reason := by
  constructor
  · rintro ⟨message, h⟩
    have hjudged := r.judged_attempt input c options name
    rwa [h] at hjudged
  · rintro (hget | ⟨⟨hget, hsupports⟩, ho⟩ | ⟨⟨hget, hsupports⟩, ho⟩ | ⟨⟨hget, hsupports⟩, ho, ha⟩)
    · simp [attempt, hget]
    · simp [attempt, hget, hsupports, ho, judge]
    · simp [attempt, hget, hsupports, ho, judge]
    · simp [attempt, hget, hsupports, ho, judge, ha]

/-- An attempt runs the plugin of its name, if that handles the language, and no other. -/
theorem ran_attempt {name : String} {n : Nat} :
    (r.attempt input c options name).ran = some n ↔
      ∃ i, r.Runs c.language name i ∧ i.serial = n := by
  unfold attempt Runs
  cases hget : r.get? name with
  | none => simp
  | some i =>
    dsimp only
    split
    · rename_i hsupports
      simp [hsupports]
    · rename_i hsupports
      simp [hsupports]

/-- An attempt depends on the plugin of its name only. -/
theorem attempt_congr {r' : Registry α β} {name : String} (hkind : r'.kind = r.kind)
    (hget : r'.get? name = r.get? name) :
    r'.attempt input c options name = r.attempt input c options name := by
  simp only [attempt, hkind, hget]

/-! ## Reports -/

/-- A list that grows by at most one item at each step of a fold. -/
theorem foldl_filterMap {σ ι γ : Type} (view : σ → List γ) {step : σ → ι → σ} {f : ι → Option γ}
    (h : ∀ s i, view (step s i) = view s ++ (f i).toList) (l : List ι) (s : σ) :
    view (l.foldl step s) = view s ++ l.filterMap f := by
  induction l generalizing s with
  | nil => simp
  | cons i l ih =>
    rw [List.foldl_cons, ih, h, List.append_assoc, List.filterMap_cons]
    cases f i <;> rfl

variable (names : List String)

theorem runs_execute : (r.execute (some names) input c options).runs =
    names.filterMap fun name => (r.attempt input c options name).run name :=
  foldl_filterMap Report.runs
    (fun s name => s.runs_add name (r.attempt input c options name)) names .empty

theorem failures_eq : (r.execute (some names) input c options).failures =
    names.filterMap fun name => (r.attempt input c options name).failure name :=
  foldl_filterMap Report.failures
    (fun s name => s.failures_add name (r.attempt input c options name)) names .empty

theorem skipped_execute : (r.execute (some names) input c options).skipped =
    names.filterMap fun name => (r.attempt input c options name).passedOver name :=
  foldl_filterMap Report.skipped
    (fun s name => s.skipped_add name (r.attempt input c options name)) names .empty

theorem outputs_execute (x : String) :
    (r.execute (some names) input c options).outputs.get? x =
      if x ∈ names then (r.attempt input c options x).verdict.entry else none := by
  have hfold : ∀ report : Report β, (names.foldl
      (fun report name => report.add name (r.attempt input c options name)) report).outputs.get? x =
      if x ∈ names then (r.attempt input c options x).verdict.entry.or (report.outputs.get? x)
      else report.outputs.get? x := by
    induction names with
    | nil => intro report; simp
    | cons name names ih =>
      intro report
      rw [List.foldl_cons, ih, Report.outputs_add]
      by_cases hx : x = name
      · subst hx
        -- the name may come again, with the same attempt
        cases (r.attempt input c options x).verdict.entry <;> simp
      · simp [hx]
  have hempty : (Report.empty : Report β).outputs.get? x = none := rfl
  exact (hfold .empty).trans (by rw [hempty, Option.or_none])

/-! ## The part of a report about a name -/

/-- Of items that belong to distinct names, those of one name are what that name gives. -/
theorem filter_filterMap_name {γ : Type} (key : γ → String) {f : String → Option γ}
    (hkey : ∀ name g, f name = some g → key g = name) {names : List String} (hnodup : names.Nodup)
    {x : String} (hx : x ∈ names) :
    (names.filterMap f).filter (key · == x) = (f x).toList := by
  have hother : ∀ {l : List String}, x ∉ l → (l.filterMap f).filter (key · == x) = [] := by
    intro l hl
    refine List.filter_eq_nil_iff.2 fun g hg => ?_
    obtain ⟨name, hname, hf⟩ := List.mem_filterMap.1 hg
    rw [hkey name g hf, beq_iff_eq]
    rintro rfl
    exact hl hname
  obtain ⟨before, after, rfl⟩ := List.append_of_mem hx
  have hbefore : x ∉ before := fun h =>
    (List.nodup_append.1 hnodup).2.2 x h x List.mem_cons_self rfl
  have hafter : x ∉ after := (List.nodup_cons.1 (List.nodup_append.1 hnodup).2.1).1
  rw [List.filterMap_append, List.filter_append, hother hbefore, List.nil_append,
    List.filterMap_cons]
  cases hf : f x with
  | none => exact hother hafter
  | some g => simp [hkey x g hf, hother hafter]

theorem name_of_run {a : Attempt β} {name : String} {x : String × Nat} (h : a.run name = some x) :
    x.1 = name := by
  obtain ⟨n, -, rfl⟩ := Option.map_eq_some_iff.1 h
  rfl

theorem name_of_failure {a : Attempt β} {name : String} {f : Failure}
    (h : a.failure name = some f) : f.name = name := by
  unfold Attempt.failure at h
  split at h
  · obtain rfl := Option.some.inj h
    rfl
  · cases h

theorem name_of_passedOver {a : Attempt β} {name x : String} (h : a.passedOver name = some x) :
    x = name := by
  unfold Attempt.passedOver at h
  split at h
  · exact (Option.some.inj h).symm
  · cases h

variable {names} in
/-- **A report says about a name what its own attempt gave**, whatever else was selected. -/
theorem about_execute (hnodup : names.Nodup) {x : String} (hx : x ∈ names) :
    (r.execute (some names) input c options).about x =
      let a := r.attempt input c options x
      ⟨a.verdict.entry, (a.failure x).toList, (a.passedOver x).toList, (a.run x).toList⟩ := by
  simp only [Report.about, outputs_execute, if_pos hx, failures_eq, skipped_execute, runs_execute,
    filter_filterMap_name Failure.name (fun _ _ => name_of_failure) hnodup hx,
    filter_filterMap_name (fun y : String => y) (fun _ _ => name_of_passedOver) hnodup hx,
    filter_filterMap_name (fun y : String × Nat => y.1) (fun _ _ => name_of_run) hnodup hx]

/-! ## Accounts -/

/-- A report accounts for the selected names. -/
structure Accounts (report : Report β) : Prop where
  /-- Every selected name has an output, has none, or was passed over, and no other name occurs. -/
  covered : ∀ x, x ∈ names ↔ (∃ v, report.outputs.get? x = some (some v)) ∨
    report.outputs.get? x = some none ∨ x ∈ report.skipped
  /-- A name that was passed over is not among the outputs. -/
  apart : ∀ x ∈ report.skipped, report.outputs.get? x = none
  /-- The names that were passed over are those whose plugins do not handle the language. -/
  skips : ∀ x, x ∈ report.skipped ↔ x ∈ names ∧ r.Skips c.language x
  /-- They stand once each, in the order of selection. -/
  skippedOrder : report.skipped.Sublist names
  /-- An output was accepted by its plugin, and what is accepted is an output. -/
  delivers : ∀ x v, report.outputs.get? x = some (some v) ↔
    x ∈ names ∧ r.Delivers input c options x v
  /-- The failures are of the names without output, once each, in the order of selection. -/
  failures : report.failures.map (·.name) =
    names.filter fun x => (report.outputs.get? x).any (·.isNone)
  /-- The reason of a failure is that of its own plugin. -/
  reasons : ∀ x reason, (∃ message, ⟨x, reason, message⟩ ∈ report.failures) ↔
    x ∈ names ∧ r.Fails input c options x reason
  /-- A registered plugin that handles the language runs once. -/
  runs : ∀ x ∈ names, ∀ i, r.Runs c.language x i → report.runs.count (x, i.serial) = 1
  /-- Nothing else runs. -/
  onlyRuns : ∀ x n, (x, n) ∈ report.runs → x ∈ names ∧ ∃ i, r.Runs c.language x i ∧ i.serial = n
  /-- No instance runs twice. -/
  instances : (report.runs.map (·.2)).Nodup
  /-- The names that are timed are those that run. -/
  timed : ∀ x, x ∈ report.timed ↔ x ∈ names ∧ ∃ i, r.Runs c.language x i
  /-- What is said about a name is what is said when it is selected alone. -/
  alone : ∀ x ∈ names, report.about x = (r.execute (some [x]) input c options).about x
  /-- Nor does it matter what else is registered or selected, and in which order. -/
  siblings : ∀ x ∈ names, ∀ r' : Registry α β, r'.kind = r.kind → r'.get? x = r.get? x →
    ∀ names', names'.Nodup → x ∈ names' →
      (r'.execute (some names') input c options).about x = report.about x

variable {names}

theorem mem_skipped {x : String} : x ∈ (r.execute (some names) input c options).skipped ↔
    x ∈ names ∧ r.Skips c.language x := by
  rw [skipped_execute, List.mem_filterMap]
  constructor
  · rintro ⟨name, hname, h⟩
    obtain rfl := name_of_passedOver h
    refine ⟨hname, (r.verdict_eq_skipped input c options).1 ?_⟩
    unfold Attempt.passedOver at h
    split at h
    · assumption
    · cases h
  · rintro ⟨hx, hskips⟩
    exact ⟨x, hx, by simp [Attempt.passedOver, (r.verdict_eq_skipped input c options).2 hskips]⟩

theorem mem_failures {x : String} {reason : FailureCause} :
    (∃ message, ⟨x, reason, message⟩ ∈ (r.execute (some names) input c options).failures) ↔
      x ∈ names ∧ r.Fails input c options x reason := by
  simp only [failures_eq, List.mem_filterMap]
  constructor
  · rintro ⟨message, name, hname, h⟩
    obtain rfl := name_of_failure h
    refine ⟨hname, (r.verdict_eq_failed input c options).1 ⟨message, ?_⟩⟩
    unfold Attempt.failure at h
    split at h
    · cases h
      assumption
    · cases h
  · rintro ⟨hx, hfails⟩
    obtain ⟨message, hverdict⟩ := (r.verdict_eq_failed input c options).2 hfails
    exact ⟨message, x, hx, by simp [Attempt.failure, hverdict]⟩

theorem mem_runs {x : String} {n : Nat} :
    (x, n) ∈ (r.execute (some names) input c options).runs ↔
      x ∈ names ∧ ∃ i, r.Runs c.language x i ∧ i.serial = n := by
  rw [runs_execute, List.mem_filterMap]
  constructor
  · rintro ⟨name, hname, h⟩
    obtain ⟨m, hran, hm⟩ := Option.map_eq_some_iff.1 h
    obtain ⟨rfl, rfl⟩ := Prod.mk.inj hm
    exact ⟨hname, (r.ran_attempt input c options).1 hran⟩
  · rintro ⟨hx, hruns⟩
    exact ⟨x, hx, by simp [Attempt.run, (r.ran_attempt input c options).2 hruns]⟩

theorem mem_timed {x : String} : x ∈ (r.execute (some names) input c options).timed ↔
    x ∈ names ∧ ∃ i, r.Runs c.language x i := by
  rw [Report.timed, Dict.mem_keys_ofList]
  simp only [List.map_map, List.mem_map, Function.comp_apply, Prod.exists, exists_and_right,
    exists_eq_right, mem_runs]
  constructor
  · rintro ⟨n, hx, i, hruns, -⟩
    exact ⟨hx, i, hruns⟩
  · rintro ⟨hx, i, hruns⟩
    exact ⟨i.serial, hx, i, hruns, rfl⟩

/-- A selected plugin that handles the language runs once. -/
theorem count_runs (hnodup : names.Nodup) {x : String} (hx : x ∈ names) {i : Instance α β}
    (hruns : r.Runs c.language x i) :
    (r.execute (some names) input c options).runs.count (x, i.serial) = 1 := by
  have habout := congrArg Report.Entry.runs (r.about_execute input c options hnodup hx)
  have hran : (r.attempt input c options x).ran = some i.serial :=
    (r.ran_attempt input c options).2 ⟨i, hruns, rfl⟩
  simp only [Report.about, Attempt.run, hran, Option.map_some, Option.toList_some] at habout
  rw [← List.count_filter (p := fun y => y.1 == x) (by simp), habout]
  simp

/-- The failures are of the names without output, in the order of selection. -/
theorem map_name_failures : (r.execute (some names) input c options).failures.map (·.name) =
    names.filter fun x =>
      ((r.execute (some names) input c options).outputs.get? x).any (·.isNone) := by
  rw [failures_eq, List.map_filterMap, ← List.filterMap_eq_filter]
  refine List.filterMap_congr fun x hx => ?_
  simp only [Option.guard, outputs_execute, if_pos hx]
  unfold Attempt.failure Verdict.entry
  cases (r.attempt input c options x).verdict <;> simp

/-- What was passed over stands in the order of selection. -/
theorem sublist_skipped : (r.execute (some names) input c options).skipped.Sublist names := by
  have hguard : (fun x => (r.attempt input c options x).passedOver x) =
      Option.guard fun x => ((r.attempt input c options x).passedOver x).isSome := by
    funext x
    rw [Option.guard]
    unfold Attempt.passedOver
    cases (r.attempt input c options x).verdict <;> rfl
  rw [skipped_execute, hguard, List.filterMap_eq_filter]
  exact List.filter_sublist

/-- No instance runs twice, for two names never share one. -/
theorem nodup_serials (kind : String) (history : List (Change α β)) (hnodup : names.Nodup) :
    (((after kind history).execute (some names) input c options).runs.map (·.2)).Nodup := by
  rw [runs_execute, List.map_filterMap]
  refine hnodup.filterMap fun x y n hx hy => ?_
  simp only [Attempt.run, Option.mem_def, Option.map_map, Option.map_eq_some_iff,
    Function.comp_apply, exists_eq_right, ran_attempt] at hx hy
  obtain ⟨i, ⟨hi, -⟩, hn⟩ := hx
  obtain ⟨j, ⟨hj, -⟩, rfl⟩ := hy
  exact serial_injective kind history hi hj hn

/-- **Partial failure is isolated and accounted for.** Take any registry that a history leads to, a
selection without repetition or all registered names, and any input, context and options. Every
selected name has an output that its plugin accepts, fails for the reason of its own plugin, or is
passed over; the failures and what was passed over stand in the order of selection; exactly the
selected plugins that handle the language run, once each; and what is said about a name does not
depend on the others. -/
theorem execute_accounts (kind : String) (history : List (Change α β))
    (selected : Option (List String)) (hselected : ∀ names ∈ selected, names.Nodup) :
    (after kind history).Accounts input c options (selected.getD (after kind history).names)
      ((after kind history).execute selected input c options) := by
  let r := after kind history
  let names := selected.getD r.names
  have hnodup : names.Nodup := by
    cases selected with
    | none => exact nodup_names_after kind history
    | some names => exact hselected names rfl
  have houtputs := r.outputs_execute input c options names
  change r.Accounts input c options names (r.execute (some names) input c options)
  refine
    { covered := fun x => ?_
      apart := fun x hx => ?_
      skips := fun x => r.mem_skipped input c options
      skippedOrder := r.sublist_skipped input c options
      delivers := fun x v => ?_
      failures := r.map_name_failures input c options
      reasons := fun x reason => r.mem_failures input c options
      runs := fun x hx i hruns => r.count_runs input c options hnodup hx hruns
      onlyRuns := fun x n => (r.mem_runs input c options).1
      instances := nodup_serials input c options kind history hnodup
      timed := fun x => r.mem_timed input c options
      alone := fun x hx => ?_
      siblings := fun x hx r' hkind hget names' hnodup' hx' => ?_ }
  · rw [r.mem_skipped, houtputs, ← r.verdict_eq_skipped input c options]
    by_cases hx : x ∈ names
    · cases hv : (r.attempt input c options x).verdict <;> simp [hx, Verdict.entry]
    · simp [hx]
  · rw [r.mem_skipped, ← r.verdict_eq_skipped input c options] at hx
    rw [houtputs, if_pos hx.1, hx.2, Verdict.entry]
  · rw [houtputs, ← r.verdict_eq_produced]
    by_cases hx : x ∈ names
    · cases hv : (r.attempt input c options x).verdict <;> simp [hx, Verdict.entry]
    · simp [hx]
  · rw [r.about_execute input c options hnodup hx,
      r.about_execute input c options (List.nodup_singleton x) (List.mem_singleton_self x)]
  · rw [r.about_execute input c options hnodup hx, r'.about_execute input c options hnodup' hx',
      r.attempt_congr input c options hkind hget]

/-- Plugins of every kind; the first name is registered twice. -/
def assortment : List (Change Unit Nat) :=
  [.register "counts" ⟨fun _ => true, fun _ _ _ => .output 1, fun _ _ => true, 0⟩,
    .register "errs" ⟨fun _ => true, fun _ _ _ => .failed "no luck", fun _ _ => true, 0⟩,
    .register "panics" ⟨fun _ => true, fun _ _ _ => .panicked none, fun _ _ => true, 0⟩,
    .register "doubts" ⟨fun _ => true, fun _ _ _ => .output 2, fun _ v => v < 2, 0⟩,
    .register "foreign" ⟨fun _ => false, fun _ _ _ => .output 3, fun _ _ => true, 0⟩,
    .register "counts" ⟨fun _ => true, fun _ _ _ => .output 4, fun _ _ => true, 0⟩]

/-- Everything that can go wrong does so beside a plugin that delivers. -/
theorem execute_accounts_assortment :
    let r := after "extractor" assortment
    let c : Context := ⟨"a.rb", "ruby", .empty⟩
    let names := ["doubts", "absent", "counts", "foreign", "panics", "errs"]
    let report := r.execute (some names) () c .empty
    names.Nodup ∧ r.Accounts () c .empty names report ∧
      report.failures.map (fun f => (f.name, f.reason)) =
        [("doubts", .invalidOutput), ("absent", .notRegistered), ("panics", .panicked),
          ("errs", .error)] ∧
      report.outputs.get? "counts" = some (some 4) ∧ report.skipped = ["foreign"] ∧
      report.runs = [("doubts", 3), ("counts", 5), ("panics", 2), ("errs", 1)] := by
  intro r c names report
  have hnodup : names.Nodup := by decide
  refine ⟨hnodup, execute_accounts () c .empty "extractor" assortment (some names) ?_,
    ?_, ?_, ?_, ?_⟩
  · rintro _ ⟨⟩
    exact hnodup
  all_goals decide

end Registry

end CodeSurvey
