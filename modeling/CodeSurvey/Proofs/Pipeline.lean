import CodeSurvey.Proofs.Engine
import CodeSurvey.Proofs.Execution
import CodeSurvey.Proofs.Resolution
import CodeSurvey.Proofs.Surface
/-!
# The built-in pipeline

Running selected plugins gives every one that is accepted its output (`get?_execute`), and a plugin
fails only if it has none (`failure_of_produced`). On a text that a built-in provider has parsed all
built-in plugins deliver, apart from one case: the dependencies are rejected if a path among them does
not exist as it is shown, and then there is no summary of them either. So a new engine fails a file only
if no provider claims it or the text is binary (`Engine.survey_builtin`).
-/
namespace CodeSurvey

/-! ## Reports -/

namespace Registry

variable {α β : Type} {r : Registry α β} {input : α} {c : Context} {options : Dict Json}

/-- **A selected plugin whose output is accepted has that output**, whatever the others do. -/
theorem get?_execute {x : String} {v : β} {names : List String} (hmem : x ∈ names)
    (hx : (r.attempt input c options x).verdict = .produced v) :
    (r.execute (some names) input c options).outputs.get? x = some (some v) := by
  rw [outputs_execute, if_pos hmem, hx, Verdict.entry]

/-- A plugin with an output has not failed. -/
theorem failure_of_produced {x : String} {v : β}
    (hx : (r.attempt input c options x).verdict = .produced v) :
    (r.attempt input c options x).failure x = none := by
  simp only [Attempt.failure, hx]

/-- A registered plugin that handles the language and accepts its output produces it. -/
theorem verdict_attempt {name : String} {i : Instance α β} {v : β} (hget : r.get? name = some i)
    (hsupports : i.plugin.supports c.language = true)
    (hout : i.plugin.execute input c ((options.get? name).getD .null) = .output v)
    (haccepts : i.plugin.accepts c.files v = true) :
    (r.attempt input c options name).verdict = .produced v :=
  (r.verdict_eq_produced input c options).2 ⟨i, ⟨hget, hsupports⟩, hout, haccepts⟩

/-- A registered plugin that does not accept its output has none, and the failure says so. -/
theorem verdict_rejected {name : String} {i : Instance α β} {v : β} (hget : r.get? name = some i)
    (hsupports : i.plugin.supports c.language = true)
    (hout : i.plugin.execute input c ((options.get? name).getD .null) = .output v)
    (hrejects : i.plugin.accepts c.files v = false) :
    (r.attempt input c options name).verdict =
      .failed .invalidOutput s!"{r.kind} '{name}' produced output that failed validation" := by
  simp [attempt, hget, hsupports, hout, judge, hrejects]

/-- A registered plugin that reports an error has no output, and the failure passes it on. -/
theorem verdict_failed {name message : String} {i : Instance α β} (hget : r.get? name = some i)
    (hsupports : i.plugin.supports c.language = true)
    (hout : i.plugin.execute input c ((options.get? name).getD .null) = .failed message) :
    (r.attempt input c options name).verdict =
      .failed .error s!"{r.kind} '{name}' failed: {message}" := by
  simp [attempt, hget, hsupports, hout, judge]

/-- A selected plugin that has failed is entered without an output. -/
theorem get?_of_failed {x message : String} {reason : FailureCause} {names : List String}
    (hmem : x ∈ names) (hx : (r.attempt input c options x).verdict = .failed reason message) :
    (r.execute (some names) input c options).outputs.get? x = some none := by
  rw [outputs_execute, if_pos hmem, hx, Verdict.entry]

/-- An output is that of a selected plugin which has produced it. -/
theorem produced_of_get? {x : String} {v : β} {names : List String}
    (h : (r.execute (some names) input c options).outputs.get? x = some (some v)) :
    x ∈ names ∧ (r.attempt input c options x).verdict = .produced v := by
  rw [outputs_execute] at h
  split at h
  · rename_i hmem
    cases hv : (r.attempt input c options x).verdict <;> rw [hv, Verdict.entry] at h <;> cases h
    exact ⟨hmem, rfl⟩
  · cases h

/-- If all plugins behind the first have outputs, only the first can have failed. -/
theorem failures_of_produced {first : String} {rest : List String}
    (h : ∀ x ∈ rest, ∃ v, (r.attempt input c options x).verdict = .produced v) :
    (r.execute (some (first :: rest)) input c options).failures =
      ((r.attempt input c options first).failure first).toList := by
  have hrest : rest.filterMap (fun x => (r.attempt input c options x).failure x) = [] := by
    refine List.filterMap_eq_nil_iff.2 fun x hx => ?_
    obtain ⟨v, hv⟩ := h x hx
    exact failure_of_produced hv
  rw [failures_eq, List.filterMap_cons, hrest]
  split <;> simp [*]

end Registry

/-! ## Providers -/

theorem Providers.values_builtin :
    Providers.builtin.values = builtinList.map (·.toProvider) := rfl

/-- The built-in providers are those of the list. -/
theorem Providers.exists_of_detect? {path : OsString} {content : Option (List Char)} {p : Provider}
    (h : Providers.builtin.detect? path content = some p) :
    ∃ q ∈ builtinList, p = q.toProvider := by
  have hmem := List.mem_of_find?_eq_some h
  rw [values_builtin] at hmem
  obtain ⟨q, hq, rfl⟩ := List.mem_map.1 hmem
  exact ⟨q, hq, rfl⟩

/-- Every built-in provider is of a language with a table. -/
theorem Providers.isSome_find?_language {q : RuledProvider} (h : q ∈ builtinList) :
    (Language.find? q.language).isSome = true := by
  have hall : ∀ q ∈ builtinList, (Language.find? q.language).isSome = true := by decide
  exact hall q h

/-- A text without NUL is parsed, and its tree has the lines of the text. -/
theorem RuledProvider.exists_tree (p : RuledProvider) (g : Grammars) (path : OsString)
    {source : List Char} (h : '\x00' ∉ source) :
    ∃ t, (p.parse g path source).tree = some t ∧ t.lines = .ofText t.source := by
  unfold RuledProvider.parse
  rw [if_neg (by simpa using h)]
  split
  · split <;> exact ⟨_, rfl, rfl⟩
  · exact ⟨_, rfl, rfl⟩

theorem RuledProvider.language_parse (p : RuledProvider) (g : Grammars) (path : OsString)
    (source : List Char) : (p.parse g path source).language = p.language := by
  unfold RuledProvider.parse
  split
  · rfl
  · split
    · split <;> rfl
    · rfl

/-! ## Outputs -/

/-- Every built-in extractor but that of dependencies has an output that passes its check. -/
structure Extracts.Delivered (x : Extracts) : Prop where
  exports : ∃ f, x.get? "exports" = some (some (.exports f)) ∧ (f.exports.map (·.key)).Nodup ∧
    f.classes.length = (f.exports.filter (·.kind = .classType)).length
  functions : ∃ fns, x.get? "functions" = some (some (.functions fns)) ∧
    ∀ f ∈ fns, 1 ≤ f.complexity
  classes : ∃ cs, x.get? "classes" = some (some (.classes cs))
  identifiers : ∃ is, x.get? "identifiers" = some (some (.identifiers is))
  comments : ∃ f, x.get? "comments" = some (some (.comments f))

/-- Every built-in interpreter but that of dependencies has an output that passes its check. -/
structure Interpretations.Delivered (x : Interpretations) : Prop where
  surface : ∃ s, x.get? "api_surface" = some (some (.apiSurface s)) ∧
    (s.byType.entries.map (·.2)).sum = s.total ∧
    s.classes.length ≤ (s.byType.get? ExportKind.classType.word).getD 0
  metrics : ∃ m, x.get? "code_metrics" = some (some (.codeMetrics m))

/-- The warning about dependencies that did not pass their check. -/
def rejectedDependencies : String :=
  "extractor 'dependencies' produced output that failed validation"

/-- The warning about a summary that lacks its dependencies. -/
def missingDependencies : String :=
  "interpreter 'dependency_summary' failed: requires the dependencies fact set"

theorem Extracts.find?_of_get? {α : Type} {x : Extracts} {name : String} {out : FactSet} {v : α}
    {part : FactSet → Option α} (hget : x.get? name = some (some out)) (hpart : part out = some v) :
    x.find? name part = some v := by
  simp [Extracts.find?, hget, hpart]

theorem Extracts.find?_eq_none {α : Type} {x : Extracts} {name : String} {part : FactSet → Option α}
    (h : ∀ k v, x.get? k = some (some v) → part v = none) : x.find? name part = none := by
  have hentries : x.entries.findSome? (fun e => e.2.bind part) = none := by
    refine List.findSome?_eq_none_iff.2 ?_
    rintro ⟨k, v?⟩ hmem
    cases v? with
    | none => rfl
    | some v => exact h k v ((Dict.mem_iff_lookup x.ascending).1 hmem)
  rw [Extracts.find?, hentries, Option.or_none]
  cases hget : x.get? name with
  | none => rfl
  | some v? =>
    cases v? with
    | none => rfl
    | some v => exact h name v hget

namespace Extractor

variable {c : Context} {t : Syntax.Tree}

/-- On a tree of a language with a table every extractor but that of dependencies has an output. -/
theorem verdicts (hc : (Language.find? c.language).isSome = true) (t : Syntax.Tree)
    (options : Dict Json) :
    (∃ all, (builtin.attempt t c options "exports").verdict =
      .produced (.exports (Export.gather all))) ∧
    (∃ fs, (builtin.attempt t c options "functions").verdict = .produced (.functions fs) ∧
      ∀ f ∈ fs, 1 ≤ f.complexity) ∧
    (∃ cs, (builtin.attempt t c options "classes").verdict = .produced (.classes cs)) ∧
    (∃ is, (builtin.attempt t c options "identifiers").verdict = .produced (.identifiers is)) ∧
    ∃ f, (builtin.attempt t c options "comments").verdict = .produced (.comments f) := by
  have hsupports := supports_of_find? hc
  obtain ⟨all, hexports⟩ := execute_exports hc t ((options.get? "exports").getD .null)
  obtain ⟨fs, hfs, hcomplexity⟩ := execute_functions hc t ((options.get? "functions").getD .null)
  obtain ⟨cs, hcs⟩ := execute_classes hc t ((options.get? "classes").getD .null)
  obtain ⟨is, his⟩ := execute_identifiers hc t ((options.get? "identifiers").getD .null)
  obtain ⟨f, hf⟩ := execute_comments hc t ((options.get? "comments").getD .null)
  exact ⟨⟨all, Registry.verdict_attempt (i := ⟨1, exports⟩) rfl hsupports hexports
      (decide_eq_true (Export.nodup_gather all))⟩,
    ⟨fs, Registry.verdict_attempt (i := ⟨2, functions⟩) rfl hsupports hfs
      (acceptsFunctions_of_le hcomplexity), hcomplexity⟩,
    ⟨cs, Registry.verdict_attempt (i := ⟨3, classes⟩) rfl hsupports hcs rfl⟩,
    ⟨is, Registry.verdict_attempt (i := ⟨4, identifiers⟩) rfl hsupports his rfl⟩,
    ⟨f, Registry.verdict_attempt (i := ⟨5, comments⟩) rfl hsupports hf rfl⟩⟩

/-- None of these outputs holds dependencies. -/
theorem produced_other (hc : (Language.find? c.language).isSome = true) (t : Syntax.Tree)
    (options : Dict Json) {x : String}
    (hx : x ∈ ["exports", "functions", "classes", "identifiers", "comments"]) :
    ∃ v, (builtin.attempt t c options x).verdict = .produced v ∧ v.dependencies? = none := by
  obtain ⟨⟨all, v₁⟩, ⟨fs, v₂, -⟩, ⟨cs, v₃⟩, ⟨is, v₄⟩, f, v₅⟩ := verdicts hc t options
  simp only [List.mem_cons, List.not_mem_nil, or_false] at hx
  rcases hx with rfl | rfl | rfl | rfl | rfl
  · exact ⟨_, v₁, rfl⟩
  · exact ⟨_, v₂, rfl⟩
  · exact ⟨_, v₃, rfl⟩
  · exact ⟨_, v₄, rfl⟩
  · exact ⟨_, v₅, rfl⟩

/-- **The built-in extractors deliver** on every tree of a language with a table, apart from
dependencies with a path that does not exist as it is shown. -/
theorem delivered_execute (hc : (Language.find? c.language).isSome = true)
    (ht : t.lines = .ofText t.source) (options : Dict Json) :
    let report := builtin.execute (some builtin.names) t c options
    Extracts.Delivered report.outputs ∧
    ∃ ds, dependencies.execute t c ((options.get? "dependencies").getD .null) =
        .output (.dependencies ds) ∧
      (∀ d ∈ ds, d.Proper c.files c.path) ∧
      (Grounded c.files ds → report.failures = [] ∧
        report.outputs.get? "dependencies" = some (some (.dependencies ds))) ∧
      (¬ Grounded c.files ds → report.failures.map (·.message) = [rejectedDependencies] ∧
        report.outputs.get? "dependencies" = some none ∧
        Extracts.find? report.outputs "dependencies" FactSet.dependencies? = none) := by
  intro report
  have hsupports := supports_of_find? hc
  obtain ⟨ds, hds, hproper⟩ := execute_dependencies hc t ((options.get? "dependencies").getD .null) ht
  obtain ⟨⟨all, v₁⟩, ⟨fs, v₂, hcomplexity⟩, ⟨cs, v₃⟩, ⟨is, v₄⟩, f, v₅⟩ := verdicts hc t options
  -- whether anything has failed is decided by the dependencies alone
  have hfailures : report.failures =
      ((builtin.attempt t c options "dependencies").failure "dependencies").toList := by
    refine Registry.failures_of_produced fun x hx => ?_
    obtain ⟨v, hv, -⟩ := produced_other hc t options hx
    exact ⟨v, hv⟩
  refine ⟨⟨⟨_, Registry.get?_execute (by decide) v₁, Export.nodup_gather all,
      Export.length_classes_gather all⟩, ⟨fs, Registry.get?_execute (by decide) v₂, hcomplexity⟩,
    ⟨cs, Registry.get?_execute (by decide) v₃⟩, ⟨is, Registry.get?_execute (by decide) v₄⟩,
    ⟨f, Registry.get?_execute (by decide) v₅⟩⟩, ds, hds, hproper, fun hg => ?_, fun hg => ?_⟩
  · have v₀ := Registry.verdict_attempt (r := builtin) (i := ⟨0, dependencies⟩) rfl hsupports hds
      ((acceptsDependencies_iff hproper).2 hg)
    rw [hfailures, Registry.failure_of_produced v₀]
    exact ⟨rfl, Registry.get?_execute (by decide) v₀⟩
  · have v₀ := Registry.verdict_rejected (r := builtin) (i := ⟨0, dependencies⟩) rfl hsupports hds
      (Bool.eq_false_iff.2 fun h => hg ((acceptsDependencies_iff hproper).1 h))
    refine ⟨?_, Registry.get?_of_failed (by decide) v₀, Extracts.find?_eq_none fun x v hv => ?_⟩
    · rw [hfailures]
      simp only [Attempt.failure, v₀]
      rfl
    · obtain ⟨hmem, hproduced⟩ := Registry.produced_of_get? hv
      rcases List.mem_cons.1 hmem with rfl | hother
      · cases v₀.symm.trans hproduced
      · obtain ⟨v', hv', hnone⟩ := produced_other hc t options hother
        cases hv'.symm.trans hproduced
        exact hnone

end Extractor

/-- **The built-in interpreters deliver** on the facts that the extractors deliver, apart from the
summary of dependencies if these are missing. -/
theorem Interpreter.delivered_execute {c : Context} {x : Extracts} (hx : x.Delivered)
    (options : Dict Json) :
    let report := builtin.execute (some builtin.names) x c options
    Interpretations.Delivered report.outputs ∧
      (∀ ds, x.get? "dependencies" = some (some (.dependencies ds)) → report.failures = [] ∧
        ∃ s, report.outputs.get? "dependency_summary" = some (some (.dependencySummary s))) ∧
      (x.find? "dependencies" FactSet.dependencies? = none →
        report.failures.map (·.message) = [missingDependencies] ∧
        report.outputs.get? "dependency_summary" = some none) := by
  intro report
  obtain ⟨f, hf, -, hclasses⟩ := hx.exports
  obtain ⟨fs, hfs, -⟩ := hx.functions
  have hf : x.find? "exports" FactSet.exports? = some f := Extracts.find?_of_get? hf rfl
  have hfs : x.find? "functions" FactSet.functions? = some fs := Extracts.find?_of_get? hfs rfl
  have hconsistent := ApiSurface.isConsistent_ofExports (Nat.le_of_eq hclasses)
  have v₁ : (builtin.attempt x c options "api_surface").verdict =
      .produced (.apiSurface (.ofExports f)) :=
    Registry.verdict_attempt (i := ⟨1, apiSurface⟩) rfl rfl (by simp only [apiSurface, hf])
      hconsistent
  obtain ⟨m, v₂⟩ : ∃ m, (builtin.attempt x c options "code_metrics").verdict =
      .produced (.codeMetrics m) :=
    ⟨_, Registry.verdict_attempt (i := ⟨2, codeMetrics⟩) rfl rfl
      (by simp only [codeMetrics, hfs]; rfl) rfl⟩
  have hfailures : report.failures =
      ((builtin.attempt x c options "dependency_summary").failure "dependency_summary").toList := by
    refine Registry.failures_of_produced fun y hy => ?_
    rcases List.mem_pair.1 hy with rfl | rfl
    · exact ⟨_, v₁⟩
    · exact ⟨_, v₂⟩
  simp only [ApiSurface.isConsistent, Bool.and_eq_true, beq_iff_eq, decide_eq_true_eq] at hconsistent
  refine ⟨⟨⟨_, Registry.get?_execute (by decide) v₁, hconsistent⟩,
    ⟨m, Registry.get?_execute (by decide) v₂⟩⟩, fun ds hds => ?_, fun hnone => ?_⟩
  · have hds : x.find? "dependencies" FactSet.dependencies? = some ds :=
      Extracts.find?_of_get? hds rfl
    obtain ⟨s, v₀⟩ : ∃ s, (builtin.attempt x c options "dependency_summary").verdict =
        .produced (.dependencySummary s) :=
      ⟨_, Registry.verdict_attempt (i := ⟨0, dependencySummary⟩) rfl rfl
        (by simp only [dependencySummary, hds]; rfl) rfl⟩
    rw [hfailures, Registry.failure_of_produced v₀]
    exact ⟨rfl, s, Registry.get?_execute (by decide) v₀⟩
  · have hrun : dependencySummary.execute x c ((options.get? "dependency_summary").getD .null) =
        .failed "requires the dependencies fact set" := by
      simp only [dependencySummary, hnone]
      rfl
    have v₀ := Registry.verdict_failed (r := builtin) (i := ⟨0, dependencySummary⟩) rfl rfl hrun
    refine ⟨?_, Registry.get?_of_failed (by decide) v₀⟩
    rw [hfailures]
    simp only [Attempt.failure, v₀]
    rfl

/-! ## One pass -/

/-- What a survey shows of a tree that was parsed, with the warnings of the parser: no errors, and all
built-in outputs, if the paths of the dependencies exist as they are shown. If not, the dependencies and
their summary are missing, and two more warnings say so. A path that is a text is shown as it is. -/
def FileSurvey.Examined (fs : FileSystem) (path : OsString) (language : String) (t : Syntax.Tree)
    (warnings : List String) (s : FileSurvey) : Prop :=
  s.errors = [] ∧ s.extracted.Delivered ∧ s.interpreted.Delivered ∧
  ∃ ds, Extractor.dependencies.execute t ⟨path, language, fs⟩ .null = .output (.dependencies ds) ∧
    (∀ d ∈ ds, d.Proper fs path) ∧ (path.IsText → Grounded fs ds) ∧
    if Grounded fs ds then
      s.warnings = warnings ∧
      s.extracted.get? "dependencies" = some (some (.dependencies ds)) ∧
      ∃ summary, s.interpreted.get? "dependency_summary" = some (some (.dependencySummary summary))
    else
      s.warnings = warnings ++ [rejectedDependencies, missingDependencies] ∧
      s.extracted.get? "dependencies" = some none ∧
      s.interpreted.get? "dependency_summary" = some none

/-- A parsed text in a language with a table is examined. -/
theorem Tools.examine_builtin {w : Surroundings} {path : OsString} {c : SettledConfig}
    {start : FileSurvey} {t : Syntax.Tree} (hx : c.extractors = Extractor.builtin.names)
    (hi : c.interpreters = Interpreter.builtin.names) (ho : c.extractorOptions = .empty)
    (herrors : start.errors = []) (hl : (Language.find? start.language).isSome = true)
    (ht : t.lines = .ofText t.source) :
    (Engine.builtinTools.examine w path c start t).survey.Examined w.files path start.language t
      start.warnings := by
  obtain ⟨hfacts, ds, hds, hproper, hall, hrejected⟩ := Extractor.delivered_execute
    (c := ⟨path, start.language, w.files⟩) hl ht c.extractorOptions
  obtain ⟨hreadings, hsummary, hmissing⟩ := Interpreter.delivered_execute
    (c := ⟨path, start.language, w.files⟩) hfacts c.interpreterOptions
  rw [← hx] at hfacts hall hrejected hreadings hsummary hmissing
  rw [← hi] at hreadings hsummary hmissing
  rw [ho] at hds
  refine ⟨herrors, hfacts, hreadings, ds, hds, hproper, grounded_of_proper hproper, ?_⟩
  split
  · rename_i hg
    obtain ⟨hnone, hget⟩ := hall hg
    obtain ⟨hnone', summary, hget'⟩ := hsummary ds hget
    refine ⟨?_, hget, summary, hget'⟩
    simp only [examine, Engine.builtinTools, hnone, hnone', List.map_nil, List.append_nil]
  · rename_i hg
    obtain ⟨hone, hget, hnone⟩ := hrejected hg
    obtain ⟨hone', hget'⟩ := hmissing hnone
    refine ⟨?_, hget, hget'⟩
    simp only [examine, Engine.builtinTools, hone, hone', List.append_assoc]
    rfl

/-- What a survey of a given text has to show: the error that nothing claims the file, or that the
text is binary, or else what comes out of its tree. -/
def FileSurvey.Faithful (g : Grammars) (fs : FileSystem) (path : OsString) (content : List Char)
    (s : FileSurvey) : Prop :=
  match Providers.builtin.detect? path (some content) with
  | none => s.errors = [(SurveyError.unsupportedLanguage path.display).record]
  | some p =>
    if '\x00' ∈ content then
      s.errors = [(SurveyError.parseFailure path.display p.language RuledProvider.binaryMessage).record]
    else ∃ t, (p.parse g path content).tree = some t ∧
      s.Examined fs path p.language t (p.parse g path content).warnings

theorem Tools.pass_builtin {w : Surroundings} {path : OsString} {c : SettledConfig}
    (hx : c.extractors = Extractor.builtin.names) (hi : c.interpreters = Interpreter.builtin.names)
    (ho : c.extractorOptions = .empty) (content : List Char) :
    (Engine.builtinTools.pass w path c (.given content)).survey.Faithful w.grammars w.files path
      content := by
  unfold FileSurvey.Faithful
  cases hp : Providers.builtin.detect? path (some content) with
  | none => simp [pass, passOn, Origin.read, Engine.builtinTools, hp, FileSurvey.failed]
  | some p =>
    have hpass : Engine.builtinTools.pass w path c (.given content) =
        Engine.builtinTools.parse w path c p content := by
      simp [pass, passOn, Origin.read, Engine.builtinTools, hp]
    obtain ⟨q, hq, rfl⟩ := Providers.exists_of_detect? hp
    rw [hpass]
    dsimp only
    split
    · rename_i hnul
      have hparse : q.toProvider.parse w.grammars path content =
          ⟨q.language, none, [RuledProvider.binaryMessage], []⟩ := by
        simp [RuledProvider.toProvider, RuledProvider.parse, hnul]
      simp only [parse, hparse]
      rfl
    · rename_i hnul
      obtain ⟨t, htree, hlines⟩ := q.exists_tree w.grammars path hnul
      have hlanguage := q.language_parse w.grammars path content
      refine ⟨t, htree, ?_⟩
      unfold parse
      simp only [RuledProvider.toProvider, htree, ← hlanguage]
      refine examine_builtin hx hi ho rfl ?_ hlines
      dsimp only
      rw [hlanguage]
      exact Providers.isSome_find?_language hq

/-! ## New engines -/

namespace Engine

/-- The answer of a new engine with the default settings to a call on a given text is what a pass with
all built-in plugins gives. -/
theorem surveyFile_new (g : Grammars) (platform : Option OsString) (fs : FileSystem) (now : Nat)
    (path : OsString) (content : List Char) :
    ∃ e after, ∃ c : SettledConfig, Engine.ofConfig {} platform fs = .ok (e, fs) ∧
      c.extractors = Extractor.builtin.names ∧ c.interpreters = Interpreter.builtin.names ∧
      c.extractorOptions = .empty ∧
      e.surveyFile ⟨g, fs, now⟩ path {} (.given content) =
        (.ok (builtinTools.pass ⟨g, fs, now⟩ path c (.given content)).survey, after) := by
  let e : Engine :=
    { config := {}, exclude := [], tools := builtinTools, cache := .inMemory defaultEntries }
  let r : SettledConfig :=
    ⟨Extractor.builtin.names, Interpreter.builtin.names, true, defaultTtl, .empty, .empty⟩
  have hprepare : e.prepare {} = .ok r := rfl
  have hmiss : (e.cache.get FileSurvey.codec fs now (r.key path.display)).1 = none := rfl
  have hfiles : (e.looked ⟨g, fs, now⟩ (r.key path.display)).2 = fs := rfl
  obtain ⟨pass, hpass, hrun⟩ := e.run_of_miss ⟨g, fs, now⟩ rfl rfl hmiss (.given content)
  refine ⟨e, (e.run ⟨g, fs, now⟩ path r (.given content)).2, r, rfl, rfl, rfl, rfl, ?_⟩
  rw [hfiles] at hpass
  simp only [surveyFile, hprepare, hrun, hpass]
  rfl

/-- **The built-in pipeline fails no file that it can parse.** A new engine with the default settings,
over any files and grammars, answers every call on a given text: the one error is that no provider
claims the file, or else that the text is binary. Otherwise there are no errors, and every built-in
plugin has an output that passes its own check, with no warnings but those of the parser; the exception
are dependencies that resolve to a path that does not exist as it is shown, which happens only if the
path of the file is not a text. -/
theorem survey_builtin (g : Grammars) (platform : Option OsString) (fs : FileSystem) (now : Nat)
    (path : OsString) (content : List Char) :
    ∃ e, Engine.ofConfig {} platform fs = .ok (e, fs) ∧
      ∃ survey after, e.surveyFile ⟨g, fs, now⟩ path {} (.given content) = (.ok survey, after) ∧
        survey.Faithful g fs path content := by
  obtain ⟨e, after, c, he, hx, hi, ho, hanswer⟩ := surveyFile_new g platform fs now path content
  exact ⟨e, he, _, after, hanswer, Tools.pass_builtin hx hi ho content⟩

/-- In a directory whose name is not UTF-8 a script imports another: what is shown of the other one's
path names nothing, so that the dependencies and their summary are missing, with two warnings more than
that of the parser. -/
theorem dependencies_rejected :
    let dir : OsString := ⟨[0x64, 0xFF]⟩
    let fs : FileSystem := ⟨[([dir], .dir), ([dir, "util.ts"], .file [])], []⟩
    ∃ e survey after, Engine.ofConfig {} none fs = .ok (e, fs) ∧
      e.surveyFile ⟨fun _ _ => none, fs, 0⟩ (dir ++ "/main.ts") {}
        (.given "import './util'".toList) = (.ok survey, after) ∧
      survey.errors = [] ∧
      survey.warnings = [RuledProvider.grammarWarning, rejectedDependencies, missingDependencies] ∧
      survey.extracted.get? "dependencies" = some none ∧
      survey.interpreted.get? "dependency_summary" = some none := by
  intro dir fs
  let t : Syntax.Tree := .plain "import './util'".toList
  let context : Context := ⟨dir ++ "/main.ts", "typescript", fs⟩
  obtain ⟨e, after, c, he, hx, hi, ho, hanswer⟩ := surveyFile_new (fun _ _ => none) none fs 0
    (dir ++ "/main.ts") "import './util'".toList
  have hfaithful : FileSurvey.Faithful _ fs (dir ++ "/main.ts") "import './util'".toList
      (builtinTools.pass ⟨fun _ _ => none, fs, 0⟩ (dir ++ "/main.ts") c _).survey :=
    Tools.pass_builtin hx hi ho "import './util'".toList
  let p := (Providers.withGrammar "typescript" "typescript" ["ts", "mts", "cts"] []).toProvider
  have hclaims : p.claims (dir ++ "/main.ts") (some "import './util'".toList) = true := by
    decide +kernel
  have hdetect : Providers.builtin.detect? (dir ++ "/main.ts") (some "import './util'".toList) =
      some p := List.find?_cons_of_pos hclaims
  unfold FileSurvey.Faithful at hfaithful
  rw [hdetect] at hfaithful
  dsimp only at hfaithful
  rw [if_neg (by decide)] at hfaithful
  obtain ⟨t', ht, herrors, -, -, ds, hds, -, -, hends⟩ := hfaithful
  obtain rfl : t = t' := Option.some.inj ht
  have hfound : Extractor.dependenciesOn t context .null (.table Language.Script.typescript) =
      [⟨"./util", .imports, true, 1, some "d\uFFFD/util.ts"⟩] := by decide +kernel
  have hroute : Extractor.route? t "typescript" = some (.table Language.Script.typescript) := rfl
  have hds' := Extractor.execute_dependenciesOn (c := context) hroute .null
  rw [hfound] at hds'
  obtain rfl : ds = _ := FactSet.dependencies.inj (Outcome.output.inj (hds.symm.trans hds'))
  rw [if_neg (by decide +kernel)] at hends
  exact ⟨e, _, after, he, hanswer, herrors, hends⟩

end Engine

end CodeSurvey
