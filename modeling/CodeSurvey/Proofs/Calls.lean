import CodeSurvey.Proofs.Provenance
/-!
# Calls are refused for misuse only

A call is refused if its engine is disabled or its configuration, laid over the defaults, is invalid
(`CallConfig.Invalid`); then nothing changes. Every other call returns one survey for each path.

A survey out of the cache is of the path it was asked for as long as every entry of the cache fits
its key (`FileSurvey.Fits`). What an engine writes does, also when it is read back from its file, as
texts are read back unchanged (`path_of_echoes`). So this can fail only if someone else puts a
misleading entry into the cache directory: `Reached` leaves that out, and `surveyAll_forged` shows
it.
-/
namespace CodeSurvey

attribute [local irreducible] CacheDir.fileName

/-! ## Invalid configurations -/

namespace CallConfig

/-- Names that no call can be made with: one of them is blank, or one comes twice. -/
def Unusable (names : List String) : Prop :=
  (∃ name ∈ names, Text.trim name.toList = []) ∨ ¬ names.Nodup

/-- A configuration that no call can be made with. -/
def Invalid (c : CallConfig) : Prop :=
  (∃ names ∈ c.extractors, Unusable names) ∨ (∃ names ∈ c.interpreters, Unusable names) ∨
    (c.cacheTtl = some 0 ∧ c.useCache ≠ some false)

theorem requireNames_eq_ok {field : String} {seen names : List String} :
    requireNames field seen names = .ok () ↔
      ¬ Unusable names ∧ ∀ name ∈ names, name ∉ seen := by
  induction names generalizing seen with
  | nil => simp [requireNames, Unusable]
  | cons name names ih =>
    rw [requireNames]
    split
    · rename_i hblank
      simp [Unusable, List.isEmpty_iff.1 hblank]
    · rename_i hblank
      split
      · rename_i hseen
        simp [List.contains_iff_mem.1 hseen]
      · rename_i hseen
        have hname : Text.trim name.toList ≠ [] := fun h => hblank (List.isEmpty_iff.2 h)
        have hnot : name ∉ seen := fun h => hseen (List.contains_iff_mem.2 h)
        rw [ih]
        simp only [Unusable, List.mem_cons, List.nodup_cons]
        grind

/-- Names are refused as invalid. -/
theorem requireNames_eq_error {field : String} {seen names : List String} {err : SurveyError}
    (h : requireNames field seen names = .error err) : ∃ message, err = .invalidConfig message := by
  induction names generalizing seen with
  | nil => cases h
  | cons name names ih =>
    rw [requireNames] at h
    split at h
    · exact ⟨_, (Except.error.inj h).symm⟩
    · split at h
      · exact ⟨_, (Except.error.inj h).symm⟩
      · exact ih h

/-- The names of an open list are fine. -/
theorem requireNames_getD {field : String} {names? : Option (List String)} :
    requireNames field [] (names?.getD []) = .ok () ↔ ¬ ∃ names ∈ names?, Unusable names := by
  rw [requireNames_eq_ok]
  cases names? with
  | none => simp [Unusable]
  | some names => simp

theorem validate_cases (c : CallConfig) :
    (c.validate = .ok () ∧ ¬ c.Invalid) ∨
      ((∃ message, c.validate = .error (.invalidConfig message)) ∧ c.Invalid) := by
  unfold validate
  cases hx : requireNames "extractors" [] (c.extractors.getD []) with
  | error err =>
    obtain ⟨message, rfl⟩ := requireNames_eq_error hx
    refine .inr ⟨⟨message, rfl⟩, .inl (not_not.1 fun h => ?_)⟩
    rw [requireNames_getD.2 h] at hx
    cases hx
  | ok =>
    have hextractors := requireNames_getD.1 hx
    cases hi : requireNames "interpreters" [] (c.interpreters.getD []) with
    | error err =>
      obtain ⟨message, rfl⟩ := requireNames_eq_error hi
      refine .inr ⟨⟨message, rfl⟩, .inr (.inl (not_not.1 fun h => ?_))⟩
      rw [requireNames_getD.2 h] at hi
      cases hi
    | ok =>
      have hinterpreters := requireNames_getD.1 hi
      by_cases hcache : (c.useCache != some false && c.cacheTtl == some 0) = true
      · have hboth : c.useCache ≠ some false ∧ c.cacheTtl = some 0 := by simpa using hcache
        exact .inr ⟨⟨_, if_pos hcache⟩, .inr (.inr hboth.symm)⟩
      · refine .inl ⟨if_neg hcache, fun h => ?_⟩
        rcases h with h | h | h
        · exact hextractors h
        · exact hinterpreters h
        · exact hcache (by simpa using h.symm)

end CallConfig

/-! ## Surveys and the keys they are kept under -/

/-- A survey is of the path of a key. -/
def FileSurvey.Fits (s : FileSurvey) (key : String) : Prop :=
  ∀ (path : String) (r : SettledConfig), key = r.key path → s.path = path

theorem FileSurvey.fits_key {s : FileSurvey} {path : String} (h : s.path = path)
    (r : SettledConfig) : s.Fits (r.key path) := by
  intro q r' hkey
  exact h.trans (SettledConfig.key_injective hkey).1

/-- What is read from an echo of a survey is of the same path. -/
theorem FileSurvey.path_of_echoes {s t : FileSurvey} {v : Json} (h : s.toJson.Echoes v)
    (hread : ofJson? v = some t) : t.path = s.path := by
  unfold toJson at h
  obtain ⟨gs, rfl, v₁, l₁, rfl, rfl, v₂, l₂, rfl, -, v₃, l₃, rfl, -, v₄, l₄, rfl, -, v₅, l₅, rfl, -,
    v₆, l₆, rfl, -, v₇, l₇, rfl, -, v₈, l₈, rfl, -, rfl⟩ := h
  simp only [ofJson?, Option.bind_eq_bind, Option.bind_eq_some_iff] at hread
  obtain ⟨j, hj, p, hp, _, -, _, -, _, -, _, -, _, -, _, -, _, -, heq⟩ := hread
  cases hj
  cases heq
  -- no other field has the name of the path
  have hget : (Dict.ofList [("filePath", Json.str s.path), ("language", v₂), ("extractedData", v₃),
      ("interpretedData", v₄), ("errors", v₅), ("warnings", v₆), ("performanceMetrics", v₇),
      ("metadata", v₈)]).get? "filePath" = some (.str s.path) := by
    simp [Dict.ofList, Dict.get?_insert]
  exact (Option.some.inj ((congrArg (·.bind Json.text?) hget).symm.trans hp)).symm

/-- A pass gives a survey of its path. -/
theorem Tools.path_pass (t : Tools) (w : Surroundings) (path : OsString) (r : SettledConfig)
    (o : Origin) : (t.pass w path r o).survey.path = path.display := by
  unfold pass passOn
  split
  · rfl
  · split
    · rfl
    · unfold parse
      dsimp only
      split <;> rfl

/-- The survey of a job is of the path of its key. -/
def Job.Fits (job : Job) : Prop := ∀ key ∈ job.key, job.pass.survey.Fits key

/-! ## Truthful engines -/

namespace Engine

/-- The entries in the files of a cache fit their keys. -/
def FilesFit (cache : Cache FileSurvey) (fs : FileSystem) : Prop :=
  ∀ dir, cache.directory = some dir → ∀ key h,
    CacheDir.read FileSurvey.codec fs dir key = .found key h → h.value.Fits key

/-- Whatever an engine has kept, and will keep of the jobs that still run, fits its key. -/
structure Truthful (state : Engine × FileSystem) : Prop where
  held : state.1.cache.AllHeld FileSurvey.codec (fun key h => h.value.Fits key) state.2
  abandoned : ∀ job ∈ state.1.abandoned, job.Fits

namespace Truthful

variable {state : Engine × FileSystem}

/-- Changes that bring no new entries and no new jobs. -/
theorem of_held (T : Truthful state) {e : Engine} {fs : FileSystem}
    (hjobs : ∀ job ∈ e.abandoned, job ∈ state.1.abandoned)
    (hheld : e.cache.AllHeld FileSurvey.codec (fun key h => h.value.Fits key) fs) :
    Truthful (e, fs) :=
  ⟨hheld, fun job hjob => T.abandoned job (hjobs job hjob)⟩

/-- A survey that fits its key still does when its file is read back. -/
theorem complete (T : Truthful state) (now : Nat) {job : Job} (hjob : job.Fits) :
    Truthful (Engine.complete now state job) := by
  obtain ⟨e, fs⟩ := state
  obtain ⟨cache, metrics, log, fs', hframe, -⟩ := complete_frame (e, fs) now job
  refine ⟨allHeld_complete T.held fun _ key hkey => ?_, ?_⟩
  · refine T.held.put_of_content (hjob key hkey) fun _ k g hcontent => ?_
    obtain ⟨rfl, v, hecho, hread⟩ := CacheDir.echoes_of_content hcontent
    intro path r hk
    rw [FileSurvey.path_of_echoes hecho hread]
    exact hjob k hkey path r hk
  · rw [hframe]
    exact T.abandoned

theorem foldl_complete (T : Truthful state) (now : Nat) {jobs : List Job}
    (h : ∀ job ∈ jobs, job.Fits) : Truthful (jobs.foldl (Engine.complete now) state) := by
  induction jobs generalizing state with
  | nil => exact T
  | cons job jobs ih =>
    exact ih (T.complete now (h job List.mem_cons_self)) fun j hj =>
      h j (List.mem_cons_of_mem job hj)

theorem settle {e : Engine} {fs : FileSystem} (T : Truthful (e, fs)) (now : Nat) (key : String) :
    Truthful (e.settle fs now key) := by
  have hothers : Truthful
      ({ e with abandoned := e.abandoned.filter fun job => job.key != some key }, fs) :=
    T.of_held (fun job hjob => (List.mem_filter.1 hjob).1) T.held
  exact hothers.foldl_complete now fun job hjob => T.abandoned job (List.mem_filter.1 hjob).1

end Truthful

/-! ## One analysis -/

/-- An analysis of a path starts with a survey of it. -/
def Start.Is (path : OsString) : Start → Prop
  | .cached survey => survey.path = path.display
  | .work job => job.pass.survey.path = path.display ∧ job.Fits

namespace Truthful

variable {e : Engine} {w : Surroundings}

theorem start (T : Truthful (e, w.files)) (path : OsString) (r : SettledConfig) (o : Origin) :
    (e.start w path r o).1.Is path ∧ Truthful (e.start w path r o).2 := by
  unfold Engine.start
  split
  · have hsettled := T.settle w.now (r.key path.display)
    have hget := hsettled.held.get w.now (r.key path.display)
    dsimp only
    split
    · rename_i survey hfound
      obtain ⟨h, hfits, rfl, -⟩ := hsettled.held.get_eq_some hfound
      exact ⟨hfits path.display r rfl, hsettled.of_held (fun _ h => h) hget⟩
    · refine ⟨⟨Tools.path_pass _ _ path r o, ?_⟩, hsettled.of_held (fun _ h => h) hget⟩
      rintro key ⟨⟩
      exact FileSurvey.fits_key (Tools.path_pass _ _ path r o) r
  · exact ⟨⟨e.tools.path_pass w path r o, nofun⟩, T⟩

/-- **An analysis gives a survey of its path**, out of the cache or not. -/
theorem run (T : Truthful (e, w.files)) (path : OsString) (r : SettledConfig) (o : Origin) :
    (e.run w path r o).1.path = path.display ∧ Truthful (e.run w path r o).2 := by
  obtain ⟨his, hstate⟩ := T.start path r o
  unfold Engine.run
  split
  · rename_i survey e' fs heq
    rw [heq] at his hstate
    exact ⟨his, hstate.of_held (fun _ h => h) hstate.held⟩
  · rename_i job e' fs heq
    rw [heq] at his hstate
    exact ⟨his.1, hstate.complete w.now his.2⟩

theorem runAll (T : Truthful (e, w.files)) (r : SettledConfig) (paths : List OsString) :
    (e.runAll w r paths).1.map (·.path) = paths.map (·.display) ∧ Truthful (e.runAll w r paths).2 := by
  induction paths generalizing e w with
  | nil => exact ⟨rfl, T⟩
  | cons path paths ih =>
    obtain ⟨hpath, hstate⟩ := T.run path r .onDisk
    obtain ⟨hpaths, hrest⟩ := ih (w := { w with files := (e.run w path r .onDisk).2.2 }) hstate
    exact ⟨by rw [Engine.runAll, List.map_cons, List.map_cons, hpath, hpaths], hrest⟩

end Truthful

/-! ## Whole runs -/

/-- What can happen to an engine, deadlines included. -/
inductive Move where
  | act (a : Action)
  /-- A call that gives up after some milliseconds. -/
  | within (path : OsString) (c : CallConfig) (limit : Nat)

/-- One move at a time. -/
def moved (g : Grammars) (now : Nat) (state : Engine × FileSystem) : Move → Engine × FileSystem
  | .act a =>
    let s := History.step g ⟨state.1, state.2, []⟩ now a
    (s.engine, s.files)
  | .within path c limit => (state.1.surveyWithin ⟨g, state.2, now⟩ path c limit).2

/-- Others may change the files as they like, as long as the entries of the cache fit their keys. -/
def Fair (e : Engine) : Move → Prop
  | .act (.changeFiles files) => FilesFit e.cache files
  | _ => True

/-- An engine and the files after any moves, with any grammars and at any time. -/
inductive Reached : Engine × FileSystem → Prop
  | new {settings : EngineSettings} {platform : Option OsString} {fs : FileSystem}
    {state : Engine × FileSystem} (h : ofConfig settings platform fs = .ok state)
    (hfit : FilesFit state.1.cache state.2) : Reached state
  | move {state : Engine × FileSystem} (h : Reached state) (g : Grammars) (now : Nat) (m : Move)
    (hfair : Fair state.1 m) : Reached (moved g now state m)

namespace Truthful

variable {e : Engine} {w : Surroundings}

theorem surveyFile (T : Truthful (e, w.files)) (path : OsString) (c : CallConfig) (o : Origin) :
    Truthful (e.surveyFile w path c o).2 := by
  unfold Engine.surveyFile
  cases e.prepare c with
  | error err => exact T
  | ok r => exact (T.run path r o).2

theorem surveyAll (T : Truthful (e, w.files)) (paths : List OsString) (c : CallConfig) :
    Truthful (e.surveyAll w paths c).2 := by
  unfold Engine.surveyAll
  cases e.prepare c with
  | error err => exact T
  | ok r => exact (T.runAll r paths).2

/-- A job that is given up keeps its key and its survey. -/
theorem surveyWithin (T : Truthful (e, w.files)) (path : OsString) (c : CallConfig) (limit : Nat) :
    Truthful (e.surveyWithin w path c limit).2 := by
  unfold Engine.surveyWithin
  cases e.prepare c with
  | error err => exact T
  | ok r =>
    obtain ⟨his, hstate⟩ := T.start path r .onDisk
    dsimp only
    split
    · rename_i survey e' fs heq
      rw [heq] at hstate
      exact hstate.of_held (fun _ h => h) hstate.held
    · rename_i job e' fs heq
      rw [heq] at his hstate
      split
      · exact hstate.complete w.now his.2
      · refine ⟨hstate.held, fun rest hrest => ?_⟩
        rcases List.mem_append.1 hrest with hrest | hrest
        · exact hstate.abandoned rest hrest
        · obtain rfl := List.mem_singleton.1 hrest
          exact his.2

/-- **Every move keeps an engine truthful.** -/
theorem moved {state : Engine × FileSystem} (T : Truthful state) (g : Grammars) (now : Nat)
    {m : Move} (hfair : Fair state.1 m) : Truthful (Engine.moved g now state m) := by
  obtain ⟨e, fs⟩ := state
  cases m with
  | within path c limit => exact T.surveyWithin (w := ⟨g, fs, now⟩) path c limit
  | act a =>
    cases a with
    | survey path c o => exact T.surveyFile (w := ⟨g, fs, now⟩) path c o
    | surveyAll paths c => exact T.surveyAll (w := ⟨g, fs, now⟩) paths c
    | surveyBelow root c => exact T.surveyAll (w := ⟨g, fs, now⟩) _ c
    | addProvider | addExtractor | addInterpreter | dropExtractor | dropInterpreter | enable
    | recount =>
      exact T.of_held (fun _ h => h) (T.held.of_recent rfl T.held.memory)
    | invalidate path =>
      have hfiles := T.held.fades (Cache.fades_invalidate FileSurvey.codec e.cache fs path.display)
      exact T.of_held (fun _ h => h) (hfiles.of_recent rfl fun k h hmem =>
        T.held.memory k h (List.mem_filter.1 hmem).1)
    | emptyCache =>
      have hfiles := T.held.fades (Cache.fades_clear e.cache fs)
      exact T.of_held (fun _ h => h) (hfiles.of_recent rfl nofun)
    | mendCache => exact T.of_held (fun _ h => h) (T.held.repair now)
    | changeFiles files => exact T.of_held (fun _ h => h) ⟨T.held.memory, hfair⟩

end Truthful

/-- **What an engine has kept fits its keys, after any moves.** -/
theorem Reached.truthful {state : Engine × FileSystem} (h : Reached state) : Truthful state := by
  induction h with
  | @new settings platform fs state h hfit =>
    obtain ⟨e, fs₀⟩ := state
    obtain ⟨-, exclude, -, rfl, rfl⟩ := ofConfig_eq_ok h
    refine ⟨⟨fun k g hmem => ?_, hfit⟩, nofun⟩
    have hrecent := Cache.recent_ofConfig (α := FileSurvey) settings.cache platform fs
    rw [hrecent] at hmem
    cases hmem
  | move _ g now m hfair ih => exact ih.moved g now hfair

/-! ## Answers -/

/-- How an engine answers a call on some paths. -/
structure Answers {α : Type} (e : Engine) (w : Surroundings) (c : CallConfig) (paths : List OsString)
    (surveys : α → List FileSurvey) (answer : Answer α) : Prop where
  /-- A call is refused if the engine is disabled or the configuration is invalid, and only then. -/
  refused : (∃ err, answer.1 = .error err) ↔
    e.enabled = false ∨ (e.config.defaults.merge c).Invalid
  /-- A disabled engine says so, whatever the configuration. -/
  disabled : e.enabled = false → answer.1 = .error .engineDisabled
  invalid : e.enabled = true → (e.config.defaults.merge c).Invalid →
    ∃ message, answer.1 = .error (.invalidConfig message)
  /-- A call that is refused changes nothing: not the cache, the counts, the log of runs or the
  files. -/
  unchanged : ∀ err, answer.1 = .error err → answer.2 = (e, w.files)
  /-- Every other call returns one survey for each path. -/
  onePerPath : ∀ a, answer.1 = .ok a → (surveys a).length = paths.length
  /-- They are of the paths in order, unless others have put misleading entries into the cache. -/
  inOrder : Reached (e, w.files) → ∀ a, answer.1 = .ok a → (surveys a).map (·.path) = paths.map (·.display)

variable (e : Engine) (w : Surroundings) (c : CallConfig)

theorem prepare_cases :
    (e.enabled = false ∧ e.prepare c = .error .engineDisabled) ∨
    (e.enabled = true ∧ (e.config.defaults.merge c).Invalid ∧
      ∃ message, e.prepare c = .error (.invalidConfig message)) ∨
    (e.enabled = true ∧ ¬ (e.config.defaults.merge c).Invalid ∧ ∃ r, e.prepare c = .ok r) := by
  unfold prepare
  cases e.enabled with
  | false => exact .inl ⟨rfl, rfl⟩
  | true =>
    rcases (e.config.defaults.merge c).validate_cases with ⟨hv, hvalid⟩ | ⟨⟨message, hv⟩, hinvalid⟩
    · exact .inr (.inr ⟨rfl, hvalid, _, congrArg (Except.map _) hv⟩)
    · exact .inr (.inl ⟨rfl, hinvalid, message, congrArg (Except.map _) hv⟩)

variable {e w c} in
/-- A call that prepares its configuration first, and then returns a survey for each path, is
answered as it should be. -/
theorem answers_of_prepare {α : Type} {paths : List OsString} {surveys : α → List FileSurvey}
    {answer : Answer α} (herror : ∀ err, e.prepare c = .error err → answer = e.refuse w err)
    (hok : ∀ r, e.prepare c = .ok r → ∃ a, answer.1 = .ok a ∧
      (surveys a).length = paths.length ∧
      (Reached (e, w.files) → (surveys a).map (·.path) = paths.map (·.display))) :
    e.Answers w c paths surveys answer := by
  rcases e.prepare_cases c with ⟨hoff, hp⟩ | ⟨hon, hinvalid, message, hp⟩ | ⟨hon, hvalid, r, hp⟩
  · obtain rfl := herror _ hp
    exact {
      refused := ⟨fun _ => .inl hoff, fun _ => ⟨_, rfl⟩⟩
      disabled := fun _ => rfl
      invalid := fun hon => by rw [hoff] at hon; cases hon
      unchanged := fun _ _ => rfl
      onePerPath := nofun
      inOrder := fun _ => nofun }
  · obtain rfl := herror _ hp
    exact {
      refused := ⟨fun _ => .inr hinvalid, fun _ => ⟨_, rfl⟩⟩
      disabled := fun hoff => by rw [hoff] at hon; cases hon
      invalid := fun _ _ => ⟨message, rfl⟩
      unchanged := fun _ _ => rfl
      onePerPath := nofun
      inOrder := fun _ => nofun }
  · obtain ⟨a, ha, hlength, horder⟩ := hok r hp
    have hnot : ¬ ∃ err, answer.1 = .error err := by
      rintro ⟨err, herr⟩
      rw [ha] at herr
      cases herr
    exact {
      refused := ⟨fun h => absurd h hnot, fun h => by
        rcases h with hoff | hinvalid
        · rw [hoff] at hon; cases hon
        · exact absurd hinvalid hvalid⟩
      disabled := fun hoff => by rw [hoff] at hon; cases hon
      invalid := fun _ hinvalid => absurd hinvalid hvalid
      unchanged := fun err herr => absurd ⟨err, herr⟩ hnot
      onePerPath := fun b hb => by rw [ha] at hb; cases hb; exact hlength
      inOrder := fun hreached b hb => by rw [ha] at hb; cases hb; exact horder hreached }

theorem length_runAll (r : SettledConfig) (paths : List OsString) :
    (e.runAll w r paths).1.length = paths.length := by
  induction paths generalizing e w with
  | nil => rfl
  | cons path paths ih => simp only [runAll, List.length_cons, ih]

theorem answers_surveyFile (path : OsString) (o : Origin) :
    e.Answers w c [path] (fun s => [s]) (e.surveyFile w path c o) := by
  refine answers_of_prepare (fun err hp => ?_) fun r hp => ?_
  · rw [surveyFile, hp]
  · refine ⟨(e.run w path r o).1, by rw [surveyFile, hp], rfl, fun hreached => ?_⟩
    rw [List.map_singleton, List.map_singleton, (hreached.truthful.run path r o).1]

theorem answers_surveyAll (paths : List OsString) :
    e.Answers w c paths id (e.surveyAll w paths c) := by
  refine answers_of_prepare (fun err hp => ?_) fun r hp => ?_
  · rw [surveyAll, hp]
  · exact ⟨(e.runAll w r paths).1, by rw [surveyAll, hp], e.length_runAll w r paths,
      fun hreached => (hreached.truthful.runAll r paths).1⟩

/-- **Calls are refused for misuse only, and then change nothing.** Take any engine in any
surroundings. A call on a file, a text, a list of paths or a directory is refused if the engine is
disabled or the configuration, laid over the defaults, is invalid, and only then; a call that is
refused changes nothing. Every other call returns one survey for each path, whatever becomes of the
files, and the surveys are of these paths in order: for every state that an engine can reach while
no one else puts an entry into its cache directory that does not fit its key. -/
theorem calls_answered :
    (∀ path o, e.Answers w c [path] (fun s => [s]) (e.surveyFile w path c o)) ∧
    (∀ paths, e.Answers w c paths id (e.surveyAll w paths c)) ∧
    ∀ root, e.Answers w c (claimedFiles e.tools.providers e.exclude w.files root) id
      (e.surveyBelow w root c) :=
  ⟨e.answers_surveyFile w c, e.answers_surveyAll w c, fun _ => e.answers_surveyAll w c _⟩

/-- The settings of an engine that keeps its surveys in a directory. -/
def keeping : EngineSettings := { cache := { persist := true, directory := some ↑"cache" } }

/-- An engine that keeps its surveys in a directory. -/
def keeper : Engine :=
  { config := keeping, exclude := [], tools := builtinTools,
    cache := { capacity := 1000, directory := some ↑"cache" } }

/-- A directory, a text in no known language, one that is no UTF-8 and one that no parser takes. -/
def mixture : FileSystem :=
  ⟨[(["cache"], .dir), (["d.rb"], .dir), (["u.zzz"], .file [65]), (["t.py"], .file [255]),
    (["n.rb"], .file [0])], []⟩

/-- No file of a batch can be analyzed, and each has its survey all the same. -/
theorem calls_answered_mixture :
    Reached (keeper, mixture) ∧
      let paths : List OsString := ["missing.rb", "d.rb", "u.zzz", "t.py", "n.rb", "missing.rb"]
      ∃ surveys, (keeper.surveyAll ⟨fun _ _ => none, mixture, 7⟩ paths {}).1 = .ok surveys ∧
        surveys.map (·.path) = paths.map (·.display) := by
  have hnew : ofConfig keeping none mixture = .ok (keeper, mixture) := rfl
  have hreached : Reached (keeper, mixture) := by
    refine .new hnew ?_
    rintro dir ⟨⟩ key h hread
    exact absurd hread (not_read_of_files (by decide +kernel))
  refine ⟨hreached, ?_⟩
  intro paths
  have hanswers := (calls_answered keeper ⟨fun _ _ => none, mixture, 7⟩ {}).2.1 paths
  cases hcall : (keeper.surveyAll ⟨fun _ _ => none, mixture, 7⟩ paths {}).1 with
  | error err =>
    rcases hanswers.refused.1 ⟨err, hcall⟩ with hoff | hinvalid
    · cases hoff
    · simp [CallConfig.Invalid, CallConfig.merge, keeper, keeping] at hinvalid
  | ok surveys => exact ⟨surveys, rfl, hanswers.inOrder hreached surveys hcall⟩

/-! ## An entry of someone else -/

variable {e w c} in
/-- A call on one path whose survey is in the cache. -/
theorem surveyAll_of_hit (h : e.abandoned = []) {path : OsString} {r : SettledConfig}
    (hprepare : e.prepare c = .ok r) (huse : r.useCache = true) {survey : FileSurvey}
    (hget : (e.cache.get FileSurvey.codec w.files w.now (r.key path.display)).1 = some survey) :
    (e.surveyAll w [path] c).1 = .ok [survey.asCached] := by
  simp only [surveyAll, hprepare, runAll, e.run_of_hit w h huse hget]

/-- A directory with one entry, of any name and content. -/
def oneEntry (name : OsString) (bytes : List UInt8) : FileSystem :=
  ⟨[(["cache"], .dir), (["cache", name], .file bytes)], []⟩

theorem opensAt_oneEntry (name : OsString) (bytes : List UInt8) :
    FileSystem.OpensAt (oneEntry name bytes) "cache" ["cache"] := ⟨rfl, rfl⟩

theorem ofConfig_oneEntry (name : OsString) (bytes : List UInt8) :
    ofConfig keeping none (oneEntry name bytes) = .ok (keeper, oneEntry name bytes) := rfl

/-- The configuration of a call without plugins, and what it settles to. -/
def bare : CallConfig := { extractors := some [], interpreters := some [] }

def settledBare : SettledConfig := ⟨[], [], true, defaultTtl, .empty, .empty⟩

/-- The survey of an empty script. -/
def scriptSurvey : FileSurvey :=
  { path := "a", language := "ruby", performance := { memory := ⟨6, 2, 2⟩ },
    provenance := { timestamp := 5 } }

/-- A directory with the survey of the script as its entry for a key. -/
def filed (key : String) : FileSystem :=
  oneEntry (CacheDir.fileName key)
    (CacheDir.content FileSurvey.codec key ⟨scriptSurvey, Cache.endOfTime⟩)

/-- The entry of a key is found, whatever the key. -/
theorem get_filed (key : String) :
    (keeper.cache.get FileSurvey.codec (filed key) 7 key).1 = some scriptSurvey := by
  have hchild : (filed key).child? ["cache"] (CacheDir.fileName key) =
      some (.file (CacheDir.content FileSurvey.codec key ⟨scriptSurvey, Cache.endOfTime⟩)) := by
    simp [FileSystem.child?, FileSystem.stored?, filed, oneEntry, List.lookup_cons]
  have hread : CacheDir.read FileSurvey.codec (filed key) "cache" key =
      .found key ⟨scriptSurvey, Cache.endOfTime⟩ :=
    CacheDir.read_eq_found.2 ⟨rfl, CacheDir.readEntry_content (opensAt_oneEntry _ _) hchild
      survives_script (by decide)⟩
  have hlive : (Held.mk scriptSurvey Cache.endOfTime).isLive 7 = true := by decide
  simp only [Cache.get, keeper, Recent.held?, List.lookup_nil, Cache.fetch, hread, hlive, if_true]

/-- An entry that someone else has put into the directory is handed out as it is: the entry of one
path with the survey of another. -/
theorem surveyAll_forged :
    ∃ e fs, ofConfig keeping none (filed (settledBare.key "b")) = .ok (e, fs) ∧
      ∃ surveys, (e.surveyAll ⟨fun _ _ => none, fs, 7⟩ ["b"] bare).1 = .ok surveys ∧
        surveys.map (·.path) = ["a"] := by
  have hget := get_filed (settledBare.key "b")
  rw [← OsString.display_ofText "b"] at hget
  have hsurveys := surveyAll_of_hit (w := ⟨fun _ _ => none, filed (settledBare.key "b"), 7⟩)
    (c := bare) rfl rfl rfl hget
  exact ⟨keeper, _, ofConfig_oneEntry _ _, [scriptSurvey.asCached], hsurveys, rfl⟩

end Engine

end CodeSurvey
