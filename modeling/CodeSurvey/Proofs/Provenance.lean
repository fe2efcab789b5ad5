import CodeSurvey.Proofs.CacheKey
import CodeSurvey.Proofs.CacheReading
import CodeSurvey.Proofs.Engine
/-!
# Where cached surveys come from

A `History` is an engine with its files and everything it has returned so far. Calls, registrations,
invalidations, repairs and changes of the files by others are its `Action`s, each at any time.

The invariant is `History.Sound`: whatever the cache holds, in memory or in files, is a survey that was
returned earlier, fresh and without errors, and that nothing has taken out since. One analysis keeps
it (`Sound.visit`), so every action does (`Sound.step`). The main result is `exists_repeats`: a
survey out of the cache repeats an earlier one, and no plugin ran for it.

The empty path is a directory of its own kind: files are written and read there, but it cannot be
listed, so its entries outlive an invalidation (`served_though_invalidated`).
-/
namespace CodeSurvey

attribute [local irreducible] CacheDir.fileName

/-! ## Histories -/

/-- A survey that was returned: when, of which path and under which configuration, and which plugins
had run before and after its analysis. -/
structure Visit where
  now : Nat
  path : OsString
  config : SettledConfig
  survey : FileSurvey
  before : RunLog
  after : RunLog

/-- What happened to an engine, as far as its cache is concerned. -/
inductive Event where
  | returned (v : Visit)
  | invalidated (path : OsString)
  | cleared

/-- What can happen to an engine. -/
inductive Action where
  | survey (path : OsString) (c : CallConfig) (o : Origin)
  | surveyAll (paths : List OsString) (c : CallConfig)
  | surveyBelow (root : OsString) (c : CallConfig)
  | addProvider (p : Provider)
  | addExtractor (name : String) (p : Plugin Syntax.Tree FactSet)
  | addInterpreter (name : String) (p : Plugin Extracts Interpretation)
  | dropExtractor (name : String)
  | dropInterpreter (name : String)
  | enable (on : Bool)
  | invalidate (path : OsString)
  | emptyCache
  | mendCache
  | recount
  /-- Someone else changes the files. -/
  | changeFiles (files : FileSystem)

namespace Engine

/-- An analysis together with the runs around it. -/
def visit (e : Engine) (w : Surroundings) (c : SettledConfig) (path : OsString) (o : Origin) :
    Visit × Engine × FileSystem :=
  let (survey, after, fs) := e.run w path c o
  (⟨w.now, path, c, survey, e.log, after.log⟩, after, fs)

/-- Analyses one after the other, each with the runs around it. -/
def visitAll (e : Engine) (w : Surroundings) (c : SettledConfig) :
    List (OsString × Origin) → List Visit × Engine × FileSystem
  | [] => ([], e, w.files)
  | (path, o) :: rest =>
    let (v, e, fs) := e.visit w c path o
    let (vs, e, fs) := visitAll e { w with files := fs } c rest
    (v :: vs, e, fs)

/-- What a call on some files returns, each with the runs around it; a refused call returns
nothing. -/
def visits (e : Engine) (w : Surroundings) (c : CallConfig) (items : List (OsString × Origin)) :
    List Visit :=
  match e.prepare c with
  | .error _ => []
  | .ok r => (e.visitAll w r items).1

end Engine

/-- An engine, the files around it and what happened so far. -/
structure History where
  engine : Engine
  files : FileSystem
  events : List Event := []

namespace History

/-- Goes on with another engine and other files after some visits. -/
def returning (s : History) (vs : List Visit) (state : Engine × FileSystem) : History :=
  ⟨state.1, state.2, s.events ++ vs.map .returned⟩

/-- One action at a time. -/
def step (g : Grammars) (s : History) (now : Nat) : Action → History
  | .survey path c o =>
    s.returning (s.engine.visits ⟨g, s.files, now⟩ c [(path, o)])
      (s.engine.surveyFile ⟨g, s.files, now⟩ path c o).2
  | .surveyAll paths c =>
    s.returning (s.engine.visits ⟨g, s.files, now⟩ c (paths.map (·, .onDisk)))
      (s.engine.surveyAll ⟨g, s.files, now⟩ paths c).2
  | .surveyBelow root c =>
    let paths := claimedFiles s.engine.tools.providers s.engine.exclude s.files root
    s.returning (s.engine.visits ⟨g, s.files, now⟩ c (paths.map (·, .onDisk)))
      (s.engine.surveyBelow ⟨g, s.files, now⟩ root c).2
  | .addProvider p => { s with engine := s.engine.addProvider p }
  | .addExtractor name p => { s with engine := s.engine.addExtractor name p }
  | .addInterpreter name p => { s with engine := s.engine.addInterpreter name p }
  | .dropExtractor name => { s with engine := s.engine.dropExtractor name }
  | .dropInterpreter name => { s with engine := s.engine.dropInterpreter name }
  | .enable on => { s with engine := { s.engine with enabled := on } }
  | .invalidate path =>
    let (_, e, fs) := s.engine.invalidate s.files path
    ⟨e, fs, s.events ++ [.invalidated path]⟩
  | .emptyCache =>
    let (e, fs) := s.engine.emptyCache s.files
    ⟨e, fs, s.events ++ [.cleared]⟩
  | .mendCache => { s with files := (s.engine.mendCache s.files now).2 }
  | .recount => { s with engine := s.engine.recount }
  | .changeFiles files => { s with files }

/-- Others may change any file, but they write no entries into the cache directory. -/
def Allows (s : History) : Action → Prop
  | .changeFiles files => ∀ dir, s.engine.cache.directory = some dir → ∀ key bytes,
      files.readBytes (CacheDir.filePath dir key) = .ok bytes →
        s.files.readBytes (CacheDir.filePath dir key) = .ok bytes
  | _ => True

/-- The histories that go on from a start, with actions at any time. -/
inductive Reaches (g : Grammars) (start : History) : History → Prop
  | refl : Reaches g start start
  | step {s : History} (now : Nat) (a : Action) (h : Reaches g start s) (ha : s.Allows a) :
    Reaches g start (s.step g now a)

end History

/-! ## Visits are what calls return -/

namespace Engine

variable (e : Engine) (w : Surroundings) (c : CallConfig)

theorem runAll_eq (r : SettledConfig) (paths : List OsString) :
    e.runAll w r paths =
      ((e.visitAll w r (paths.map (·, .onDisk))).1.map (·.survey),
        (e.visitAll w r (paths.map (·, .onDisk))).2) := by
  induction paths generalizing e w with
  | nil => rfl
  | cons path paths ih => simp only [runAll, visitAll, visit, List.map_cons, ih]

/-- A call on one file returns its visit. -/
theorem surveyFile_eq (path : OsString) (o : Origin) :
    e.surveyFile w path c o =
      match e.prepare c with
      | .error err => (.error err, e, w.files)
      | .ok r => (.ok (e.visit w r path o).1.survey, (e.visitAll w r [(path, o)]).2) := by
  unfold surveyFile
  cases e.prepare c <;> rfl

/-- A call on many files returns their visits. -/
theorem surveyAll_eq (paths : List OsString) :
    e.surveyAll w paths c =
      match e.prepare c with
      | .error err => (.error err, e, w.files)
      | .ok r => (.ok ((e.visitAll w r (paths.map (·, .onDisk))).1.map (·.survey)),
        (e.visitAll w r (paths.map (·, .onDisk))).2) := by
  unfold surveyAll
  cases e.prepare c with
  | error err => rfl
  | ok r => simp only [runAll_eq]

/-! ## One analysis -/

variable {e w} in
/-- Completing a job keeps its survey under its key, at most. -/
theorem allHeld_complete {P : String → Held FileSurvey → Prop} {fs : FileSystem} {now : Nat}
    {job : Job} (H : e.cache.AllHeld FileSurvey.codec P fs)
    (hkeep : job.pass.survey.errors = [] → ∀ key, job.key = some key →
      (e.cache.put FileSurvey.codec fs now key job.pass.survey job.ttl).1.AllHeld FileSurvey.codec P
        (e.cache.put FileSurvey.codec fs now key job.pass.survey job.ttl).2) :
    (complete now (e, fs) job).1.cache.AllHeld FileSurvey.codec P (complete now (e, fs) job).2 := by
  unfold complete keep
  cases hkey : job.key with
  | none => exact H
  | some key =>
    dsimp only
    split
    · rename_i hok
      exact hkeep (List.isEmpty_iff.1 hok) key hkey
    · exact H

end Engine

/-! ## Entries and their visits -/

/-- An entry of the cache keeps the survey of a visit, for as long as its configuration says. -/
structure Visit.Keeps (u : Visit) (key : String) (h : Held FileSurvey) : Prop where
  key : key = u.config.key u.path.display
  value : h.value = u.survey
  fresh : u.survey.provenance.fromCache = false
  clean : u.survey.errors = []
  expires : h.expires ≤ u.now + u.config.cacheTtl * 1000

/-- A visit hands out again what an earlier one has found: the same path and configuration, in time,
and without any run of a plugin. -/
structure Visit.Repeats (v u : Visit) : Prop where
  fresh : u.survey.provenance.fromCache = false
  clean : u.survey.errors = []
  path : u.path.display = v.path.display
  config : u.config = v.config
  survey : v.survey = u.survey.asCached
  inTime : v.now < u.now + v.config.cacheTtl * 1000
  idle : v.after = v.before

/-- A cache whose directory, if it has one, can be listed: it is not the empty path. -/
def Listable (dir? : Option OsString) : Prop := ∀ dir, dir? = some dir → dir.isEmpty = false

/-- An earlier visit. Since then its path was not invalidated and the cache was not emptied, if that takes
entries out of the directory. -/
def Undisturbed (dir? : Option OsString) (events : List Event) (u : Visit) : Prop :=
  ∃ earlier between, events = earlier ++ .returned u :: between ∧ (Listable dir? →
    (∀ path, .invalidated path ∈ between → path.display ≠ u.path.display) ∧ .cleared ∉ between)

/-- An entry goes back to an earlier visit. -/
def Backed (dir? : Option OsString) (events : List Event) (key : String) (h : Held FileSurvey) : Prop :=
  ∃ u : Visit, u.Keeps key h ∧ Undisturbed dir? events u

section

variable {dir? : Option OsString} {events : List Event} {key : String} {h : Held FileSurvey}

theorem Undisturbed.concat {u : Visit} (hu : Undisturbed dir? events u) {x : Event}
    (hx : Listable dir? → (∀ path, x = .invalidated path → path.display ≠ u.path.display) ∧ x ≠ .cleared) :
    Undisturbed dir? (events ++ [x]) u := by
  obtain ⟨earlier, between, rfl, hnot⟩ := hu
  refine ⟨earlier, between ++ [x], by simp, fun hdir => ⟨fun path hpath => ?_, fun hcleared => ?_⟩⟩
  · rcases List.mem_append.1 hpath with hmem | hmem
    · exact (hnot hdir).1 path hmem
    · exact (hx hdir).1 path (List.mem_singleton.1 hmem).symm
  · rcases List.mem_append.1 hcleared with hmem | hmem
    · exact (hnot hdir).2 hmem
    · exact (hx hdir).2 (List.mem_singleton.1 hmem).symm

theorem Backed.returned (hb : Backed dir? events key h) (v : Visit) :
    Backed dir? (events ++ [.returned v]) key h := by
  obtain ⟨u, hu, hun⟩ := hb
  exact ⟨u, hu, hun.concat fun _ => ⟨by simp, by simp⟩⟩

theorem Backed.invalidated {path : OsString} (hb : Backed dir? events key h)
    (hkey : Listable dir? → Cache.isKeyOf path.display key = false) :
    Backed dir? (events ++ [.invalidated path]) key h := by
  obtain ⟨u, hu, hun⟩ := hb
  refine ⟨u, hu, hun.concat fun hdir => ⟨fun path' hpath heq => ?_, by simp⟩⟩
  obtain rfl := Event.invalidated.inj hpath
  have hother := hkey hdir
  rw [hu.key, (Cache.isKeyOf_key _ _ _).2 heq.symm] at hother
  cases hother

/-- Where nothing can be listed an emptying leaves the entries of the directory. -/
theorem Backed.cleared (hb : Backed dir? events key h) (hdir : ¬ Listable dir?) :
    Backed dir? (events ++ [.cleared]) key h := by
  obtain ⟨u, hu, hun⟩ := hb
  exact ⟨u, hu, hun.concat fun hlist => absurd hlist hdir⟩

/-- An entry that is found under the key of a call is repeated by it. -/
theorem Backed.repeats {v : Visit}
    (hb : Backed dir? events (v.config.key v.path.display) h) (hsurvey : v.survey = h.value.asCached)
    (hlive : v.now < h.expires) (hidle : v.after = v.before) :
    ∃ u, Undisturbed dir? events u ∧ v.Repeats u := by
  obtain ⟨u, hu, hun⟩ := hb
  obtain ⟨hpath, hconfig⟩ := SettledConfig.key_injective hu.key
  refine ⟨u, hun, hu.fresh, hu.clean, hpath.symm, hconfig.symm, hu.value ▸ hsurvey, ?_, hidle⟩
  rw [hconfig]
  exact Nat.lt_of_lt_of_le hlive hu.expires

end

/-! ## The invariant -/

/-- Every survey out of the cache repeats an earlier one. -/
def Served (dir? : Option OsString) (events : List Event) : Prop :=
  ∀ pre v post, events = pre ++ .returned v :: post → v.survey.provenance.fromCache = true →
    ∃ u, Undisturbed dir? pre u ∧ v.Repeats u

/-- Whatever the cache holds is backed, and whatever it gave was so. -/
structure History.Sound (dir? : Option OsString) (s : History) : Prop where
  idle : s.engine.abandoned = []
  directory : s.engine.cache.directory = dir?
  held : s.engine.cache.AllHeld FileSurvey.codec (Backed dir? s.events) s.files
  served : Served dir? s.events

/-- Fresh surveys without errors survive their encoding, if they are written at all. -/
def Preserves (dir? : Option OsString) (events : List Event) : Prop :=
  dir?.isSome → ∀ u, .returned u ∈ events → u.survey.provenance.fromCache = false →
    u.survey.errors = [] → FileSurvey.codec.Survives u.survey

theorem Preserves.left {dir? : Option OsString} {xs ys : List Event}
    (h : Preserves dir? (xs ++ ys)) : Preserves dir? xs :=
  fun hdir u hu => h hdir u (List.mem_append_left ys hu)

/-- What was served stays so when more happens. -/
theorem Served.concat {dir? : Option OsString} {events : List Event} {x : Event} (h : Served dir? events)
    (hx : ∀ v, x = .returned v → v.survey.provenance.fromCache = true →
      ∃ u, Undisturbed dir? events u ∧ v.Repeats u) : Served dir? (events ++ [x]) := by
  intro pre v post hsplit hcached
  rcases List.eq_nil_or_concat post with rfl | ⟨post, y, rfl⟩
  · obtain ⟨rfl, hlast⟩ := List.append_inj' hsplit rfl
    exact hx v (List.cons.inj hlast).1 hcached
  · rw [List.concat_eq_append, ← List.cons_append, ← List.append_assoc] at hsplit
    exact h pre v post (List.append_inj' hsplit rfl).1 hcached

namespace History.Sound

variable {dir? : Option OsString} {s : History}

/-- Completing a fresh pass and returning its survey keeps the invariant: the survey that is kept is
backed by the visit itself. -/
theorem complete (S : Sound dir? s) {v : Visit} (job : Job)
    (hsurvey : v.survey = job.pass.survey) (hfresh : v.survey.provenance.fromCache = false)
    (hkey : ∀ key, job.key = some key → key = v.config.key v.path.display)
    (httl : job.ttl ≤ v.config.cacheTtl * 1000)
    (hkept : Preserves dir? (s.events ++ [.returned v])) :
    Sound dir? (s.returning [v] (Engine.complete v.now (s.engine, s.files) job)) := by
  obtain ⟨cache, metrics, log, fs, hframe, hdirectory⟩ :=
    Engine.complete_frame (s.engine, s.files) v.now job
  refine ⟨?_, ?_, ?_, S.served.concat ?_⟩
  · simp only [History.returning, hframe]
    exact S.idle
  · simp only [History.returning, hframe]
    exact hdirectory.trans S.directory
  · have hheld := S.held.imp fun k h hb => hb.returned v
    refine Engine.allHeld_complete hheld fun hclean key hjob => hheld.put (fun hdir => ?_) ?_
    · rw [S.directory] at hdir
      exact hsurvey ▸ hkept hdir v (by simp) hfresh (hsurvey ▸ hclean)
    · refine ⟨v, ⟨hkey key hjob, hsurvey.symm, hfresh, hsurvey ▸ hclean, ?_⟩, s.events, [], rfl,
        fun _ => ⟨fun _ hmem => absurd hmem List.not_mem_nil, List.not_mem_nil⟩⟩
      dsimp only
      omega
  · rintro u hu hcached
    obtain rfl := Event.returned.inj hu
    rw [hfresh] at hcached
    cases hcached

/-- **One analysis keeps the invariant.** -/
theorem visit (S : Sound dir? s) (g : Grammars) (now : Nat) (r : SettledConfig)
    (path : OsString) (o : Origin)
    (hkept : Preserves dir? (s.events ++
      [.returned (s.engine.visit ⟨g, s.files, now⟩ r path o).1])) :
    Sound dir? (s.returning [(s.engine.visit ⟨g, s.files, now⟩ r path o).1]
      (s.engine.visit ⟨g, s.files, now⟩ r path o).2) := by
  have hlooked : Sound dir? ⟨(s.engine.looked ⟨g, s.files, now⟩ (r.key path.display)).1,
      (s.engine.looked ⟨g, s.files, now⟩ (r.key path.display)).2, s.events⟩ :=
    ⟨S.idle, (Cache.directory_get _ _ _ _ _).trans S.directory, S.held.get now (r.key path.display),
      S.served⟩
  unfold Engine.visit at hkept ⊢
  rcases s.engine.run_cases ⟨g, s.files, now⟩ S.idle path r o with
    ⟨survey, hget, hrun⟩ | ⟨pass, hfresh, hrun | hrun⟩ <;> rw [hrun] at hkept ⊢
  · -- out of the cache
    obtain ⟨h, hbacked, rfl, hlive⟩ := S.held.get_eq_some hget
    refine ⟨S.idle, hlooked.directory, hlooked.held.imp fun k h hb => hb.returned _,
      S.served.concat ?_⟩
    rintro v hv -
    obtain rfl := Event.returned.inj hv
    exact hbacked.repeats (v := ⟨now, path, r, h.value.asCached, _, _⟩) rfl hlive rfl
  · -- a pass that leaves the cache alone
    exact S.complete (v := ⟨now, path, r, pass.survey, _, _⟩) ⟨none, 0, pass⟩ rfl hfresh
      (fun _ h => by cases h) (Nat.zero_le _) hkept
  · -- a pass after a lookup that gave nothing
    exact hlooked.complete (v := ⟨now, path, r, pass.survey, _, _⟩)
      ⟨some (r.key path.display), r.cacheTtl * 1000, pass⟩ rfl hfresh
      (fun _ h => (Option.some.inj h).symm) (Nat.le_refl _) hkept

theorem visitAll (S : Sound dir? s) (g : Grammars) (now : Nat) (r : SettledConfig)
    (items : List (OsString × Origin))
    (hkept : Preserves dir? (s.returning (s.engine.visitAll ⟨g, s.files, now⟩ r items).1
      (s.engine.visitAll ⟨g, s.files, now⟩ r items).2).events) :
    Sound dir? (s.returning (s.engine.visitAll ⟨g, s.files, now⟩ r items).1
      (s.engine.visitAll ⟨g, s.files, now⟩ r items).2) := by
  induction items generalizing s with
  | nil => simpa [Engine.visitAll, History.returning] using S
  | cons item rest ih =>
    obtain ⟨path, o⟩ := item
    have hcons (v : Visit) (vs : List Visit) (st st' : Engine × FileSystem) :
        s.returning (v :: vs) st' = (s.returning [v] st).returning vs st' := by
      simp [History.returning]
    simp only [Engine.visitAll] at hkept ⊢
    rw [hcons _ _ (s.engine.visit ⟨g, s.files, now⟩ r path o).2] at hkept ⊢
    exact ih (S.visit g now r path o hkept.left) hkept

/-- A call on files keeps the invariant. -/
theorem visits (S : Sound dir? s) (g : Grammars) (now : Nat) (c : CallConfig)
    (items : List (OsString × Origin)) {state : Engine × FileSystem}
    (hrefused : ∀ err, s.engine.prepare c = .error err → state = (s.engine, s.files))
    (hstate : ∀ r, s.engine.prepare c = .ok r →
      state = (s.engine.visitAll ⟨g, s.files, now⟩ r items).2)
    (hkept : Preserves dir?
      (s.returning (s.engine.visits ⟨g, s.files, now⟩ c items) state).events) :
    Sound dir? (s.returning (s.engine.visits ⟨g, s.files, now⟩ c items) state) := by
  unfold Engine.visits at hkept ⊢
  cases hprepare : s.engine.prepare c with
  | error err => simpa [hrefused err hprepare, History.returning] using S
  | ok r =>
    simp only [hprepare] at hkept ⊢
    obtain rfl := hstate r hprepare
    exact S.visitAll g now r items hkept

/-- Registrations, switches and new counts leave the cache and the events alone. -/
theorem of_cache (S : Sound dir? s) {e : Engine} (hidle : e.abandoned = s.engine.abandoned)
    (hrecent : e.cache.recent = s.engine.cache.recent)
    (hdir : e.cache.directory = s.engine.cache.directory) : Sound dir? { s with engine := e } :=
  ⟨hidle.trans S.idle, hdir.trans S.directory,
    S.held.of_recent hdir (by rw [hrecent]; exact S.held.memory), S.served⟩

theorem invalidate (S : Sound dir? s) (path : OsString) :
    Sound dir? ⟨(s.engine.invalidate s.files path).2.1, (s.engine.invalidate s.files path).2.2,
      s.events ++ [.invalidated path]⟩ := by
  refine ⟨S.idle, S.directory, ?_, S.served.concat fun v hv => by cases hv⟩
  by_cases hdir : Listable dir?
  · refine (S.held.invalidate (fun dir hd => hdir dir (S.directory ▸ hd)) path.display).imp ?_
    exact fun k h hb => hb.1.invalidated fun _ => hb.2
  · have hmemory := S.held.of_recent (d := (s.engine.invalidate s.files path).2.1.cache) rfl
      fun k h hmem => S.held.memory k h (List.mem_filter.1 hmem).1
    refine (hmemory.fades (Cache.fades_invalidate _ _ _ _)).imp ?_
    exact fun k h hb => hb.invalidated fun hlist => absurd hlist hdir

theorem emptyCache (S : Sound dir? s) :
    Sound dir? ⟨(s.engine.emptyCache s.files).1, (s.engine.emptyCache s.files).2,
      s.events ++ [.cleared]⟩ := by
  refine ⟨S.idle, S.directory, ?_, S.served.concat fun v hv => by cases hv⟩
  by_cases hdir : Listable dir?
  · exact (Cache.AllHeld.clear fun dir hd => hdir dir (S.directory ▸ hd)).imp fun _ _ h => h.elim
  · have hmemory := S.held.of_recent (d := (s.engine.emptyCache s.files).1.cache) rfl
      fun k h hmem => absurd hmem List.not_mem_nil
    exact (hmemory.fades (Cache.fades_clear _ _)).imp fun k h hb => hb.cleared hdir

/-- **Every action keeps the invariant.** -/
theorem step (S : Sound dir? s) (g : Grammars) (now : Nat) {a : Action} (ha : s.Allows a)
    (hkept : Preserves dir? (s.step g now a).events) : Sound dir? (s.step g now a) := by
  cases a with
  | survey path c o =>
    refine S.visits g now c _ (fun err h => ?_) (fun r h => ?_) hkept
    all_goals rw [Engine.surveyFile_eq, h]
  | surveyAll paths c =>
    refine S.visits g now c _ (fun err h => ?_) (fun r h => ?_) hkept
    all_goals rw [Engine.surveyAll_eq, h]
  | surveyBelow root c =>
    refine S.visits g now c _ (fun err h => ?_) (fun r h => ?_) hkept
    all_goals rw [Engine.surveyBelow, Engine.surveyAll_eq, h]
  | addProvider | addExtractor | addInterpreter | dropExtractor | dropInterpreter | enable | recount =>
    exact S.of_cache rfl rfl rfl
  | invalidate path => exact S.invalidate path
  | emptyCache => exact S.emptyCache
  | mendCache => exact ⟨S.idle, S.directory, S.held.repair now, S.served⟩
  | changeFiles files => exact ⟨S.idle, S.directory, S.held.of_readBytes ha, S.served⟩

end History.Sound

theorem History.events_step (g : Grammars) (s : History) (now : Nat) (a : Action) :
    ∃ new, (s.step g now a).events = s.events ++ new := by
  cases a with
  | survey | surveyAll | surveyBelow | invalidate | emptyCache => exact ⟨_, rfl⟩
  | _ => exact ⟨[], (List.append_nil _).symm⟩

/-- **The invariant along a run.** -/
theorem History.Sound.reaches {dir? : Option OsString} {start s : History} {g : Grammars}
    (S : History.Sound dir? start) (h : start.Reaches g s) (hkept : Preserves dir? s.events) : History.Sound dir? s := by
  induction h with
  | refl => exact S
  | step now a h ha ih =>
    obtain ⟨new, hnew⟩ := History.events_step g _ now a
    exact (ih (hnew ▸ hkept).left).step g now ha hkept

/-! ## The beginning -/

theorem dir_isEmpty_of_files {fs : FileSystem} {dir : OsString} {paths : List OsString}
    (h : CacheDir.files fs dir = .ok paths) : dir.isEmpty = false := by
  cases hl : fs.locate dir with
  | error e => simp [CacheDir.files, FileSystem.names, hl, Except.map] at h
  | ok p => exact (FileSystem.locate_eq_ok.1 hl).2.1

/-- A directory that lists no entries gives nothing. -/
theorem not_read_of_files {α : Type} {codec : Codec α} {fs : FileSystem} {dir : OsString}
    {key : String} {h : Held α} (hfiles : CacheDir.files fs dir = .ok []) :
    CacheDir.read codec fs dir key ≠ .found key h := by
  intro hread
  obtain ⟨bytes, hb, -⟩ := CacheDir.readEntry_eq_found.1 (CacheDir.read_eq_found.1 hread).2
  have hmem := CacheDir.mem_files_of_read (dir_isEmpty_of_files hfiles) hb
  rw [hfiles] at hmem
  exact absurd hmem List.not_mem_nil

/-- A new engine whose directory gives no entry holds nothing. -/
theorem sound_ofConfig {settings : EngineSettings} {platform : Option OsString} {fs fs₀ : FileSystem}
    {e : Engine} (hnew : Engine.ofConfig settings platform fs = .ok (e, fs₀))
    (hempty : ∀ dir, e.cache.directory = some dir → ∀ key h,
      CacheDir.read FileSurvey.codec fs₀ dir key ≠ .found key h) :
    History.Sound e.cache.directory ⟨e, fs₀, []⟩ := by
  obtain ⟨hidle, hrecent⟩ : e.abandoned = [] ∧ e.cache.recent = [] := by
    obtain ⟨-, exclude, -, rfl, -⟩ := Engine.ofConfig_eq_ok hnew
    exact ⟨rfl, Cache.recent_ofConfig settings.cache platform fs⟩
  refine ⟨hidle, rfl, ⟨fun k h hmem => ?_, fun dir hdir k h hread => ?_⟩, fun pre v post h => ?_⟩
  · rw [hrecent] at hmem
    exact absurd hmem List.not_mem_nil
  · exact absurd hread (hempty dir hdir k h)
  · cases pre <;> cases h

/-- **Cached surveys repeat earlier ones.** Take any run of a new engine whose cache directory, if it
has one, gives no entry: calls, registrations, switches, invalidations and repairs at any time, while
others change the files but write no entries into that directory. Every survey that comes out of the
cache is one that was returned earlier in the run, fresh and without errors, for the same text of the
path and the same configuration and less than its time to live ago, and no plugin ran for it. Since
then the path was not invalidated and the cache not emptied, unless the directory is the empty path. -/
theorem exists_repeats {settings : EngineSettings} {platform : Option OsString} {fs fs₀ : FileSystem}
    {e : Engine} (hnew : Engine.ofConfig settings platform fs = .ok (e, fs₀))
    (hempty : ∀ dir, e.cache.directory = some dir → ∀ key h,
      CacheDir.read FileSurvey.codec fs₀ dir key ≠ .found key h)
    {g : Grammars} {s : History} (hrun : History.Reaches g ⟨e, fs₀, []⟩ s)
    (hkept : Preserves e.cache.directory s.events)
    {pre post : List Event} {v : Visit} (hv : s.events = pre ++ .returned v :: post)
    (hcached : v.survey.provenance.fromCache = true) :
    ∃ u, Undisturbed e.cache.directory pre u ∧ v.Repeats u :=
  ((sound_ofConfig hnew hempty).reaches hrun hkept).served pre v post hv hcached

/-! ## A survey that is handed out again -/

theorem Cache.get_put {α : Type} (codec : Codec α) (c : Cache α) (fs fs' : FileSystem)
    {t ttl now : Nat} (key : String) (v : α) (h : now < min (t + ttl) endOfTime) :
    ((c.put codec fs t key v ttl).1.get codec fs' now key).1 = some v := by
  have hheld : (c.recent.push c.capacity key ⟨v, min (t + ttl) endOfTime⟩).held? key =
      some ⟨v, min (t + ttl) endOfTime⟩ := by
    unfold Recent.push
    split <;> exact List.lookup_cons_self
  unfold Cache.get Cache.put Cache.keep
  simp only [hheld, Held.isLive, h, decide_true, if_true]

/-- One call on one file. -/
theorem History.step_survey (g : Grammars) (s : History) (now : Nat) {c : CallConfig}
    {r : SettledConfig} (h : s.engine.prepare c = .ok r) (path : OsString) (o : Origin) :
    s.step g now (.survey path c o) =
      s.returning [(s.engine.visit ⟨g, s.files, now⟩ r path o).1]
        (s.engine.visit ⟨g, s.files, now⟩ r path o).2 := by
  simp only [History.step, Engine.visits, Engine.surveyFile_eq, h]
  rfl

/-- A call that finds something in the cache hands it out. -/
theorem History.step_hit (g : Grammars) (s : History) {now : Nat} {c : CallConfig} {r : SettledConfig}
    (hidle : s.engine.abandoned = []) (h : s.engine.prepare c = .ok r) (huse : r.useCache = true)
    {path : OsString} {survey : FileSurvey}
    (hget : (s.engine.cache.get FileSurvey.codec s.files now (r.key path.display)).1 = some survey)
    (o : Origin) :
    ∃ v, (s.step g now (.survey path c o)).events = s.events ++ [.returned v] ∧
      v.survey = survey.asCached := by
  refine ⟨_, by rw [History.step_survey g s now h]; rfl, ?_⟩
  rw [Engine.visit, Engine.run_of_hit _ _ hidle huse hget]

/-- What is read back is known by its text. -/
theorem Codec.survives_of_text {α : Type} {codec : Codec α} {v : α} {j : Json}
    (hread : (Json.readValue 127 (Json.compact (codec.write v) ++ ['\x7d'])).any (fun x =>
      x.2 = ['\x7d'] ∧ Json.compact x.1 = Json.compact j) = true)
    (hj : codec.read j = some v) : codec.Survives v := by
  cases hk : Json.readValue 127 (Json.compact (codec.write v) ++ ['\x7d']) with
  | none => simp [hk] at hread
  | some x =>
    obtain ⟨k, rest⟩ := x
    simp only [hk, Option.any_some, decide_eq_true_eq] at hread
    obtain ⟨rfl, htext⟩ := hread
    exact ⟨k, hk, Json.compact_injective htext ▸ hj⟩

open Json in
/-- A survey of an empty script survives its encoding: its file has the fields in ascending order. -/
theorem survives_script : FileSurvey.codec.Survives
    { path := "a", language := "ruby", performance := { memory := ⟨6, 2, 2⟩ },
      provenance := { timestamp := 5 } } :=
  Codec.survives_of_text
    (j := .obj [("errors", .arr []), ("extractedData", .obj []), ("filePath", .str "a"),
      ("interpretedData", .obj []), ("language", .str "ruby"),
      ("metadata", .obj [("extractorsUsed", .arr []), ("fromCache", .bool false),
        ("interpretersUsed", .arr []), ("timestamp", ofNat 5)]),
      ("performanceMetrics", .obj [("cacheLookupMs", ofDouble .zero),
        ("extractionTimeMs", ofDouble .zero), ("extractorTimings", .obj []),
        ("interpretationTimeMs", ofDouble .zero), ("interpreterTimings", .obj []),
        ("memory", .obj [("extractedBytes", ofNat 2), ("interpretedBytes", ofNat 2),
          ("sourceBytes", ofNat 6)]),
        ("parseTimeMs", ofDouble .zero), ("totalTimeMs", ofDouble .zero)]),
      ("warnings", .arr [])])
    (by decide +kernel) rfl

namespace History.Sound

variable {dir? : Option OsString} {e : Engine} {fs : FileSystem}

/-- Nothing is found before anything was returned. -/
theorem get_eq_miss (S : Sound dir? ⟨e, fs, []⟩) (now : Nat) (key : String) :
    e.cache.get FileSurvey.codec fs now key = (none, e.cache.countMiss, fs) := by
  refine S.held.get_eq_miss (fun h hb => ?_) now
  obtain ⟨u, -, earlier, between, hnil, -⟩ := hb
  simp at hnil

/-- A first call that goes well keeps its survey. -/
theorem first_call (S : Sound dir? ⟨e, fs, []⟩) (g : Grammars) {c : CallConfig} {r : SettledConfig}
    (hprepare : e.prepare c = .ok r) (huse : r.useCache = true) (path : OsString) (o : Origin) {t : Nat}
    (hclean : (e.tools.pass ⟨g, fs, t⟩ path r o).survey.errors = []) :
    ∃ u e₁ fs₁, History.step g ⟨e, fs, []⟩ t (.survey path c o) = ⟨e₁, fs₁, [.returned u]⟩ ∧
      u.survey = (e.tools.pass ⟨g, fs, t⟩ path r o).survey ∧
      (e₁.cache, fs₁) = e.cache.countMiss.put FileSurvey.codec fs t (r.key path.display) u.survey
        (r.cacheTtl * 1000) ∧ e₁.abandoned = [] ∧ e₁.prepare c = .ok r := by
  have hmiss := S.get_eq_miss t (r.key path.display)
  obtain ⟨pass, hpass, hrun⟩ := e.run_of_miss ⟨g, fs, t⟩ S.idle huse (by rw [hmiss]) o
  have hlooked : e.looked ⟨g, fs, t⟩ (r.key path.display) =
      ({ e with cache := e.cache.countMiss }, fs) := by
    rw [Engine.looked, hmiss]
  rw [hlooked] at hpass hrun
  replace hclean : pass.survey.errors = [] := hpass ▸ hclean
  rw [History.step_survey g ⟨e, fs, []⟩ t hprepare, Engine.visit, hrun, Engine.complete, Engine.keep]
  simp only [FileSurvey.succeeded, hclean, List.isEmpty_nil, if_true]
  exact ⟨_, _, _, rfl, congrArg Pass.survey hpass, rfl, S.idle, hprepare⟩

/-- **A second call is served from the cache**, whatever has become of the file: the first one made a
fresh pass, and if that went well its survey is handed out again. -/
theorem second_call (S : Sound dir? ⟨e, fs, []⟩) (g : Grammars) {c : CallConfig} {r : SettledConfig}
    (hprepare : e.prepare c = .ok r) (huse : r.useCache = true) (path : OsString) (o o' : Origin)
    {t n : Nat} (hlive : n < min (t + r.cacheTtl * 1000) Cache.endOfTime)
    (hclean : (e.tools.pass ⟨g, fs, t⟩ path r o).survey.errors = []) :
    ∃ u v, ((History.step g ⟨e, fs, []⟩ t (.survey path c o)).step g n
        (.survey path c o')).events = [.returned u] ++ .returned v :: [] ∧
      u.survey = (e.tools.pass ⟨g, fs, t⟩ path r o).survey ∧ v.survey = u.survey.asCached := by
  obtain ⟨u, e₁, fs₁, hfirst, hu, hput, hidle, hprepare₁⟩ := S.first_call g hprepare huse path o hclean
  have hagain := Cache.get_put FileSurvey.codec e.cache.countMiss fs fs₁ (r.key path.display) u.survey hlive
  rw [← hput] at hagain
  rw [hfirst]
  obtain ⟨v, hv, hsurvey⟩ := History.step_hit g ⟨e₁, fs₁, [.returned u]⟩ hidle hprepare₁ huse hagain o'
  exact ⟨u, v, hv, hu, hsurvey⟩

/-- **Under the empty path a survey is served after an invalidation too**: its file is not listed. -/
theorem call_after_invalidation {dir : OsString} (S : Sound (some dir) ⟨e, fs, []⟩)
    (hd : dir.isEmpty = true) (hcwd : fs.stored? fs.cwd = some .dir) (g : Grammars) {c : CallConfig}
    {r : SettledConfig} (hprepare : e.prepare c = .ok r) (huse : r.useCache = true) (path : OsString)
    (hfree : fs.child? fs.cwd (CacheDir.fileName (r.key path.display)) ≠ some .dir) (o o' : Origin)
    {t m n : Nat} (hlive : n < min (t + r.cacheTtl * 1000) Cache.endOfTime)
    (hclean : (e.tools.pass ⟨g, fs, t⟩ path r o).survey.errors = [])
    (hkept : FileSurvey.codec.Survives (e.tools.pass ⟨g, fs, t⟩ path r o).survey) :
    ∃ u v, (((History.step g ⟨e, fs, []⟩ t (.survey path c o)).step g m (.invalidate path)).step g n
        (.survey path c o')).events = [.returned u, .invalidated path] ++ .returned v :: [] ∧
      v.survey = u.survey.asCached := by
  obtain ⟨u, e₁, fs₁, hfirst, hu, hput, hidle, hprepare₁⟩ := S.first_call g hprepare huse path o hclean
  have hagain := Cache.get_invalidate_put (c := e.cache.countMiss) S.directory hd hcwd hfree
    ((Cache.isKeyOf_key path.display path.display r).2 rfl) (hu ▸ hkept) hlive
  rw [← hput] at hagain
  rw [hfirst]
  obtain ⟨v, hv, hsurvey⟩ := History.step_hit g (History.step g ⟨e₁, fs₁, [.returned u]⟩ m
    (.invalidate path)) hidle hprepare₁ huse hagain o'
  exact ⟨u, v, hv, hsurvey⟩

end History.Sound

/-- A script is surveyed twice under a cache with a directory, though there is no such file. -/
theorem exists_repeats_second_call :
    ∃ e fs₀, Engine.ofConfig { cache := { persist := true, directory := some ↑"cache" } } none .empty =
        .ok (e, fs₀) ∧
      let c : CallConfig := { extractors := some [], interpreters := some [] }
      let s := History.step (fun _ _ => none) (History.step (fun _ _ => none) ⟨e, fs₀, []⟩ 5
        (.survey "a" c (.given ['#', '!', 'r', 'u', 'b', 'y']))) 7 (.survey "a" c .onDisk)
      ∃ u v, s.events = [.returned u] ++ .returned v :: [] ∧
        v.survey.provenance.fromCache = true ∧
        ∃ u', Undisturbed (some ↑"cache") [.returned u] u' ∧ v.Repeats u' := by
  let settings : EngineSettings := { cache := { persist := true, directory := some ↑"cache" } }
  let e : Engine :=
    { config := settings, exclude := [], tools := Engine.builtinTools,
      cache := { capacity := 1000, directory := some ↑"cache" } }
  let fs₀ : FileSystem := ⟨[(["cache"], .dir)], []⟩
  have hnew : Engine.ofConfig settings none .empty = .ok (e, fs₀) := rfl
  have hempty : ∀ dir, e.cache.directory = some dir → ∀ key h,
      CacheDir.read FileSurvey.codec fs₀ dir key ≠ .found key h := by
    rintro dir hdir key h
    obtain rfl := Option.some.inj hdir
    exact not_read_of_files (by decide +kernel)
  refine ⟨e, fs₀, hnew, ?_⟩
  intro c s
  have hrun : History.Reaches (fun _ _ => none) ⟨e, fs₀, []⟩ s :=
    .step 7 (.survey "a" c .onDisk) (.step 5 (.survey "a" c _) .refl trivial) trivial
  obtain ⟨u, v, hevents, hu, hv⟩ := (sound_ofConfig hnew hempty).second_call
    (fun _ _ => none) (c := c) rfl rfl "a" (.given ['#', '!', 'r', 'u', 'b', 'y']) .onDisk
    (t := 5) (n := 7) (by decide) rfl
  have hcached : v.survey.provenance.fromCache = true := hv ▸ rfl
  have hkept : Preserves e.cache.directory s.events := by
    intro _ u' hu' hfresh _
    rw [hevents] at hu'
    rcases List.mem_cons.1 hu' with heq | hlast
    · obtain rfl := Event.returned.inj heq
      exact hu ▸ survives_script
    · obtain rfl := Event.returned.inj (List.mem_singleton.1 hlast)
      rw [hcached] at hfresh
      cases hfresh
  exact ⟨u, v, hevents, hcached, exists_repeats hnew hempty hrun hkept hevents hcached⟩

/-- Under the empty path a script is served from the cache right after its path was invalidated. -/
theorem served_though_invalidated :
    ∃ e fs₀, Engine.ofConfig { cache := { persist := true, directory := some ↑"" } } none .empty =
        .ok (e, fs₀) ∧
      (∀ key h, CacheDir.read FileSurvey.codec fs₀ "" key ≠ .found key h) ∧
      let c : CallConfig := { extractors := some [], interpreters := some [] }
      let s := ((History.step (fun _ _ => none) ⟨e, fs₀, []⟩ 5
        (.survey "a" c (.given ['#', '!', 'r', 'u', 'b', 'y']))).step (fun _ _ => none) 6
          (.invalidate "a")).step (fun _ _ => none) 7 (.survey "a" c .onDisk)
      ∃ u v, s.events = [.returned u, .invalidated "a"] ++ .returned v :: [] ∧
        v.survey.provenance.fromCache = true ∧
        ∀ (earlier between : List Event) u', [.returned u, .invalidated "a"] =
          earlier ++ .returned u' :: between → .invalidated "a" ∈ between := by
  let settings : EngineSettings := { cache := { persist := true, directory := some ↑"" } }
  let e : Engine :=
    { config := settings, exclude := [], tools := Engine.builtinTools,
      cache := { capacity := 1000, directory := some ↑"" } }
  have hnew : Engine.ofConfig settings none .empty = .ok (e, .empty) := rfl
  have hnone (key : String) (h : Held FileSurvey) :
      CacheDir.read FileSurvey.codec .empty "" key ≠ .found key h := by
    intro hread
    obtain ⟨bytes, hb, -⟩ := CacheDir.readEntry_eq_found.1 (CacheDir.read_eq_found.1 hread).2
    obtain ⟨p, hl, -⟩ := FileSystem.readBytes_eq_ok.1 hb
    rw [CacheDir.filePath_empty rfl, FileSystem.locate_plain rfl (CacheDir.plain_fileName key)] at hl
    cases hl
  have hempty : ∀ dir, e.cache.directory = some dir → ∀ key h,
      CacheDir.read FileSurvey.codec .empty dir key ≠ .found key h := by
    rintro dir hdir
    obtain rfl := Option.some.inj hdir
    exact hnone
  refine ⟨e, .empty, hnew, hnone, ?_⟩
  intro c s
  obtain ⟨u, v, hevents, hv⟩ := (sound_ofConfig hnew hempty).call_after_invalidation (m := 6) rfl rfl
    (fun _ _ => none) (c := c) rfl rfl "a" (by simp [FileSystem.child?, FileSystem.stored?,
      FileSystem.empty]) (.given ['#', '!', 'r', 'u', 'b', 'y']) .onDisk (t := 5) (n := 7) (by decide) rfl
    survives_script
  refine ⟨u, v, hevents, hv ▸ rfl, fun earlier between u' hsplit => ?_⟩
  rcases earlier with _ | ⟨x, _ | ⟨y, rest⟩⟩
  · obtain ⟨-, rfl⟩ := List.cons.inj hsplit
    exact List.mem_singleton_self _
  · simp at hsplit
  · simp at hsplit

end CodeSurvey
