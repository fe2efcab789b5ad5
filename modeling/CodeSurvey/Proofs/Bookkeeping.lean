import CodeSurvey.Proofs.Calls
import CodeSurvey.Proofs.Surface
/-!
# Metrics and counters agree

An engine counts its analyses in its metrics, after the fact and from what a survey says about itself;
its cache counts lookups on its own. Both are shown to count one list of visits: those since the counts
were last set back (`EngineTotals.Counts`, `CacheCounters.Counts`). One visit adds one to the list on both
sides (`Balanced.visit`), so every action keeps them in step (`Balanced.step`), and the equations between
the two books follow (`metrics_match_counters`).

The one inequality, that failures are fresh, needs more: a survey out of the cache has no errors. That
holds because only surveys without errors are kept, and a file without errors is read back without
errors (`FileSurvey.errors_of_echoes`).
-/
namespace CodeSurvey

attribute [local irreducible] CacheDir.fileName

/-! ## What is counted -/

namespace Visit

/-- A visit that was answered out of the cache. -/
def isHit (v : Visit) : Bool := v.survey.provenance.fromCache

/-- A visit that ran its stages. -/
def isFresh (v : Visit) : Bool := !v.isHit

/-- A visit that looked into the cache and found nothing. -/
def isMiss (v : Visit) : Bool := v.config.useCache && v.isFresh

/-- A visit whose survey has errors. -/
def isFailure (v : Visit) : Bool := !v.survey.succeeded

end Visit

/-- The number of values in all means of a dictionary. -/
def countAll (d : Dict RunningMean) : Nat := (d.entries.map (·.2.count)).sum

/-- The number of values in the mean of a name. -/
def countOf (d : Dict RunningMean) (name : String) : Nat := (d.get? name).elim 0 (·.count)

/-- Metrics that count some visits. -/
structure EngineTotals.Counts (m : EngineTotals) (vs : List Visit) : Prop where
  total : m.totalAnalyses = vs.length
  hits : m.cacheHits = vs.countP Visit.isHit
  misses : m.cacheMisses = vs.countP Visit.isMiss
  failed : m.failedAnalyses = vs.countP Visit.isFailure
  totalTime : m.totalTime.count = vs.length
  parseTime : m.parseTime.count = vs.countP Visit.isFresh
  extractionTime : m.extractionTime.count = vs.countP Visit.isFresh
  interpretationTime : m.interpretationTime.count = vs.countP Visit.isFresh
  languages : countAll m.byLanguage = vs.countP Visit.isFresh
  language : ∀ name,
    countOf m.byLanguage name = vs.countP fun v => v.isFresh && name == v.survey.language

/-- Counters of a cache that count some visits. -/
structure CacheCounters.Counts (c : CacheCounters) (vs : List Visit) : Prop where
  hits : c.hits = vs.countP Visit.isHit
  misses : c.misses = vs.countP Visit.isMiss

/-! ## Metrics -/

theorem Dict.map_insertEntry {β γ : Type} (f : β → γ) (k : String) (v : β)
    (l : List (String × β)) :
    (insertEntry k v l).map (fun e => (e.1, f e.2)) =
      insertEntry k (f v) (l.map fun e => (e.1, f e.2)) := by
  induction l with
  | nil => rfl
  | cons e r ih =>
    simp only [insertEntry, List.map_cons]
    split
    · rfl
    · split
      · rfl
      · simp only [List.map_cons, ih]

theorem Dict.lookup_map {β γ : Type} (f : β → γ) (k : String) (l : List (String × β)) :
    (l.map fun e => (e.1, f e.2)).lookup k = (l.lookup k).map f := by
  induction l with
  | nil => rfl
  | cons e r ih =>
    obtain ⟨i, w⟩ := e
    simp only [List.map_cons, Dict.lookup_entry, ih]
    split <;> rfl

/-- A value is added to the mean of its name and to no other. -/
theorem countOf_addAverage (d : Dict RunningMean) (name x : String) (value : Double) :
    countOf (addAverage d name value) x = countOf d x + if x = name then 1 else 0 := by
  unfold countOf addAverage
  rw [Dict.get?_insert]
  by_cases h : x = name
  · subst h
    cases hx : d.get? x with
    | none => simp [RunningMean.add]
    | some r => simp [RunningMean.add]
  · simp [h]

theorem countAll_addAverage (d : Dict RunningMean) (name : String) (value : Double) :
    countAll (addAverage d name value) = countAll d + 1 := by
  have hmap (l : List (String × RunningMean)) :
      l.map (·.2.count) = (l.map fun e => (e.1, e.2.count)).map (·.2) := by simp
  have hascending : (d.entries.map fun e => (e.1, e.2.count)).Pairwise fun a b => a.1 < b.1 :=
    List.pairwise_map.2 d.ascending
  have hsum := Dict.sum_insertEntry (k := name) (v := (((d.get? name).getD {}).add value).count)
    hascending
  have hold : ((d.entries.map fun e => (e.1, e.2.count)).lookup name).getD 0 + 1 =
      (((d.get? name).getD {}).add value).count := by
    rw [Dict.lookup_map (fun r : RunningMean => r.count)]
    unfold Dict.get?
    cases d.entries.lookup name with
    | none => rfl
    | some r => rfl
  unfold countAll addAverage Dict.insert
  rw [hmap, hmap, Dict.map_insertEntry (fun r : RunningMean => r.count)]
  omega

namespace EngineTotals

theorem counts_empty : ({} : EngineTotals).Counts [] :=
  ⟨rfl, rfl, rfl, rfl, rfl, rfl, rfl, rfl, rfl, fun _ => rfl⟩

/-- **Recording a survey counts its visit**, if a survey out of the cache is only recorded by a visit that
looked there. -/
theorem Counts.record {m : EngineTotals} {vs : List Visit} (C : m.Counts vs) {v : Visit}
    (hlooked : v.isHit = true → v.config.useCache = true) :
    (m.record v.survey v.config.useCache).Counts (vs ++ [v]) := by
  have hfailed : (if v.survey.succeeded then 0 else 1) = if v.isFailure then 1 else 0 := by
    cases h : v.survey.succeeded <;> simp [Visit.isFailure, h]
  have hcached : v.survey.provenance.fromCache = v.isHit := rfl
  have hmiss : v.isMiss = (v.config.useCache && !v.isHit) := rfl
  have hfresh : v.isFresh = !v.isHit := rfl
  -- what is counted depends on whether the cache was asked and on whether it answered
  cases hhit : v.isHit with
  | true =>
    have huse := hlooked hhit
    simp only [hhit, huse, Bool.not_true, Bool.and_false] at hmiss hfresh
    simp only [EngineTotals.record, huse, hcached, hhit, if_true, countLookup, hfailed]
    refine ⟨?_, ?_, ?_, ?_, ?_, ?_, ?_, ?_, ?_, fun name => ?_⟩ <;>
      simp [RunningMean.add, List.countP_cons, hhit, hfresh, hmiss, C.total, C.hits, C.misses,
        C.failed, C.totalTime, C.parseTime, C.extractionTime, C.interpretationTime, C.languages,
        C.language]
  | false =>
    simp only [hhit, Bool.not_false, Bool.and_true] at hmiss hfresh
    cases huse : v.config.useCache <;> rw [huse] at hmiss <;>
      simp only [EngineTotals.record, hcached, hhit, countLookup, countStages, hfailed, if_true,
        Bool.false_eq_true, if_false] <;>
      refine ⟨?_, ?_, ?_, ?_, ?_, ?_, ?_, ?_, ?_, fun name => ?_⟩ <;>
      simp [RunningMean.add, List.countP_cons, hhit, hfresh, hmiss, C.total, C.hits, C.misses,
        C.failed, C.totalTime, C.parseTime, C.extractionTime, C.interpretationTime, C.languages,
        C.language, countAll_addAverage, countOf_addAverage]

end EngineTotals

/-! ## Counters of the cache -/

theorem CacheCounters.Counts.concat {c d : CacheCounters} {vs : List Visit} (C : c.Counts vs)
    {v : Visit} {hit miss : Nat} (hhits : d.hits = c.hits + hit) (hmisses : d.misses = c.misses + miss)
    (hhit : hit = if v.isHit then 1 else 0) (hmiss : miss = if v.isMiss then 1 else 0) :
    d.Counts (vs ++ [v]) := by
  constructor
  · rw [hhits, hhit, C.hits, List.countP_append, List.countP_singleton]
  · rw [hmisses, hmiss, C.misses, List.countP_append, List.countP_singleton]

namespace Cache

variable {α : Type}

/-- A lookup that has counted itself: one hit or one miss, by what it gives. -/
def CountsLookup (c : Cache α) (answer : Option α × Cache α × FileSystem) : Prop :=
  answer.2.1.counters.hits = c.counters.hits + (if answer.1.isSome then 1 else 0) ∧
    answer.2.1.counters.misses = c.counters.misses + if answer.1.isSome then 0 else 1

theorem countsLookup_get (codec : Codec α) (c : Cache α) (fs : FileSystem) (now : Nat) (key : String) :
    c.CountsLookup (c.get codec fs now key) := by
  unfold get fetch
  split
  · split
    · simp [CountsLookup, countMiss]
    · split
      · split <;> simp [CountsLookup, countMiss, countHit, countExpired, keep]
      · simp [CountsLookup, countMiss]
  · split <;> simp [CountsLookup, countMiss, countHit, countExpired]

/-- The counters of a new cache are at zero. -/
theorem counters_ofConfig (settings : CacheSettings) (platform : Option OsString) (fs : FileSystem) :
    (ofConfig settings platform fs : Cache α × FileSystem).1.counters = {} := by
  unfold ofConfig inDirectory
  split
  · split <;> rfl
  · rfl

end Cache

/-- Completing a job records its survey, and no lookup is counted for it. -/
theorem Engine.books_complete (now : Nat) (state : Engine × FileSystem) (job : Job) :
    (complete now state job).1.metrics = state.1.metrics.record job.pass.survey job.key.isSome ∧
      (complete now state job).1.cache.counters.hits = state.1.cache.counters.hits ∧
      (complete now state job).1.cache.counters.misses = state.1.cache.counters.misses := by
  unfold complete keep
  cases hkey : job.key with
  | none => exact ⟨rfl, rfl, rfl⟩
  | some key =>
    dsimp only
    split <;> exact ⟨rfl, rfl, rfl⟩

/-! ## Kept surveys have no errors -/

/-- What is read from an echo of a survey without errors has none. -/
theorem FileSurvey.errors_of_echoes {s t : FileSurvey} {v : Json} (h : s.toJson.Echoes v)
    (hread : ofJson? v = some t) (hclean : s.errors = []) : t.errors = [] := by
  unfold toJson at h
  rw [hclean] at h
  obtain ⟨gs, rfl, v₁, l₁, rfl, -, v₂, l₂, rfl, -, v₃, l₃, rfl, -, v₄, l₄, rfl, -, v₅, l₅, rfl,
    hnone, v₆, l₆, rfl, -, v₇, l₇, rfl, -, v₈, l₈, rfl, -, rfl⟩ := h
  obtain ⟨xs, rfl, rfl⟩ := hnone
  simp only [ofJson?, Option.bind_eq_bind, Option.bind_eq_some_iff] at hread
  obtain ⟨j, hj, _, -, _, -, _, -, _, -, es, hes, _, -, _, -, _, -, heq⟩ := hread
  cases hj
  cases heq
  -- no other field has the name of the errors
  have hget : (Dict.ofList [("filePath", v₁), ("language", v₂), ("extractedData", v₃),
      ("interpretedData", v₄), ("errors", Json.arr []), ("warnings", v₆),
      ("performanceMetrics", v₇), ("metadata", v₈)]).get? "errors" = some (.arr []) := by
    simp [Dict.ofList, Dict.get?_insert]
  have hread := (congrArg (·.bind (Json.list? ErrorRecord.ofJson?)) hget).symm.trans hes
  exact (Option.some.inj hread).symm

/-! ## One analysis -/

namespace Engine

/-- Without the cache an analysis completes a fresh pass. -/
theorem run_of_unused (e : Engine) (w : Surroundings) {path : OsString} {r : SettledConfig}
    (huse : ¬ r.useCache = true) (o : Origin) :
    e.run w path r o = ((e.tools.pass w path r o).survey,
      complete w.now (e, w.files) ⟨none, 0, e.tools.pass w path r o⟩) := by
  unfold run start
  simp only [huse]
  rfl

/-- An engine without jobs in the background whose books count some visits: both the metrics and the
counters of the cache do, and nothing with errors is kept or was handed out again. -/
structure Balanced (state : Engine × FileSystem) (vs : List Visit) : Prop where
  idle : state.1.abandoned = []
  metrics : state.1.metrics.Counts vs
  counters : state.1.cache.counters.Counts vs
  held : state.1.cache.AllHeld FileSurvey.codec (fun _ h => h.value.errors = []) state.2
  clean : ∀ v ∈ vs, v.isHit = true → v.isFailure = false

namespace Balanced

variable {e : Engine} {w : Surroundings} {vs : List Visit}

/-- Completing a fresh pass balances the books, once the lookup before it is counted. -/
theorem complete {fs : FileSystem} (hidle : e.abandoned = []) (hmetrics : e.metrics.Counts vs)
    (hheld : e.cache.AllHeld FileSurvey.codec (fun _ h => h.value.errors = []) fs)
    (hclean : ∀ v ∈ vs, v.isHit = true → v.isFailure = false) {v : Visit} (now : Nat) (job : Job)
    (hcounters : e.cache.counters.Counts (vs ++ [v])) (hsurvey : v.survey = job.pass.survey)
    (hfresh : v.isHit = false) (hkey : job.key.isSome = v.config.useCache) :
    Balanced (Engine.complete now (e, fs) job) (vs ++ [v]) := by
  obtain ⟨cache, metrics, log, fs', hframe, -⟩ := complete_frame (e, fs) now job
  obtain ⟨hrecorded, hhits, hmisses⟩ := books_complete now (e, fs) job
  refine ⟨?_, ?_, ⟨?_, ?_⟩, ?_, ?_⟩
  · rw [hframe]
    exact hidle
  · rw [hrecorded, ← hsurvey, hkey]
    exact hmetrics.record fun h => by rw [hfresh] at h; cases h
  · exact hhits.trans hcounters.hits
  · exact hmisses.trans hcounters.misses
  · refine allHeld_complete hheld fun hnone key _ => hheld.put_of_content hnone ?_
    intro _ k g hcontent
    obtain ⟨-, j, hecho, hread⟩ := CacheDir.echoes_of_content hcontent
    exact FileSurvey.errors_of_echoes hecho hread hnone
  · intro u hu hhit
    rcases List.mem_append.1 hu with hu | hu
    · exact hclean u hu hhit
    · rw [List.mem_singleton.1 hu, hfresh] at hhit
      cases hhit

/-- **One analysis balances the books.** -/
theorem run (B : Balanced (e, w.files) vs) {path : OsString} {o : Origin} {v : Visit}
    (hsurvey : v.survey = (e.run w path v.config o).1) :
    Balanced (e.run w path v.config o).2 (vs ++ [v]) := by
  by_cases huse : v.config.useCache = true
  · have hlookup := Cache.countsLookup_get FileSurvey.codec e.cache w.files w.now (v.config.key path.display)
    have hlooked := B.held.get w.now (v.config.key path.display)
    cases hget : (e.cache.get FileSurvey.codec w.files w.now (v.config.key path.display)).1 with
    | some survey =>
      -- out of the cache: the lookup counts the hit, and the metrics learn of it from the survey
      rw [e.run_of_hit w B.idle huse hget o] at hsurvey ⊢
      obtain ⟨h, hnone, rfl, -⟩ := B.held.get_eq_some hget
      have hhit : v.isHit = true := by rw [Visit.isHit, hsurvey]; rfl
      have hmetrics := B.metrics.record (v := v) fun _ => huse
      rw [hsurvey, huse] at hmetrics
      refine ⟨B.idle, hmetrics, B.counters.concat hlookup.1 hlookup.2 ?_ ?_, hlooked, ?_⟩
      · rw [hget, hhit]; rfl
      · simp [hget, Visit.isMiss, Visit.isFresh, hhit]
      · intro u hu hu'
        rcases List.mem_append.1 hu with hu | hu
        · exact B.clean u hu hu'
        · rw [List.mem_singleton.1 hu, Visit.isFailure, hsurvey]
          simp [FileSurvey.succeeded, FileSurvey.asCached, hnone]
    | none =>
      -- a pass after a lookup that gave nothing
      obtain ⟨pass, hpass, hrun⟩ := e.run_of_miss w B.idle huse hget o
      rw [hrun] at hsurvey ⊢
      have hfresh : v.isHit = false := by
        rw [Visit.isHit, hsurvey, hpass]
        exact fromCache_pass _ _ _ _ _
      refine complete (e := (e.looked w (v.config.key path.display)).1) B.idle B.metrics hlooked B.clean w.now
        ⟨some (v.config.key path.display), v.config.cacheTtl * 1000, pass⟩ ?_ hsurvey hfresh huse.symm
      refine B.counters.concat hlookup.1 hlookup.2 ?_ ?_
      · simp [hget, hfresh]
      · simp [hget, Visit.isMiss, Visit.isFresh, hfresh, huse]
  · -- a pass that leaves the cache alone
    rw [e.run_of_unused w huse o] at hsurvey ⊢
    have hfresh : v.isHit = false := by
      rw [Visit.isHit, hsurvey]
      exact fromCache_pass _ _ _ _ _
    refine complete B.idle B.metrics B.held B.clean w.now ⟨none, 0, e.tools.pass w path v.config o⟩ ?_
      hsurvey hfresh (by simpa using huse)
    refine B.counters.concat (Nat.add_zero _).symm (Nat.add_zero _).symm ?_ ?_
    · simp [hfresh]
    · simp [Visit.isMiss, huse]

theorem visitAll (B : Balanced (e, w.files) vs) (r : SettledConfig)
    (items : List (OsString × Origin)) :
    Balanced (e.visitAll w r items).2 (vs ++ (e.visitAll w r items).1) := by
  induction items generalizing e w vs with
  | nil => simpa [Engine.visitAll] using B
  | cons item rest ih =>
    obtain ⟨path, o⟩ := item
    have hone : Balanced (e.visit w r path o).2 (vs ++ [(e.visit w r path o).1]) :=
      B.run (v := (e.visit w r path o).1) rfl
    have hrest := ih (w := { w with files := (e.visit w r path o).2.2 }) hone
    rw [List.append_assoc] at hrest
    exact hrest

/-- A call on files balances the books, also if it is refused. -/
theorem visits (B : Balanced (e, w.files) vs) (c : CallConfig) (items : List (OsString × Origin))
    {state : Engine × FileSystem} (hrefused : ∀ err, e.prepare c = .error err → state = (e, w.files))
    (hstate : ∀ r, e.prepare c = .ok r → state = (e.visitAll w r items).2) :
    Balanced state (vs ++ e.visits w c items) := by
  unfold Engine.visits
  cases hprepare : e.prepare c with
  | error err => simpa [hrefused err hprepare] using B
  | ok r =>
    rw [hstate r hprepare]
    exact B.visitAll r items

/-- Whatever changes neither the books nor what is kept. -/
theorem of_books {state : Engine × FileSystem} (B : Balanced state vs) {e' : Engine} {fs' : FileSystem}
    (hidle : e'.abandoned = state.1.abandoned) (hmetrics : e'.metrics = state.1.metrics)
    (hcounters : e'.cache.counters = state.1.cache.counters)
    (hheld : e'.cache.AllHeld FileSurvey.codec (fun _ h => h.value.errors = []) fs') :
    Balanced (e', fs') vs :=
  ⟨hidle.trans B.idle, hmetrics ▸ B.metrics, hcounters ▸ B.counters, hheld, B.clean⟩

end Balanced

end Engine

/-! ## Whole runs -/

/-- The visits among some events. -/
def visitsIn (events : List Event) : List Visit :=
  events.filterMap fun
    | .returned v => some v
    | _ => none

theorem visitsIn_append (xs ys : List Event) : visitsIn (xs ++ ys) = visitsIn xs ++ visitsIn ys :=
  List.filterMap_append

theorem visitsIn_returned (vs : List Visit) : visitsIn (vs.map .returned) = vs := by
  induction vs with
  | nil => rfl
  | cons v vs ih => exact congrArg (v :: ·) ih

namespace History

/-- The visits since the counts were last set back: an action adds those that it makes, and setting the
counts back starts a new list. -/
def counted (g : Grammars) (s : History) (now : Nat) (vs : List Visit) : Action → List Visit
  | .recount => []
  | a => vs ++ visitsIn ((s.step g now a).events.drop s.events.length)

/-- The histories that go on from a start, each with the visits since the counts were last set back. -/
inductive Counting (g : Grammars) (start : History) : History → List Visit → Prop
  | refl : Counting g start start []
  | step {s : History} {vs : List Visit} (now : Nat) (a : Action) (h : Counting g start s vs)
    (ha : s.Allows a) : Counting g start (s.step g now a) (s.counted g now vs a)

theorem visitsIn_returning (s : History) (vs : List Visit) (state : Engine × FileSystem) :
    visitsIn ((s.returning vs state).events.drop s.events.length) = vs := by
  rw [returning, List.drop_left, visitsIn_returned]

/-- As long as nothing is set back, all visits count. -/
theorem Counting.step_all {g : Grammars} {start s : History}
    (h : Counting g start s (visitsIn s.events)) (now : Nat) {a : Action} (ha : s.Allows a)
    (hnot : a ≠ .recount) :
    Counting g start (s.step g now a) (visitsIn (s.step g now a).events) := by
  obtain ⟨new, hnew⟩ := s.events_step g now a
  have hcounted : s.counted g now (visitsIn s.events) a =
      visitsIn s.events ++ visitsIn ((s.step g now a).events.drop s.events.length) := by
    cases a with
    | recount => exact absurd rfl hnot
    | _ => rfl
  rw [hnew, List.drop_left, ← visitsIn_append, ← hnew] at hcounted
  rw [← hcounted]
  exact h.step now a ha

/-- A call balances the books with its visits, if its outcome does. -/
theorem balanced_returning {s : History} {vs new : List Visit} {state : Engine × FileSystem}
    (h : Engine.Balanced state (vs ++ new)) :
    Engine.Balanced ((s.returning new state).engine, (s.returning new state).files)
      (vs ++ visitsIn ((s.returning new state).events.drop s.events.length)) := by
  rw [visitsIn_returning]
  exact h

end History

namespace Engine.Balanced

variable {s : History} {vs : List Visit}

/-- **Every action keeps the books in balance.** -/
theorem step (B : Balanced (s.engine, s.files) vs) (g : Grammars) (now : Nat) {a : Action}
    (ha : s.Allows a) :
    Balanced ((s.step g now a).engine, (s.step g now a).files) (s.counted g now vs a) := by
  have hquiet (x : Event) (hx : visitsIn [x] = []) :
      visitsIn ((s.events ++ [x]).drop s.events.length) = [] := by
    rw [List.drop_left, hx]
  cases a with
  | survey path c o =>
    apply History.balanced_returning
    refine B.visits (w := ⟨g, s.files, now⟩) c _ (fun err h => ?_) (fun r h => ?_)
    all_goals rw [surveyFile_eq, h]
  | surveyAll paths c =>
    apply History.balanced_returning
    refine B.visits (w := ⟨g, s.files, now⟩) c _ (fun err h => ?_) (fun r h => ?_)
    all_goals rw [surveyAll_eq, h]
  | surveyBelow root c =>
    apply History.balanced_returning
    refine B.visits (w := ⟨g, s.files, now⟩) c _ (fun err h => ?_) (fun r h => ?_)
    all_goals rw [surveyBelow, surveyAll_eq, h]
  | addProvider | addExtractor | addInterpreter | dropExtractor | dropInterpreter | enable =>
    simp only [History.counted, History.step, List.drop_length, visitsIn, List.filterMap_nil,
      List.append_nil]
    exact B.of_books rfl rfl rfl (B.held.of_recent rfl B.held.memory)
  | invalidate path =>
    simp only [History.counted, History.step, hquiet (.invalidated path) rfl, List.append_nil]
    have hfiles := B.held.fades (Cache.fades_invalidate FileSurvey.codec s.engine.cache s.files path.display)
    refine B.of_books rfl rfl rfl (hfiles.of_recent rfl fun k h hmem => ?_)
    exact B.held.memory k h (List.mem_filter.1 hmem).1
  | emptyCache =>
    simp only [History.counted, History.step, hquiet .cleared rfl, List.append_nil]
    have hfiles := B.held.fades (Cache.fades_clear s.engine.cache s.files)
    exact B.of_books rfl rfl rfl (hfiles.of_recent rfl fun _ _ hmem => absurd hmem List.not_mem_nil)
  | mendCache =>
    simp only [History.counted, History.step, List.drop_length, visitsIn, List.filterMap_nil,
      List.append_nil]
    exact B.of_books rfl rfl rfl (B.held.repair now)
  | recount =>
    exact ⟨B.idle, EngineTotals.counts_empty, ⟨rfl, rfl⟩, B.held.of_recent rfl B.held.memory,
      fun _ hv => absurd hv List.not_mem_nil⟩
  | changeFiles files =>
    simp only [History.counted, History.step, List.drop_length, visitsIn, List.filterMap_nil,
      List.append_nil]
    exact B.of_books rfl rfl rfl (B.held.of_readBytes ha)

/-- **Books stay in balance along a run.** -/
theorem counting {start : History} {g : Grammars} (B : Balanced (start.engine, start.files) [])
    (h : History.Counting g start s vs) : Balanced (s.engine, s.files) vs := by
  induction h with
  | refl => exact B
  | step now a _ ha ih => exact ih.step g now ha

end Engine.Balanced

namespace Engine

/-- Whatever can be read in the cache directory of a new engine, its books are in order. -/
theorem balanced_ofConfig {settings : EngineSettings} {platform : Option OsString}
    {fs fs₀ : FileSystem} {e : Engine} (hnew : ofConfig settings platform fs = .ok (e, fs₀))
    (hempty : ∀ dir, e.cache.directory = some dir → ∀ key h,
      CacheDir.read FileSurvey.codec fs₀ dir key ≠ .found key h) : Balanced (e, fs₀) [] := by
  obtain ⟨-, exclude, -, rfl, -⟩ := ofConfig_eq_ok hnew
  have hcounters := Cache.counters_ofConfig (α := FileSurvey) settings.cache platform fs
  have hrecent := Cache.recent_ofConfig (α := FileSurvey) settings.cache platform fs
  refine ⟨rfl, EngineTotals.counts_empty, ?_, ⟨fun k h hmem => ?_, fun dir hdir k h hread => ?_⟩, nofun⟩
  · show CacheCounters.Counts _ _
    rw [hcounters]
    exact ⟨rfl, rfl⟩
  · rw [hrecent] at hmem
    cases hmem
  · exact absurd hread (hempty dir hdir k h)

/-! ## The equations -/

/-- Metrics and counters of the cache that tell the same story. -/
structure Consistent (e : Engine) : Prop where
  hits : e.metrics.cacheHits = e.cache.counters.hits
  misses : e.metrics.cacheMisses = e.cache.counters.misses
  hits_le : e.metrics.cacheHits ≤ e.metrics.totalAnalyses
  totalTime : e.metrics.totalTime.count = e.metrics.totalAnalyses
  parseTime : e.metrics.parseTime.count = e.metrics.totalAnalyses - e.metrics.cacheHits
  extractionTime : e.metrics.extractionTime.count = e.metrics.totalAnalyses - e.metrics.cacheHits
  interpretationTime :
    e.metrics.interpretationTime.count = e.metrics.totalAnalyses - e.metrics.cacheHits
  languages : countAll e.metrics.byLanguage = e.metrics.totalAnalyses - e.metrics.cacheHits
  failed_le : e.metrics.failedAnalyses ≤ e.metrics.totalAnalyses - e.metrics.cacheHits

/-- Balanced books satisfy the equations: a visit is either a hit or fresh, and failures are fresh. -/
theorem Balanced.consistent {state : Engine × FileSystem} {vs : List Visit} (B : Balanced state vs) :
    state.1.Consistent := by
  have M := B.metrics
  have hsplit : vs.length = vs.countP Visit.isHit + vs.countP Visit.isFresh := by
    rw [List.length_eq_countP_add_countP Visit.isHit]
    congr 2
    funext v
    simp [Visit.isFresh]
  have hfresh : vs.length - vs.countP Visit.isHit = vs.countP Visit.isFresh := by omega
  have hfailures : vs.countP Visit.isFailure ≤ vs.countP Visit.isFresh := by
    refine List.countP_mono_left fun v hv hfailure => ?_
    by_contra hhit
    rw [B.clean v hv (by simpa [Visit.isFresh] using hhit)] at hfailure
    cases hfailure
  constructor
  case hits => rw [M.hits, B.counters.hits]
  case misses => rw [M.misses, B.counters.misses]
  case hits_le => rw [M.hits, M.total]; omega
  case totalTime => rw [M.totalTime, M.total]
  case parseTime => rw [M.parseTime, M.total, M.hits, hfresh]
  case extractionTime => rw [M.extractionTime, M.total, M.hits, hfresh]
  case interpretationTime => rw [M.interpretationTime, M.total, M.hits, hfresh]
  case languages => rw [M.languages, M.total, M.hits, hfresh]
  case failed_le => rw [M.failed, M.total, M.hits, hfresh]; exact hfailures

/-- **Metrics and counters of the cache tell the same story.** Take any run of a new engine whose cache
directory, if it has one, gives no entry: calls, registrations, switches, invalidations, repairs and
settings back of the counts at any time, while others change the files but write no entries into that
directory. At every point the metrics and the counters of the cache agree and add up, and both count
the visits since they were last set back. -/
theorem metrics_match_counters {settings : EngineSettings} {platform : Option OsString}
    {fs fs₀ : FileSystem} {e : Engine} (hnew : ofConfig settings platform fs = .ok (e, fs₀))
    (hempty : ∀ dir, e.cache.directory = some dir → ∀ key h,
      CacheDir.read FileSurvey.codec fs₀ dir key ≠ .found key h)
    {g : Grammars} {s : History} {vs : List Visit}
    (hrun : History.Counting g ⟨e, fs₀, []⟩ s vs) :
    s.engine.Consistent ∧ s.engine.metrics.Counts vs ∧ s.engine.cache.counters.Counts vs := by
  have B : Balanced (s.engine, s.files) vs := (balanced_ofConfig hnew hempty).counting hrun
  exact ⟨B.consistent, B.metrics, B.counters⟩

/-- A script is surveyed twice under a cache with a directory, first from its text and then out of the
cache: two analyses, one of them a hit. -/
theorem metrics_match_counters_second_call :
    ∃ e fs₀, ofConfig keeping none .empty = .ok (e, fs₀) ∧
      let s := History.step (fun _ _ => none) (History.step (fun _ _ => none) ⟨e, fs₀, []⟩ 5
        (.survey "a" bare (.given ['#', '!', 'r', 'u', 'b', 'y']))) 7 (.survey "a" bare .onDisk)
      ∃ vs, History.Counting (fun _ _ => none) ⟨e, fs₀, []⟩ s vs ∧ s.engine.Consistent ∧
        s.engine.metrics.totalAnalyses = 2 ∧ s.engine.metrics.cacheHits = 1 ∧
        s.engine.cache.counters.hits = 1 := by
  let fs₀ : FileSystem := ⟨[(["cache"], .dir)], []⟩
  have hnew : ofConfig keeping none .empty = .ok (keeper, fs₀) := rfl
  have hempty : ∀ dir, keeper.cache.directory = some dir → ∀ key h,
      CacheDir.read FileSurvey.codec fs₀ dir key ≠ .found key h := by
    rintro dir ⟨⟩ key h
    exact not_read_of_files (by decide +kernel)
  refine ⟨keeper, fs₀, hnew, ?_⟩
  intro s
  obtain ⟨u, v, hevents, hu, hv⟩ := (sound_ofConfig hnew hempty).second_call
    (fun _ _ => none) (c := bare) rfl rfl "a" (.given ['#', '!', 'r', 'u', 'b', 'y']) .onDisk
    (t := 5) (n := 7) (by decide) rfl
  have hrun : History.Counting (fun _ _ => none) ⟨keeper, fs₀, []⟩ s (visitsIn s.events) := by
    have hstart : History.Counting (fun _ _ => none) ⟨keeper, fs₀, []⟩ ⟨keeper, fs₀, []⟩ [] := .refl
    have hfirst := hstart.step_all 5 (a := .survey "a" bare (.given ['#', '!', 'r', 'u', 'b', 'y'])) trivial
      (by simp)
    exact hfirst.step_all 7 (a := .survey "a" bare .onDisk) trivial (by simp)
  obtain ⟨hconsistent, hmetrics, hcounters⟩ := metrics_match_counters hnew hempty hrun
  have hvisits : visitsIn s.events = [u, v] := congrArg visitsIn hevents
  have hhit : v.isHit = true := by rw [Visit.isHit, hv]; rfl
  have hfresh : u.isHit = false := by rw [Visit.isHit, hu]; exact fromCache_pass _ _ _ _ _
  have hhits := hmetrics.hits
  have htotal := hmetrics.total
  rw [hvisits] at hhits htotal
  replace hhits : s.engine.metrics.cacheHits = 1 := by simpa [hhit, hfresh] using hhits
  exact ⟨_, hrun, hconsistent, htotal, hhits, hconsistent.hits.symm.trans hhits⟩

end Engine

end CodeSurvey
