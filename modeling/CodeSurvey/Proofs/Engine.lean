import CodeSurvey.Engine.Basic
/-!
# What engines do

A new engine holds the built-in tools and an empty cache (`ofConfig_eq_ok`, `Cache.recent_ofConfig`). One
analysis hands out what the cache gives or completes a fresh pass (`run_cases`), and completing a job
changes little (`complete_frame`).
-/
namespace CodeSurvey

/-! ## New engines -/

theorem Cache.recent_ofConfig {α : Type} (c : CacheSettings) (platform : Option OsString)
    (fs : FileSystem) : (ofConfig c platform fs : Cache α × FileSystem).1.recent = [] := by
  unfold ofConfig inDirectory
  split
  · split <;> rfl
  · rfl

namespace Engine

/-- What a new engine is made of. -/
theorem ofConfig_eq_ok {settings : EngineSettings} {platform : Option OsString}
    {fs fs₀ : FileSystem} {e : Engine} (h : ofConfig settings platform fs = .ok (e, fs₀)) :
    settings.validate = .ok () ∧ ∃ exclude, settings.exclusions = .ok exclude ∧
      e = { config := settings, exclude, tools := builtinTools,
            cache := (Cache.ofConfig settings.cache platform fs).1 } ∧
      fs₀ = (Cache.ofConfig settings.cache platform fs : Cache FileSurvey × FileSystem).2 := by
  unfold ofConfig at h
  cases hv : settings.validate with
  | error err => simp [hv, bind, Except.bind] at h
  | ok =>
    cases hx : settings.exclusions with
    | error err => simp [hv, hx, bind, Except.bind] at h
    | ok exclude =>
      simp only [hv, hx, bind, Except.bind, pure, Except.pure, Except.ok.injEq, Prod.mk.injEq] at h
      exact ⟨rfl, exclude, rfl, h.1.symm, h.2.symm⟩

/-! ## One analysis -/

variable (e : Engine) (w : Surroundings)

theorem settle_of_idle (h : e.abandoned = []) (fs : FileSystem) (now : Nat) (key : String) :
    e.settle fs now key = (e, fs) := by
  obtain ⟨config, exclude, tools, cache, metrics, enabled, log, abandoned⟩ := e
  subst h
  rfl

/-- A pass does not use the cache, and says so. -/
theorem fromCache_passOn (t : Tools) (r : SettledConfig) (path : OsString)
    (source : Except IoError (List Char)) :
    (t.passOn w path r source).survey.provenance.fromCache = false := by
  unfold Tools.passOn
  split
  · rfl
  · split
    · rfl
    · unfold Tools.parse
      dsimp only
      split <;> rfl

theorem fromCache_pass (t : Tools) (r : SettledConfig) (path : OsString) (o : Origin) :
    (t.pass w path r o).survey.provenance.fromCache = false := fromCache_passOn w t r path _

/-- The engine and the files after a lookup. -/
def looked (key : String) : Engine × FileSystem :=
  ({ e with cache := (e.cache.get FileSurvey.codec w.files w.now key).2.1 },
    (e.cache.get FileSurvey.codec w.files w.now key).2.2)

theorem run_of_hit (h : e.abandoned = []) {path : OsString} {r : SettledConfig} (huse : r.useCache = true)
    {survey : FileSurvey}
    (hget : (e.cache.get FileSurvey.codec w.files w.now (r.key path.display)).1 = some survey) (o : Origin) :
    e.run w path r o = (survey.asCached, (e.looked w (r.key path.display)).1.record survey.asCached true,
      (e.looked w (r.key path.display)).2) := by
  unfold run start
  simp only [huse, if_true, settle_of_idle e h, hget]
  rfl

theorem run_of_miss (h : e.abandoned = []) {path : OsString} {r : SettledConfig}
    (huse : r.useCache = true)
    (hget : (e.cache.get FileSurvey.codec w.files w.now (r.key path.display)).1 = none) (o : Origin) :
    ∃ pass, pass = e.tools.pass { w with files := (e.looked w (r.key path.display)).2 } path r o ∧
      e.run w path r o = (pass.survey, complete w.now (e.looked w (r.key path.display))
        ⟨some (r.key path.display), r.cacheTtl * 1000, pass⟩) := by
  unfold run start
  simp only [huse, if_true, settle_of_idle e h, hget]
  exact ⟨_, rfl, rfl⟩

/-- **What an analysis can do**, while no abandoned job is left: it hands out what the lookup of the
key gives, or it completes a fresh pass. -/
theorem run_cases (h : e.abandoned = []) (path : OsString) (r : SettledConfig) (o : Origin) :
    (∃ survey, (e.cache.get FileSurvey.codec w.files w.now (r.key path.display)).1 = some survey ∧
      e.run w path r o = (survey.asCached, (e.looked w (r.key path.display)).1.record survey.asCached true,
        (e.looked w (r.key path.display)).2)) ∨
    ∃ pass : Pass, pass.survey.provenance.fromCache = false ∧
      (e.run w path r o = (pass.survey, complete w.now (e, w.files) ⟨none, 0, pass⟩) ∨
        e.run w path r o = (pass.survey, complete w.now (e.looked w (r.key path.display))
          ⟨some (r.key path.display), r.cacheTtl * 1000, pass⟩)) := by
  by_cases huse : r.useCache = true
  · cases hget : (e.cache.get FileSurvey.codec w.files w.now (r.key path.display)).1 with
    | some survey => exact .inl ⟨survey, rfl, e.run_of_hit w h huse hget o⟩
    | none =>
      obtain ⟨pass, rfl, hrun⟩ := e.run_of_miss w h huse hget o
      exact .inr ⟨_, fromCache_pass _ _ r path o, .inr hrun⟩
  · refine .inr ⟨_, fromCache_pass w e.tools r path o, .inl ?_⟩
    unfold run start
    simp only [huse]
    rfl

/-- Completing a job changes the cache, the counts and the log only, and the cache stays in its
directory. -/
theorem complete_frame (state : Engine × FileSystem) (now : Nat) (job : Job) :
    ∃ cache metrics log fs, complete now state job = ({ state.1 with cache, metrics, log }, fs) ∧
      cache.directory = state.1.cache.directory := by
  unfold complete keep
  cases job.key with
  | none => exact ⟨_, _, _, _, rfl, rfl⟩
  | some key =>
    dsimp only
    split <;> exact ⟨_, _, _, _, rfl, rfl⟩

end Engine

end CodeSurvey
