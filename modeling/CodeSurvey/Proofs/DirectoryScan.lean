import CodeSurvey.Proofs.Bookkeeping
import CodeSurvey.Proofs.Walk
/-!
# Directory scans

A scan analyzes the files that are analyzable: what a walk claims (`mem_claimedFiles`) is what the
pipeline has a provider for, as both read the same first line. For a survey that is computed this
holds whatever happened before in the batch, because an engine changes no file but the entries of its
cache: a property of the cache and the files that lookups and puts keep is kept by a whole batch
(`Stable.runAll`), and one of them is that a file which is no entry keeps its content
(`stable_spared`). A survey out of the cache tells what was so when it was computed: it is handed out
also if no provider claims the file any more.
-/
namespace CodeSurvey

open Text FileSystem

attribute [local irreducible] CacheDir.fileName

/-! ## Files that are no entries of a cache -/

/-- A file that holds some bytes and is no entry of a cache. -/
def Cache.Spared {α : Type} (path : OsString) (bytes : List UInt8) (c : Cache α) (fs : FileSystem) :
    Prop :=
  ∃ p, fs.locate path = .ok p ∧ fs.stored? p = some (.file bytes) ∧
    ∀ dir, c.directory = some dir → ∀ key, fs.locate (CacheDir.filePath dir key) ≠ .ok p

namespace Cache.Spared

variable {α : Type} {path : OsString} {bytes : List UInt8} {c d : Cache α} {fs fs' : FileSystem}

theorem of_directory (h : c.Spared path bytes fs) (hd : d.directory = c.directory) :
    d.Spared path bytes fs := by
  obtain ⟨p, hl, hs, hentry⟩ := h
  exact ⟨p, hl, hs, fun dir hdir => hentry dir (hd ▸ hdir)⟩

/-- Changes at one place that is no directory and not that of the file. -/
theorem of_agree (h : c.Spared path bytes fs) (top : Place) (hcwd : fs'.cwd = fs.cwd)
    (hold : fs.stored? top ≠ some .dir) (hnew : fs'.stored? top ≠ some .dir)
    (agree : ∀ p, p ≠ top → fs'.stored? p = fs.stored? p)
    (hother : ∀ e, fs.stored? top = some e →
      ∃ dir, c.directory = some dir ∧ ∃ key, fs.locate (CacheDir.filePath dir key) = .ok top) :
    c.Spared path bytes fs' := by
  obtain ⟨p, hl, hs, hentry⟩ := h
  have hp : p ≠ top := by
    rintro rfl
    obtain ⟨dir, hdir, key, hkey⟩ := hother _ hs
    exact hentry dir hdir key hkey
  rcases locate_agree hcwd hold agree hl with heq | ⟨hout, hl'⟩
  · exact absurd heq hp
  · refine ⟨p, hl', (agree p hout).trans hs, fun dir hdir key hkey => ?_⟩
    rcases locate_agree hcwd.symm hnew (fun q hq => (agree q hq).symm) hkey with heq | ⟨-, hkey'⟩
    · exact hp heq
    · exact hentry dir hdir key hkey'

theorem write (h : c.Spared path bytes fs) {dir : OsString} (hdir : c.directory = some dir)
    (codec : Codec α) (key : String) (g : Held α) :
    c.Spared path bytes (CacheDir.write codec fs dir key g) := by
  unfold CacheDir.write
  cases hw : fs.writeFile (CacheDir.filePath dir key) (CacheDir.content codec key g) with
  | error e => exact h
  | ok fs' =>
    obtain ⟨p, hne, hold, rfl, hplace⟩ := put_of_writeFile hw
    refine h.of_agree p (cwd_put ..) hold ?_ (fun q hq => stored?_put_ne hq)
      fun e he => ⟨dir, hdir, key, hplace e he⟩
    rw [Except.toOption, Option.getD_some, stored?_put hne]
    simp

theorem remove (h : c.Spared path bytes fs) {dir : OsString} (hdir : c.directory = some dir)
    (key : String) : c.Spared path bytes (CacheDir.remove fs dir key) := by
  unfold CacheDir.remove CacheDir.tryRemoveFile CacheDir.removeFile
  cases hr : fs.removeFile (CacheDir.filePath dir key) with
  | error e => cases e <;> exact h
  | ok fs' =>
    obtain ⟨p, old, hne, hl, hs, rfl⟩ := erase_of_removeFile hr
    refine h.of_agree p (cwd_erase fs p) (by simp [hs]) ?_
      (fun q hq => (stored?_erase fs hne q).trans (if_neg hq)) fun _ _ => ⟨dir, hdir, key, hl⟩
    rw [Except.toOption, Option.getD_some, stored?_erase fs hne, if_pos rfl]
    simp

theorem put (h : c.Spared path bytes fs) (codec : Codec α) (now : Nat) (key : String) (v : α)
    (ttl : Nat) :
    (c.put codec fs now key v ttl).1.Spared path bytes (c.put codec fs now key v ttl).2 := by
  unfold Cache.put
  cases hdir : c.directory with
  | none => exact h.of_directory rfl
  | some dir => exact (h.write hdir codec key _).of_directory rfl

theorem get (h : c.Spared path bytes fs) (codec : Codec α) (now : Nat) (key : String) :
    (c.get codec fs now key).2.1.Spared path bytes (c.get codec fs now key).2.2 := by
  refine of_directory ?_ (directory_get codec c fs now key)
  unfold Cache.get fetch
  split
  · split
    · exact h
    · rename_i dir hdir
      split
      · split
        · exact h
        · exact h.remove hdir key
      · exact h
  · split
    · exact h
    · cases hdir : c.directory with
      | none => exact h
      | some dir => exact h.remove hdir key

/-- The file is read as it is. -/
theorem readText {text : List Char} (h : c.Spared path (Utf8.encode text) fs) :
    fs.readText path = .ok (String.ofList text) := by
  obtain ⟨p, hl, hs, -⟩ := h
  unfold FileSystem.readText
  rw [readBytes_eq_ok.2 ⟨p, hl, hs⟩]
  simp only [Utf8.decode?_encode]

end Cache.Spared

/-! ## What a batch keeps -/

namespace Engine

/-- A property of a cache and the files that every lookup keeps, and every put of a survey without
errors. -/
structure Stable (P : Cache FileSurvey → FileSystem → Prop) : Prop where
  put : ∀ {c fs}, P c fs → ∀ (now : Nat) (key : String) (survey : FileSurvey) (ttl : Nat),
    survey.errors = [] → P (c.put FileSurvey.codec fs now key survey ttl).1
      (c.put FileSurvey.codec fs now key survey ttl).2
  get : ∀ {c fs}, P c fs → ∀ (now : Nat) (key : String),
    P (c.get FileSurvey.codec fs now key).2.1 (c.get FileSurvey.codec fs now key).2.2

theorem stable_spared (path : OsString) (bytes : List UInt8) :
    Stable fun c fs => c.Spared path bytes fs :=
  ⟨fun h now key survey ttl _ => h.put FileSurvey.codec now key survey ttl,
    fun h now key => h.get FileSurvey.codec now key⟩

/-- No survey in a cache has errors. -/
def Clean (c : Cache FileSurvey) (fs : FileSystem) : Prop :=
  c.AllHeld FileSurvey.codec (fun _ h => h.value.errors = []) fs

theorem stable_clean : Stable Clean := by
  refine ⟨fun h now key survey ttl hnone => ?_, fun h now key => Cache.AllHeld.get h now key⟩
  refine Cache.AllHeld.put_of_content h hnone ?_
  intro _ k g hcontent
  obtain ⟨-, j, hecho, hread⟩ := CacheDir.echoes_of_content hcontent
  exact FileSurvey.errors_of_echoes hecho hread hnone

theorem stable_true : Stable fun _ _ => True := ⟨fun _ _ _ _ _ _ => trivial, fun _ _ _ => trivial⟩

theorem Stable.and {P Q : Cache FileSurvey → FileSystem → Prop} (hP : Stable P) (hQ : Stable Q) :
    Stable fun c fs => P c fs ∧ Q c fs :=
  ⟨fun h now key survey ttl hnone =>
      ⟨hP.put h.1 now key survey ttl hnone, hQ.put h.2 now key survey ttl hnone⟩,
    fun h now key => ⟨hP.get h.1 now key, hQ.get h.2 now key⟩⟩

/-- How a survey comes about, with the cache and the files in some condition: it is handed out, or a
pass gives it. -/
inductive Comes (P : Cache FileSurvey → FileSystem → Prop) (t : Tools) (w : Surroundings)
    (path : OsString) (r : SettledConfig) (survey : FileSurvey) : Prop
  | cached (c : Cache FileSurvey) (fs : FileSystem) (found : FileSurvey) (h : P c fs)
    (hget : (c.get FileSurvey.codec fs w.now (r.key path.display)).1 = some found)
    (hs : survey = found.asCached)
  | fresh (c : Cache FileSurvey) (fs : FileSystem) (h : P c fs)
    (hs : survey = (t.pass { w with files := fs } path r .onDisk).survey)

namespace Stable

variable {P : Cache FileSurvey → FileSystem → Prop} {s : Engine × FileSystem} {e : Engine}
  {w : Surroundings}

theorem complete (S : Stable P) (h : P s.1.cache s.2) (now : Nat) (job : Job) :
    P (Engine.complete now s job).1.cache (Engine.complete now s job).2 ∧
      (Engine.complete now s job).1.tools = s.1.tools := by
  unfold Engine.complete keep
  cases job.key with
  | none => exact ⟨h, rfl⟩
  | some key =>
    dsimp only
    split
    · rename_i hok
      exact ⟨S.put h now key job.pass.survey job.ttl (List.isEmpty_iff.1 hok), rfl⟩
    · exact ⟨h, rfl⟩

theorem foldl_complete (S : Stable P) (h : P s.1.cache s.2) (now : Nat) (jobs : List Job) :
    P (jobs.foldl (Engine.complete now) s).1.cache (jobs.foldl (Engine.complete now) s).2 ∧
      (jobs.foldl (Engine.complete now) s).1.tools = s.1.tools := by
  induction jobs generalizing s with
  | nil => exact ⟨h, rfl⟩
  | cons job jobs ih =>
    obtain ⟨hjob, htools⟩ := S.complete h now job
    obtain ⟨hrest, hrestTools⟩ := ih hjob
    exact ⟨hrest, hrestTools.trans htools⟩

theorem settle (S : Stable P) {fs : FileSystem} (h : P e.cache fs) (now : Nat) (key : String) :
    P (e.settle fs now key).1.cache (e.settle fs now key).2 ∧
      (e.settle fs now key).1.tools = e.tools :=
  S.foldl_complete (s := ({ e with abandoned := e.abandoned.filter fun job => job.key != some key }, fs))
    h now _

/-- **One analysis keeps the property**, and its survey comes about under it. -/
theorem run (S : Stable P) (h : P e.cache w.files) (path : OsString) (r : SettledConfig) :
    Comes P e.tools w path r (e.run w path r .onDisk).1 ∧
      P (e.run w path r .onDisk).2.1.cache (e.run w path r .onDisk).2.2 ∧
      (e.run w path r .onDisk).2.1.tools = e.tools := by
  unfold Engine.run start
  by_cases huse : r.useCache = true
  · obtain ⟨hsettled, htools⟩ := S.settle h w.now (r.key path.display)
    have hlooked := S.get hsettled w.now (r.key path.display)
    simp only [huse, if_true]
    cases hget : ((e.settle w.files w.now (r.key path.display)).1.cache.get FileSurvey.codec
        (e.settle w.files w.now (r.key path.display)).2 w.now (r.key path.display)).1 with
    | some survey => exact ⟨.cached _ _ _ hsettled hget rfl, hlooked, htools⟩
    | none =>
      have hdone := S.complete (s := ((e.settle w.files w.now (r.key path.display)).1.looked
        { w with files := (e.settle w.files w.now (r.key path.display)).2 } (r.key path.display))) hlooked w.now
      exact ⟨.fresh _ _ hlooked (by rw [htools]), (hdone _).1, (hdone _).2.trans htools⟩
  · have hdone := S.complete (s := (e, w.files)) h w.now
    simp only [huse]
    exact ⟨.fresh _ _ h rfl, hdone _⟩

/-- **So does a batch.** -/
theorem runAll (S : Stable P) (h : P e.cache w.files) (r : SettledConfig) (paths : List OsString) :
    ∀ x ∈ paths.zip (e.runAll w r paths).1, Comes P e.tools w x.1 r x.2 := by
  induction paths generalizing e w with
  | nil =>
    intro x hx
    cases hx
  | cons path paths ih =>
    obtain ⟨hcomes, hstate, htools⟩ := S.run h path r
    intro x hx
    rcases List.mem_cons.1 hx with rfl | hx
    · exact hcomes
    · have hlater := ih (w := { w with files := (e.run w path r .onDisk).2.2 }) hstate x hx
      rw [htools] at hlater
      cases hlater with
      | cached c fs found h hget hs => exact .cached c fs found h hget hs
      | fresh c fs h hs => exact .fresh c fs h hs

end Stable

end Engine

/-! ## Files without a provider -/

/-- A pass over a file that can be read is without a language if no provider claims the text. -/
theorem Tools.failedWith_pass (t : Tools) {w : Surroundings} {path : OsString} {text : List Char}
    (hread : w.files.readText path = .ok (String.ofList text)) (r : SettledConfig) :
    (t.pass w path r .onDisk).survey.failedWith .unsupportedLanguage =
      (t.providers.detect? path (some text)).isNone := by
  have horigin : Origin.onDisk.read w.files path = .ok text := by
    simp [Origin.read, hread, Except.map]
  unfold Tools.pass
  rw [horigin]
  simp only [Tools.passOn]
  cases t.providers.detect? path (some text) with
  | none => rfl
  | some p =>
    dsimp only [Tools.parse]
    split <;> rfl

namespace Engine

/-- A scan from a root leaves a file in: no directory on the way to it is hidden, and no glob matches
its path from the root or its whole path. -/
def Admits (e : Engine) (root : OsString) (names : List OsString) : Prop :=
  ¬ IsHidden names ∧ e.exclude.isMatch (Path.render (names.map .name)) = false ∧
    e.exclude.isMatch (names.foldl Path.join root) = false

/-- The file at a path is no entry of the cache of an engine. -/
def NoEntry (e : Engine) (fs : FileSystem) (path : OsString) : Prop :=
  ∀ dir, e.cache.directory = some dir → ∀ key,
    fs.locate (CacheDir.filePath dir key) ≠ fs.locate path

/-- What a scan from a root comes to. -/
structure ScansExactly (e : Engine) (w : Surroundings) (root : OsString) (paths : List OsString) :
    Prop where
  /-- No path is listed twice. -/
  once : paths.Nodup
  sorted : paths.Pairwise fun p q => Path.le p q = true
  /-- Every path is that of a file which the scan leaves in. -/
  admitted : ∀ path ∈ paths, ∃ names bytes, w.files.FileBelow root names bytes ∧
    path = names.foldl Path.join root ∧ e.Admits root names
  /-- A text whose first line fits is listed if it is left in and its whole text has a provider. -/
  exact : ∀ names text, w.files.FileBelow root names (Utf8.encode text) → FirstLineFits text →
    (names.foldl Path.join root ∈ paths ↔ e.Admits root names ∧
      (Providers.builtin.detect? (names.foldl Path.join root) (some text)).isSome = true)
  /-- Its survey in the scan is in a language, unless the cache hands out one that is not. -/
  supported : ∀ c surveys, (e.surveyBelow w root c).1 = .ok surveys →
    surveys.length = paths.length ∧
    ∀ names text, w.files.FileBelow root names (Utf8.encode text) → FirstLineFits text →
      e.NoEntry w.files (names.foldl Path.join root) →
      ∀ survey, (names.foldl Path.join root, survey) ∈ paths.zip surveys →
        survey.provenance.fromCache = false ∨ Clean e.cache w.files →
        survey.failedWith .unsupportedLanguage = false
  /-- A call on the file itself, if it computes its survey, comes to the same. -/
  accepted : ∀ c names text, w.files.FileBelow root names (Utf8.encode text) → FirstLineFits text →
    e.NoEntry w.files (names.foldl Path.join root) → e.Admits root names →
    ∀ survey, (e.surveyFile w (names.foldl Path.join root) c .onDisk).1 = .ok survey →
      survey.provenance.fromCache = false →
      (names.foldl Path.join root ∈ paths ↔ survey.failedWith .unsupportedLanguage = false)

variable {e : Engine} {w : Surroundings} {root : OsString} {names : List OsString} {text : List Char}

theorem NoEntry.spared {bytes : List UInt8} (h : e.NoEntry w.files (names.foldl Path.join root))
    (ht : w.files.IsTree) (hfile : w.files.FileBelow root names bytes) :
    e.cache.Spared (names.foldl Path.join root) bytes w.files := by
  obtain ⟨p, hl, hs⟩ := hfile.locate ht
  refine ⟨p, hl, hs, ?_⟩
  intro dir hdir key
  rw [← hl]
  exact h dir hdir key

/-- What a survey of a file tells, however it comes about. -/
theorem Comes.failedWith {path : OsString} {r : SettledConfig} {survey : FileSurvey}
    {P : Cache FileSurvey → FileSystem → Prop}
    (h : Comes (fun c fs => c.Spared path (Utf8.encode text) fs ∧ P c fs) e.tools w path r survey) :
    (survey.provenance.fromCache = true ∧ ∃ c fs found, P c fs ∧
        (c.get FileSurvey.codec fs w.now (r.key path.display)).1 = some found ∧ survey.errors = found.errors) ∨
      survey.provenance.fromCache = false ∧ survey.failedWith .unsupportedLanguage =
        (e.tools.providers.detect? path (some text)).isNone := by
  cases h with
  | cached c fs found h hget hs =>
    subst hs
    exact .inl ⟨rfl, c, fs, found, h.2, hget, rfl⟩
  | fresh c fs h hs =>
    subst hs
    exact .inr ⟨fromCache_pass _ _ r path .onDisk, e.tools.failedWith_pass h.1.readText r⟩

/-- A text whose first line fits is listed if it is left in and its whole text has a provider. -/
theorem mem_scan_iff (ht : w.files.IsTree) (hfile : w.files.FileBelow root names (Utf8.encode text))
    (hfits : FirstLineFits text) :
    names.foldl Path.join root ∈ claimedFiles .builtin e.exclude w.files root ↔
      e.Admits root names ∧
        (Providers.builtin.detect? (names.foldl Path.join root) (some text)).isSome = true := by
  rw [mem_claimedFiles _ _ _ ht]
  constructor
  · rintro ⟨names', bytes', hfile', hhidden, hpath, hrelative, hfull, hclaimed⟩
    obtain ⟨rfl, rfl⟩ := hfile.unique hfile' ht hpath
    exact ⟨⟨hhidden, hrelative, hfull⟩, (Found.isClaimed_iff hfits _ _).1 hclaimed⟩
  · rintro ⟨⟨hhidden, hrelative, hfull⟩, hdetect⟩
    exact ⟨names, _, hfile, hhidden, rfl, hrelative, hfull, (Found.isClaimed_iff hfits _ _).2 hdetect⟩

/-- A survey of a file that has a provider is in a language, unless it comes out of a cache that
holds others. -/
theorem Comes.supported {path : OsString} {r : SettledConfig} {survey : FileSurvey}
    (hdetect : (e.tools.providers.detect? path (some text)).isSome = true)
    (hspared : e.cache.Spared path (Utf8.encode text) w.files)
    (hcomes : ∀ P, Stable P → P e.cache w.files → Comes P e.tools w path r survey)
    (hcache : survey.provenance.fromCache = false ∨ Clean e.cache w.files) :
    survey.failedWith .unsupportedLanguage = false := by
  have hstable := stable_spared path (Utf8.encode text)
  have hpass : (e.tools.providers.detect? path (some text)).isNone = false := by
    simpa using hdetect
  rcases hcache with hfresh | hclean
  · rcases (hcomes _ (hstable.and stable_true) ⟨hspared, trivial⟩).failedWith with
      ⟨hcached, -⟩ | ⟨-, hfailed⟩
    · rw [hfresh] at hcached
      cases hcached
    · exact hfailed.trans hpass
  · rcases (hcomes _ (hstable.and stable_clean) ⟨hspared, hclean⟩).failedWith with
      ⟨-, c, fs, found, hheld, hget, herrors⟩ | ⟨-, hfailed⟩
    · obtain ⟨h, hnone, rfl, -⟩ := Cache.AllHeld.get_eq_some hheld hget
      simp [FileSurvey.failedWith, herrors, hnone]
    · exact hfailed.trans hpass

/-- **A scan selects exactly the analyzable files.** -/
theorem scan_selects_analyzable (e : Engine) (w : Surroundings) (root : OsString)
    (ht : w.files.IsTree) (hp : e.tools.providers = .builtin) :
    e.ScansExactly w root (claimedFiles e.tools.providers e.exclude w.files root) := by
  constructor
  · exact nodup_claimedFiles _ _ _ ht
  · exact sorted_claimedFiles _ _ _ _
  · intro path hpath
    obtain ⟨names, bytes, hfile, hhidden, rfl, hrelative, hfull, -⟩ :=
      (mem_claimedFiles _ _ _ ht).1 hpath
    exact ⟨names, bytes, hfile, rfl, hhidden, hrelative, hfull⟩
  · intro names text hfile hfits
    rw [hp]
    exact mem_scan_iff ht hfile hfits
  · intro c surveys hcall
    unfold surveyBelow surveyAll at hcall
    cases hprepare : e.prepare c with
    | error err => simp [hprepare, refuse] at hcall
    | ok r =>
      simp only [hprepare, Except.ok.injEq] at hcall
      subst hcall
      refine ⟨e.length_runAll w r _, ?_⟩
      intro names text hfile hfits hentry survey hsurvey hcache
      have hlisted := (List.of_mem_zip hsurvey).1
      rw [hp, mem_scan_iff ht hfile hfits, ← hp] at hlisted
      refine Comes.supported (r := r) hlisted.2 (hentry.spared ht hfile) ?_ hcache
      intro P hP hstart
      exact hP.runAll hstart r _ _ hsurvey
  · intro c names text hfile hfits hentry hadmits survey hcall hfresh
    unfold surveyFile at hcall
    cases hprepare : e.prepare c with
    | error err => simp [hprepare, refuse] at hcall
    | ok r =>
      simp only [hprepare, Except.ok.injEq] at hcall
      subst hcall
      have hstable := (stable_spared (names.foldl Path.join root) (Utf8.encode text)).and stable_true
      have hcomes := (hstable.run ⟨hentry.spared ht hfile, trivial⟩ (names.foldl Path.join root) r).1
      rcases hcomes.failedWith with ⟨hcached, -⟩ | ⟨-, hfailed⟩
      · rw [hfresh] at hcached
        cases hcached
      · rw [hfailed, hp, mem_scan_iff ht hfile hfits]
        simp [hadmits]

/-- A script and a hidden file, away from the working directory with the directory of a cache. -/
def project : FileSystem :=
  ⟨[(["work"], .dir), (["work", "cache"], .dir), (["srv"], .dir), (["srv", "src"], .dir),
    (["srv", "src", "tool"], .file (Utf8.encode "#!ruby\nx".toList)), (["srv", ".git"], .dir),
    (["srv", ".git", "x.rb"], .file [])], ["work"]⟩

/-- The script is found from an absolute root, and the hidden file is not. -/
theorem scan_selects_analyzable_script :
    project.IsTree ∧ keeper.tools.providers = .builtin ∧ keeper.NoEntry project "/srv/src/tool" ∧
      ∃ paths, paths = claimedFiles .builtin [] project "/srv" ∧
        keeper.ScansExactly ⟨fun _ _ => none, project, 7⟩ "/srv" paths ∧
        ↑"/srv/src/tool" ∈ paths ∧ ↑"/srv/.git/x.rb" ∉ paths := by
  have htree : project.IsTree := by decide +kernel
  have hroot : project.locate "/srv" = .ok ["srv"] := by decide +kernel
  have hscan := scan_selects_analyzable keeper ⟨fun _ _ => none, project, 7⟩ "/srv" htree rfl
  refine ⟨htree, rfl, ?_, _, rfl, hscan, ?_, ?_⟩
  · rintro dir ⟨⟩ key
    have hopens : FileSystem.OpensAt project "cache" ["work", "cache"] := ⟨by decide +kernel, rfl⟩
    have hpath : project.locate "/srv/src/tool" = .ok ["srv", "src", "tool"] := by decide +kernel
    rw [CacheDir.filePath, hopens.locate_join (CacheDir.plain_fileName key), hpath]
    split <;> simp
  · refine (hscan.exact ["src", "tool"] "#!ruby\nx".toList ⟨["srv"], hroot, rfl⟩ ?_).2 ?_
    · unfold FirstLineFits
      decide +kernel
    · refine ⟨⟨?_, rfl, rfl⟩, by decide +kernel⟩
      unfold IsHidden
      decide +kernel
  · intro hmem
    have hfits : FirstLineFits [] := fun line hline => by cases hline
    have hadmits := ((hscan.exact [".git", "x.rb"] [] ⟨["srv"], hroot, rfl⟩ hfits).1 hmem).1
    exact hadmits.1 ⟨".git", List.mem_cons_self, rfl⟩

/-- An engine in memory. -/
def recaller : Engine :=
  { config := {}, exclude := [], tools := builtinTools, cache := { capacity := 1000 } }

/-- A file without an extension. -/
def unnamed (content : String) : FileSystem := ⟨[(["a"], .file (Utf8.encode content.toList))], []⟩

/-- A survey out of the cache is handed out for a file that no provider claims any more. -/
theorem cached_though_unclaimed :
    let before : Surroundings := ⟨fun _ _ => none, unnamed "#!ruby\n", 5⟩
    let after : Surroundings := ⟨fun _ _ => none, unnamed "hello", 7⟩
    let e := (recaller.surveyFile before "./a" bare .onDisk).2.1
    ofConfig {} none before.files = .ok (recaller, before.files) ∧
      (e.surveyFile after "./a" bare .onDisk).1.toOption.map (·.succeeded) = some true ∧
      (e.surveyBelow after "." bare).1.toOption.map (·.length) = some 0 :=
  ⟨rfl, by decide +kernel⟩

end Engine

end CodeSurvey
