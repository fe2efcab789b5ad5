import CodeSurvey.Proofs.CacheKey
import CodeSurvey.Proofs.Calls
import CodeSurvey.Proofs.Sharing
/-!
# What an invalidation cannot stop

An invalidation takes out what is kept for a path, but a call that has read its file before and has
not yet kept its survey keeps it afterwards, and a later call finds it (`recalled_unread`). That is
the only way: what a later call gets out of the cache was kept after the invalidation, by a call
that read its file after it or was under way then (`recalled_later`). The directory must not be the
empty path, and nobody else may write entries into it (`recalled_unlisted`, `recalled_foreign`).

The invariant is `Traceable`. Everything the cache holds goes back to a call that kept it, with no
invalidation since (`Backed`), and the log of what happened is in order: a survey is kept once by a
call that has read its file, and found by a call that has begun (`Justified`).
-/
namespace CodeSurvey

attribute [local irreducible] CacheDir.fileName

/-- What a cache can give back of a survey that was kept: the survey itself, or what is read from
its entry. -/
def FileSurvey.Recalled (kept given : FileSurvey) : Prop :=
  given = kept ∨ ∃ j, (FileSurvey.codec.write kept).Echoes j ∧ FileSurvey.codec.read j = some given

/-- Two places in a list. -/
theorem split_cases {α : Type} {past later before after : List α} {x y : α}
    (h : past ++ x :: later = before ++ y :: after) (hne : x ≠ y) :
    (∃ mid, before = past ++ x :: mid ∧ later = mid ++ y :: after) ∨
      ∃ mid, past = before ++ y :: mid ∧ after = mid ++ x :: later := by
  rcases List.append_eq_append_iff.1 h with ⟨mid, rfl, hmid⟩ | ⟨mid, rfl, hmid⟩
  · cases mid with
    | nil => exact absurd (List.cons.inj hmid).1 hne
    | cons z mid =>
      obtain ⟨rfl, rfl⟩ := List.cons.inj hmid
      exact .inl ⟨mid, rfl, rfl⟩
  · cases mid with
    | nil => exact absurd (List.cons.inj hmid).1.symm hne
    | cons z mid =>
      obtain ⟨rfl, rfl⟩ := List.cons.inj hmid
      exact .inr ⟨mid, rfl, rfl⟩

namespace Traffic

/-- Whether an event takes out what is kept under a key. -/
def Event.voids (key : String) : Event → Bool
  | .invalidated path => Cache.isKeyOf path.display key
  | .cleared => true
  | _ => false

/-! ## The log -/

/-- An entry goes back to a survey that a call has kept since the key was last voided, or to the
start if the key was never voided. -/
def Backed (events : List Event) (key : String) (h : Held FileSurvey) : Prop :=
  (∀ x ∈ events, x.voids key = false) ∨ ∃ past i kept later,
    events = past ++ .stored i key kept :: later ∧ kept.Recalled h.value ∧
      ∀ x ∈ later, x.voids key = false

theorem Backed.concat {events : List Event} {key : String} {h : Held FileSurvey}
    (B : Backed events key h) {x : Event} (hx : x.voids key = false) :
    Backed (events ++ [x]) key h := by
  have hlast {xs : List Event} (hxs : ∀ y ∈ xs, y.voids key = false) :
      ∀ y ∈ xs ++ [x], y.voids key = false := by
    intro y hy
    rcases List.mem_append.1 hy with hy | hy
    · exact hxs y hy
    · rw [List.mem_singleton.1 hy, hx]
  rcases B with hnone | ⟨past, i, kept, later, rfl, hkept, hlater⟩
  · exact .inl (hlast hnone)
  · exact .inr ⟨past, i, kept, later ++ [x], by simp, hkept, hlast hlater⟩

/-- What must have happened before an event. -/
def Justified (past : List Event) : Event → Prop
  | .began i => .began i ∉ past
  | .stored i key _ => .began i ∈ past ∧ .read i (some key) ∈ past ∧ ∀ k u, .stored i k u ∉ past
  | .found i key given => .began i ∈ past ∧ ∃ h, h.value = given ∧ Backed past key h
  | _ => True

/-- Everything that happened is justified. -/
def InOrder (events : List Event) : Prop :=
  ∀ past x later, events = past ++ x :: later → Justified past x

theorem InOrder.concat {events : List Event} {x : Event} (h : InOrder events)
    (hx : Justified events x) : InOrder (events ++ [x]) := by
  intro past y later hsplit
  rcases List.eq_nil_or_concat later with rfl | ⟨later, z, rfl⟩
  · obtain ⟨rfl, hlast⟩ := List.append_inj' hsplit rfl
    exact (List.cons.inj hlast).1 ▸ hx
  · rw [List.concat_eq_append, ← List.cons_append, ← List.append_assoc] at hsplit
    exact h past y later (List.append_inj' hsplit rfl).1

/-! ## The invariant -/

/-- What a call has done so far is in the log. -/
structure Traced (i : Nat) (events : List Event) (c : Call) : Prop where
  read : c.stage.hasRead = true → .read i (some c.key) ∈ events
  fresh : ∀ n pass, c.stage = .storing n pass → pass.survey.provenance.fromCache = false
  unstored : c.stage.survey? = none → ∀ k u, .stored i k u ∉ events
  found : ∀ survey, c.stage.survey? = some survey → survey.provenance.fromCache = true →
    ∃ given, .found i c.key given ∈ events ∧ survey = given.asCached

/-- What the cache holds goes back to what happened, and what happened was in order. -/
structure Traceable (s : Traffic) : Prop where
  directory : ∀ dir, s.engine.cache.directory = some dir → dir.isEmpty = false
  held : s.engine.cache.AllHeld FileSurvey.codec (Backed s.events) s.files
  inOrder : InOrder s.events
  began : ∀ i, .began i ∈ s.events ↔ i < s.calls.length
  traced : ∀ (i : Nat) c, s.calls[i]? = some c → Traced i s.events c

section

variable {g : Grammars} {ok : Traffic → Nat → Action → Traffic → Prop} {now i : Nat}
  {s s' : Traffic} {c : Call} {events : List Event} {x : Event} {stage : Stage}

theorem Traced.concat (T : Traced i events c)
    (hx : ∀ k u, x = .stored i k u → c.stage.survey? ≠ none) : Traced i (events ++ [x]) c := by
  refine ⟨fun h => List.mem_append_left _ (T.read h), T.fresh, fun hnone k u hmem => ?_,
    fun survey hsurvey hcached => ?_⟩
  · rcases List.mem_append.1 hmem with hmem | hmem
    · exact T.unstored hnone k u hmem
    · exact hx k u (List.mem_singleton.1 hmem).symm hnone
  · obtain ⟨given, hmem, heq⟩ := T.found survey hsurvey hcached
    exact ⟨given, List.mem_append_left _ hmem, heq⟩

/-- A call goes on and neither reads its file nor gets a survey. -/
theorem Traced.pass (T : Traced i events c) (hread : stage.hasRead = false)
    (hsurvey : stage.survey? = c.stage.survey?) : Traced i events { c with stage } := by
  refine ⟨fun h => ?_, fun n pass h => ?_, fun h => T.unstored (hsurvey ▸ h),
    fun survey h => T.found survey (hsurvey ▸ h)⟩
  · rw [hread] at h
    cases h
  · dsimp only at h
    rw [h] at hread
    cases hread

/-- A call gets a fresh survey. -/
theorem Traced.answer {survey : FileSurvey} (hread : stage.hasRead = false)
    (hsurvey : stage.survey? = some survey) (hfresh : survey.provenance.fromCache = false) :
    Traced i events { c with stage } := by
  refine ⟨fun h => ?_, fun n pass h => ?_, fun h => ?_, fun v hv hcached => ?_⟩
  · rw [hread] at h
    cases h
  · dsimp only at h
    rw [h] at hread
    cases hread
  · rw [hsurvey] at h
    cases h
  · rw [hsurvey] at hv
    rw [Option.some.inj hv, hcached] at hfresh
    cases hfresh

namespace Traceable

/-- A call goes on without an event, and the cache stays as it is. -/
theorem turn (T : Traceable s) (hcache : s'.engine.cache = s.engine.cache)
    (hfiles : s'.files = s.files) (hevents : s'.events = s.events)
    (hcalls : s'.calls = s.calls.set i { c with stage })
    (hself : Traced i s.events { c with stage }) : Traceable s' := by
  refine ⟨by rw [hcache]; exact T.directory, by rw [hcache, hfiles, hevents]; exact T.held,
    by rw [hevents]; exact T.inOrder, by rw [hevents, hcalls, List.length_set]; exact T.began,
    fun j d hj => ?_⟩
  rw [hevents]
  rw [hcalls] at hj
  rcases Slots.getElem?_set_cases hj with ⟨rfl, rfl⟩ | ⟨-, hj⟩
  · exact hself
  · exact T.traced j d hj

/-- Something happens to the cache, which is not a new call. -/
theorem note (T : Traceable s) {cache : Cache FileSurvey} {files : FileSystem}
    (hdir : cache.directory = s.engine.cache.directory)
    (hheld : cache.AllHeld FileSurvey.codec (Backed (s.events ++ [x])) files)
    (hx : Justified s.events x) (hbegan : ∀ i, x ≠ .began i)
    (hstored : ∀ i k u, x = .stored i k u → ∀ c, s.calls[i]? = some c → c.stage.survey? ≠ none) :
    Traceable ({ s with engine := { s.engine with cache }, files }.note x) := by
  refine ⟨fun dir h => T.directory dir (hdir.symm.trans h), hheld, T.inOrder.concat hx,
    fun i => ?_, fun j d hj => (T.traced j d hj).concat fun k u h => hstored j k u h d hj⟩
  show .began i ∈ s.events ++ [x] ↔ i < s.calls.length
  rw [← T.began i]
  simp [Ne.symm (hbegan i)]

/-- The same for an event that voids no key. -/
theorem note_quiet (T : Traceable s) (hx : Justified s.events x)
    (hvoids : ∀ key, x.voids key = false) (hbegan : ∀ i, x ≠ .began i)
    (hstored : ∀ i k u, x ≠ .stored i k u) : Traceable (s.note x) :=
  T.note rfl (T.held.imp fun _ _ B => B.concat (hvoids _)) hx hbegan
    fun i k u h => absurd h (hstored i k u)

/-- A lookup. -/
theorem get (T : Traceable s) {found : Option FileSurvey} {cache : Cache FileSurvey}
    {files : FileSystem} {key : String}
    (hget : s.engine.cache.get FileSurvey.codec s.files now key = (found, cache, files)) :
    Traceable { s with engine := { s.engine with cache }, files } := by
  have hheld := T.held.get now key
  have hdir := Cache.directory_get FileSurvey.codec s.engine.cache s.files now key
  rw [hget] at hheld hdir
  exact ⟨fun dir h => T.directory dir (hdir ▸ h), hheld, T.inOrder, T.began, T.traced⟩

/-- A call keeps its survey. -/
theorem keep (T : Traceable s) (hc : s.calls[i]? = some c) {n : Nat} {pass : Pass}
    {cache : Cache FileSurvey} {files : FileSystem} (hst : c.stage = .storing n pass)
    (hput : s.engine.cache.put FileSurvey.codec s.files now c.key pass.survey
      (c.config.cacheTtl * 1000) = (cache, files)) :
    Traceable (({ s with engine := { s.engine with cache }, files }.note
      (.stored i c.key pass.survey)).turn i c (.unlocking n pass.survey)) := by
  have C := T.traced i c hc
  have hi : i < s.calls.length := (List.getElem?_eq_some_iff.1 hc).1
  let t := s.turn i c (.unlocking n pass.survey)
  have T' : Traceable t := T.turn rfl rfl rfl rfl (Traced.answer rfl rfl (C.fresh n pass hst))
  have hheld : (s.engine.cache.put FileSurvey.codec s.files now c.key pass.survey
      (c.config.cacheTtl * 1000)).1.AllHeld FileSurvey.codec
        (Backed (s.events ++ [.stored i c.key pass.survey]))
        (s.engine.cache.put FileSurvey.codec s.files now c.key pass.survey
          (c.config.cacheTtl * 1000)).2 := by
    refine (T.held.imp fun _ _ B => B.concat rfl).put_of_content ?_ fun _ k h hcontent => ?_
    · exact .inr ⟨s.events, i, pass.survey, [], rfl, .inl rfl, fun _ h => absurd h List.not_mem_nil⟩
    · obtain ⟨rfl, j, hecho, hread⟩ := CacheDir.echoes_of_content hcontent
      exact .inr ⟨s.events, i, pass.survey, [], rfl, .inr ⟨j, hecho, hread⟩,
        fun _ h => absurd h List.not_mem_nil⟩
  have hdir : cache.directory = s.engine.cache.directory := by
    rw [show cache = (s.engine.cache.put FileSurvey.codec s.files now c.key pass.survey
      (c.config.cacheTtl * 1000)).1 by rw [hput]]
    rfl
  rw [hput] at hheld
  refine T'.note (s := t) hdir hheld ⟨(T.began i).2 hi, C.read (by rw [hst]; rfl),
    C.unstored (by rw [hst]; rfl)⟩ (fun _ h => by cases h) fun j k u h d hd => ?_
  obtain ⟨rfl, -⟩ := Event.stored.inj h
  obtain rfl := Option.some.inj ((List.getElem?_set_self hi).symm.trans hd)
  simp [Stage.survey?]

/-- **A call that goes on keeps everything traceable.** -/
theorem moves (T : Traceable s) (hc : s.calls[i]? = some c) (h : Moves g now s i c s') :
    Traceable s' := by
  have C := T.traced i c hc
  have hi : i < s.calls.length := (List.getElem?_eq_some_iff.1 hc).1
  cases h with
  | take hst huse | lock n hst hfree =>
    exact T.turn rfl rfl rfl rfl (C.pass rfl (by rw [hst]; rfl))
  | pass pass hst huse hpass =>
    have T' : Traceable (s.note (.read i none)) := T.note_quiet trivial (fun _ => rfl)
      (fun _ h => by cases h) (fun _ _ _ h => by cases h)
    refine T'.turn rfl rfl rfl rfl (Traced.answer rfl rfl ?_)
    rw [hpass]
    exact Engine.fromCache_pass _ _ _ _ _
  | hit n given cache files hst hget =>
    obtain ⟨h, B, hvalue, -⟩ := T.held.get_eq_some (v := given) (by rw [hget])
    have T' := (T.get hget).note_quiet (x := .found i c.key given) ⟨(T.began i).2 hi, h, hvalue, B⟩
      (fun _ => rfl) (fun _ h => by cases h) (fun _ _ _ h => by cases h)
    refine T'.turn rfl rfl rfl rfl ⟨fun h => (by cases h), fun _ _ h => (by cases h),
      fun h => (by cases h), fun survey h _ => ⟨given, ?_, (Option.some.inj h).symm⟩⟩
    exact List.mem_append_right _ (List.mem_singleton_self _)
  | miss n cache files hst hget =>
    exact (T.get hget).turn rfl rfl rfl rfl (C.pass rfl (by rw [hst]; rfl))
  | read n hst =>
    have T' : Traceable (s.note (.read i (some c.key))) := T.note_quiet trivial (fun _ => rfl)
      (fun _ h => by cases h) (fun _ _ _ h => by cases h)
    have C' := T'.traced i c hc
    exact T'.turn rfl rfl rfl rfl ⟨fun _ => List.mem_append_right _ (List.mem_singleton_self _),
      fun _ _ h => (by cases h), fun _ => C'.unstored (by rw [hst]; rfl), fun _ h => (by cases h)⟩
  | work n source pass hst hpass =>
    refine T.turn rfl rfl rfl rfl ⟨fun _ => C.read (by rw [hst]; rfl), fun m q h => ?_,
      fun _ => C.unstored (by rw [hst]; rfl), fun _ h => (by cases h)⟩
    cases h
    rw [hpass]
    exact Engine.fromCache_passOn _ _ _ _ _
  | keep n pass cache files hst hs hput => exact T.keep hc hst hput
  | discard n pass hst hs =>
    exact T.turn rfl rfl rfl rfl (Traced.answer rfl rfl (C.fresh n pass hst))
  | unlock n survey hst | release n survey hst | drop n survey hst | count survey hst =>
    exact T.turn rfl rfl rfl rfl (C.pass rfl (by rw [hst]; rfl))

/-- A new call. -/
theorem arrive (T : Traceable s) (hst : c.stage = .arriving) :
    Traceable { s.note (.began s.calls.length) with calls := s.calls ++ [c] } := by
  have hnew : .began s.calls.length ∉ s.events := fun h => (Nat.lt_irrefl _) ((T.began _).1 h)
  refine ⟨T.directory, T.held.imp fun _ _ B => B.concat rfl, T.inOrder.concat hnew, fun i => ?_,
    fun j d hj => ?_⟩
  · show .began i ∈ s.events ++ [.began s.calls.length] ↔ i < (s.calls ++ [c]).length
    rw [List.mem_append, T.began i, List.mem_singleton, Event.began.injEq, List.length_append,
      List.length_singleton]
    omega
  · rcases Slots.getElem?_concat_cases hj with hj | ⟨rfl, rfl⟩
    · exact (T.traced j d hj).concat fun k u h => (by cases h)
    · refine Traced.concat ⟨fun h => ?_, fun n pass h => ?_, fun _ k u hmem => ?_, fun v h => ?_⟩
        fun k u h => (by cases h)
      · rw [hst] at h
        cases h
      · rw [hst] at h
        cases h
      · -- a call that has kept a survey has begun
        obtain ⟨past, later, hsplit⟩ := List.append_of_mem hmem
        obtain ⟨hbegan, -⟩ := T.inOrder _ _ _ hsplit
        exact hnew (hsplit ▸ List.mem_append_left _ hbegan)
      · rw [hst] at h
        cases h

end Traceable

/-- Others may change any file, but they write no entries into the cache directory. -/
def Allows (s : Traffic) : Action → Prop
  | .changeFiles files => ∀ dir, s.engine.cache.directory = some dir → ∀ key bytes,
      files.readBytes (CacheDir.filePath dir key) = .ok bytes →
        s.files.readBytes (CacheDir.filePath dir key) = .ok bytes
  | _ => True

theorem Traceable.step {a : Action} (T : Traceable s) (h : s.step g now a = some s')
    (hallows : s.Allows a) : Traceable s' := by
  cases a with
  | call path c o =>
    cases hp : s.engine.prepare c with
    | error e =>
      simp only [Traffic.step, hp] at h
      cases h
      exact T
    | ok config =>
      simp only [Traffic.step, hp] at h
      cases h
      exact T.arrive rfl
  | advance i =>
    obtain ⟨c, hc, hmoves⟩ := advance_iff.1 h
    exact T.moves hc hmoves
  | invalidate path =>
    cases h
    refine T.note (x := .invalidated path) rfl ?_ trivial (fun _ h => by cases h)
      (fun _ _ _ h => by cases h)
    refine (T.held.invalidate T.directory path.display).imp fun _ _ h => ?_
    obtain ⟨B, hkey⟩ := h
    exact B.concat hkey
  | emptyCache =>
    cases h
    exact T.note (x := .cleared) rfl ((Cache.AllHeld.clear T.directory).imp fun _ _ h => h.elim)
      trivial (fun _ h => by cases h) (fun _ _ _ h => by cases h)
  | changeFiles files =>
    cases h
    exact ⟨T.directory, T.held.of_readBytes hallows, T.inOrder, T.began, T.traced⟩

/-- **Along any run** everything is traceable, if nobody else writes entries. -/
theorem Traceable.reaches {start : Traffic} (T : Traceable start) (h : Reaches g ok start s)
    (hok : ∀ t now a t', ok t now a t' → t.Allows a) : Traceable s := by
  induction h with
  | refl => exact T
  | step now a _ hstep hoks ih => exact ih.step hstep (hok _ _ _ _ hoks)

theorem traceable_start {e : Engine} {fs : FileSystem}
    (hdir : ∀ dir, e.cache.directory = some dir → dir.isEmpty = false) :
    Traceable { engine := e, files := fs } := by
  refine ⟨hdir, ⟨fun _ _ _ => .inl fun _ h => absurd h List.not_mem_nil,
    fun _ _ _ _ _ => .inl fun _ h => absurd h List.not_mem_nil⟩, fun past x later h => ?_,
    fun i => by simp, fun _ _ h => (by cases h)⟩
  simp at h

/-! ## Surveys that are found after an invalidation -/

/-- What is found after its key was voided was kept after it, by a call that read its file after it
or had not kept its survey then. -/
theorem InOrder.stored_of_found (O : InOrder events) {past later mid after : List Event}
    {key : String} {given : FileSurvey} (hevents : events = past ++ x :: later)
    (hx : x.voids key = true) (hfound : later = mid ++ .found i key given :: after) :
    ∃ j kept before rest, mid = before ++ .stored j key kept :: rest ∧ kept.Recalled given ∧
      (.read j (some key) ∈ before ∨ .read j (some key) ∈ past ∧ ∀ k u, .stored j k u ∉ past) := by
  subst hevents hfound
  obtain ⟨-, h, rfl, B⟩ := O (past ++ x :: mid) (.found i key given) after (by simp)
  rcases B with hnone | ⟨p, j, kept, rest, hsplit, hrecalled, hlater⟩
  · rw [hnone x (by simp)] at hx
    cases hx
  · have hne : x ≠ .stored j key kept := by
      rintro rfl
      cases hx
    rcases split_cases hsplit hne with ⟨before, rfl, rfl⟩ | ⟨m, rfl, rfl⟩
    · refine ⟨j, kept, before, rest, rfl, hrecalled, ?_⟩
      obtain ⟨-, hread, hunstored⟩ := O (past ++ x :: before) (.stored j key kept)
        (rest ++ .found i key h.value :: after) (by simp)
      rcases List.mem_append.1 hread with hread | hread
      · exact .inr ⟨hread, fun k u hmem => hunstored k u (List.mem_append_left _ hmem)⟩
      · rcases List.mem_cons.1 hread with rfl | hread
        · cases hx
        · exact .inl hread
    · -- the key was voided after the survey was kept
      rw [hlater x (by simp)] at hx
      cases hx

/-- What a call found was found after it began. -/
theorem InOrder.found_of_began (O : InOrder events) {past later : List Event} {key : String}
    {given : FileSurvey} (hevents : events = past ++ x :: later) (hx : x.voids key = true)
    (hbegan : .began i ∈ later) (hfound : .found i key given ∈ events) :
    ∃ mid after, later = mid ++ .found i key given :: after := by
  obtain ⟨p, after, hsplit⟩ := List.append_of_mem hfound
  have hne : x ≠ .found i key given := by
    rintro rfl
    cases hx
  obtain ⟨hbefore, -⟩ := O _ _ _ hsplit
  rcases split_cases (hevents.symm.trans hsplit) hne with ⟨mid, -, hlater⟩ | ⟨mid, rfl, -⟩
  · exact ⟨mid, after, hlater⟩
  · -- otherwise the call would have begun twice
    obtain ⟨l, r, rfl⟩ := List.append_of_mem hbegan
    have hunique := O (p ++ .found i key given :: mid ++ x :: l) (.began i) r (by simp [hevents])
    exact absurd (by simp [hbefore]) hunique

/-- **What a later call gets out of the cache.** Nobody else writes entries into the cache
directory, and it is not the empty path. Take a call that began after its path was invalidated or
the cache was emptied, and that returned a survey out of the cache. The survey was kept after that,
by a call that read its file after it, or that had read its file before and was then under way. -/
theorem recalled_later {e : Engine} {fs : FileSystem}
    (h : Reaches g ok { engine := e, files := fs } s)
    (hdir : ∀ dir, e.cache.directory = some dir → dir.isEmpty = false)
    (hok : ∀ t now a t', ok t now a t' → t.Allows a)
    (hc : s.calls[i]? = some c) {survey : FileSurvey} (hst : c.stage = .returned survey)
    (hcached : survey.provenance.fromCache = true) {past later : List Event}
    (hevents : s.events = past ++ x :: later) (hx : x = .invalidated c.path ∨ x = .cleared)
    (hbegan : .began i ∈ later) :
    ∃ j kept given before rest, later = before ++ .stored j c.key kept :: rest ∧
      survey = given.asCached ∧ kept.Recalled given ∧
      (.read j (some c.key) ∈ before ∨
        .read j (some c.key) ∈ past ∧ ∀ k u, .stored j k u ∉ past) := by
  have T := (traceable_start hdir).reaches h hok
  have hvoids : x.voids c.key = true := by
    rcases hx with rfl | rfl
    · exact (Cache.isKeyOf_key _ _ _).2 rfl
    · rfl
  obtain ⟨given, hfound, rfl⟩ := (T.traced i c hc).found survey (by rw [hst]; rfl) hcached
  obtain ⟨mid, after, hlater⟩ := T.inOrder.found_of_began hevents hvoids hbegan hfound
  obtain ⟨j, kept, before, rest, rfl, hrecalled, hread⟩ :=
    T.inOrder.stored_of_found hevents hvoids hlater
  exact ⟨j, kept, given, before, rest ++ .found i c.key given :: after, by simp [hlater], rfl,
    hrecalled, hread⟩

/-! ## A call that is under way -/

/-- Files with one script. -/
def oneScript (bytes : List UInt8) : FileSystem := ⟨[(["a"], .file bytes)], []⟩

/-- A script in Ruby. -/
def ruby : List UInt8 := [35, 33, 114, 117, 98, 121, 10]

/-- A script in PHP. -/
def php : List UInt8 := [35, 33, 112, 104, 112, 10]

/-- A script is changed and invalidated after a call has read it and before it keeps its survey. A
second call comes when the first one has returned. -/
def overtaken : List (Nat × Action) :=
  let script : Action := .call "a" { extractors := some [], interpreters := some [] } .onDisk
  let goOn (i n : Nat) : List Action := List.replicate n (.advance i)
  let actions := script :: goOn 0 4 ++ [.changeFiles (oneScript php), .invalidate "a"] ++
    goOn 0 6 ++ script :: goOn 1 7
  actions.map (5, ·)

/-- Whether a call has read a file. -/
def Event.isRead : Event → Bool
  | .read .. => true
  | _ => false

/-- Whether some call has begun. -/
def Event.isBegan (i : Nat) : Event → Bool
  | .began j => j == i
  | _ => false

/-- Whether the second call has returned a survey of Ruby out of the cache, and nothing was read
since its path was invalidated. -/
def isStale (s : Traffic) : Bool :=
  match s.calls[1]?, s.events with
  | some c, _ :: _ :: .invalidated path :: later => match c.stage with
    | .returned survey => survey.provenance.fromCache && survey.language == "ruby" &&
      path == c.path && later.any (·.isBegan 1) && later.all (!·.isRead)
    | _ => false
  | _, _ => false

theorem exists_of_isStale (h : isStale s = true) :
    ∃ c survey past later, s.calls[1]? = some c ∧ c.stage = .returned survey ∧
      survey.provenance.fromCache = true ∧ survey.language = "ruby" ∧
      s.events = past ++ .invalidated c.path :: later ∧ .began 1 ∈ later ∧
      ∀ j key, .read j key ∉ later := by
  unfold isStale at h
  split at h
  · rename_i c x y path later hc hevents
    split at h
    · rename_i survey hst
      simp only [Bool.and_eq_true, beq_iff_eq, List.any_eq_true, List.all_eq_true] at h
      obtain ⟨⟨⟨⟨hcached, hlanguage⟩, rfl⟩, z, hz, hbegan⟩, hunread⟩ := h
      refine ⟨c, survey, [x, y], later, hc, hst, hcached, hlanguage, hevents, ?_,
        fun j key hmem => ?_⟩
      · cases z with
        | began j => exact (beq_iff_eq.1 hbegan) ▸ hz
        | _ => cases hbegan
      · cases hunread _ hmem
    · cases h
  · cases h

/-- The run of a call that is overtaken by an invalidation. -/
theorem exists_overtaken :
    ∃ s, Reaches (fun _ _ => none) (fun t _ a _ => t.Allows a)
        { inMemory with files := oneScript ruby } s ∧
      s.files.readBytes "a" = .ok php ∧ isStale s = true := by
  obtain ⟨s, hs, hP⟩ := exists_reaches (fun _ _ => none) { inMemory with files := oneScript ruby }
    (fun t _ _ _ => t.engine.cache.directory.isNone) overtaken
    (fun s => decide (s.files.readBytes "a" = .ok php) && isStale s) (by decide +kernel)
  simp only [Bool.and_eq_true, decide_eq_true_eq] at hP
  refine ⟨s, hs.imp fun t now a t' hnone => ?_, hP⟩
  cases a with
  | changeFiles files =>
    intro dir hdir
    rw [hdir] at hnone
    cases hnone
  | _ => trivial

/-- The later call of that run gets a survey that the first call has kept. -/
theorem recalled_later_overtaken :
    ∃ s c survey past later, Reaches (fun _ _ => none) (fun t _ a _ => t.Allows a)
        { inMemory with files := oneScript ruby } s ∧
      s.calls[1]? = some c ∧ c.stage = .returned survey ∧ survey.provenance.fromCache = true ∧
      s.events = past ++ .invalidated c.path :: later ∧ .began 1 ∈ later ∧
      ∃ j kept given before rest, later = before ++ .stored j c.key kept :: rest ∧
        survey = given.asCached ∧ kept.Recalled given ∧
        (.read j (some c.key) ∈ before ∨
          .read j (some c.key) ∈ past ∧ ∀ k u, .stored j k u ∉ past) := by
  obtain ⟨s, hs, -, hstale⟩ := exists_overtaken
  obtain ⟨c, survey, past, later, hc, hst, hcached, -, hevents, hbegan, -⟩ :=
    exists_of_isStale hstale
  exact ⟨s, c, survey, past, later, hs, hc, hst, hcached, hevents, hbegan,
    recalled_later hs (fun _ h => by cases h) (fun _ _ _ _ h => h) hc hst hcached hevents (.inl rfl)
      hbegan⟩

/-- **A later call gets a survey of what was read before an invalidation.** No file is read after
it, and the survey is that of a script in Ruby while the file holds one in PHP. -/
theorem recalled_unread :
    ∃ s c survey past later, Reaches (fun _ _ => none) (fun t _ a _ => t.Allows a)
        { inMemory with files := oneScript ruby } s ∧
      s.calls[1]? = some c ∧ c.stage = .returned survey ∧ survey.provenance.fromCache = true ∧
      s.events = past ++ .invalidated c.path :: later ∧ .began 1 ∈ later ∧
      (∀ j key, .read j key ∉ later) ∧
      survey.language = "ruby" ∧ s.files.readBytes "a" = .ok php := by
  obtain ⟨s, hs, hfiles, hstale⟩ := exists_overtaken
  obtain ⟨c, survey, past, later, hc, hst, hcached, hlanguage, hevents, hbegan, hunread⟩ :=
    exists_of_isStale hstale
  exact ⟨s, c, survey, past, later, hs, hc, hst, hcached, hevents, hbegan, hunread, hlanguage,
    hfiles⟩

/-! ## The conditions on the directory -/

/-- A first call that finds its key hands out what it finds, and keeps nothing. -/
theorem Reaches.found {start : Traffic} (h : Reaches g ok start s)
    (hok : ∀ t now a t', (∀ files, a ≠ .changeFiles files) → ok t now a t') (hcalls : s.calls = [])
    (hslots : s.slots = {}) {c : CallConfig} {r : SettledConfig}
    (hprepare : s.engine.prepare c = .ok r) (huse : r.useCache = true) {path : OsString}
    {survey : FileSurvey}
    (hget : (s.engine.cache.get FileSurvey.codec s.files now (r.key path.display)).1 = some survey) :
    ∃ s' d, Reaches g ok start s' ∧ s'.calls[0]? = some d ∧ d.path = path ∧
      d.stage = .returned survey.asCached ∧ s'.events = s.events ++ [.began 0, .found 0 d.key survey] := by
  have hcall : Reaches g ok start
      ⟨s.engine, s.files, {}, [⟨path, r, .onDisk, .arriving⟩], s.events ++ [.began 0]⟩ := by
    refine .step now (.call path c .onDisk) h ?_ (hok _ _ _ _ (by simp))
    simp only [Traffic.step, hprepare, note, hcalls, hslots]
    rfl
  obtain ⟨slots, hreturned⟩ := hit_alone g now
    (s := ⟨s.engine, s.files, {}, [⟨path, r, .onDisk, .arriving⟩], s.events ++ [.began 0]⟩) (i := 0)
    rfl rfl rfl huse hget
  refine ⟨_, _, hcall.trans (hreturned.imp fun t n a t' honly => hok t n a t' ?_), rfl, rfl, rfl, ?_⟩
  · rw [honly.2]
    simp
  · rw [List.append_assoc]
    rfl

/-- An engine that has just kept a survey for a path, with the empty path as its directory. -/
def unlisted (path : OsString) : Traffic :=
  let kept := ({ capacity := 1000, directory := some ↑"" } : Cache FileSurvey).put FileSurvey.codec .empty
    5 (Engine.settledBare.key path.display) Engine.scriptSurvey 3600000
  { engine := { inMemory.engine with cache := kept.1 }, files := kept.2 }

/-- A lookup in such an engine after the invalidation of the path. -/
theorem get_unlisted (path : OsString) :
    (((unlisted path).engine.invalidate (unlisted path).files path).2.1.cache.get FileSurvey.codec
      ((unlisted path).engine.invalidate (unlisted path).files path).2.2 7
      (Engine.settledBare.key path.display)).1 = some Engine.scriptSurvey := by
  have hlive : 7 < min (5 + 3600000) Cache.endOfTime := by decide
  exact Cache.get_invalidate_put (c := { capacity := 1000, directory := some ↑"" }) rfl rfl rfl
    (by simp [FileSystem.child?, FileSystem.stored?, FileSystem.empty])
    ((Cache.isKeyOf_key path.display path.display Engine.settledBare).2 rfl) survives_script hlive

/-- **The empty path as the directory**: a survey is found after the invalidation of its path, though no
call has kept one since. -/
theorem recalled_unlisted (path : OsString) :
    ∃ s c survey later, Reaches (fun _ _ => none) (fun t _ a _ => t.Allows a) (unlisted path) s ∧
      s.calls[0]? = some c ∧ c.stage = .returned survey ∧ survey.provenance.fromCache = true ∧
      s.events = .invalidated c.path :: later ∧ .began 0 ∈ later ∧
      ∀ j key kept, .stored j key kept ∉ later := by
  have hget := get_unlisted path
  obtain ⟨start, hstart⟩ : ∃ start, start = unlisted path := ⟨_, rfl⟩
  have hprepare : (start.engine.invalidate start.files path).2.1.prepare Engine.bare =
      .ok Engine.settledBare := by rw [hstart]; rfl
  obtain ⟨hcalls, hslots, hevents₀⟩ : start.calls = [] ∧ start.slots = {} ∧ start.events = [] := by
    rw [hstart]
    exact ⟨rfl, rfl, rfl⟩
  rw [← hstart] at hget ⊢
  have hinvalidate : Reaches (fun _ _ => none) (fun t _ a _ => t.Allows a) start _ :=
    .step 6 (.invalidate path) .refl rfl trivial
  obtain ⟨s, c, hs, hc, hpath, hst, hevents⟩ := hinvalidate.found
    (fun t now a t' hown => by
      cases a with
      | changeFiles files => exact absurd rfl (hown files)
      | _ => trivial)
    hcalls hslots hprepare rfl hget
  rw [note, hevents₀] at hevents
  exact ⟨s, c, _, _, hs, hc, hst, rfl, hpath ▸ hevents, by simp, by simp⟩

/-- **An entry of someone else**: it is found after the invalidation of its path, though no call has kept
anything. -/
theorem recalled_foreign (path : OsString) :
    ∃ s c survey later, Reaches (fun _ _ => none) (fun _ _ _ _ => True)
        { inMemory with engine := Engine.keeper } s ∧
      s.calls[0]? = some c ∧ c.stage = .returned survey ∧ survey.provenance.fromCache = true ∧
      s.events = .invalidated c.path :: later ∧ .began 0 ∈ later ∧
      ∀ j key kept, .stored j key kept ∉ later := by
  have hchange : Reaches (fun _ _ => none) (fun _ _ _ _ => True)
      { inMemory with engine := Engine.keeper } _ :=
    .step 6 (.changeFiles (Engine.filed (Engine.settledBare.key path.display)))
      (.step 5 (.invalidate path) .refl rfl trivial) rfl trivial
  obtain ⟨s, c, hs, hc, hpath, hst, hevents⟩ := hchange.found (fun _ _ _ _ _ => trivial)
    rfl rfl (c := Engine.bare) rfl rfl (Engine.get_filed _)
  exact ⟨s, c, _, _, hs, hc, hst, rfl, hpath ▸ hevents, by simp, by simp⟩

end

end Traffic

end CodeSurvey
