import CodeSurvey.Proofs.CacheReading
import CodeSurvey.Proofs.Leaving
import CodeSurvey.Proofs.Recency
/-!
# One computation for all calls of a key

Calls for a key that nothing is kept for yet share one computation. The slot lets one of them inside
at a time (`Coherent.eq_of_inside`), so that until a survey is kept at most one has read its file
(`Cold`), and after that the others find what it kept (`Warm`). A step of a call for another key
keeps both (`Moves.frame`); a step of a call for the key keeps them or leads from the first to the
second. The main result is `calls_share`.
-/
namespace CodeSurvey

/-! ## What a cache holds under one key -/

namespace Cache

variable {α : Type} {codec : Codec α} {k key : String} {c d : Cache α} {fs fs' : FileSystem}
  {now : Nat}

/-- A cache that holds nothing under a key, neither in memory nor in its files. -/
def Lacks (codec : Codec α) (k : String) (c : Cache α) (fs : FileSystem) : Prop :=
  AllHeld codec (fun key _ => key ≠ k) c fs

theorem Lacks.get_eq_none (H : Lacks codec k c fs) (now : Nat) :
    (c.get codec fs now k).1 = none := by
  by_contra hsome
  obtain ⟨v, hv⟩ := Option.ne_none_iff_exists'.1 hsome
  obtain ⟨g, hne, -⟩ := H.get_eq_some hv
  exact hne rfl

theorem Lacks.of_get (H : Lacks codec k c fs) {found : Option α}
    (hget : c.get codec fs now key = (found, d, fs')) : Lacks codec k d fs' := by
  have hheld := AllHeld.get H now key
  rwa [hget] at hheld

/-- A value that is kept under another key leaves nothing under this one. -/
theorem Lacks.of_put (H : Lacks codec k c fs) (hk : key ≠ k) {v : α} {ttl : Nat}
    (hput : c.put codec fs now key v ttl = (d, fs')) : Lacks codec k d fs' := by
  have hheld : Lacks codec k (c.put codec fs now key v ttl).1 (c.put codec fs now key v ttl).2 := by
    refine AllHeld.put_of_content H hk fun _ j g hcontent => ?_
    rw [(CacheDir.echoes_of_content hcontent).1]
    exact hk
  rwa [hput] at hheld

theorem Lacks.invalidate (H : Lacks codec k c fs) (path : String) :
    Lacks codec k (c.invalidate codec fs path).2.1 (c.invalidate codec fs path).2.2 :=
  (AllHeld.fades H (fades_invalidate codec c fs path)).of_recent rfl fun _ _ hmem =>
    H.memory _ _ (List.mem_filter.1 hmem).1

theorem Lacks.clear (H : Lacks codec k c fs) : Lacks codec k (c.clear fs).1 (c.clear fs).2 :=
  (AllHeld.fades H (fades_clear c fs)).of_recent rfl fun _ _ hmem => (List.not_mem_nil hmem).elim

/-- Changes of the files that bring no entry for the key. -/
theorem Lacks.of_readBytes (H : Lacks codec k c fs)
    (h : ∀ dir, c.directory = some dir → ∀ bytes,
      fs'.readBytes (CacheDir.filePath dir k) = .ok bytes →
        fs.readBytes (CacheDir.filePath dir k) = .ok bytes) : Lacks codec k c fs' := by
  refine ⟨H.memory, fun dir hd j g hg => ?_⟩
  rintro rfl
  obtain ⟨bytes, hb, hrest⟩ := CacheDir.readEntry_eq_found.1 (CacheDir.read_eq_found.1 hg).2
  exact H.files dir hd j g (CacheDir.read_eq_found.2
    ⟨rfl, CacheDir.readEntry_eq_found.2 ⟨bytes, h dir hd bytes hb, hrest⟩⟩) rfl

/-- A lookup brings nothing new into memory but under its own key, if memory does not have it. -/
theorem mem_of_get {found : Option α} (hget : c.get codec fs now key = (found, d, fs')) {h : Held α}
    (hmem : (k, h) ∈ d.recent) (hk : key = k → (c.recent.held? k).isSome = true) :
    (k, h) ∈ c.recent := by
  rw [show d = (c.get codec fs now key).2.1 by rw [hget]] at hmem
  unfold get at hmem
  split at hmem
  · rename_i hnone
    unfold fetch at hmem
    split at hmem
    · exact hmem
    · split at hmem
      · split at hmem
        · rcases mem_push hmem with heq | ⟨hmem, -⟩
          · cases heq
            simp [hnone] at hk
          · exact hmem
        · exact hmem
      · exact hmem
  · rename_i g hheld
    split at hmem
    · rcases mem_toFront hmem with heq | ⟨hmem, -⟩
      · cases heq
        exact mem_of_held? hheld
      · exact hmem
    · exact (mem_forget.1 hmem).1

theorem held?_of_put {v : α} {ttl : Nat} (hput : c.put codec fs now key v ttl = (d, fs')) :
    (d.recent.held? key).isSome = true := by
  rw [show d = (c.put codec fs now key v ttl).1 by rw [hput]]
  simp only [put, Cache.keep, Recent.push]
  split <;> simp [Recent.toFront, Recent.held?]

theorem mem_of_put {v : α} {ttl : Nat} (hput : c.put codec fs now key v ttl = (d, fs')) {h : Held α}
    (hmem : (k, h) ∈ d.recent) : (k = key ∧ h.value = v) ∨ (k, h) ∈ c.recent ∧ k ≠ key := by
  rw [show d = (c.put codec fs now key v ttl).1 by rw [hput]] at hmem
  rcases mem_push hmem with heq | hmem
  · cases heq
    exact .inl ⟨rfl, rfl⟩
  · exact .inr hmem

end Cache

namespace Stage

/-- Whether a call has read its file and not yet kept its survey. -/
def hasRead : Stage → Bool
  | .working .. | .storing .. => true
  | _ => false

/-- The survey that a call will return or has returned. -/
def survey? : Stage → Option FileSurvey
  | .unlocking _ survey | .leaving _ survey | .dropping _ survey | .counting survey
  | .returned survey => some survey
  | _ => none

/-- Whether a call has not yet looked its key up. -/
def isEarly : Stage → Bool
  | .arriving | .waiting _ | .looking _ => true
  | _ => false

variable {s : Stage}

theorem survey?_of_isReturned (h : s.isReturned = true) : ∃ survey, s.survey? = some survey := by
  cases s with
  | returned survey => exact ⟨survey, rfl⟩
  | _ => cases h

theorem isInside_of_hasRead (h : s.hasRead = true) : s.isInside = true := by
  cases s with
  | working | storing => rfl
  | _ => cases h

/-- A call that is not inside and has no survey has not come in yet. -/
theorem isEarly_of_outside (hin : s.isInside = false) (hsurvey : s.survey? = none) :
    s.isEarly = true := by
  cases s with
  | arriving | waiting => rfl
  | looking | reading | working | storing => cases hin
  | _ => cases hsurvey

end Stage

namespace Traffic

/-- The calls that have read their file for a key, in order. -/
def computed (k : String) (events : List Event) : List Nat :=
  events.filterMap fun
    | .read i key => if key = some k then some i else none
    | _ => none

theorem computed_append (k : String) (xs ys : List Event) :
    computed k (xs ++ ys) = computed k xs ++ computed k ys := List.filterMap_append

/-- A step that does not disturb a key: nobody else writes an entry for it, a survey for it is
without errors, and what memory holds under it has not expired and stays. -/
structure Spares (k : String) (s : Traffic) (now : Nat) (a : Action) (s' : Traffic) : Prop where
  unforged : ∀ files, a = .changeFiles files → ∀ dir, s.engine.cache.directory = some dir →
    ∀ bytes, files.readBytes (CacheDir.filePath dir k) = .ok bytes →
      s.files.readBytes (CacheDir.filePath dir k) = .ok bytes
  succeeds : ∀ c ∈ s.calls, c.key? = some k → ∀ n pass, c.stage = .storing n pass →
    pass.survey.succeeded = true
  stays : ∀ h, s.engine.cache.recent.held? k = some h →
    h.isLive now = true ∧ (s'.engine.cache.recent.held? k).isSome = true

variable {g : Grammars} {ok : Traffic → Nat → Action → Traffic → Prop} {k : String} {now i : Nat}
  {start s s' : Traffic} {c : Call} {a : Action}

/-! ## Steps that are not those of a call for the key -/

/-- The step of a call for another key, or of someone else, as far as a key is concerned. -/
structure Frame (k : String) (s s' : Traffic) : Prop where
  calls : ∀ (j : Nat) d, d.key? = some k → (s'.calls[j]? = some d ↔ s.calls[j]? = some d)
  computed : computed k s'.events = computed k s.events
  lacks : s.engine.cache.Lacks FileSurvey.codec k s.files →
    s'.engine.cache.Lacks FileSurvey.codec k s'.files
  memory : ∀ h, (k, h) ∈ s'.engine.cache.recent → (k, h) ∈ s.engine.cache.recent

theorem Moves.frame (h : Moves g now s i c s') (hc : s.calls[i]? = some c) (hkey : c.key? ≠ some k)
    (hk : ∀ n, c.stage.slot? = some n → c.key ≠ k) : Frame k s s' := by
  have hcalls : ∀ (j : Nat) d, d.key? = some k →
      (s'.calls[j]? = some d ↔ s.calls[j]? = some d) := by
    obtain ⟨stage, -, hcalls⟩ := h.shift
    rw [hcalls]
    intro j d hd
    by_cases hij : i = j
    · subst hij
      rw [List.getElem?_set_self (List.getElem?_eq_some_iff.1 hc).1, hc]
      refine iff_of_false (fun heq => ?_) fun heq => ?_ <;> obtain rfl := Option.some.inj heq
      · exact hkey hd
      · exact hkey hd
    · rw [List.getElem?_set_ne hij]
  cases h with
  | hit n survey cache files hst hget =>
    have hne := hk n (by rw [hst]; rfl)
    exact ⟨hcalls, by simp [note, turn, Traffic.computed], fun L => L.of_get hget,
      fun h hmem => Cache.mem_of_get hget hmem fun h => absurd h hne⟩
  | miss n cache files hst hget =>
    have hne := hk n (by rw [hst]; rfl)
    exact ⟨hcalls, rfl, fun L => L.of_get hget,
      fun h hmem => Cache.mem_of_get hget hmem fun h => absurd h hne⟩
  | keep n pass cache files hst hs hput =>
    have hne := hk n (by rw [hst]; rfl)
    refine ⟨hcalls, by simp [note, turn, Traffic.computed], fun L => L.of_put hne hput,
      fun h hmem => ?_⟩
    rcases Cache.mem_of_put hput hmem with ⟨heq, -⟩ | ⟨hmem, -⟩
    · exact absurd heq.symm hne
    · exact hmem
  | read n hst =>
    have hne := hk n (by rw [hst]; rfl)
    exact ⟨hcalls, by simp [note, turn, Traffic.computed, hne], id, fun _ => id⟩
  | pass pass hst huse hpass =>
    exact ⟨hcalls, by simp [note, turn, Traffic.computed], id, fun _ => id⟩
  | _ => exact ⟨hcalls, rfl, id, fun _ => id⟩

/-! ## Before and after the survey is kept -/

/-- Nothing is kept under a key. No call for it has a survey, and at most one has read its file. -/
structure Cold (k : String) (s : Traffic) : Prop where
  lacks : s.engine.cache.Lacks FileSurvey.codec k s.files
  unanswered : ∀ (i : Nat) c, s.calls[i]? = some c → c.key? = some k → c.stage.survey? = none
  fresh : ∀ (i : Nat) c n pass, s.calls[i]? = some c → c.key? = some k →
    c.stage = .storing n pass → pass.survey.provenance.fromCache = false
  computed : (computed k s.events = [] ∧
      ∀ (i : Nat) c, s.calls[i]? = some c → c.key? = some k → c.stage.hasRead = false) ∨
    ∃ (i : Nat) (c : Call), Traffic.computed k s.events = [i] ∧ s.calls[i]? = some c ∧
      c.key? = some k ∧ c.stage.hasRead = true

/-- A call has read its file and kept its survey, which memory still holds. Every other call for the
key has not looked it up yet, or has found that survey. -/
structure Warm (k : String) (i : Nat) (survey : FileSurvey) (s : Traffic) : Prop where
  held : (s.engine.cache.recent.held? k).isSome = true
  memory : ∀ h, (k, h) ∈ s.engine.cache.recent → h.value = survey
  fresh : survey.provenance.fromCache = false
  computed : computed k s.events = [i]
  first : ∃ c, s.calls[i]? = some c ∧ c.key? = some k ∧ c.stage.survey? = some survey
  others : ∀ (j : Nat) c, j ≠ i → s.calls[j]? = some c → c.key? = some k →
    c.stage.isEarly = true ∨ c.stage.survey? = some survey.asCached

namespace Cold

theorem of_frame (C : Cold k s) (F : Frame k s s') : Cold k s' := by
  refine ⟨F.lacks C.lacks, fun j d hj hd => C.unanswered j d ((F.calls j d hd).1 hj) hd,
    fun j d n pass hj hd => C.fresh j d n pass ((F.calls j d hd).1 hj) hd, ?_⟩
  rw [F.computed]
  rcases C.computed with ⟨hnil, hnone⟩ | ⟨j, d, hone, hj, hd, hread⟩
  · exact .inl ⟨hnil, fun j d hj hd => hnone j d ((F.calls j d hd).1 hj) hd⟩
  · exact .inr ⟨j, d, hone, (F.calls j d hd).2 hj, hd, hread⟩

/-- What is to be shown when a call for the key goes on and the key stays cold. -/
theorem turn (C : Cold k s) (hc : s.calls[i]? = some c) {stage : Stage}
    (hcalls : s'.calls = s.calls.set i { c with stage })
    (hlacks : s'.engine.cache.Lacks FileSurvey.codec k s'.files) (hsurvey : stage.survey? = none)
    (hfresh : ∀ n pass, stage = .storing n pass → pass.survey.provenance.fromCache = false)
    (hcomputed : (Traffic.computed k s'.events = [] ∧ stage.hasRead = false ∧
        ∀ (j : Nat) d, j ≠ i → s.calls[j]? = some d → d.key? = some k → d.stage.hasRead = false) ∨
      ∃ (j : Nat) (d : Call), Traffic.computed k s'.events = [j] ∧ s'.calls[j]? = some d ∧
        d.key? = some k ∧ d.stage.hasRead = true) : Cold k s' := by
  refine ⟨hlacks, fun j d hj hd => ?_, fun j d n pass hj hd hst => ?_, ?_⟩
  · rw [hcalls] at hj
    rcases Slots.getElem?_set_cases hj with ⟨rfl, rfl⟩ | ⟨-, hj⟩
    · exact hsurvey
    · exact C.unanswered j d hj hd
  · rw [hcalls] at hj
    rcases Slots.getElem?_set_cases hj with ⟨rfl, rfl⟩ | ⟨-, hj⟩
    · exact hfresh n pass hst
    · exact C.fresh j d n pass hj hd hst
  · refine hcomputed.imp_left fun ⟨hnil, hself, hnone⟩ => ⟨hnil, fun j d hj hd => ?_⟩
    rw [hcalls] at hj
    rcases Slots.getElem?_set_cases hj with ⟨rfl, rfl⟩ | ⟨hne, hj⟩
    · exact hself
    · exact hnone j d hne hj hd

/-- A call for the key goes on before it reads its file. -/
theorem wait (C : Cold k s) (hc : s.calls[i]? = some c) (hbefore : c.stage.hasRead = false)
    {stage : Stage} (hcalls : s'.calls = s.calls.set i { c with stage })
    (hlacks : s'.engine.cache.Lacks FileSurvey.codec k s'.files) (hsurvey : stage.survey? = none)
    (hread : stage.hasRead = false)
    (hevents : Traffic.computed k s'.events = Traffic.computed k s.events) : Cold k s' := by
  refine C.turn hc hcalls hlacks hsurvey (fun n pass hst => by rw [hst] at hread; cases hread) ?_
  rw [hevents]
  rcases C.computed with ⟨hnil, hnone⟩ | ⟨j, d, hone, hj, hd, hdread⟩
  · exact .inl ⟨hnil, hread, fun j d _ => hnone j d⟩
  · refine .inr ⟨j, d, hone, ?_, hd, hdread⟩
    rw [hcalls, List.getElem?_set_ne, hj]
    rintro rfl
    obtain rfl : c = d := Option.some.inj (hc.symm.trans hj)
    rw [hbefore] at hdread
    cases hdread

/-- The call that has read its file is the only one. -/
theorem computed_eq (C : Cold k s) (H : s.Coherent) (hc : s.calls[i]? = some c)
    (hkey : c.key? = some k) (hread : c.stage.hasRead = true) :
    Traffic.computed k s.events = [i] := by
  rcases C.computed with ⟨-, hnone⟩ | ⟨j, d, hone, hj, hd, hdread⟩
  · rw [hnone i c hc hkey] at hread
    cases hread
  · rw [hone, H.eq_of_inside hj hc hd hkey (Stage.isInside_of_hasRead hdread)
      (Stage.isInside_of_hasRead hread)]

/-- The call that keeps its survey makes the key warm. -/
theorem keep (C : Cold k s) (H : s.Coherent) (hc : s.calls[i]? = some c) (hkey : c.key? = some k)
    {n : Nat} {pass : Pass} {cache : Cache FileSurvey} {files : FileSystem}
    (hst : c.stage = .storing n pass)
    (hput : s.engine.cache.put FileSurvey.codec s.files now c.key pass.survey
      (c.config.cacheTtl * 1000) = (cache, files)) :
    Warm k i pass.survey (({ s with engine := { s.engine with cache }, files }.note
      (.stored i c.key pass.survey)).turn i c (.unlocking n pass.survey)) := by
  have hi : i < s.calls.length := (List.getElem?_eq_some_iff.1 hc).1
  have hin : c.stage.isInside = true := by rw [hst]; rfl
  refine ⟨?_, fun h hmem => ?_, C.fresh i c n pass hc hkey hst, ?_, ?_,
    fun j d hne hj hd => .inl ?_⟩
  · rw [← Call.key_eq hkey]
    exact Cache.held?_of_put hput
  · rcases Cache.mem_of_put hput hmem with ⟨-, hvalue⟩ | ⟨-, hne⟩
    · exact hvalue
    · exact absurd (Call.key_eq hkey).symm hne
  · have hone := C.computed_eq H hc hkey (by rw [hst]; rfl)
    simpa [note, Traffic.turn, computed_append, Traffic.computed] using hone
  · exact ⟨_, List.getElem?_set_self hi, hkey, rfl⟩
  · replace hj : s.calls[j]? = some d := (List.getElem?_set_ne (Ne.symm hne)).symm.trans hj
    exact Stage.isEarly_of_outside (H.isInside_of_ne hc hj hkey hd hin hne) (C.unanswered j d hj hd)

/-- **A step of a call for the key** leaves it cold, or keeps the one survey. -/
theorem moves (C : Cold k s) (H : s.Coherent) (h : Moves g now s i c s') (hc : s.calls[i]? = some c)
    (hkey : c.key? = some k) (S : Spares k s now a s') :
    Cold k s' ∨ ∃ survey, Warm k i survey s' := by
  have hi : i < s.calls.length := (List.getElem?_eq_some_iff.1 hc).1
  have hcache : c.key = k := Call.key_eq hkey
  cases h with
  | take hst huse => exact .inl (C.wait hc (by rw [hst]; rfl) rfl C.lacks rfl rfl rfl)
  | pass pass hst huse hpass => simp [Call.key?, huse] at hkey
  | lock n hst hfree => exact .inl (C.wait hc (by rw [hst]; rfl) rfl C.lacks rfl rfl rfl)
  | hit n survey cache files hst hget =>
    have hnone := C.lacks.get_eq_none now
    rw [← hcache, hget] at hnone
    cases hnone
  | miss n cache files hst hget =>
    exact .inl (C.wait hc (by rw [hst]; rfl) rfl (C.lacks.of_get hget) rfl rfl rfl)
  | read n hst =>
    have hin : c.stage.isInside = true := by rw [hst]; rfl
    have hnil : Traffic.computed k s.events = [] := by
      rcases C.computed with ⟨hnil, -⟩ | ⟨j, d, -, hj, hd, hread⟩
      · exact hnil
      · -- the call that has read its file would be inside as well
        obtain rfl := H.eq_of_inside hj hc hd hkey (Stage.isInside_of_hasRead hread) hin
        obtain rfl : c = d := Option.some.inj (hc.symm.trans hj)
        rw [hst] at hread
        cases hread
    refine .inl (C.turn hc rfl C.lacks rfl (fun _ _ h => (by cases h)) (.inr ⟨i, _, ?_,
      List.getElem?_set_self hi, hkey, rfl⟩))
    rw [note, Traffic.turn, computed_append, hnil]
    simp [Traffic.computed, hcache]
  | work n source pass hst hpass =>
    refine .inl (C.turn hc rfl C.lacks rfl (fun m q h => ?_) (.inr ⟨i, _,
      C.computed_eq H hc hkey (by rw [hst]; rfl), List.getElem?_set_self hi, hkey, rfl⟩))
    cases h
    rw [hpass]
    exact Engine.fromCache_passOn _ _ _ _ _
  | keep n pass cache files hst hs hput => exact .inr ⟨_, C.keep H hc hkey hst hput⟩
  | discard n pass hst hs =>
    rw [S.succeeds c (List.mem_of_getElem? hc) hkey n pass hst] at hs
    cases hs
  | unlock n survey hst | release n survey hst | drop n survey hst | count survey hst =>
    have hsurvey := C.unanswered i c hc hkey
    rw [hst] at hsurvey
    cases hsurvey

/-- A new call. -/
theorem arrive (C : Cold k s) (hst : c.stage = .arriving) :
    Cold k { s.note (.began s.calls.length) with calls := s.calls ++ [c] } := by
  have hevents : Traffic.computed k (s.note (.began s.calls.length)).events =
      Traffic.computed k s.events := by simp [note, Traffic.computed]
  refine ⟨C.lacks, fun j d hj hd => ?_, fun j d n pass hj hd hstage => ?_, ?_⟩
  · rcases Slots.getElem?_concat_cases hj with hj | ⟨-, rfl⟩
    · exact C.unanswered j d hj hd
    · rw [hst]
      rfl
  · rcases Slots.getElem?_concat_cases hj with hj | ⟨-, rfl⟩
    · exact C.fresh j d n pass hj hd hstage
    · rw [hst] at hstage
      cases hstage
  · rw [hevents]
    rcases C.computed with ⟨hnil, hnone⟩ | ⟨j, d, hone, hj, hd, hread⟩
    · refine .inl ⟨hnil, fun j d hj hd => ?_⟩
      rcases Slots.getElem?_concat_cases hj with hj | ⟨-, rfl⟩
      · exact hnone j d hj hd
      · rw [hst]
        rfl
    · exact .inr ⟨j, d, hone, List.getElem?_append_left (List.getElem?_eq_some_iff.1 hj).1 ▸ hj, hd,
        hread⟩

end Cold

namespace Warm

variable {survey : FileSurvey} {j : Nat}

theorem of_frame (W : Warm k i survey s) (F : Frame k s s') (S : Spares k s now a s') :
    Warm k i survey s' := by
  obtain ⟨h, hh⟩ := Option.isSome_iff_exists.1 W.held
  obtain ⟨c, hc, hkey, hsurvey⟩ := W.first
  exact ⟨(S.stays h hh).2, fun h hmem => W.memory h (F.memory h hmem), W.fresh,
    F.computed.trans W.computed, ⟨c, (F.calls i c hkey).2 hc, hkey, hsurvey⟩,
    fun j d hne hj hd => W.others j d hne ((F.calls j d hd).1 hj) hd⟩

/-- A call for the key has not looked it up yet, or has got its survey. -/
theorem isEarly_or (W : Warm k i survey s) (hc : s.calls[j]? = some c) (hkey : c.key? = some k) :
    c.stage.isEarly = true ∨ ∃ v, c.stage.survey? = some v := by
  by_cases hji : j = i
  · subst hji
    obtain ⟨d, hd, -, hsurvey⟩ := W.first
    obtain rfl : c = d := Option.some.inj (hc.symm.trans hd)
    exact .inr ⟨survey, hsurvey⟩
  · exact (W.others j c hji hc hkey).imp id fun h => ⟨_, h⟩

/-- What is to be shown when a call for the key goes on. -/
theorem turn (W : Warm k i survey s) (S : Spares k s now a s') (hc : s.calls[j]? = some c)
    (hkey : c.key? = some k) {stage : Stage} (hcalls : s'.calls = s.calls.set j { c with stage })
    (hmemory : ∀ h, (k, h) ∈ s'.engine.cache.recent → (k, h) ∈ s.engine.cache.recent)
    (hevents : Traffic.computed k s'.events = Traffic.computed k s.events)
    (hsurvey : ∀ v, c.stage.survey? = some v → stage.survey? = some v)
    (hearly : c.stage.isEarly = true →
      stage.isEarly = true ∨ stage.survey? = some survey.asCached) : Warm k i survey s' := by
  have hj : j < s.calls.length := (List.getElem?_eq_some_iff.1 hc).1
  obtain ⟨h, hh⟩ := Option.isSome_iff_exists.1 W.held
  refine ⟨(S.stays h hh).2, fun h hmem => W.memory h (hmemory h hmem), W.fresh,
    hevents.trans W.computed, ?_, fun l d hne hl hd => ?_⟩
  · obtain ⟨d, hd, hdkey, hdsurvey⟩ := W.first
    rw [hcalls]
    by_cases hji : j = i
    · subst hji
      obtain rfl : c = d := Option.some.inj (hc.symm.trans hd)
      exact ⟨_, List.getElem?_set_self hj, hkey, hsurvey _ hdsurvey⟩
    · exact ⟨d, (List.getElem?_set_ne hji).trans hd, hdkey, hdsurvey⟩
  · rw [hcalls] at hl
    rcases Slots.getElem?_set_cases hl with ⟨rfl, rfl⟩ | ⟨-, hl⟩
    · exact (W.others l c hne hc hkey).elim hearly fun h => .inr (hsurvey _ h)
    · exact W.others l d hne hl hd

/-- What a call for the key finds is the survey that was kept. -/
theorem get_eq (W : Warm k i survey s) (S : Spares k s now a s') :
    (s.engine.cache.get FileSurvey.codec s.files now k).1 = some survey := by
  obtain ⟨h, hh⟩ := Option.isSome_iff_exists.1 W.held
  rw [Cache.get_of_live hh (S.stays h hh).1, W.memory h (Cache.mem_of_held? hh)]

/-- **A step of a call for the key** keeps it warm. -/
theorem moves (W : Warm k i survey s) (h : Moves g now s j c s') (hc : s.calls[j]? = some c)
    (hkey : c.key? = some k) (S : Spares k s now a s') : Warm k i survey s' := by
  have hcache : c.key = k := Call.key_eq hkey
  have hgot := W.get_eq S
  -- a call that has looked its key up has its survey
  have hlate : c.stage.isEarly = false → c.stage.survey? = none → Warm k i survey s' := by
    intro hearly hnone
    rcases W.isEarly_or hc hkey with h | ⟨v, h⟩
    · rw [hearly] at h
      cases h
    · rw [hnone] at h
      cases h
  cases h with
  | take hst huse =>
    exact W.turn S hc hkey rfl (fun _ => id) rfl (fun v hv => by rw [hst] at hv; cases hv)
      fun _ => .inl rfl
  | pass pass hst huse hpass => simp [Call.key?, huse] at hkey
  | lock n hst hfree =>
    exact W.turn S hc hkey rfl (fun _ => id) rfl (fun v hv => by rw [hst] at hv; cases hv)
      fun _ => .inl rfl
  | hit n found cache files hst hget =>
    obtain rfl : found = survey := by
      rw [← hcache, hget] at hgot
      exact Option.some.inj hgot
    exact W.turn S hc hkey rfl
      (fun h hmem => Cache.mem_of_get hget hmem fun _ => W.held)
      (by simp [note, Traffic.turn, Traffic.computed])
      (fun v hv => by rw [hst] at hv; cases hv) fun _ => .inr rfl
  | miss n cache files hst hget =>
    rw [← hcache, hget] at hgot
    cases hgot
  | read n hst => exact hlate (by rw [hst]; rfl) (by rw [hst]; rfl)
  | work n source pass hst hpass => exact hlate (by rw [hst]; rfl) (by rw [hst]; rfl)
  | keep n pass cache files hst hs hput => exact hlate (by rw [hst]; rfl) (by rw [hst]; rfl)
  | discard n pass hst hs => exact hlate (by rw [hst]; rfl) (by rw [hst]; rfl)
  | unlock n v hst | release n v hst | drop n v hst | count v hst =>
    exact W.turn S hc hkey rfl (fun _ => id) rfl (fun v hv => by rw [hst] at hv; exact hv)
      (fun h => by rw [hst] at h; cases h)

/-- A new call. -/
theorem arrive (W : Warm k i survey s) (hst : c.stage = .arriving) :
    Warm k i survey { s.note (.began s.calls.length) with calls := s.calls ++ [c] } := by
  have hevents : Traffic.computed k (s.note (.began s.calls.length)).events =
      Traffic.computed k s.events := by simp [note, Traffic.computed]
  obtain ⟨d, hd, hkey, hsurvey⟩ := W.first
  refine ⟨W.held, W.memory, W.fresh, hevents.trans W.computed, ⟨d, ?_, hkey, hsurvey⟩,
    fun j d hne hj hd => ?_⟩
  · exact List.getElem?_append_left (List.getElem?_eq_some_iff.1 hd).1 ▸ hd
  · rcases Slots.getElem?_concat_cases hj with hj | ⟨-, rfl⟩
    · exact W.others j d hne hj hd
    · rw [hst]
      exact .inl rfl

end Warm

/-! ## Runs -/

/-- A key is cold or warm. -/
def Shared (k : String) (s : Traffic) : Prop := Cold k s ∨ ∃ i survey, Warm k i survey s

theorem Shared.of_frame (H : Shared k s) (F : Frame k s s') (S : Spares k s now a s') :
    Shared k s' := by
  rcases H with C | ⟨i, survey, W⟩
  · exact .inl (C.of_frame F)
  · exact .inr ⟨i, survey, W.of_frame F S⟩

theorem Shared.step (H : Shared k s) (hcoherent : s.Coherent) (h : s.step g now a = some s')
    (S : Spares k s now a s') : Shared k s' := by
  cases a with
  | call path c o =>
    cases hp : s.engine.prepare c with
    | error e =>
      simp only [Traffic.step, hp] at h
      cases h
      exact H
    | ok config =>
      simp only [Traffic.step, hp] at h
      cases h
      rcases H with C | ⟨i, survey, W⟩
      · exact .inl (C.arrive rfl)
      · exact .inr ⟨i, survey, W.arrive rfl⟩
  | advance i =>
    obtain ⟨c, hc, hmoves⟩ := advance_iff.1 h
    by_cases hkey : c.key? = some k
    · rcases H with C | ⟨j, survey, W⟩
      · rcases C.moves hcoherent hmoves hc hkey S with C | ⟨survey, W⟩
        · exact .inl C
        · exact .inr ⟨i, survey, W⟩
      · exact .inr ⟨j, survey, W.moves hmoves hc hkey S⟩
    · refine H.of_frame (hmoves.frame hc hkey fun n hn heq => hkey ?_) S
      rw [← heq]
      exact hcoherent.key?_of_slot? hc hn
  | invalidate path =>
    cases h
    exact H.of_frame ⟨fun _ _ _ => Iff.rfl, by simp [note, computed], fun L => L.invalidate path.display,
      fun _ hmem => (List.mem_filter.1 hmem).1⟩ S
  | emptyCache =>
    cases h
    exact H.of_frame ⟨fun _ _ _ => Iff.rfl, by simp [note, computed], fun L => L.clear,
      fun _ hmem => (List.not_mem_nil hmem).elim⟩ S
  | changeFiles files =>
    cases h
    exact H.of_frame ⟨fun _ _ _ => Iff.rfl, rfl, fun L => L.of_readBytes (S.unforged files rfl),
      fun _ => id⟩ S

/-- **Along a run that does not disturb a key** it stays cold until one call keeps its survey. -/
theorem Shared.reaches (h : Reaches g ok start s) (H : Shared k start) (hcoherent : start.Coherent)
    (hok : ∀ t now a t', ok t now a t' → Spares k t now a t') : Shared k s := by
  induction h with
  | refl => exact H
  | step now a h hstep hoks ih => exact ih.step (hcoherent.reaches h) hstep (hok _ _ _ _ hoks)

theorem cold_start {e : Engine} {fs : FileSystem} (h : e.cache.Lacks FileSurvey.codec k fs) :
    Cold k { engine := e, files := fs } :=
  ⟨h, fun _ _ hc => (by cases hc), fun _ _ _ _ hc => (by cases hc),
    .inl ⟨rfl, fun _ _ hc => (by cases hc)⟩⟩

/-- **Calls for one key share one computation.** However calls go on, two of them for one key are
never inside at once, and some call can go on until all have returned. Take a key under which
nothing is kept at the start, and a run that does not disturb it. Once a call for it has returned,
exactly one call has read its file for it; that call returns a fresh survey, and every other one
returns the same as it comes out of the cache. -/
theorem calls_share {e : Engine} {fs : FileSystem}
    (h : Reaches g ok { engine := e, files := fs } s) :
    (∀ (i j : Nat) c d k, s.calls[i]? = some c → s.calls[j]? = some d → c.key? = some k →
      d.key? = some k → c.stage.isInside = true → d.stage.isInside = true → i = j) ∧
    (∀ now, (∃ c ∈ s.calls, c.stage.isReturned = false) → ∃ i s', s.advance g now i = some s') ∧
    ∀ k, e.cache.Lacks FileSurvey.codec k fs →
      (∀ t now a t', ok t now a t' → Spares k t now a t') →
      (∃ c ∈ s.calls, c.key? = some k ∧ c.stage.isReturned = true) →
      ∃ i survey, computed k s.events = [i] ∧ (∃ c, s.calls[i]? = some c ∧ c.key? = some k) ∧
        survey.provenance.fromCache = false ∧
        ∀ (j : Nat) d v, s.calls[j]? = some d → d.key? = some k → d.stage = .returned v →
          v = if j = i then survey else survey.asCached := by
  have hcoherent := (coherent_start e fs).reaches h
  refine ⟨fun i j c d k hi hj hc hd => hcoherent.eq_of_inside hi hj hc hd,
    fun now ⟨c, hc, hreturned⟩ => exists_advance h now hc hreturned, ?_⟩
  intro k hlacks hok ⟨c, hmem, hkey, hreturned⟩
  rcases Shared.reaches h (.inl (cold_start hlacks)) (coherent_start e fs) hok with
    C | ⟨i, survey, W⟩
  · obtain ⟨j, hj⟩ := List.getElem?_of_mem hmem
    obtain ⟨survey, hsurvey⟩ := Stage.survey?_of_isReturned hreturned
    rw [C.unanswered j c hj hkey] at hsurvey
    cases hsurvey
  · obtain ⟨d, hd, hdkey, hsurvey⟩ := W.first
    refine ⟨i, survey, W.computed, ⟨d, hd, hdkey⟩, W.fresh, fun j d' v hj hd' hst => ?_⟩
    split
    · rename_i hji
      subst hji
      obtain rfl : d = d' := Option.some.inj (hd.symm.trans hj)
      rw [hst] at hsurvey
      exact Option.some.inj hsurvey
    · rename_i hji
      rcases W.others j d' hji hj hd' with hearly | hcached
      · rw [hst] at hearly
        cases hearly
      · rw [hst] at hcached
        exact Option.some.inj hcached

/-- Whether a step spares a key, as long as nobody changes the files. -/
def spares (k : String) (s : Traffic) (now : Nat) (a : Action) (s' : Traffic) : Bool :=
  (match a with
    | .changeFiles _ => false
    | _ => true) &&
  (s.calls.all fun c => match c.stage with
    | .storing _ pass => pass.survey.succeeded
    | _ => true) &&
  (match s.engine.cache.recent.held? k with
    | some h => h.isLive now && (s'.engine.cache.recent.held? k).isSome
    | none => true)

theorem spares_of_eq_true (h : spares k s now a s' = true) : Spares k s now a s' := by
  simp only [spares, Bool.and_eq_true, List.all_eq_true] at h
  obtain ⟨⟨hfiles, hsucceeds⟩, hstays⟩ := h
  refine ⟨?_, fun c hc _ n pass hst => ?_, fun h hh => ?_⟩
  · rintro files rfl
    cases hfiles
  · simpa [hst] using hsucceeds c hc
  · simpa [hh] using hstays

/-- Two calls for the survey of one script overlap: the second waits while the first one works. -/
theorem calls_share_two :
    ∃ k s i survey, Reaches (fun _ _ => none) (Spares k) inMemory s ∧
      inMemory.engine.cache.Lacks FileSurvey.codec k inMemory.files ∧ s.calls.length = 2 ∧
      (∀ c ∈ s.calls, c.key? = some k ∧ c.stage.isReturned = true) ∧ computed k s.events = [i] ∧
      ∀ (j : Nat) d v, s.calls[j]? = some d → d.key? = some k → d.stage = .returned v →
        v = if j = i then survey else survey.asCached := by
  let k := (⟨[], [], true, 3600, .empty, .empty⟩ : SettledConfig).key "a"
  obtain ⟨s, hs, hP⟩ := exists_reaches (fun _ _ => none) inMemory (spares k)
    (twoCalls [0, 0, 1, 0, 0, 0, 0, 0, 1, 0, 1, 1, 0, 0, 1, 1, 1])
    (fun s => s.calls.length == 2 &&
      s.calls.all fun c => c.key? == some k && c.stage.isReturned) (by decide +kernel)
  simp only [Bool.and_eq_true, beq_iff_eq, List.all_eq_true] at hP
  replace hs : Reaches (fun _ _ => none) (Spares k) inMemory s :=
    hs.imp fun _ _ _ _ => spares_of_eq_true
  have hlacks : inMemory.engine.cache.Lacks FileSurvey.codec k inMemory.files :=
    ⟨fun _ _ hmem => (List.not_mem_nil hmem).elim, fun _ hdir => (by cases hdir)⟩
  obtain ⟨c, hc⟩ := List.exists_mem_of_length_pos (l := s.calls) (by omega)
  obtain ⟨i, survey, hone, -, -, hall⟩ := (calls_share hs).2.2 k hlacks (fun _ _ _ _ h => h)
    ⟨c, hc, hP.2 c hc⟩
  exact ⟨k, s, i, survey, hs, hlacks, hP.1, hP.2, hone, hall⟩

end Traffic

end CodeSurvey
