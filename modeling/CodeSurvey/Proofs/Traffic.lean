import CodeSurvey.Engine.Traffic
import CodeSurvey.Proofs.Engine
/-!
# How calls go on

The rules by which a call goes on (`Moves`) are those of `advance` (`advance_iff`), and every
statement about a run goes through them. A call that goes on alone does to the engine and the files
what `Engine.run` does, and returns its survey (`run_alone`).
-/
namespace CodeSurvey

/-- It does not matter whether the runs of a pass are noted before its survey is kept or after. -/
theorem Engine.keep_note (e : Engine) (fs : FileSystem) (now : Nat) (job : Job)
    (extractorRuns interpreterRuns : List (String × Nat)) :
    (e.note extractorRuns interpreterRuns).keep fs now job =
      ((e.keep fs now job).1.note extractorRuns interpreterRuns, (e.keep fs now job).2) := by
  unfold keep
  cases job.key with
  | none => rfl
  | some key =>
    dsimp only
    split <;> rfl

namespace Slots

/-! ## Slots -/

variable {s : Slots} {key : String} {n : Nat}

@[simp] theorem table_share (s : Slots) (n : Nat) : (s.share n).table = s.table := rfl

@[simp] theorem table_drop (s : Slots) (n : Nat) : (s.drop n).table = s.table := rfl

@[simp] theorem table_setLock (s : Slots) (n : Nat) (b : Bool) :
    (s.setLock n b).table = s.table := rfl

@[simp] theorem length_share (s : Slots) (n : Nat) : (s.share n).all.length = s.all.length := by
  simp [share]

@[simp] theorem length_drop (s : Slots) (n : Nat) : (s.drop n).all.length = s.all.length := by
  simp [drop]

@[simp] theorem length_setLock (s : Slots) (n : Nat) (b : Bool) :
    (s.setLock n b).all.length = s.all.length := by
  simp [setLock]

theorem refs_share (h : n < s.all.length) (m : Nat) :
    (s.share n).refs m = s.refs m + if m = n then 1 else 0 := by
  by_cases hm : m = n
  · subst hm
    simp [refs, share, List.getElem?_eq_getElem h]
  · simp [refs, share, hm, Ne.symm hm]

theorem refs_drop (s : Slots) (n m : Nat) :
    (s.drop n).refs m = s.refs m - if m = n then 1 else 0 := by
  by_cases hm : m = n
  · subst hm
    cases h : s.all[m]? <;> simp [refs, drop, h]
  · simp [refs, drop, hm, Ne.symm hm]

@[simp] theorem refs_setLock (s : Slots) (n : Nat) (b : Bool) (m : Nat) :
    (s.setLock n b).refs m = s.refs m := by
  by_cases hm : n = m <;> cases h : s.all[m]? <;>
    simp [refs, setLock, hm, h]

@[simp] theorem isLocked_share (s : Slots) (n m : Nat) : (s.share n).isLocked m = s.isLocked m := by
  by_cases hm : n = m <;> cases h : s.all[m]? <;>
    simp [isLocked, share, hm, h]

@[simp] theorem isLocked_drop (s : Slots) (n m : Nat) : (s.drop n).isLocked m = s.isLocked m := by
  by_cases hm : n = m <;> cases h : s.all[m]? <;>
    simp [isLocked, drop, hm, h]

theorem isLocked_setLock (h : n < s.all.length) (b : Bool) (m : Nat) :
    (s.setLock n b).isLocked m = if m = n then b else s.isLocked m := by
  by_cases hm : m = n
  · subst hm
    simp [isLocked, setLock, List.getElem?_eq_getElem h]
  · simp [isLocked, setLock, hm, Ne.symm hm]

@[simp] theorem length_add (s : Slots) (key : String) :
    (s.add key).all.length = s.all.length + 1 := by
  simp [add]

theorem get?_table_add (s : Slots) (key k : String) :
    (s.add key).table.get? k = if k = key then some s.all.length else s.table.get? k :=
  Dict.get?_insert _ _ _ _

theorem refs_add (key : String) (h : n < s.all.length) : (s.add key).refs n = s.refs n := by
  simp [refs, add, List.getElem?_append_left h]

@[simp] theorem isLocked_add (s : Slots) (key : String) (n : Nat) :
    (s.add key).isLocked n = s.isLocked n := by
  rcases Nat.lt_or_ge n s.all.length with h | h
  · simp [isLocked, add, List.getElem?_append_left h]
  · -- the new slot is free, and beyond it there is none
    cases hn : n - s.all.length <;> simp [isLocked, add, List.getElem?_append_right h, h, hn]

/-- A slot to which more than two refer stays where it is. -/
theorem release_of_shared (key : String) (h : ¬ s.refs n ≤ 2) : s.release key n = s := if_neg h

/-- A slot to which only two refer goes. -/
theorem release_of_last (h : s.refs n ≤ 2) (hn : s.table.get? key = some n) :
    s.release key n = ({ s with table := s.table.erase key } : Slots).drop n := by
  unfold release
  rw [if_pos h, hn]

@[simp] theorem isLocked_release (s : Slots) (key : String) (n m : Nat) :
    (s.release key n).isLocked m = s.isLocked m := by
  unfold release
  split
  · split
    · exact isLocked_drop _ _ _
    · rfl
  · rfl

@[simp] theorem isLocked_take (s : Slots) (key : String) (n : Nat) :
    (s.take key).2.isLocked n = s.isLocked n := by
  unfold take
  split
  · exact isLocked_share _ _ _
  · exact isLocked_add _ _ _

end Slots

namespace Traffic

/-! ## Rules -/

/-- How a call can go on. -/
inductive Moves (g : Grammars) (now : Nat) (s : Traffic) (i : Nat) (c : Call) : Traffic → Prop
  | take (h : c.stage = .arriving) (huse : c.config.useCache = true) :
    Moves g now s i c
      ({ s with slots := (s.slots.take c.key).2 }.turn i c (.waiting (s.slots.take c.key).1))
  | pass (pass : Pass) (h : c.stage = .arriving) (huse : c.config.useCache = false)
    (hpass : pass = s.engine.tools.pass ⟨g, s.files, now⟩ c.path c.config c.origin) :
    Moves g now s i c
      (({ s with engine := s.engine.note pass.extractorRuns pass.interpreterRuns }.note
        (.read i none)).turn i c (.counting pass.survey))
  | lock (n : Nat) (h : c.stage = .waiting n) (hfree : s.slots.isLocked n = false) :
    Moves g now s i c ({ s with slots := s.slots.setLock n true }.turn i c (.looking n))
  | hit (n : Nat) (survey : FileSurvey) (cache : Cache FileSurvey) (files : FileSystem)
    (h : c.stage = .looking n)
    (hget : s.engine.cache.get FileSurvey.codec s.files now c.key = (some survey, cache, files)) :
    Moves g now s i c (({ s with engine := { s.engine with cache }, files }.note
      (.found i c.key survey)).turn i c (.unlocking n survey.asCached))
  | miss (n : Nat) (cache : Cache FileSurvey) (files : FileSystem) (h : c.stage = .looking n)
    (hget : s.engine.cache.get FileSurvey.codec s.files now c.key = (none, cache, files)) :
    Moves g now s i c ({ s with engine := { s.engine with cache }, files }.turn i c (.reading n))
  | read (n : Nat) (h : c.stage = .reading n) :
    Moves g now s i c
      ((s.note (.read i (some c.key))).turn i c (.working n (c.origin.read s.files c.path)))
  | work (n : Nat) (source : Except IoError (List Char)) (pass : Pass)
    (h : c.stage = .working n source)
    (hpass : pass = s.engine.tools.passOn ⟨g, s.files, now⟩ c.path c.config source) :
    Moves g now s i c
      ({ s with engine := s.engine.note pass.extractorRuns pass.interpreterRuns }.turn i c
        (.storing n pass))
  | keep (n : Nat) (pass : Pass) (cache : Cache FileSurvey) (files : FileSystem)
    (h : c.stage = .storing n pass) (hsucceeded : pass.survey.succeeded = true)
    (hput : s.engine.cache.put FileSurvey.codec s.files now c.key pass.survey
      (c.config.cacheTtl * 1000) = (cache, files)) :
    Moves g now s i c (({ s with engine := { s.engine with cache }, files }.note
      (.stored i c.key pass.survey)).turn i c (.unlocking n pass.survey))
  | discard (n : Nat) (pass : Pass) (h : c.stage = .storing n pass)
    (hfailed : pass.survey.succeeded = false) :
    Moves g now s i c (s.turn i c (.unlocking n pass.survey))
  | unlock (n : Nat) (survey : FileSurvey) (h : c.stage = .unlocking n survey) :
    Moves g now s i c ({ s with slots := s.slots.setLock n false }.turn i c (.leaving n survey))
  | release (n : Nat) (survey : FileSurvey) (h : c.stage = .leaving n survey) :
    Moves g now s i c ({ s with slots := s.slots.release c.key n }.turn i c (.dropping n survey))
  | drop (n : Nat) (survey : FileSurvey) (h : c.stage = .dropping n survey) :
    Moves g now s i c ({ s with slots := s.slots.drop n }.turn i c (.counting survey))
  | count (survey : FileSurvey) (h : c.stage = .counting survey) :
    Moves g now s i c ({ s with engine := s.engine.record survey c.config.useCache }.turn i c
      (.returned survey))

variable {g : Grammars} {ok : Traffic → Nat → Action → Traffic → Prop} {start s s' : Traffic}
  {now i : Nat} {c : Call}

theorem advance_eq_some (hc : s.calls[i]? = some c) :
    s.advance g now i = some s' ↔ Moves g now s i c s' := by
  unfold advance
  simp only [hc]
  constructor
  · intro h
    cases hst : c.stage with
    | arriving =>
      simp only [hst] at h
      split at h
      · rename_i huse
        cases h
        exact .take hst huse
      · rename_i huse
        cases h
        exact .pass _ hst (by simpa using huse) rfl
    | waiting n =>
      simp only [hst] at h
      split at h
      · cases h
      · rename_i hfree
        cases h
        exact .lock n hst (by simpa using hfree)
    | looking n =>
      simp only [hst, look] at h
      obtain ⟨⟨found, cache, files⟩, hget⟩ :
          ∃ r, s.engine.cache.get FileSurvey.codec s.files now c.key = r := ⟨_, rfl⟩
      simp only [hget] at h
      cases found with
      | some survey =>
        cases h
        exact .hit n survey cache files hst hget
      | none =>
        cases h
        exact .miss n cache files hst hget
    | reading n =>
      simp only [hst] at h
      cases h
      exact .read n hst
    | working n source =>
      simp only [hst] at h
      cases h
      exact .work n source _ hst rfl
    | storing n pass =>
      simp only [hst, store, Engine.keep] at h
      by_cases hs : pass.survey.succeeded = true
      · simp only [hs, if_true] at h
        cases h
        exact .keep n pass _ _ hst hs rfl
      · simp only [hs] at h
        cases h
        exact .discard n pass hst (by simpa using hs)
    | unlocking n survey =>
      simp only [hst] at h
      cases h
      exact .unlock n survey hst
    | leaving n survey =>
      simp only [hst] at h
      cases h
      exact .release n survey hst
    | dropping n survey =>
      simp only [hst] at h
      cases h
      exact .drop n survey hst
    | counting survey =>
      simp only [hst] at h
      cases h
      exact .count survey hst
    | returned survey => simp [hst] at h
  · intro h
    cases h with
    | take h huse => simp only [h, huse, if_true]
    | pass pass h huse hpass => simp [h, huse, hpass]
    | lock n h hfree => simp [h, hfree]
    | hit n survey cache files h hget => simp only [h, look, hget]
    | miss n cache files h hget => simp only [h, look, hget]
    | read n h => simp only [h]
    | work n source pass h hpass => simp only [h, hpass]
    | keep n pass cache files h hs hput => simp only [h, store, Engine.keep, hs, if_true, hput]
    | discard n pass h hs => simp [h, store, Engine.keep, hs]
    | unlock n survey h => simp only [h]
    | release n survey h => simp only [h]
    | drop n survey h => simp only [h]
    | count survey h => simp only [h]

/-- **A call goes on by the rules.** -/
theorem advance_iff : s.advance g now i = some s' ↔
    ∃ c, s.calls[i]? = some c ∧ Moves g now s i c s' := by
  cases hc : s.calls[i]? with
  | none => simp [advance, hc]
  | some c => simp [advance_eq_some hc]

/-- A call that has not returned can go on, unless it waits for a lock. -/
theorem exists_moves (g : Grammars) (now : Nat) (s : Traffic) (i : Nat)
    (hwait : ∀ n, c.stage = .waiting n → s.slots.isLocked n = false)
    (hreturned : ∀ survey, c.stage ≠ .returned survey) : ∃ s', Moves g now s i c s' := by
  cases hst : c.stage with
  | arriving =>
    cases huse : c.config.useCache with
    | true => exact ⟨_, .take hst huse⟩
    | false => exact ⟨_, .pass _ hst huse rfl⟩
  | waiting n => exact ⟨_, .lock n hst (hwait n hst)⟩
  | looking n =>
    cases hget : (s.engine.cache.get FileSurvey.codec s.files now c.key).1 with
    | some survey => exact ⟨_, .hit n survey _ _ hst (Prod.ext hget rfl)⟩
    | none => exact ⟨_, .miss n _ _ hst (Prod.ext hget rfl)⟩
  | reading n => exact ⟨_, .read n hst⟩
  | working n source => exact ⟨_, .work n source _ hst rfl⟩
  | storing n pass =>
    cases hs : pass.survey.succeeded with
    | true => exact ⟨_, .keep n pass _ _ hst hs rfl⟩
    | false => exact ⟨_, .discard n pass hst hs⟩
  | unlocking n survey => exact ⟨_, .unlock n survey hst⟩
  | leaving n survey => exact ⟨_, .release n survey hst⟩
  | dropping n survey => exact ⟨_, .drop n survey hst⟩
  | counting survey => exact ⟨_, .count survey hst⟩
  | returned survey => exact absurd hst (hreturned survey)

/-! ## Runs -/

theorem Reaches.imp {ok' : Traffic → Nat → Action → Traffic → Prop}
    (himp : ∀ t now a t', ok t now a t' → ok' t now a t') (h : Reaches g ok start s) :
    Reaches g ok' start s := by
  induction h with
  | refl => exact .refl
  | step now a _ hstep hok ih => exact .step now a ih hstep (himp _ _ _ _ hok)

theorem Reaches.trans {t : Traffic} (h : Reaches g ok start s) (h' : Reaches g ok s t) :
    Reaches g ok start t := by
  induction h' with
  | refl => exact h
  | step now a _ hstep hok ih => exact .step now a ih hstep hok

theorem Reaches.follow {ok : Traffic → Nat → Action → Traffic → Bool} {l : List (Nat × Action)}
    (h : Reaches g (fun t now a t' => ok t now a t' = true) start s)
    (hs : s.follow g ok l = some s') :
    Reaches g (fun t now a t' => ok t now a t' = true) start s' := by
  induction l generalizing s with
  | nil =>
    cases hs
    exact h
  | cons p l ih =>
    simp only [Traffic.follow] at hs
    cases hstep : s.step g p.1 p.2 with
    | none => simp [hstep] at hs
    | some t =>
      simp only [hstep] at hs
      split at hs
      · rename_i hok
        exact ih (.step p.1 p.2 h hstep hok) hs
      · cases hs

/-- Actions that can be performed lead somewhere, which can be looked at. -/
theorem exists_reaches (g : Grammars) (start : Traffic)
    (ok : Traffic → Nat → Action → Traffic → Bool) (l : List (Nat × Action)) (P : Traffic → Bool)
    (h : (start.follow g ok l).any P = true) :
    ∃ s, Reaches g (fun t now a t' => ok t now a t' = true) start s ∧ P s = true := by
  cases hs : start.follow g ok l with
  | none => simp [hs] at h
  | some s => exact ⟨s, Reaches.refl.follow hs, by simpa [hs] using h⟩

/-! ## A call that nobody disturbs -/

/-- One call goes on, and all of that at one time. -/
def Only (now i : Nat) (_ : Traffic) (t : Nat) (a : Action) (_ : Traffic) : Prop :=
  t = now ∧ a = .advance i

/-- A call that goes on alone comes to a stage, and everything else is then as given. -/
def ComesTo (g : Grammars) (now : Nat) (start : Traffic) (i : Nat) (c : Call) (stage : Stage)
    (engine : Engine) (files : FileSystem) (slots : Slots) (events : List Event) : Prop :=
  Reaches g (Only now i) start
    { engine, files, slots, calls := start.calls.set i { c with stage }, events }

namespace ComesTo

variable {stage : Stage} {e e' : Engine} {fs fs' : FileSystem} {slots slots' : Slots}
  {events events' : List Event}

theorem move (h : ComesTo g now start i c stage e fs slots events) (hi : i < start.calls.length)
    {stage' : Stage}
    (hmoves : Moves g now
      { engine := e, files := fs, slots, calls := start.calls.set i { c with stage }, events } i
      { c with stage }
      { engine := e', files := fs', slots := slots', events := events'
        calls := (start.calls.set i { c with stage }).set i { c with stage := stage' } }) :
    ComesTo g now start i c stage' e' fs' slots' events' := by
  rw [List.set_set] at hmoves
  have hc : (start.calls.set i { c with stage })[i]? = some { c with stage } :=
    List.getElem?_set_self hi
  exact .step now (.advance i) h ((advance_eq_some hc).2 hmoves) ⟨rfl, rfl⟩

/-- How a call goes on that has its survey. -/
theorem returned (hi : i < start.calls.length) {n : Nat} {survey : FileSurvey}
    (h : ComesTo g now start i c (.unlocking n survey) e fs slots events) :
    ∃ slots', ComesTo g now start i c (.returned survey) (e.record survey c.config.useCache) fs
      slots' events := by
  have hleave := h.move hi (.unlock n survey rfl)
  have hdrop := hleave.move hi (.release n survey rfl)
  have hcount := hdrop.move hi (.drop n survey rfl)
  exact ⟨_, hcount.move hi (.count survey rfl)⟩

/-- How a call goes on that has its pass. -/
theorem stored (hi : i < start.calls.length) {n : Nat} {pass : Pass}
    (h : ComesTo g now start i c (.storing n pass) e fs slots events) :
    ∃ events', ComesTo g now start i c (.unlocking n pass.survey)
      (e.keep fs now ⟨some c.key, c.config.cacheTtl * 1000, pass⟩).1
      (e.keep fs now ⟨some c.key, c.config.cacheTtl * 1000, pass⟩).2 slots events' := by
  unfold Engine.keep
  dsimp only
  split
  · rename_i hsucceeded
    exact ⟨_, h.move hi (.keep n pass _ _ rfl hsucceeded rfl)⟩
  · rename_i hfailed
    exact ⟨_, h.move hi (.discard n pass rfl (by simpa using hfailed))⟩

end ComesTo

/-- A call that has just come. -/
theorem comesTo_arriving (g : Grammars) (now : Nat) (hc : s.calls[i]? = some c)
    (hst : c.stage = .arriving) :
    ComesTo g now s i c .arriving s.engine s.files s.slots s.events := by
  have hself : s.calls.set i { c with stage := .arriving } = s.calls := by
    obtain ⟨_, rfl⟩ := List.getElem?_eq_some_iff.1 hc
    rw [← hst]
    exact List.set_getElem_self _
  unfold ComesTo
  rw [hself]
  exact .refl

/-- A call that gets a slot that is free looks its key up. -/
theorem comesTo_looking (g : Grammars) (now : Nat) (hc : s.calls[i]? = some c)
    (hst : c.stage = .arriving) (hfree : s.slots.isLocked (s.slots.take c.key).1 = false)
    (huse : c.config.useCache = true) :
    ∃ slots, ComesTo g now s i c (.looking (s.slots.take c.key).1) s.engine s.files slots s.events := by
  have hi : i < s.calls.length := (List.getElem?_eq_some_iff.1 hc).1
  have hwait := (comesTo_arriving g now hc hst).move hi (.take rfl huse)
  exact ⟨_, hwait.move hi (.lock _ rfl ((Slots.isLocked_take _ _ _).trans hfree))⟩

/-- **A call that goes on alone and finds its key** hands out what it finds. -/
theorem hit_alone (g : Grammars) (now : Nat) (hc : s.calls[i]? = some c) (hst : c.stage = .arriving)
    (hfree : s.slots.isLocked (s.slots.take c.key).1 = false) (huse : c.config.useCache = true)
    {survey : FileSurvey}
    (hget : (s.engine.cache.get FileSurvey.codec s.files now c.key).1 = some survey) :
    ∃ slots, ComesTo g now s i c (.returned survey.asCached)
      ((s.engine.looked ⟨g, s.files, now⟩ c.key).1.record survey.asCached true)
      (s.engine.looked ⟨g, s.files, now⟩ c.key).2 slots (s.events ++ [.found i c.key survey]) := by
  have hi : i < s.calls.length := (List.getElem?_eq_some_iff.1 hc).1
  obtain ⟨slots, hlook⟩ := comesTo_looking g now hc hst hfree huse
  have hunlock := hlook.move hi (.hit _ survey _ _ rfl (Prod.ext hget rfl))
  obtain ⟨slots', hreturned⟩ := hunlock.returned hi
  rw [huse] at hreturned
  exact ⟨slots', hreturned⟩

/-- **A call that goes on alone** does what an analysis does, if it gets a slot that is free. -/
theorem run_alone (g : Grammars) (now : Nat) (hidle : s.engine.abandoned = [])
    (hc : s.calls[i]? = some c) (hst : c.stage = .arriving)
    (hfree : s.slots.isLocked (s.slots.take c.key).1 = false) :
    ∃ survey e fs slots events,
      s.engine.run ⟨g, s.files, now⟩ c.path c.config c.origin = (survey, e, fs) ∧
        ComesTo g now s i c (.returned survey) e fs slots events := by
  have hi : i < s.calls.length := (List.getElem?_eq_some_iff.1 hc).1
  by_cases huse : c.config.useCache = true
  · cases hget : (s.engine.cache.get FileSurvey.codec s.files now c.key).1 with
    | some survey =>
      obtain ⟨slots, hreturned⟩ := hit_alone g now hc hst hfree huse hget
      have hrun := s.engine.run_of_hit ⟨g, s.files, now⟩ hidle huse hget c.origin
      exact ⟨_, _, _, slots, _, hrun, hreturned⟩
    | none =>
      obtain ⟨slots, hlook⟩ := comesTo_looking g now hc hst hfree huse
      obtain ⟨pass, hpass, hrun⟩ := s.engine.run_of_miss ⟨g, s.files, now⟩ hidle huse hget c.origin
      have hread : ComesTo g now s i c (.reading (s.slots.take c.key).1)
          (s.engine.looked ⟨g, s.files, now⟩ c.key).1
          (s.engine.looked ⟨g, s.files, now⟩ c.key).2 _ _ :=
        hlook.move hi (.miss _ _ _ rfl (Prod.ext hget rfl))
      have hwork := hread.move hi (.read _ rfl)
      have hstore : ComesTo g now s i c (.storing (s.slots.take c.key).1 pass)
          ((s.engine.looked ⟨g, s.files, now⟩ c.key).1.note pass.extractorRuns pass.interpreterRuns)
          (s.engine.looked ⟨g, s.files, now⟩ c.key).2 _ _ :=
        hwork.move hi (.work _ _ pass rfl hpass)
      obtain ⟨events, hunlock⟩ := hstore.stored hi
      rw [Engine.keep_note] at hunlock
      obtain ⟨slots, hreturned⟩ := hunlock.returned hi
      rw [huse] at hreturned
      exact ⟨_, _, _, slots, events, hrun, hreturned⟩
  · have huse : c.config.useCache = false := by simpa using huse
    have hcount := (comesTo_arriving g now hc hst).move hi (.pass _ rfl huse rfl)
    have hreturned := hcount.move hi (.count _ rfl)
    rw [huse] at hreturned
    refine ⟨_, _, _, s.slots, _, ?_, hreturned⟩
    unfold Engine.run Engine.start
    simp only [huse]
    rfl

end Traffic

end CodeSurvey
