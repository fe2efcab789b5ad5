import CodeSurvey.Proofs.Slots
/-!
# Which slots stay behind

A call that leaves takes its slot out of the table if nobody else refers to it, and drops its own
reference only after that. Two calls that leave together can each see the reference of the other,
and then the slot stays in the table (`table_of_returned_together`). What stays is idle: it is not
locked, and only the table refers to it. Nothing else keeps a slot there: if a call never decides
while another one for its key has decided and still refers to the slot (`leavesAlone`), then every
slot in the table has a call that will decide about it (`Attended`), and the table is empty when all
calls have returned (`table_of_returned`). Until then some call can go on (`exists_advance`), and
the next call is one of the engine (`surveyFile_alone`).
-/
namespace CodeSurvey

namespace Stage

/-- Whether a call is about to decide about its slot. -/
def isLeaving : Stage → Bool
  | .leaving .. => true
  | _ => false

/-- Whether a call has decided about its slot and still refers to it. -/
def isDropping : Stage → Bool
  | .dropping .. => true
  | _ => false

/-- Whether a call has returned. -/
def isReturned : Stage → Bool
  | .returned _ => true
  | _ => false

theorem isStaying_or_isDropping {s : Stage} {n : Nat} (h : s.slot? = some n) :
    s.isStaying = true ∨ s.isDropping = true := by
  cases s with
  | arriving | counting | returned => cases h
  | dropping => exact .inr rfl
  | _ => exact .inl rfl

theorem slot?_of_isReturned {s : Stage} (h : s.isReturned = true) : s.slot? = none := by
  cases s with
  | returned => rfl
  | _ => cases h

theorem isReturned_of_isInside {s : Stage} (h : s.isInside = true) : s.isReturned = false := by
  cases s with
  | returned => cases h
  | _ => rfl

theorem slot?_of_isStaying {s : Stage} (h : s.isStaying = true) : ∃ n, s.slot? = some n := by
  cases s with
  | arriving | dropping | counting | returned => cases h
  | _ => exact ⟨_, rfl⟩

end Stage

namespace Slots

variable {owner : Nat → String} {s s' : Slots} {calls : List Call} {i : Nat} {c : Call}

/-- Someone of whom something is true is still there after one call has moved, if it was another one
or it is true of the call that moved. -/
theorem exists_mem_set {P : Call → Prop} {c' : Call} (h : ∃ d ∈ calls, P d)
    (hc : calls[i]? = some c) (hself : P c → P c') : ∃ d ∈ calls.set i c', P d := by
  obtain ⟨d, hd, hP⟩ := h
  obtain ⟨j, hj⟩ := List.getElem?_of_mem hd
  by_cases hij : i = j
  · subst hij
    obtain rfl : c = d := Option.some.inj (hc.symm.trans hj)
    exact ⟨c', List.mem_set (List.getElem?_eq_some_iff.1 hc).1 c', hself hP⟩
  · exact ⟨d, List.mem_of_getElem? ((List.getElem?_set_ne hij).trans hj), hP⟩

/-- If two refer to a slot, one of them is another call. -/
theorem exists_other_holder {n : Nat} (hc : calls[i]? = some c) (h : 2 ≤ holders calls n) :
    ∃ (j : Nat) (d : Call), j ≠ i ∧ calls[j]? = some d ∧ d.stage.slot? = some n := by
  -- one is left without the call itself
  have hset := holders_set hc { c with stage := .arriving } n
  have hnone : Stage.slot? .arriving ≠ some n := by simp [Stage.slot?]
  have hpos : 0 < holders (calls.set i { c with stage := .arriving }) n := by
    rw [if_neg hnone] at hset
    split at hset <;> omega
  obtain ⟨d, hd, hslot⟩ := List.countP_pos_iff.1 hpos
  obtain ⟨j, hj⟩ := List.getElem?_of_mem hd
  rcases getElem?_set_cases hj with ⟨-, rfl⟩ | ⟨hne, hj⟩
  · exact absurd (by simpa using hslot) hnone
  · exact ⟨j, d, hne, hj, by simpa using hslot⟩

/-! ## Locked slots -/

/-- Every locked slot has a call inside. -/
def Occupied (s : Slots) (calls : List Call) : Prop :=
  ∀ n, s.isLocked n = true → ∃ c ∈ calls, c.stage.slot? = some n ∧ c.stage.isInside = true

theorem Occupied.shift (O : Occupied s calls) (H : Coherent owner s calls) (hc : calls[i]? = some c)
    {stage : Stage} (h : Shift c s s' stage) : Occupied s' (calls.set i { c with stage }) := by
  -- a lock that was held has its call, which is another one, or stays inside, or was not inside
  have houtside (n : Nat) (hn : s.isLocked n = true) (hout : c.stage.isInside = false) :
      ∃ d ∈ calls.set i { c with stage }, d.stage.slot? = some n ∧ d.stage.isInside = true :=
    exists_mem_set (O n hn) hc fun ⟨_, hin⟩ => absurd hin (by simp [hout])
  intro n hn
  cases h with
  | take hst hkey =>
    refine houtside n ?_ (by rw [hst]; rfl)
    unfold take at hn
    split at hn <;> simpa using hn
  | lock m hst hfree =>
    rw [isLocked_setLock (H.fits i c m hc (by rw [hst]; rfl)).known] at hn
    split at hn
    · rename_i hnm
      subst hnm
      exact ⟨_, List.mem_set (List.getElem?_eq_some_iff.1 hc).1 _, rfl, rfl⟩
    · exact houtside n hn (by rw [hst]; rfl)
  | work m stage hslot hin hslot' hin' =>
    exact exists_mem_set (O n hn) hc fun ⟨hn, _⟩ => ⟨hslot'.trans (hslot.symm.trans hn), hin'⟩
  | unlock m survey hst =>
    have hslot : c.stage.slot? = some m := by rw [hst]; rfl
    rw [isLocked_setLock (H.fits i c m hc hslot).known] at hn
    split at hn
    · cases hn
    · rename_i hne
      exact exists_mem_set (O n hn) hc fun ⟨hn, _⟩ =>
        absurd (Option.some.inj (hn.symm.trans hslot)) hne
  | release m survey hst =>
    exact houtside n (by simpa using hn) (by rw [hst]; rfl)
  | drop m survey hst => exact houtside n (by simpa using hn) (by rw [hst]; rfl)
  | pass stage hnone hnone' =>
    exact exists_mem_set (O n hn) hc fun ⟨hn, _⟩ => absurd hn (by simp [hnone])

/-! ## Slots in the table -/

/-- Every slot in the table has a call that has still to decide about it. -/
def Attended (s : Slots) (calls : List Call) : Prop :=
  ∀ k n, s.table.get? k = some n → ∃ c ∈ calls, c.key? = some k ∧ c.stage.isStaying = true

/-- The step in which a call decides about its slot. It leaves a slot that someone else refers to,
and that call has still to decide. -/
theorem Attended.release (A : Attended s calls) (H : Coherent owner s calls)
    (hc : calls[i]? = some c) {n : Nat} {survey : FileSurvey} (hst : c.stage = .leaving n survey)
    (halone : ∀ d ∈ calls, d.key? = c.key? → d.stage.isDropping = false) :
    Attended (s.release c.key n) (calls.set i { c with stage := .dropping n survey }) := by
  have F := H.fits i c n hc (by rw [hst]; rfl)
  have hlisted := F.listed (by rw [hst]; rfl)
  -- another key has another call
  have hothers : ∀ k m, k ≠ owner n → s.table.get? k = some m →
      ∃ d ∈ calls.set i { c with stage := .dropping n survey },
        d.key? = some k ∧ d.stage.isStaying = true := fun k m hk hm =>
    exists_mem_set (A k m hm) hc fun ⟨hkey, _⟩ =>
      absurd (Option.some.inj (hkey.symm.trans F.key)) hk
  intro k m hm
  rw [F.key_eq] at hm
  by_cases hrefs : s.refs n ≤ 2
  · rw [release_of_last hrefs hlisted, table_drop, Dict.get?_erase] at hm
    split at hm
    · cases hm
    · rename_i hk
      exact hothers k m hk hm
  · rw [release_of_shared _ hrefs] at hm
    by_cases hk : k = owner n
    · subst hk
      have hcounted := H.counted n F.known
      rw [if_pos hlisted] at hcounted
      obtain ⟨j, d, hne, hj, hslot⟩ := exists_other_holder (i := i) hc (n := n) (by omega)
      have hkey := (H.fits j d n hj hslot).key
      refine ⟨d, List.mem_of_getElem? ((List.getElem?_set_ne (Ne.symm hne)).trans hj), hkey, ?_⟩
      rcases Stage.isStaying_or_isDropping hslot with hstay | hdrop
      · exact hstay
      · have := halone d (List.mem_of_getElem? hj) (hkey.trans F.key.symm)
        rw [this] at hdrop
        cases hdrop
    · exact hothers k m hk hm

theorem Attended.shift (A : Attended s calls) (H : Coherent owner s calls) (hc : calls[i]? = some c)
    {stage : Stage} (h : Shift c s s' stage) (halone : c.stage.isLeaving = true →
      ∀ d ∈ calls, d.key? = c.key? → d.stage.isDropping = false) :
    Attended s' (calls.set i { c with stage }) := by
  -- a call that stays keeps its slot attended, and one that did not stay attended none
  have hstay (hs : stage.isStaying = true) (k : String) (n : Nat) (hn : s.table.get? k = some n) :
      ∃ d ∈ calls.set i { c with stage }, d.key? = some k ∧ d.stage.isStaying = true :=
    exists_mem_set (A k n hn) hc fun ⟨hkey, _⟩ => ⟨hkey, hs⟩
  have hgone (hs : c.stage.isStaying = false) (k : String) (n : Nat)
      (hn : s.table.get? k = some n) :
      ∃ d ∈ calls.set i { c with stage }, d.key? = some k ∧ d.stage.isStaying = true :=
    exists_mem_set (A k n hn) hc fun ⟨_, hstays⟩ => absurd hstays (by simp [hs])
  cases h with
  | take hst hkey =>
    intro k n hn
    by_cases hk : k = c.key
    · subst hk
      exact ⟨_, List.mem_set (List.getElem?_eq_some_iff.1 hc).1 _, hkey, rfl⟩
    · refine hgone (by rw [hst]; rfl) k n ?_
      unfold take at hn
      split at hn
      · exact hn
      · rwa [get?_table_add, if_neg hk] at hn
  | lock n hst hfree => exact hstay rfl
  | work n stage hslot hin hslot' hin' => exact hstay (Stage.isStaying_of_isInside hin')
  | unlock n survey hst => exact hstay rfl
  | release n survey hst => exact A.release H hc hst (halone (by rw [hst]; rfl))
  | drop n survey hst => exact hgone (by rw [hst]; rfl)
  | pass stage hnone hnone' =>
    refine hgone ?_
    by_contra hstays
    obtain ⟨n, hn⟩ := Stage.slot?_of_isStaying (by simpa using hstays)
    rw [hnone] at hn
    cases hn

end Slots

namespace Traffic

variable {g : Grammars} {ok : Traffic → Nat → Action → Traffic → Prop} {s s' : Traffic}
  {e : Engine} {fs : FileSystem}

/-- Whether, if a call decides about its slot in this step, no other call for its key has decided
and still refers to its slot. -/
def leavesAlone (s : Traffic) : Action → Bool
  | .advance i => match s.calls[i]? with
    | some c => !c.stage.isLeaving ||
      s.calls.all fun d => d.key? != c.key? || !d.stage.isDropping
    | none => true
  | _ => true

theorem isDropping_of_leavesAlone {i : Nat} {c d : Call} (h : s.leavesAlone (.advance i) = true)
    (hc : s.calls[i]? = some c) (hst : c.stage.isLeaving = true) (hd : d ∈ s.calls)
    (hkey : d.key? = c.key?) : d.stage.isDropping = false := by
  simp only [leavesAlone, hc, hst, Bool.not_true, Bool.false_or, List.all_eq_true] at h
  simpa [hkey] using h d hd

/-- **Along any run** every locked slot has a call inside. -/
theorem occupied_reaches (h : Reaches g ok { engine := e, files := fs } s) :
    s.slots.Occupied s.calls := by
  induction h with
  | refl => exact fun _ hn => (by cases hn)
  | step now a h hstep _ ih =>
    obtain ⟨owner, H⟩ := (coherent_start e fs).reaches h
    rcases step_slots hstep with ⟨hs, hcalls⟩ | ⟨c, hst, hs, hcalls⟩ |
      ⟨i, c, stage, -, hc, hshift, hcalls⟩
    · rw [hs, hcalls]
      exact ih
    · rw [hs, hcalls]
      intro n hn
      obtain ⟨d, hd, hin⟩ := ih n hn
      exact ⟨d, List.mem_append_left _ hd, hin⟩
    · rw [hcalls]
      exact ih.shift H hc hshift

/-- **Some call can go on** until all of them have returned: one that waits for a lock waits for a
call that is inside. -/
theorem exists_advance (h : Reaches g ok { engine := e, files := fs } s) (now : Nat) {c : Call}
    (hmem : c ∈ s.calls) (hreturned : c.stage.isReturned = false) :
    ∃ i s', s.advance g now i = some s' := by
  have hopen : ∀ (i : Nat) (d : Call), s.calls[i]? = some d → d.stage.isReturned = false →
      (∀ n, d.stage = .waiting n → s.slots.isLocked n = false) →
      ∃ i s', s.advance g now i = some s' := by
    intro i d hi hd hwait
    obtain ⟨s', hmoves⟩ := exists_moves g now s i hwait fun survey hst => by
      rw [hst] at hd
      cases hd
    exact ⟨i, s', (advance_eq_some hi).2 hmoves⟩
  obtain ⟨i, hi⟩ := List.getElem?_of_mem hmem
  by_cases hwait : ∃ n, c.stage = .waiting n ∧ s.slots.isLocked n = true
  · obtain ⟨n, -, hlocked⟩ := hwait
    obtain ⟨d, hd, -, hin⟩ := occupied_reaches h n hlocked
    obtain ⟨j, hj⟩ := List.getElem?_of_mem hd
    refine hopen j d hj (Stage.isReturned_of_isInside hin) fun m hm => ?_
    rw [hm] at hin
    cases hin
  · refine hopen i c hi hreturned fun n hn => ?_
    by_contra hlocked
    exact hwait ⟨n, hn, by simpa using hlocked⟩

/-- **Along a run in which calls leave alone** every slot in the table has a call that has still to
decide about it. -/
theorem attended_reaches (h : Reaches g ok { engine := e, files := fs } s)
    (hok : ∀ t now a t', ok t now a t' → t.leavesAlone a = true) : s.slots.Attended s.calls := by
  induction h with
  | refl => exact fun _ _ hn => (by cases hn)
  | step now a h hstep hoks ih =>
    obtain ⟨owner, H⟩ := (coherent_start e fs).reaches h
    rcases step_slots hstep with ⟨hs, hcalls⟩ | ⟨c, hst, hs, hcalls⟩ |
      ⟨i, c, stage, rfl, hc, hshift, hcalls⟩
    · rw [hs, hcalls]
      exact ih
    · rw [hs, hcalls]
      intro k n hn
      obtain ⟨d, hd, hstay⟩ := ih k n hn
      exact ⟨d, List.mem_append_left _ hd, hstay⟩
    · rw [hcalls]
      exact ih.shift H hc hshift fun hst d hd hkey =>
        isDropping_of_leavesAlone (hok _ _ _ _ hoks) hc hst hd hkey

/-! ## When every call has returned -/

/-- No slot is locked when every call has returned. -/
theorem isLocked_of_returned (h : Reaches g ok { engine := e, files := fs } s)
    (hreturned : ∀ c ∈ s.calls, c.stage.isReturned = true) (n : Nat) :
    s.slots.isLocked n = false := by
  by_contra hlocked
  obtain ⟨c, hc, hslot, -⟩ := occupied_reaches h n (by simpa using hlocked)
  rw [Stage.slot?_of_isReturned (hreturned c hc)] at hslot
  cases hslot

/-- **Calls that come one after the other are calls of the engine.** When every call has returned,
the next one does to the engine and the files what `surveyFile` does, and returns its survey. -/
theorem surveyFile_alone (h : Reaches g ok { engine := e, files := fs } s)
    (hreturned : ∀ c ∈ s.calls, c.stage.isReturned = true) (hidle : s.engine.abandoned = [])
    {now : Nat} {path : String} {c : CallConfig} {o : Origin} {survey : FileSurvey} {e' : Engine}
    {fs' : FileSystem}
    (hcall : s.engine.surveyFile ⟨g, s.files, now⟩ path c o = (.ok survey, e', fs')) :
    ∃ s' config, Reaches g
        (fun _ t a _ => t = now ∧ (a = .call path c o ∨ a = .advance s.calls.length)) s s' ∧
      s'.engine = e' ∧ s'.files = fs' ∧
      s'.calls = s.calls ++ [{ path, config, origin := o, stage := .returned survey }] := by
  unfold Engine.surveyFile at hcall
  cases hp : s.engine.prepare c with
  | error err => simp [hp, Engine.refuse] at hcall
  | ok config =>
    simp only [hp] at hcall
    let s₁ : Traffic := { s.note (.began s.calls.length) with
      calls := s.calls ++ [{ path, config, origin := o }] }
    have hstep : s.step g now (.call path c o) = some s₁ := by simp only [step, hp, s₁]
    have hc : s₁.calls[s.calls.length]? = some { path, config, origin := o } := by simp [s₁]
    obtain ⟨survey', e₁, fs₁, slots, events, hrun, hcomes⟩ := run_alone g now (s := s₁) hidle hc rfl
      (isLocked_of_returned h hreturned _)
    replace hrun : s.engine.run ⟨g, s.files, now⟩ path config o = (survey', e₁, fs₁) := hrun
    rw [hrun] at hcall
    cases hcall
    refine ⟨_, config, Reaches.trans (.step now _ .refl hstep ⟨rfl, .inl rfl⟩)
      (hcomes.imp fun _ _ _ _ hok => ⟨hok.1, .inr hok.2⟩), rfl, rfl, ?_⟩
    simp [s₁]

/-- **What is left when every call has returned.** The slots that are left in the table are idle:
only the table refers to them, and none is locked. If calls left alone, none is left. -/
theorem table_of_returned (h : Reaches g ok { engine := e, files := fs } s)
    (hreturned : ∀ c ∈ s.calls, c.stage.isReturned = true) :
    (∀ k n, s.slots.table.get? k = some n → s.slots.refs n = 1 ∧ s.slots.isLocked n = false) ∧
      ((∀ t now a t', ok t now a t' → t.leavesAlone a = true) → s.slots.table.entries = []) := by
  have hnone : ∀ c ∈ s.calls, c.stage.slot? = none := fun c hc =>
    Stage.slot?_of_isReturned (hreturned c hc)
  have H := (coherent_start e fs)
  refine ⟨fun k n hn => ⟨?_, ?_⟩, fun hok => Dict.entries_eq_nil fun k => ?_⟩
  · obtain ⟨owner, H⟩ := H.reaches h
    obtain ⟨hlt, rfl⟩ := H.owned k n hn
    have hzero : Slots.holders s.calls n = 0 :=
      List.countP_eq_zero.2 fun c hc => by simp [hnone c hc]
    rw [H.counted n hlt, if_pos hn, hzero]
  · exact isLocked_of_returned h hreturned n
  · have A := attended_reaches h hok
    by_contra hsome
    obtain ⟨n, hn⟩ := Option.ne_none_iff_exists'.1 hsome
    obtain ⟨c, hc, -, hstay⟩ := A k n hn
    obtain ⟨m, hm⟩ := Stage.slot?_of_isStaying hstay
    rw [hnone c hc] at hm
    cases hm

/-- Two calls for the survey of one script, which go on in the order given. -/
def twoCalls (order : List Nat) : List (Nat × Action) :=
  let c : CallConfig := { extractors := some [], interpreters := some [] }
  let script : Action := .call "a" c (.given ['#', '!', 'r', 'u', 'b', 'y'])
  [(5, script), (5, script)] ++ order.map fun i => (5, .advance i)

/-- An engine that keeps its surveys in memory, and no files. -/
def inMemory : Traffic :=
  { engine :=
      { config := {}, exclude := [], tools := Engine.builtinTools, cache := .inMemory 1000 }
    files := .empty }

/-- The second call waits for the first one and leaves after it. -/
theorem table_of_returned_in_turn :
    ∃ s, Reaches (fun _ _ => none) (fun t _ a _ => t.leavesAlone a = true) inMemory s ∧
      s.calls.length = 2 ∧ (∀ c ∈ s.calls, c.stage.isReturned = true) ∧
      s.slots.table.entries = [] := by
  obtain ⟨s, hs, hP⟩ := exists_reaches (fun _ _ => none) inMemory
    (fun t _ a _ => t.leavesAlone a) (twoCalls [0, 1, 0, 0, 0, 0, 0, 0, 1, 1, 1, 0, 0, 0, 1, 1, 1])
    (fun s => s.calls.length == 2 && s.calls.all (·.stage.isReturned)) (by decide +kernel)
  simp only [Bool.and_eq_true, beq_iff_eq, List.all_eq_true] at hP
  exact ⟨s, hs, hP.1, hP.2, (table_of_returned hs hP.2).2 fun _ _ _ _ h => h⟩

/-- **Two calls that leave together leave their slot behind**: each of them decides while the other
one still refers to it. -/
theorem table_of_returned_together :
    ∃ s, Reaches (fun _ _ => none) (fun _ _ _ _ => True) inMemory s ∧
      s.calls.length = 2 ∧ (∀ c ∈ s.calls, c.stage.isReturned = true) ∧
      s.slots.table.entries ≠ [] := by
  obtain ⟨s, hs, hP⟩ := exists_reaches (fun _ _ => none) inMemory
    (fun _ _ _ _ => true) (twoCalls [0, 1, 0, 0, 0, 0, 0, 0, 1, 1, 1, 0, 1, 0, 1, 0, 1])
    (fun s => s.calls.length == 2 && s.calls.all (·.stage.isReturned) &&
      !s.slots.table.entries.isEmpty) (by decide +kernel)
  simp only [Bool.and_eq_true, beq_iff_eq, List.all_eq_true, Bool.not_eq_true',
    List.isEmpty_eq_false_iff] at hP
  exact ⟨s, hs.imp fun _ _ _ _ _ => trivial, hP.1.1, hP.1.2, hP.2⟩

end Traffic

end CodeSurvey
