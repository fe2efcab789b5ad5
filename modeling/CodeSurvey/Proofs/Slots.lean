import CodeSurvey.Proofs.Traffic
import Mathlib.Data.List.Basic
/-!
# One slot for a key

Calls for one key share a slot, and the one that holds its lock is alone inside. That would fail if
a slot left the table while a call still counted on it: the next call would get another one. So the
invariant (`Slots.Coherent`) is about all calls at once. A slot belongs to one key; it stays in the
table as long as a call for it has not decided whether it goes; and those who refer to it are the
calls at it and the table. What a call can do to the slots in one step is said once (`Slots.Shift`);
the invariant survives each of these steps (`Slots.Coherent.shift`), and with that any run
(`Traffic.Coherent.reaches`).
-/
namespace CodeSurvey

/-! ## Stages -/

namespace Stage

/-- The slot to which a call refers. -/
def slot? : Stage → Option Nat
  | .waiting n | .looking n | .reading n | .working n _ | .storing n _ | .unlocking n _
  | .leaving n _ | .dropping n _ => some n
  | .arriving | .counting _ | .returned _ => none

/-- Whether a call holds the lock of its slot. -/
def isInside : Stage → Bool
  | .looking _ | .reading _ | .working .. | .storing .. | .unlocking .. => true
  | _ => false

/-- Whether a call refers to a slot and has still to decide whether it goes. -/
def isStaying : Stage → Bool
  | .waiting _ | .leaving .. => true
  | s => s.isInside

variable {s : Stage}

theorem isStaying_of_isInside (h : s.isInside = true) : s.isStaying = true := by
  cases s with
  | waiting | leaving => rfl
  | _ => exact h

theorem slot?_of_isInside (h : s.isInside = true) : ∃ n, s.slot? = some n := by
  cases s with
  | arriving | waiting | leaving | dropping | counting | returned => cases h
  | _ => exact ⟨_, rfl⟩

end Stage

theorem Call.key_eq {c : Call} {k : String} (h : c.key? = some k) : c.key = k := by
  unfold Call.key? at h
  split at h
  · exact Option.some.inj h
  · cases h

@[simp] theorem Call.key?_turn (c : Call) (stage : Stage) :
    ({ c with stage } : Call).key? = c.key? := rfl

/-! ## What one step does to the slots -/

/-- What a call can do to the slots in one step, and the stage that it comes to. -/
inductive Slots.Shift (c : Call) (s : Slots) : Slots → Stage → Prop
  | take (h : c.stage = .arriving) (hkey : c.key? = some c.key) :
    Shift c s (s.take c.key).2 (.waiting (s.take c.key).1)
  | lock (n : Nat) (h : c.stage = .waiting n) (hfree : s.isLocked n = false) :
    Shift c s (s.setLock n true) (.looking n)
  | work (n : Nat) (stage : Stage) (h : c.stage.slot? = some n) (hin : c.stage.isInside = true)
    (h' : stage.slot? = some n) (hin' : stage.isInside = true) : Shift c s s stage
  | unlock (n : Nat) (survey : FileSurvey) (h : c.stage = .unlocking n survey) :
    Shift c s (s.setLock n false) (.leaving n survey)
  | release (n : Nat) (survey : FileSurvey) (h : c.stage = .leaving n survey) :
    Shift c s (s.release c.key n) (.dropping n survey)
  | drop (n : Nat) (survey : FileSurvey) (h : c.stage = .dropping n survey) :
    Shift c s (s.drop n) (.counting survey)
  | pass (stage : Stage) (h : c.stage.slot? = none) (h' : stage.slot? = none) : Shift c s s stage

namespace Traffic

variable {g : Grammars} {now : Nat} {s s' : Traffic} {i : Nat}

/-- **What a call does to the slots when it goes on**, whatever it does to engine and files. -/
theorem Moves.shift {c : Call} (h : Moves g now s i c s') :
    ∃ stage, Slots.Shift c s.slots s'.slots stage ∧ s'.calls = s.calls.set i { c with stage } := by
  cases h with
  | take hst huse => exact ⟨_, .take hst (by simp [Call.key?, huse]), rfl⟩
  | pass pass hst huse hpass => exact ⟨_, .pass _ (by rw [hst]; rfl) rfl, rfl⟩
  | lock n hst hfree => exact ⟨_, .lock n hst hfree, rfl⟩
  | hit n survey cache files hst hget =>
    exact ⟨_, .work n _ (by rw [hst]; rfl) (by rw [hst]; rfl) rfl rfl, rfl⟩
  | miss n cache files hst hget =>
    exact ⟨_, .work n _ (by rw [hst]; rfl) (by rw [hst]; rfl) rfl rfl, rfl⟩
  | read n hst => exact ⟨_, .work n _ (by rw [hst]; rfl) (by rw [hst]; rfl) rfl rfl, rfl⟩
  | work n source pass hst hpass =>
    exact ⟨_, .work n _ (by rw [hst]; rfl) (by rw [hst]; rfl) rfl rfl, rfl⟩
  | keep n pass cache files hst hs hput =>
    exact ⟨_, .work n _ (by rw [hst]; rfl) (by rw [hst]; rfl) rfl rfl, rfl⟩
  | discard n pass hst hs =>
    exact ⟨_, .work n _ (by rw [hst]; rfl) (by rw [hst]; rfl) rfl rfl, rfl⟩
  | unlock n survey hst => exact ⟨_, .unlock n survey hst, rfl⟩
  | release n survey hst => exact ⟨_, .release n survey hst, rfl⟩
  | drop n survey hst => exact ⟨_, .drop n survey hst, rfl⟩
  | count survey hst => exact ⟨_, .pass _ (by rw [hst]; rfl) rfl, rfl⟩

end Traffic

namespace Slots

variable {s : Slots} {key : String} {n : Nat}

/-! ## Who refers to a slot -/

/-- The number of calls that refer to a slot. -/
def holders (calls : List Call) (n : Nat) : Nat := calls.countP (·.stage.slot? == some n)

theorem getElem?_set_cases {α : Type} {l : List α} {i j : Nat} {a b : α}
    (h : (l.set i a)[j]? = some b) : j = i ∧ b = a ∨ j ≠ i ∧ l[j]? = some b := by
  rw [List.getElem?_set] at h
  split at h
  · rename_i hij
    split at h
    · exact .inl ⟨hij.symm, (Option.some.inj h).symm⟩
    · cases h
  · rename_i hij
    exact .inr ⟨fun hji => hij hji.symm, h⟩

theorem getElem?_concat_cases {α : Type} {l : List α} {j : Nat} {a b : α}
    (h : (l ++ [a])[j]? = some b) : l[j]? = some b ∨ j = l.length ∧ b = a := by
  rw [List.getElem?_append] at h
  split at h
  · exact .inl h
  · obtain ⟨hlt, heq⟩ := List.getElem?_eq_some_iff.1 h
    simp only [List.length_singleton] at hlt
    exact .inr ⟨by omega, by simpa using heq.symm⟩

theorem holders_set {calls : List Call} {i : Nat} {c : Call} (hc : calls[i]? = some c) (d : Call)
    (n : Nat) :
    holders (calls.set i d) n + (if c.stage.slot? = some n then 1 else 0) =
      holders calls n + if d.stage.slot? = some n then 1 else 0 := by
  obtain ⟨hi, rfl⟩ := List.getElem?_eq_some_iff.1 hc
  have hpos : calls[i].stage.slot? = some n → 0 < holders calls n := fun h =>
    List.countP_pos_iff.2 ⟨calls[i], List.getElem_mem hi, by simp [h]⟩
  rw [holders, List.countP_set hi]
  simp only [beq_iff_eq]
  change holders calls n - _ + _ + _ = _
  by_cases h : calls[i].stage.slot? = some n
  · have := hpos h
    simp only [h, if_true]
    omega
  · simp [h]

/-- A slot to which one call refers at most is that of no other call. -/
theorem eq_of_holders_le_one {calls : List Call} {i j : Nat} {c d : Call} {n : Nat}
    (h : holders calls n ≤ 1) (hi : calls[i]? = some c) (hj : calls[j]? = some d)
    (hc : c.stage.slot? = some n) (hd : d.stage.slot? = some n) : i = j := by
  by_contra hne
  -- without the first call there would still be the second one
  have hset := holders_set hi { c with stage := .arriving } n
  have hmem : d ∈ calls.set i { c with stage := .arriving } :=
    List.mem_of_getElem? ((List.getElem?_set_ne hne).trans hj)
  have hpos : 0 < holders (calls.set i { c with stage := .arriving }) n :=
    List.countP_pos_iff.2 ⟨d, hmem, by simp [hd]⟩
  have hnone : Stage.slot? .arriving ≠ some n := by simp [Stage.slot?]
  rw [if_pos hc, if_neg hnone] at hset
  omega

/-! ## The invariant -/

/-- A call fits the slot to which it refers: the slot was made for the key of the call, it is in the
table as long as the call has not decided about it, and it is locked while the call is inside. -/
structure Fits (owner : Nat → String) (s : Slots) (c : Call) (n : Nat) : Prop where
  known : n < s.all.length
  key : c.key? = some (owner n)
  listed : c.stage.isStaying = true → s.table.get? (owner n) = some n
  locked : c.stage.isInside = true → s.isLocked n = true

/-- The slots fit the calls; every slot has a key as its owner. -/
structure Coherent (owner : Nat → String) (s : Slots) (calls : List Call) : Prop where
  owned : ∀ k n, s.table.get? k = some n → n < s.all.length ∧ owner n = k
  fits : ∀ (i : Nat) c n, calls[i]? = some c → c.stage.slot? = some n → Fits owner s c n
  /-- Those who refer to a slot are the calls at it and the table. -/
  counted : ∀ n < s.all.length,
    s.refs n = holders calls n + if s.table.get? (owner n) = some n then 1 else 0
  /-- One call at most is inside. -/
  single : ∀ (i j : Nat) (c d : Call) n, calls[i]? = some c → calls[j]? = some d →
    c.stage.slot? = some n → d.stage.slot? = some n → c.stage.isInside = true →
      d.stage.isInside = true → i = j

theorem coherent_empty (owner : Nat → String) : Coherent owner {} [] :=
  ⟨fun _ _ h => (by cases h), fun _ _ _ h => (by cases h), fun _ h => (by cases h),
    fun _ _ _ _ _ h => (by cases h)⟩

theorem Fits.key_eq {owner : Nat → String} {c : Call} (F : Fits owner s c n) : c.key = owner n :=
  Call.key_eq F.key

namespace Coherent

variable {owner : Nat → String} {calls : List Call} {i : Nat} {c : Call}

/-- What is to be shown when one call moves to another stage. -/
theorem turn (H : Coherent owner s calls) (hc : calls[i]? = some c) {owner' : Nat → String}
    {s' : Slots} {stage : Stage}
    (howned : ∀ k n, s'.table.get? k = some n → n < s'.all.length ∧ owner' n = k)
    (hself : ∀ n, stage.slot? = some n → Fits owner' s' { c with stage } n)
    (hothers : ∀ (j : Nat) d n, j ≠ i → calls[j]? = some d → d.stage.slot? = some n →
      Fits owner s d n → Fits owner' s' d n)
    (hcount : ∀ n < s'.all.length, s'.refs n + (if c.stage.slot? = some n then 1 else 0) =
      holders calls n + (if stage.slot? = some n then 1 else 0) +
        if s'.table.get? (owner' n) = some n then 1 else 0)
    (hsingle : stage.isInside = true → ∀ (j : Nat) d n, j ≠ i → calls[j]? = some d →
      d.stage.slot? = some n → stage.slot? = some n → d.stage.isInside = false) :
    Coherent owner' s' (calls.set i { c with stage }) := by
  refine ⟨howned, ?_, ?_, ?_⟩
  · intro j d n hj hn
    rcases getElem?_set_cases hj with ⟨rfl, rfl⟩ | ⟨hne, hj⟩
    · exact hself n hn
    · exact hothers j d n hne hj hn (H.fits j d n hj hn)
  · intro n hn
    have hset := holders_set hc { c with stage } n
    have := hcount n hn
    dsimp only at hset
    omega
  · intro j j' d d' n hj hj' hn hn' hin hin'
    rcases getElem?_set_cases hj with ⟨rfl, rfl⟩ | ⟨hne, hold⟩ <;>
      rcases getElem?_set_cases hj' with ⟨rfl, rfl⟩ | ⟨hne', hold'⟩
    · rfl
    · rw [hsingle hin j' d' n hne' hold' hn' hn] at hin'
      cases hin'
    · rw [hsingle hin' j d n hne hold hn hn'] at hin
      cases hin
    · exact H.single j j' d d' n hold hold' hn hn' hin hin'

/-- What is to be shown when one call moves to another stage at the same slot. -/
theorem stay (H : Coherent owner s calls) (hc : calls[i]? = some c) {s' : Slots} {stage : Stage}
    (hslot : stage.slot? = c.stage.slot?)
    (howned : ∀ k n, s'.table.get? k = some n → n < s'.all.length ∧ owner n = k)
    (hself : ∀ n, stage.slot? = some n → Fits owner s' { c with stage } n)
    (hothers : ∀ (j : Nat) d n, j ≠ i → calls[j]? = some d → d.stage.slot? = some n →
      Fits owner s d n → Fits owner s' d n)
    (hcount : ∀ n < s'.all.length,
      s'.refs n = holders calls n + if s'.table.get? (owner n) = some n then 1 else 0)
    (hsingle : stage.isInside = true → ∀ (j : Nat) d n, j ≠ i → calls[j]? = some d →
      d.stage.slot? = some n → stage.slot? = some n → d.stage.isInside = false) :
    Coherent owner s' (calls.set i { c with stage }) := by
  refine H.turn hc howned hself hothers (fun n hn => ?_) hsingle
  rw [hcount n hn, hslot]
  omega

/-- A call takes a slot that is there. -/
theorem join (H : Coherent owner s calls) (hc : calls[i]? = some c) (hst : c.stage = .arriving)
    (hkey : c.key? = some key) (hn : s.table.get? key = some n) :
    Coherent owner (s.share n) (calls.set i { c with stage := .waiting n }) := by
  obtain ⟨hlt, howner⟩ := H.owned key n hn
  refine H.turn hc (fun k m hm => by simpa using H.owned k m hm) ?_ ?_ ?_ (fun hin => by cases hin)
  · intro m hm
    cases hm
    exact ⟨by simpa using hlt, by rw [howner]; exact hkey, fun _ => by simpa [howner] using hn,
      fun hin => by cases hin⟩
  · intro j d m _ _ _ F
    exact ⟨by simpa using F.known, F.key, by simpa using F.listed, by simpa using F.locked⟩
  · intro m hm
    have hcount := H.counted m (by simpa using hm)
    rw [refs_share hlt, table_share, hcount, hst]
    simp only [Stage.slot?, reduceCtorEq, if_false, Option.some.injEq, eq_comm]
    omega

/-- A call gets a new slot. -/
theorem add (H : Coherent owner s calls) (hc : calls[i]? = some c) (hst : c.stage = .arriving)
    (hkey : c.key? = some key) (hn : s.table.get? key = none) :
    Coherent (fun n => if n = s.all.length then key else owner n) (s.add key)
      (calls.set i { c with stage := .waiting s.all.length }) := by
  have hold : ∀ m, m < s.all.length → (if m = s.all.length then key else owner m) = owner m :=
    fun m hm => if_neg (by omega)
  refine H.turn hc ?_ ?_ ?_ ?_ (fun hin => by cases hin)
  · intro k m hm
    rw [get?_table_add] at hm
    split at hm
    · rename_i hk
      cases hm
      exact ⟨by simp, by simp [hk]⟩
    · obtain ⟨hlt, howner⟩ := H.owned k m hm
      exact ⟨by simp; omega, (hold m hlt).trans howner⟩
  · intro m hm
    cases hm
    exact ⟨by simp, by simpa using hkey, fun _ => by simp [get?_table_add], fun hin => by cases hin⟩
  · intro j d m _ hj hm F
    have hlt := F.known
    refine ⟨by simp; omega, by rw [hold m hlt]; exact F.key, fun hstay => ?_, fun hin => ?_⟩
    · have hlisted := F.listed hstay
      rw [hold m hlt, get?_table_add, if_neg, hlisted]
      intro hk
      rw [hk, hn] at hlisted
      cases hlisted
    · rw [isLocked_add]
      exact F.locked hin
  · intro m hm
    have hnone : c.stage.slot? ≠ some m := by simp [hst, Stage.slot?]
    rw [if_neg hnone, get?_table_add]
    rcases Nat.lt_or_ge m s.all.length with hlt | hge
    · have hslot : ¬ Stage.slot? (.waiting s.all.length) = some m := by
        simp only [Stage.slot?, Option.some.injEq]
        omega
      have hsame : (if owner m = key then some s.all.length else s.table.get? (owner m)) = some m ↔
          s.table.get? (owner m) = some m := by
        split
        · rename_i hk
          rw [hk, hn]
          simp only [Option.some.injEq, reduceCtorEq, iff_false]
          omega
        · rfl
      rw [refs_add key hlt, H.counted m hlt, if_neg hslot]
      simp only [hold m hlt, hsame]
      omega
    · obtain rfl : m = s.all.length := by
        simp at hm
        omega
      -- nobody can refer to a slot that was not there
      have hzero : holders calls s.all.length = 0 := by
        refine List.countP_eq_zero.2 fun d hd hslot => ?_
        obtain ⟨j, hj⟩ := List.getElem?_of_mem hd
        have := (H.fits j d _ hj (by simpa using hslot)).known
        omega
      simp [refs, Slots.add, hzero, Stage.slot?]

theorem counted_setLock (H : Coherent owner s calls) (b : Bool) :
    ∀ m < (s.setLock n b).all.length, (s.setLock n b).refs m =
      holders calls m + if (s.setLock n b).table.get? (owner m) = some m then 1 else 0 := by
  intro m hm
  rw [refs_setLock]
  exact H.counted m (by simpa using hm)

/-- A call locks its slot, in which no other call can be. -/
theorem lock (H : Coherent owner s calls) (hc : calls[i]? = some c) (hst : c.stage = .waiting n)
    (hfree : s.isLocked n = false) :
    Coherent owner (s.setLock n true) (calls.set i { c with stage := .looking n }) := by
  have F := H.fits i c n hc (by rw [hst]; rfl)
  refine H.stay hc (by rw [hst]; rfl) (by simpa using H.owned) ?_ ?_ (H.counted_setLock true) ?_
  · intro m hm
    cases hm
    exact ⟨by simpa using F.known, F.key, fun _ => F.listed (by rw [hst]; rfl),
      fun _ => by simp [isLocked_setLock F.known]⟩
  · intro j d m _ _ _ G
    refine ⟨by simpa using G.known, G.key, by simpa using G.listed, fun hin => ?_⟩
    rw [isLocked_setLock F.known, G.locked hin]
    split <;> rfl
  · intro _ j d m _ hj hm hm'
    cases hm'
    by_contra hin
    have := (H.fits j d n hj hm).locked (by simpa using hin)
    rw [hfree] at this
    cases this

/-- A call works inside. -/
theorem work (H : Coherent owner s calls) (hc : calls[i]? = some c) (hn : c.stage.slot? = some n)
    (hin : c.stage.isInside = true) {stage : Stage} (hn' : stage.slot? = some n) :
    Coherent owner s (calls.set i { c with stage }) := by
  have F := H.fits i c n hc hn
  refine H.stay hc (hn'.trans hn.symm) H.owned ?_ (fun _ _ _ _ _ _ G => G) H.counted ?_
  · intro m hm
    obtain rfl : n = m := Option.some.inj (hn'.symm.trans hm)
    exact ⟨F.known, F.key, fun _ => F.listed (Stage.isStaying_of_isInside hin),
      fun _ => F.locked hin⟩
  · intro _ j d m hne hj hm hm'
    obtain rfl : n = m := Option.some.inj (hn'.symm.trans hm')
    by_contra hd
    exact hne (H.single j i d c n hj hc hm hn (by simpa using hd) hin)

/-- A call unlocks its slot. -/
theorem unlock (H : Coherent owner s calls) (hc : calls[i]? = some c) {survey : FileSurvey}
    (hst : c.stage = .unlocking n survey) :
    Coherent owner (s.setLock n false) (calls.set i { c with stage := .leaving n survey }) := by
  have hn : c.stage.slot? = some n := by rw [hst]; rfl
  have F := H.fits i c n hc hn
  refine H.stay hc (by rw [hst]; rfl) (by simpa using H.owned) ?_ ?_ (H.counted_setLock false)
    (fun hin => by cases hin)
  · intro m hm
    cases hm
    exact ⟨by simpa using F.known, F.key, fun _ => F.listed (by rw [hst]; rfl),
      fun hin => by cases hin⟩
  · intro j d m hne hj hm G
    refine ⟨by simpa using G.known, G.key, by simpa using G.listed, fun hin => ?_⟩
    rw [isLocked_setLock F.known, if_neg, G.locked hin]
    rintro rfl
    exact hne (H.single j i d c m hj hc hm hn hin (by rw [hst]; rfl))

/-- A call takes its slot out of the table, or leaves it there. It goes only if no other call refers
to it. -/
theorem release (H : Coherent owner s calls) (hc : calls[i]? = some c) {survey : FileSurvey}
    (hst : c.stage = .leaving n survey) :
    Coherent owner (s.release c.key n) (calls.set i { c with stage := .dropping n survey }) := by
  have hn : c.stage.slot? = some n := by rw [hst]; rfl
  have F := H.fits i c n hc hn
  have hlisted := F.listed (by rw [hst]; rfl)
  have hcounted := H.counted n F.known
  rw [if_pos hlisted] at hcounted
  rw [F.key_eq]
  by_cases hrefs : s.refs n ≤ 2
  · have honly : holders calls n ≤ 1 := by omega
    rw [release_of_last hrefs hlisted]
    have htable : ∀ k, ({ s with table := s.table.erase (owner n) }.drop n).table.get? k =
        if k = owner n then none else s.table.get? k := fun k => Dict.get?_erase _ _ _
    refine H.stay hc (by rw [hst]; rfl) ?_ ?_ ?_ ?_ (fun hin => by cases hin)
    · intro k m hm
      rw [htable] at hm
      split at hm
      · cases hm
      · simpa using H.owned k m hm
    · intro m hm
      cases hm
      exact ⟨by simpa using F.known, F.key, fun hstay => (by cases hstay),
        fun hin => (by cases hin)⟩
    · intro j d m hne hj hm G
      refine ⟨by simpa using G.known, G.key, fun hstay => ?_, fun hin => ?_⟩
      · rw [htable, if_neg, G.listed hstay]
        intro hk
        have hsame := G.listed hstay
        rw [hk, hlisted] at hsame
        obtain rfl := Option.some.inj hsame
        exact hne (eq_of_holders_le_one honly hj hc hm hn)
      · rw [isLocked_drop]
        exact G.locked hin
    · intro m hm
      have hcount := H.counted m (by simpa using hm)
      rw [htable, refs_drop]
      by_cases hmn : m = n
      · subst hmn
        rw [if_pos hlisted] at hcount
        rw [if_pos rfl, if_pos rfl, if_neg (by simp)]
        show s.refs m - 1 = _
        omega
      · rw [if_neg hmn]
        show s.refs m = _
        rw [hcount]
        congr 2
        split
        · rename_i hk
          rw [hk, hlisted]
          simp [Ne.symm hmn]
        · rfl
  · rw [release_of_shared _ hrefs]
    refine H.stay hc (by rw [hst]; rfl) H.owned ?_ (fun _ _ _ _ _ _ G => G) H.counted
      (fun hin => by cases hin)
    intro m hm
    cases hm
    exact ⟨F.known, F.key, fun hstay => (by cases hstay), fun hin => (by cases hin)⟩

/-- A call refers to its slot no longer. -/
theorem drop (H : Coherent owner s calls) (hc : calls[i]? = some c) {survey : FileSurvey}
    (hst : c.stage = .dropping n survey) :
    Coherent owner (s.drop n) (calls.set i { c with stage := .counting survey }) := by
  have hn : c.stage.slot? = some n := by rw [hst]; rfl
  have hpos : 0 < holders calls n :=
    List.countP_pos_iff.2 ⟨c, List.mem_of_getElem? hc, by simp [hn]⟩
  refine H.turn hc (by simpa using H.owned) (fun m hm => by cases hm) ?_ ?_
    (fun hin => by cases hin)
  · intro j d m _ _ _ G
    exact ⟨by simpa using G.known, G.key, by simpa using G.listed, by simpa using G.locked⟩
  · intro m hm
    have hcount := H.counted m (by simpa using hm)
    rw [refs_drop, table_drop, hcount, hn]
    simp only [Option.some.injEq, Stage.slot?, reduceCtorEq, if_false]
    by_cases hmn : m = n
    · subst hmn
      simp only [if_true]
      omega
    · simp only [hmn, Ne.symm hmn, if_false]
      omega

/-- A call that refers to no slot goes on. -/
theorem pass (H : Coherent owner s calls) (hc : calls[i]? = some c) (hn : c.stage.slot? = none)
    {stage : Stage} (hn' : stage.slot? = none) :
    Coherent owner s (calls.set i { c with stage }) := by
  refine H.stay hc (hn'.trans hn.symm) H.owned (fun m hm => ?_) (fun _ _ _ _ _ _ G => G)
    H.counted ?_
  · rw [hn'] at hm
    cases hm
  · intro _ j d m _ _ _ hm
    rw [hn'] at hm
    cases hm

/-- **Whatever a call does, the slots keep fitting the calls.** -/
theorem shift (H : Coherent owner s calls) (hc : calls[i]? = some c) {s' : Slots} {stage : Stage}
    (h : Shift c s s' stage) : ∃ owner', Coherent owner' s' (calls.set i { c with stage }) := by
  cases h with
  | take hst hkey =>
    unfold take
    cases hn : s.table.get? c.key with
    | some n => exact ⟨owner, H.join hc hst hkey hn⟩
    | none => exact ⟨_, H.add hc hst hkey hn⟩
  | lock n hst hfree => exact ⟨owner, H.lock hc hst hfree⟩
  | work n stage hn hin hn' hin' => exact ⟨owner, H.work hc hn hin hn'⟩
  | unlock n survey hst => exact ⟨owner, H.unlock hc hst⟩
  | release n survey hst => exact ⟨owner, H.release hc hst⟩
  | drop n survey hst => exact ⟨owner, H.drop hc hst⟩
  | pass stage hn hn' => exact ⟨owner, H.pass hc hn hn'⟩

/-- A new call refers to no slot. -/
theorem arrive (H : Coherent owner s calls) (hst : c.stage = .arriving) :
    Coherent owner s (calls ++ [c]) := by
  have hnew : ∀ (j : Nat) d n, (calls ++ [c])[j]? = some d → d.stage.slot? = some n →
      calls[j]? = some d := by
    intro j d n hj hn
    rcases getElem?_concat_cases hj with hj | ⟨-, rfl⟩
    · exact hj
    · rw [hst] at hn
      cases hn
  refine ⟨H.owned, fun j d n hj hn => H.fits j d n (hnew j d n hj hn) hn, fun n hn => ?_,
    fun j j' d d' n hj hj' hn hn' => H.single j j' d d' n (hnew j d n hj hn) (hnew j' d' n hj' hn')
      hn hn'⟩
  rw [H.counted n hn]
  simp [holders, hst, Stage.slot?]

end Coherent

end Slots

namespace Traffic

variable {g : Grammars} {ok : Traffic → Nat → Action → Traffic → Prop} {start s s' : Traffic}

/-- **What a step does to slots and calls**: nothing, a new call, or what a call does. -/
theorem step_slots {now : Nat} {a : Action} (h : s.step g now a = some s') :
    (s'.slots = s.slots ∧ s'.calls = s.calls) ∨
    (∃ c, c.stage = .arriving ∧ s'.slots = s.slots ∧ s'.calls = s.calls ++ [c]) ∨
    ∃ i c stage, a = .advance i ∧ s.calls[i]? = some c ∧ Slots.Shift c s.slots s'.slots stage ∧
      s'.calls = s.calls.set i { c with stage } := by
  cases a with
  | call path c o =>
    cases hp : s.engine.prepare c with
    | error e =>
      simp only [Traffic.step, hp] at h
      cases h
      exact .inl ⟨rfl, rfl⟩
    | ok config =>
      simp only [Traffic.step, hp] at h
      cases h
      exact .inr (.inl ⟨_, rfl, rfl, rfl⟩)
  | advance i =>
    obtain ⟨c, hc, hmoves⟩ := advance_iff.1 h
    obtain ⟨stage, hshift, hcalls⟩ := hmoves.shift
    exact .inr (.inr ⟨i, c, stage, rfl, hc, hshift, hcalls⟩)
  | invalidate | emptyCache | changeFiles =>
    cases h
    exact .inl ⟨rfl, rfl⟩

/-- The slots of some traffic fit its calls. -/
def Coherent (s : Traffic) : Prop := ∃ owner, Slots.Coherent owner s.slots s.calls

theorem Coherent.step {now : Nat} {a : Action} (H : s.Coherent) (h : s.step g now a = some s') :
    s'.Coherent := by
  obtain ⟨owner, H⟩ := H
  unfold Traffic.Coherent
  rcases step_slots h with ⟨hs, hcalls⟩ | ⟨c, hst, hs, hcalls⟩ |
    ⟨i, c, stage, -, hc, hshift, hcalls⟩
  · rw [hs, hcalls]
    exact ⟨owner, H⟩
  · rw [hs, hcalls]
    exact ⟨owner, H.arrive hst⟩
  · rw [hcalls]
    exact H.shift hc hshift

/-- **Along any run** the slots fit the calls. -/
theorem Coherent.reaches (H : start.Coherent) (h : Reaches g ok start s) : s.Coherent := by
  induction h with
  | refl => exact H
  | step now a _ hstep _ ih => exact ih.step hstep

theorem coherent_start (e : Engine) (fs : FileSystem) :
    Coherent { engine := e, files := fs } :=
  ⟨fun _ => "", Slots.coherent_empty _⟩

theorem Coherent.key?_of_slot? (H : s.Coherent) {i n : Nat} {c : Call} (hc : s.calls[i]? = some c)
    (hn : c.stage.slot? = some n) : c.key? = some c.key := by
  obtain ⟨owner, H⟩ := H
  have F := H.fits i c n hc hn
  rw [F.key_eq]
  exact F.key

/-- **Two calls for one key are never inside at the same time.** -/
theorem Coherent.eq_of_inside (H : s.Coherent) {i j : Nat} {c d : Call} {k : String}
    (hi : s.calls[i]? = some c) (hj : s.calls[j]? = some d) (hc : c.key? = some k)
    (hd : d.key? = some k) (hin : c.stage.isInside = true) (hin' : d.stage.isInside = true) :
    i = j := by
  obtain ⟨owner, H⟩ := H
  obtain ⟨n, hn⟩ := Stage.slot?_of_isInside hin
  obtain ⟨m, hm⟩ := Stage.slot?_of_isInside hin'
  have F := H.fits i c n hi hn
  have G := H.fits j d m hj hm
  have howner : owner n = owner m :=
    Option.some.inj ((F.key.symm.trans hc).trans (hd.symm.trans G.key))
  have hsame : n = m := by
    have h := F.listed (Stage.isStaying_of_isInside hin)
    rw [howner, G.listed (Stage.isStaying_of_isInside hin')] at h
    exact (Option.some.inj h).symm
  subst hsame
  exact H.single i j c d n hi hj hn hm hin hin'

theorem Coherent.isInside_of_ne (H : s.Coherent) {i j : Nat} {c d : Call} {k : String}
    (hi : s.calls[i]? = some c) (hj : s.calls[j]? = some d) (hc : c.key? = some k)
    (hd : d.key? = some k) (hin : c.stage.isInside = true) (hne : j ≠ i) :
    d.stage.isInside = false := by
  by_contra hin'
  exact hne (H.eq_of_inside hj hi hd hc (by simpa using hin') hin)

end Traffic

end CodeSurvey
