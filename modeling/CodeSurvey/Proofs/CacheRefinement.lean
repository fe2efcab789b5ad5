import CodeSurvey.Proofs.CacheReading
/-!
# A persistent cache is a plain table

The reference is a table that knows of no memory, files or restarts: a put sets the entry of its key,
and only another put, a removal, an invalidation of the key's path or a clearing touches it.
`Refines` ties a cache with its directory to such a table: memory and files hold nothing else, and
what has not expired is in its file. Every operation keeps that (`Refines.step`), so a lookup gives
exactly what the last effective put has stored, until it expires (`get_eq_some_iff`).
-/
namespace CodeSurvey.Cache

open FileSystem

variable {α : Type}

attribute [local irreducible] CacheDir.fileName

/-! ## Operations and the reference -/

/-- What the owner of a cache may do. -/
inductive Op (α : Type) where
  | put (key : String) (value : α) (ttl : Nat)
  | get (key : String)
  | remove (key : String)
  | invalidate (path : String)
  | clear
  | prune
  | validate
  | repair
  /-- Makes a new cache for the same directory. -/
  | reopen (maxEntries : Nat)

namespace Op

/-- The keys that an operation names. -/
def keys : Op α → List String
  | .put k _ _ | .get k | .remove k => [k]
  | _ => []

/-- The values that an operation stores. -/
def values : Op α → List α
  | .put _ v _ => [v]
  | _ => []

/-- Whether an operation ends what an earlier put has stored for a key. -/
def Undoes (k : String) : Op α → Prop
  | .put j _ _ | .remove j => j = k
  | .invalidate path => pathOfKey? k = some path
  | .clear => True
  | _ => False

/-- Performs an operation at a moment. Validating only reads. -/
def step (codec : Codec α) (dir : OsString) (now : Nat) (s : Cache α × FileSystem) :
    Op α → Cache α × FileSystem
  | .put k v ttl => s.1.put codec s.2 now k v ttl
  | .get k => (s.1.get codec s.2 now k).2
  | .remove k => s.1.remove s.2 k
  | .invalidate path => (s.1.invalidate codec s.2 path).2
  | .clear => s.1.clear s.2
  | .prune => ((s.1.prune now).2, s.2)
  | .validate => s
  | .repair => (s.1, (s.1.repair codec s.2 now).2)
  | .reopen n => (inDirectory n dir s.2).toOption.getD s

end Op

/-- Performs operations in order, each at its moment. -/
def run (codec : Codec α) (dir : OsString) (s : Cache α × FileSystem) (history : List (Nat × Op α)) :
    Cache α × FileSystem :=
  history.foldl (fun s x => x.2.step codec dir x.1 s) s

/-- The reference: for every key what is kept, and up to when. -/
abbrev Table (α : Type) := String → Option (Held α)

namespace Table

/-- What an operation does to the reference. -/
def step (now : Nat) (m : Table α) : Op α → Table α
  | .put k v ttl => fun j => if j = k then some ⟨v, min (now + ttl) endOfTime⟩ else m j
  | .remove k => fun j => if j = k then none else m j
  | .invalidate path => fun j => if isKeyOf path j then none else m j
  | .clear => fun _ => none
  | _ => m

/-- What the reference gives for a key at a moment. -/
def find (m : Table α) (now : Nat) (k : String) : Option α :=
  (m k).bind fun h => if h.isLive now then some h.value else none

/-- The reference after operations on an empty one. -/
def after (history : List (Nat × Op α)) : Table α :=
  history.foldl (fun m x => m.step x.1 x.2) fun _ => none

theorem after_concat (history : List (Nat × Op α)) (x : Nat × Op α) :
    after (history ++ [x]) = (after history).step x.1 x.2 := by
  simp [after]

/-- An operation sets an entry by a put, and otherwise keeps those that it does not undo. -/
theorem step_eq_some {now : Nat} {m : Table α} {op : Op α} {k : String} {h : Held α} :
    m.step now op k = some h ↔
      (∃ ttl, op = .put k h.value ttl ∧ h.expires = min (now + ttl) endOfTime) ∨
        ¬ op.Undoes k ∧ m k = some h := by
  obtain ⟨v, e⟩ := h
  cases op with
  | put j w ttl =>
    by_cases hk : k = j
    · subst hk
      simp only [step, if_true, Op.Undoes, not_true, false_and, or_false, Option.some.injEq,
        Held.mk.injEq, Op.put.injEq, true_and]
      constructor
      · rintro ⟨rfl, rfl⟩
        exact ⟨ttl, ⟨rfl, rfl⟩, rfl⟩
      · rintro ⟨_, ⟨rfl, rfl⟩, rfl⟩
        exact ⟨rfl, rfl⟩
    · simp [step, Op.Undoes, hk, Ne.symm hk]
  | remove j =>
    by_cases hk : k = j
    · simp [step, Op.Undoes, hk]
    · simp [step, Op.Undoes, hk, Ne.symm hk]
  | invalidate path =>
    by_cases hp : pathOfKey? k = some path <;> simp [step, Op.Undoes, isKeyOf, hp]
  | clear => simp [step, Op.Undoes]
  | get | prune | validate | repair | reopen => simp [step, Op.Undoes]

/-- **The reference holds what the last put has stored that nothing later has undone.** -/
theorem after_eq_some {history : List (Nat × Op α)} {k : String} {h : Held α} :
    after history k = some h ↔
      ∃ pre t ttl post, history = pre ++ (t, .put k h.value ttl) :: post ∧
        (∀ x ∈ post, ¬ x.2.Undoes k) ∧ h.expires = min (t + ttl) endOfTime := by
  induction history using List.reverseRecOn with
  | nil => simp [after]
  | append_singleton history x ih =>
    rw [after_concat, step_eq_some, ih]
    constructor
    · rintro (⟨ttl, hop, he⟩ | ⟨hundo, pre, t, ttl, post, rfl, hpost, he⟩)
      · exact ⟨history, x.1, ttl, [], by rw [← hop], by simp, he⟩
      · refine ⟨pre, t, ttl, post ++ [x], by simp, ?_, he⟩
        intro y hy
        rcases List.mem_append.1 hy with hy | hy
        · exact hpost y hy
        · exact List.mem_singleton.1 hy ▸ hundo
    · rintro ⟨pre, t, ttl, post, heq, hpost, he⟩
      rcases List.eq_nil_or_concat' post with rfl | ⟨post, y, rfl⟩
      · obtain ⟨-, rfl⟩ := List.append_inj' heq rfl |>.imp id List.cons.inj |>.imp id And.left
        exact .inl ⟨ttl, rfl, he⟩
      · rw [← List.cons_append, ← List.append_assoc] at heq
        obtain ⟨rfl, hxy⟩ := List.append_inj' heq rfl
        obtain rfl : x = y := (List.cons.inj hxy).1
        refine .inr ⟨hpost x (by simp), pre, t, ttl, post, rfl, ?_, he⟩
        exact fun z hz => hpost z (List.mem_append_left _ hz)

end Table

/-! ## The invariant -/

/-- A cache with its directory stands for a table at a moment; the names of the files of the used
keys are told apart. -/
structure Refines (codec : Codec α) (used : String → Prop) (dir : OsString) (top : Place)
    (s : Cache α × FileSystem) (m : Table α) (now : Nat) : Prop where
  directory : s.1.directory = some dir
  opens : OpensAt s.2 dir top
  /-- Memory holds nothing else. -/
  memory : ∀ e ∈ s.1.recent, m e.1 = some e.2
  /-- The entry files hold nothing else. -/
  files : ∀ n, Path.nameExtension? n = some ↑"json" → s.2.child? top n = none ∨
    ∃ k h, m k = some h ∧ n = CacheDir.fileName k ∧
      s.2.child? top n = some (.file (CacheDir.content codec k h))
  /-- What has not expired is in its file. -/
  live : ∀ k h, m k = some h → now < h.expires →
    s.2.child? top (CacheDir.fileName k) = some (.file (CacheDir.content codec k h))
  /-- Everything kept can be written and read. -/
  sound : ∀ k h, m k = some h → used k ∧ codec.Survives h.value ∧ h.expires < 2 ^ 64

namespace Refines

variable {codec : Codec α} {used : String → Prop} {dir : OsString} {top : Place}
  {s : Cache α × FileSystem} {m : Table α} {now : Nat}

theorem not_dir (R : Refines codec used dir top s m now) {n : OsString}
    (hn : Path.nameExtension? n = some ↑"json") : s.2.child? top n ≠ some .dir := by
  rcases R.files n hn with h | ⟨k, h, -, -, hc⟩
  · simp [h]
  · simp [hc]

/-- The entry files of the directory can all be deleted. -/
theorem listed (R : Refines codec used dir top s m now) :
    ∃ ns : List OsString, CacheDir.files s.2 dir = .ok (ns.map (Path.join dir)) ∧
      CacheDir.Deletable s.2 top ns ∧
      ∀ n, n ∈ ns ↔ Path.nameExtension? n = some ↑"json" ∧ (s.2.child? top n).isSome = true := by
  obtain ⟨ns, hns, hmem⟩ := CacheDir.files_eq R.opens
  refine ⟨ns, hns, fun n hn => ?_, hmem⟩
  obtain ⟨hext, hsome⟩ := (hmem n).1 hn
  rcases R.files n hext with h | ⟨k, h, -, rfl, -⟩
  · simp [h] at hsome
  · exact ⟨CacheDir.plain_fileName k, R.not_dir hext⟩

/-- An entry file that is there reads as an entry of the table. -/
theorem readEntry_eq (R : Refines codec used dir top s m now) {n : OsString}
    (hn : Path.nameExtension? n = some ↑"json") :
    s.2.child? top n = none ∨ ∃ k h, m k = some h ∧ n = CacheDir.fileName k ∧
      CacheDir.readEntry codec s.2 (Path.join dir n) = .found k h := by
  refine (R.files n hn).imp id fun ⟨k, h, hk, hname, hc⟩ => ⟨k, h, hk, hname, ?_⟩
  obtain ⟨-, hv, he⟩ := R.sound k h hk
  subst hname
  exact CacheDir.readEntry_content R.opens hc hv he

/-- Deletions that spare what has not expired, and take the files of what the table loses, lead to
the table that is left. -/
theorem deleted (R : Refines codec used dir top s m now) {t : Nat} (ht : now ≤ t)
    {s' : Cache α × FileSystem} {m' : Table α} {gone : OsString → Prop}
    (hdel : CacheDir.Deletes s.2 s'.2 dir top gone) (hdir : s'.1.directory = some dir)
    (hmem : ∀ e ∈ s'.1.recent, m' e.1 = some e.2) (hsub : ∀ k h, m' k = some h → m k = some h)
    (hspare : ∀ k h, m' k = some h → t < h.expires → ¬ gone (CacheDir.fileName k))
    (htake : ∀ k h, m k = some h → m' k ≠ some h →
      s.2.child? top (CacheDir.fileName k) = some (.file (CacheDir.content codec k h)) →
        gone (CacheDir.fileName k)) :
    Refines codec used dir top s' m' t := by
  refine ⟨hdir, hdel.opens, hmem, fun n hn => ?_, fun k h hk hlive => ?_, fun k h hk =>
    R.sound k h (hsub k h hk)⟩
  · by_cases hg : gone n
    · exact .inl (hdel.absent n hg)
    · rw [hdel.kept n hg]
      refine (R.files n hn).imp id fun ⟨k, h, hk, hname, hc⟩ => ⟨k, h, ?_, hname, hc⟩
      by_contra hlost
      subst hname
      exact hg (htake k h hk hlost hc)
  · rw [hdel.kept _ (hspare k h hk hlive)]
    exact R.live k h (hsub k h hk) (Nat.lt_of_le_of_lt ht hlive)

/-- Time may pass, and memory may forget. -/
theorem weaken (R : Refines codec used dir top s m now) {t : Nat} (ht : now ≤ t) {c : Cache α}
    (hdir : c.directory = some dir) (hmem : ∀ e ∈ c.recent, m e.1 = some e.2) :
    Refines codec used dir top (c, s.2) m t :=
  R.deleted ht (CacheDir.Deletes.refl R.opens) hdir hmem (fun _ _ h => h) (fun _ _ _ _ h => h)
    fun _ _ hk hne => absurd hk hne

variable (hnames : ∀ a b, used a → used b → CacheDir.fileName a = CacheDir.fileName b → a = b)
include hnames

/-- The directory gives for a key what the table holds, or nothing if the file is gone. -/
theorem read_eq (R : Refines codec used dir top s m now) {k : String} (hk : used k) :
    s.2.child? top (CacheDir.fileName k) = none ∧ CacheDir.read codec s.2 dir k = .missing ∨
      ∃ h, m k = some h ∧ CacheDir.read codec s.2 dir k = .found k h := by
  rcases R.readEntry_eq (CacheDir.nameExtension?_fileName k) with hnone | ⟨j, h, hj, hname, hread⟩
  · have hmissing : CacheDir.readEntry codec s.2 (CacheDir.filePath dir k) = .missing :=
      (CacheDir.readEntry_join R.opens (CacheDir.plain_fileName k)).trans (by simp only [hnone])
    exact .inl ⟨hnone, CacheDir.read_of_missing hmissing⟩
  · obtain rfl := hnames k j hk (R.sound j h hj).1 (OsString.ofText_inj.1 hname)
    have hfound : CacheDir.readEntry codec s.2 (CacheDir.filePath dir k) = .found k h := hread
    exact .inr ⟨h, hj, CacheDir.read_eq_found.2 ⟨rfl, hfound⟩⟩

/-- **A lookup gives what the table gives.** -/
theorem get_eq (R : Refines codec used dir top s m now) {t : Nat} (ht : now ≤ t) {k : String}
    (hk : used k) : (s.1.get codec s.2 t k).1 = m.find t k := by
  unfold Cache.get
  cases hh : s.1.recent.held? k with
  | some h =>
    have hm : m k = some h := R.memory _ (mem_of_held? hh)
    by_cases hl : h.isLive t = true <;> simp [Table.find, hm, hl]
  | none =>
    simp only [fetch, R.directory]
    rcases R.read_eq hnames hk with ⟨hnone, hread⟩ | ⟨h, hm, hread⟩
    · rw [hread]
      have : ∀ h, m k = some h → h.isLive t = false := by
        intro h hm
        by_contra hl
        have hlt : t < h.expires := by simpa [Held.isLive] using hl
        have := R.live k h hm (Nat.lt_of_le_of_lt ht hlt)
        simp [hnone] at this
      cases hm : m k with
      | none => simp [Table.find, hm]
      | some h => simp [Table.find, hm, this h hm]
    · rw [hread]
      by_cases hl : h.isLive t = true <;> simp [Table.find, hm, hl]

/-! ### One operation -/

theorem put (R : Refines codec used dir top s m now) {t : Nat} (ht : now ≤ t) {k : String}
    (hk : used k) {v : α} (hv : codec.Survives v) (ttl : Nat) :
    Refines codec used dir top (s.1.put codec s.2 t k v ttl) (m.step t (.put k v ttl)) t := by
  have hfile := R.not_dir (CacheDir.nameExtension?_fileName k)
  obtain ⟨hopens, hchild⟩ := CacheDir.write_join codec R.opens hfile
    ⟨v, min (t + ttl) endOfTime⟩
  have hput : s.1.put codec s.2 t k v ttl = (s.1.keep k ⟨v, min (t + ttl) endOfTime⟩,
      CacheDir.write codec s.2 dir k ⟨v, min (t + ttl) endOfTime⟩) := by
    simp [Cache.put, R.directory]
  have hother : ∀ j, j ≠ k → m.step t (.put k v ttl) j = m j := fun j hj => if_neg hj
  rw [hput]
  refine ⟨R.directory, hopens, fun e he => ?_, fun n hn => ?_, fun j h hj hlive => ?_,
    fun j h hj => ?_⟩
  · rcases mem_push he with rfl | ⟨hm, hne⟩
    · exact if_pos rfl
    · rw [hother e.1 hne]
      exact R.memory e hm
  · rw [hchild]
    split
    · rename_i hname
      exact .inr ⟨k, _, if_pos rfl, hname, rfl⟩
    · rename_i hname
      rcases R.files n hn with hnone | ⟨j, h, hj, hj', hc⟩
      · exact .inl hnone
      · rw [← hother j (by rintro rfl; exact hname hj')] at hj
        exact .inr ⟨j, h, hj, hj', hc⟩
  · rw [hchild]
    by_cases hjk : j = k
    · subst hjk
      rw [if_pos rfl, ← Option.some.inj ((if_pos rfl).symm.trans hj)]
    · rw [hother j hjk] at hj
      rw [if_neg fun hname => hjk (hnames j k (R.sound j h hj).1 hk (OsString.ofText_inj.1 hname))]
      exact R.live j h hj (Nat.lt_of_le_of_lt ht hlive)
  · by_cases hjk : j = k
    · subst hjk
      obtain rfl := Option.some.inj ((if_pos rfl).symm.trans hj)
      refine ⟨hk, hv, ?_⟩
      show min (t + ttl) endOfTime < 2 ^ 64
      unfold endOfTime
      omega
    · rw [hother j hjk] at hj
      exact R.sound j h hj

omit hnames in
/-- Taking the file of one key out of the directory. -/
theorem remove_file (R : Refines codec used dir top s m now) (k : String) :
    CacheDir.Deletes s.2 (CacheDir.remove s.2 dir k) dir top (· = CacheDir.fileName k) :=
  CacheDir.tryRemoveFile_join R.opens (CacheDir.plain_fileName k)
    (R.not_dir (CacheDir.nameExtension?_fileName k))

/-- Dropping an entry that has expired from its file changes nothing. -/
theorem expire (R : Refines codec used dir top s m now) {t : Nat} (ht : now ≤ t) {k : String}
    {h : Held α} (hk : m k = some h) (hdead : h.isLive t = false) {c : Cache α}
    (hdir : c.directory = some dir) (hmem : ∀ e ∈ c.recent, e ∈ s.1.recent) :
    Refines codec used dir top (c, CacheDir.remove s.2 dir k) m t := by
  refine R.deleted ht (R.remove_file k) hdir (fun e he => R.memory e (hmem e he))
    (fun _ _ h => h) (fun j g hj hlive hname => ?_) fun j g hj hne => absurd hj hne
  obtain rfl := hnames j k (R.sound j g hj).1 (R.sound k h hk).1 (OsString.ofText_inj.1 hname)
  rw [hk] at hj
  obtain rfl := Option.some.inj hj
  simp [Held.isLive, hlive] at hdead

theorem get (R : Refines codec used dir top s m now) {t : Nat} (ht : now ≤ t) {k : String}
    (hk : used k) : Refines codec used dir top (s.1.get codec s.2 t k).2 m t := by
  unfold Cache.get
  cases hh : s.1.recent.held? k with
  | some h =>
    have hm := mem_of_held? hh
    cases hl : h.isLive t with
    | true =>
      simp only [hl, if_true]
      refine R.weaken ht R.directory fun e he => ?_
      rcases mem_toFront he with rfl | ⟨he, -⟩
      · exact R.memory _ hm
      · exact R.memory e he
    | false =>
      simp only [hl, Bool.false_eq_true, if_false]
      rw [R.directory]
      exact R.expire hnames ht (R.memory _ hm) hl rfl fun e he => (mem_forget.1 he).1
  | none =>
    simp only [fetch, R.directory]
    rcases R.read_eq hnames hk with ⟨-, hread⟩ | ⟨h, hm, hread⟩ <;> rw [hread]
    · exact R.weaken ht R.directory R.memory
    · cases hl : h.isLive t with
      | true =>
        simp only [hl, if_true]
        refine R.weaken ht R.directory fun e he => ?_
        rcases mem_push he with rfl | ⟨he, -⟩
        · exact hm
        · exact R.memory e he
      | false =>
        simp only [hl, Bool.false_eq_true, if_false]
        exact R.expire hnames ht hm hl R.directory fun e he => he

theorem remove (R : Refines codec used dir top s m now) {t : Nat} (ht : now ≤ t) {k : String}
    (hk : used k) : Refines codec used dir top (s.1.remove s.2 k) (m.step t (.remove k)) t := by
  have hstep : ∀ j, m.step t (.remove k) j = if j = k then none else m j := fun _ => rfl
  have hdel : CacheDir.Deletes s.2 (s.1.remove s.2 k).2 dir top (· = CacheDir.fileName k) := by
    simpa [Cache.remove, R.directory] using R.remove_file k
  refine R.deleted ht hdel R.directory (fun e he => ?_) (fun j h hj => ?_) (fun j h hj _ hname => ?_)
    fun j h hj hne _ => ?_
  · obtain ⟨hm, hne⟩ := mem_forget.1 he
    rw [hstep, if_neg hne, R.memory e hm]
  · rw [hstep] at hj
    split at hj
    · cases hj
    · exact hj
  · rw [hstep] at hj
    split at hj
    · cases hj
    · exact absurd (hnames j k (R.sound j h hj).1 hk (OsString.ofText_inj.1 hname)) ‹_›
  · by_contra hname
    have hjk : j ≠ k := by
      rintro rfl
      exact hname rfl
    rw [hstep, if_neg hjk] at hne
    exact hne hj

theorem invalidate (R : Refines codec used dir top s m now) {t : Nat} (ht : now ≤ t)
    (path : String) :
    Refines codec used dir top (s.1.invalidate codec s.2 path).2 (m.step t (.invalidate path)) t := by
  obtain ⟨ns, hfiles, hdeletable, hmem⟩ := R.listed
  have hstep : ∀ j, m.step t (.invalidate path) j = if isKeyOf path j then none else m j :=
    fun _ => rfl
  have hdel : CacheDir.Deletes s.2 (s.1.invalidate codec s.2 path).2.2 dir top
      fun n => n ∈ ns ∧ CacheDir.HoldsKey codec s.2 dir (isKeyOf path) n := by
    have := CacheDir.removeWhere_join codec (isKeyOf path) R.opens hdeletable
    simpa [Cache.invalidate, R.directory, hfiles, Except.toOption] using this
  refine R.deleted ht hdel R.directory (fun e he => ?_) (fun j h hj => ?_) (fun j h hj _ hgone => ?_)
    fun j h hj hne hfile => ?_
  · obtain ⟨hm, hkey⟩ := List.mem_filter.1 he
    rw [hstep, if_neg (by simpa using hkey), R.memory e hm]
  · rw [hstep] at hj
    split at hj
    · cases hj
    · exact hj
  · -- the file of a key that stays holds that key and no other
    obtain ⟨-, key, held, hread, hchosen⟩ := hgone
    rw [hstep] at hj
    split at hj
    · cases hj
    · rename_i hkey
      rcases R.readEntry_eq (CacheDir.nameExtension?_fileName j) with hnone | ⟨i, g, hi, hname, hr⟩
      · rw [CacheDir.readEntry_join R.opens (CacheDir.plain_fileName j), hnone] at hread
        cases hread
      · rw [hr] at hread
        obtain ⟨rfl, rfl⟩ := Reading.found.inj hread
        obtain rfl := hnames j i (R.sound j h hj).1 (R.sound i g hi).1 (OsString.ofText_inj.1 hname)
        exact hkey hchosen
  · have hkey : isKeyOf path j = true := by
      by_contra hkey
      rw [hstep, if_neg hkey] at hne
      exact hne hj
    obtain ⟨-, hv, he⟩ := R.sound j h hj
    exact ⟨(hmem _).2 ⟨CacheDir.nameExtension?_fileName j, by simp [hfile]⟩,
      j, h, CacheDir.readEntry_content R.opens hfile hv he, hkey⟩

omit hnames in
theorem clear (R : Refines codec used dir top s m now) {t : Nat} (ht : now ≤ t) :
    Refines codec used dir top (s.1.clear s.2) (m.step t .clear) t := by
  obtain ⟨ns, hfiles, hdeletable, hmem⟩ := R.listed
  have hdel : CacheDir.Deletes s.2 (s.1.clear s.2).2 dir top (· ∈ ns) := by
    have := CacheDir.foldl_tryRemoveFile R.opens hdeletable
    simpa [Cache.clear, R.directory, CacheDir.clear, hfiles, Except.toOption] using this
  refine R.deleted ht hdel R.directory (fun e he => absurd he (List.not_mem_nil)) (fun j h hj => ?_)
    (fun j h hj => ?_) fun j h _ _ hfile => ?_
  · cases hj
  · cases hj
  · exact (hmem _).2 ⟨CacheDir.nameExtension?_fileName j, by simp [hfile]⟩

omit hnames in
theorem repair (R : Refines codec used dir top s m now) {t : Nat} (ht : now ≤ t) :
    Refines codec used dir top (s.1, (s.1.repair codec s.2 t).2) m t := by
  obtain ⟨ns, hfiles, hdeletable, -⟩ := R.listed
  obtain ⟨gone, hdel, hdoomed⟩ :=
    CacheDir.repair_join codec t R.directory R.opens hfiles hdeletable
  refine R.deleted ht hdel R.directory R.memory (fun _ _ h => h) (fun j h hj hlive hgone => ?_)
    fun j h hj hne => absurd hj hne
  -- the file of a live entry is neither corrupt nor expired
  obtain ⟨-, hv, he⟩ := R.sound j h hj
  have hfile := R.live j h hj (Nat.lt_of_le_of_lt ht hlive)
  have := (hdoomed _ hgone).2
  rw [CacheDir.readEntry_content R.opens hfile hv he] at this
  simp [Reading.isDoomed, Held.isLive, hlive] at this

/-- **Every operation keeps the cache in step with the table.** -/
theorem step (R : Refines codec used dir top s m now) {t : Nat} (ht : now ≤ t) {op : Op α}
    (hkeys : ∀ k ∈ op.keys, used k) (hvalues : ∀ v ∈ op.values, codec.Survives v) :
    Refines codec used dir top (op.step codec dir t s) (m.step t op) t := by
  cases op with
  | put k v ttl => exact R.put hnames ht (hkeys k (by simp [Op.keys])) (hvalues v (by simp [Op.values])) ttl
  | get k => exact R.get hnames ht (hkeys k (by simp [Op.keys]))
  | remove k => exact R.remove hnames ht (hkeys k (by simp [Op.keys]))
  | invalidate path => exact R.invalidate hnames ht path
  | clear => exact R.clear ht
  | prune => exact R.weaken ht R.directory fun e he => R.memory e (List.mem_filter.1 he).1
  | validate => exact R.weaken ht R.directory R.memory
  | repair => exact R.repair ht
  | reopen n =>
    have hopen : inDirectory (α := α) n dir s.2 =
        .ok ({ (inMemory n : Cache α) with directory := some dir }, s.2) := by
      simp [inDirectory, R.opens.makeDirs]
    simp only [Op.step, hopen, Except.toOption, Option.getD_some]
    exact R.weaken ht rfl fun e he => absurd he (List.not_mem_nil)

/-- **A whole run keeps the cache in step with the table**, as long as the clock does not go back. -/
theorem run {history : List (Nat × Op α)} {t : Nat} (R : Refines codec used dir top s m now)
    (hclock : (now :: history.map (·.1) ++ [t]).Pairwise (· ≤ ·))
    (hkeys : ∀ x ∈ history, ∀ k ∈ x.2.keys, used k)
    (hvalues : ∀ x ∈ history, ∀ v ∈ x.2.values, codec.Survives v) :
    Refines codec used dir top (Cache.run codec dir s history)
      (history.foldl (fun m x => m.step x.1 x.2) m) t := by
  induction history generalizing s m now with
  | nil =>
    have ht : now ≤ t := by simpa using hclock
    exact R.weaken ht R.directory R.memory
  | cons x history ih =>
    rw [List.map_cons, List.cons_append, List.pairwise_cons] at hclock
    rw [List.forall_mem_cons] at hkeys hvalues
    have hx : now ≤ x.1 := hclock.1 x.1 (by simp)
    exact ih (R.step hnames hx hkeys.1 hvalues.1) hclock.2 hkeys.2 hvalues.2

end Refines

/-- A new cache on a directory without entry files stands for the empty table. -/
theorem refines_empty {codec : Codec α} {used : String → Prop} {n : Nat} {dir : OsString}
    {fs fs₀ : FileSystem} {c : Cache α} (hopen : inDirectory n dir fs = .ok (c, fs₀))
    (hempty : CacheDir.files fs₀ dir = .ok []) :
    ∃ top, Refines codec used dir top (c, fs₀) (fun _ => none) 0 := by
  have hc : c = { (inMemory n : Cache α) with directory := some dir } := by
    unfold inDirectory at hopen
    split at hopen
    · simp only [Except.ok.injEq, Prod.mk.injEq] at hopen
      exact hopen.1.symm
    · cases hopen
  obtain ⟨top, hopens⟩ := CacheDir.opensAt_of_files hempty
  obtain ⟨ns, hns, hmem⟩ := CacheDir.files_eq hopens
  obtain rfl : ns = [] := by
    rw [hempty] at hns
    simpa using (Except.ok.inj hns).symm
  subst hc
  refine ⟨top, rfl, hopens, fun e he => absurd he List.not_mem_nil, fun n hn => .inl ?_,
    fun _ _ h => (by cases h), fun _ _ h => (by cases h)⟩
  by_contra hsome
  exact absurd ((hmem n).2 ⟨hn, Option.isSome_iff_ne_none.2 hsome⟩) List.not_mem_nil

/-- **A persistent cache is a plain table with expiry**, whatever fits into its memory: on a directory
that starts without entries, a lookup gives a value if and only if it is the one of the last put on
that key which no later removal, clearing or invalidation has undone, and it has not expired. -/
theorem get_eq_some_iff {codec : Codec α} {n : Nat} {dir : OsString} {fs fs₀ : FileSystem}
    {c : Cache α} (hopen : inDirectory n dir fs = .ok (c, fs₀))
    (hempty : CacheDir.files fs₀ dir = .ok [])
    {history : List (Nat × Op α)} {t : Nat} {k : String}
    (hclock : (history.map (·.1) ++ [t]).Pairwise (· ≤ ·))
    (hdigest : ∀ a ∈ k :: history.flatMap (·.2.keys), ∀ b ∈ k :: history.flatMap (·.2.keys),
      Sha256.digest (Utf8.encode a.toList) = Sha256.digest (Utf8.encode b.toList) → a = b)
    (hvalues : ∀ x ∈ history, ∀ v ∈ x.2.values, codec.Survives v) (v : α) :
    ((run codec dir (c, fs₀) history).1.get codec (run codec dir (c, fs₀) history).2 t k).1 = some v ↔
      ∃ pre t₀ ttl post, history = pre ++ (t₀, .put k v ttl) :: post ∧
        (∀ x ∈ post, ¬ x.2.Undoes k) ∧ t < min (t₀ + ttl) (2 ^ 64 - 1) := by
  let used : String → Prop := fun a => a ∈ k :: history.flatMap (·.2.keys)
  have hnames : ∀ a b, used a → used b → CacheDir.fileName a = CacheDir.fileName b → a = b :=
    fun a b ha hb h => hdigest a ha b hb (CacheDir.digest_eq_of_fileName h)
  obtain ⟨top, hstart⟩ : ∃ top, Refines codec used dir top (c, fs₀) (fun _ => none) 0 :=
    refines_empty hopen hempty
  have R := hstart.run hnames (t := t) (List.pairwise_cons.2 ⟨by simp, hclock⟩)
    (fun x hx j hj => List.mem_cons_of_mem _ (List.mem_flatMap.2 ⟨x, hx, hj⟩)) hvalues
  rw [R.get_eq hnames (Nat.le_refl t) List.mem_cons_self]
  change (Table.after history).find t k = some v ↔ _
  constructor
  · intro hfind
    obtain ⟨h, hk, hlive⟩ := Option.bind_eq_some_iff.1 hfind
    split at hlive
    · rename_i hl
      obtain rfl := Option.some.inj hlive
      obtain ⟨pre, t₀, ttl, post, hsplit, hpost, he⟩ := Table.after_eq_some.1 hk
      refine ⟨pre, t₀, ttl, post, hsplit, hpost, ?_⟩
      rw [Held.isLive, decide_eq_true_eq, he] at hl
      exact hl
    · cases hlive
  · rintro ⟨pre, t₀, ttl, post, hsplit, hpost, hlive⟩
    have hk : Table.after history k = some ⟨v, min (t₀ + ttl) endOfTime⟩ :=
      Table.after_eq_some.2 ⟨pre, t₀, ttl, post, hsplit, hpost, rfl⟩
    refine Option.bind_eq_some_iff.2 ⟨_, hk, if_pos ?_⟩
    exact decide_eq_true hlive

/-- An entry that was crowded out of memory, and then lost with it, is found again. -/
theorem get_eq_crowded_out :
    let s := run Codec.json "cache"
      (({ capacity := 1, directory := some "cache" } : Cache Json), ⟨[(["cache"], .dir)], []⟩)
      [(0, .put "a:x" (.str "one") 100), (5, .put "b:y" (.str "two") 50), (7, .reopen 1)]
    (s.1.get Codec.json s.2 9 "a:x").1 = some (.str "one") := by
  have hsurvives : ∀ s : String, Codec.json.Survives (.str s) := fun s =>
    ⟨.str s, Json.readValue_str 126 s _, rfl⟩
  have hopen : inDirectory 1 "cache" FileSystem.empty =
      .ok (({ capacity := 1, directory := some "cache" } : Cache Json), ⟨[(["cache"], .dir)], []⟩) := rfl
  refine (get_eq_some_iff hopen (by decide +kernel) (by decide) ?_ ?_ _).2
    ⟨[], 0, 100, _, rfl, ?_, by decide⟩
  · decide +kernel
  · simp [Op.values, hsurvives]
  · simp [Op.Undoes]

end CodeSurvey.Cache
