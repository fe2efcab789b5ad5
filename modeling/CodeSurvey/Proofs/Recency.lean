import CodeSurvey.Proofs.CacheRefinement
import Mathlib.Data.Finset.Card
/-!
# A cache in memory forgets what was used least recently

Puts and successful lookups touch their key. The reference is the history of touches alone:
`recency` lists the distinct keys of such a history, the one that was touched last in front.
`Ranked` ties a cache without a directory to it: its keys are the first ones of that list, as many
as fit, and its values are those of the last puts. Every put and lookup keeps that (`Ranked.step`),
so a key is found as long as fewer other keys than fit were touched since it was touched last
(`get_memory_iff`).
-/
namespace CodeSurvey

/-! ## Distinct keys by their last touch -/

/-- The distinct keys of some touches, the one that was touched last in front. -/
def recency (touched : List String) : List String :=
  touched.foldl (fun keys k => k :: keys.filter (· != k)) []

theorem recency_concat (touched : List String) (k : String) :
    recency (touched ++ [k]) = k :: (recency touched).filter (· != k) := by
  simp [recency]

theorem mem_recency {touched : List String} {k : String} : k ∈ recency touched ↔ k ∈ touched := by
  induction touched using List.reverseRecOn with
  | nil => simp [recency]
  | append_singleton touched j ih =>
    rw [recency_concat, List.mem_cons, List.mem_filter, ih, List.mem_append, List.mem_singleton]
    by_cases h : k = j <;> simp [h]

theorem nodup_recency (touched : List String) : (recency touched).Nodup := by
  induction touched using List.reverseRecOn with
  | nil => simp [recency]
  | append_singleton touched j ih =>
    rw [recency_concat]
    exact List.nodup_cons.2 ⟨by simp, ih.sublist List.filter_sublist⟩

theorem length_recency (touched : List String) :
    (recency touched).length = touched.toFinset.card := by
  rw [← List.toFinset_card_of_nodup (nodup_recency touched)]
  congr 1
  ext k
  simp [mem_recency]

/-- The keys that were touched after the last touch of a key stand before it. -/
theorem recency_split (before : List String) {after : List String} {k : String} (h : k ∉ after) :
    ∃ older, recency (before ++ k :: after) = recency after ++ k :: older := by
  induction after using List.reverseRecOn with
  | nil => exact ⟨_, recency_concat before k⟩
  | append_singleton after j ih =>
    obtain ⟨hafter, hj⟩ : k ∉ after ∧ k ≠ j := by simpa using h
    obtain ⟨older, holder⟩ := ih hafter
    refine ⟨older.filter (· != j), ?_⟩
    rw [← List.cons_append, ← List.append_assoc, recency_concat, recency_concat, holder,
      List.filter_append, List.filter_cons_of_pos (by simpa using hj), List.cons_append]

/-- A key is among the first of the list if and only if few others were touched after it. -/
theorem mem_take_recency {touched : List String} {n : Nat} {k : String} :
    k ∈ (recency touched).take n ↔
      ∃ before after, touched = before ++ k :: after ∧ k ∉ after ∧ after.toFinset.card < n := by
  constructor
  · intro hmem
    -- split the touches at the last one of the key
    have hk : k ∈ touched.reverse := List.mem_reverse.2 (mem_recency.1 (List.mem_of_mem_take hmem))
    obtain ⟨after, before, hsplit, hafter⟩ := List.eq_append_cons_of_mem hk
    have htouched : touched = before.reverse ++ k :: after.reverse := by
      rw [← List.reverse_reverse touched, hsplit]
      simp
    have hnot : k ∉ after.reverse := by simpa using hafter
    refine ⟨before.reverse, after.reverse, htouched, hnot, ?_⟩
    rw [← length_recency]
    by_contra hfull
    obtain ⟨older, holder⟩ := recency_split before.reverse hnot
    rw [htouched, holder, List.take_append_of_le_length (Nat.not_lt.1 hfull)] at hmem
    exact hnot (mem_recency.1 (List.mem_of_mem_take hmem))
  · rintro ⟨before, after, rfl, hnot, hcard⟩
    obtain ⟨older, holder⟩ := recency_split before hnot
    rw [← length_recency] at hcard
    rw [holder]
    exact List.mem_take_iff_getElem.2 ⟨(recency after).length, by simp [hcard], by simp⟩

theorem filter_ne_self {l : List String} {k : String} (h : k ∉ l) : l.filter (· != k) = l := by
  refine List.filter_eq_self.2 fun j hj => ?_
  have hne : j ≠ k := fun heq => h (heq ▸ hj)
  simpa using hne

/-- Touching a key in a bounded list: if there is no room for it, the last one goes. -/
theorem take_cons_filter {order : List String} (hnodup : order.Nodup) {n : Nat} (hn : 0 < n)
    (k : String) :
    (k :: order.filter (· != k)).take n =
      k :: (if k ∉ order.take n ∧ n ≤ (order.take n).length then (order.take n).dropLast
        else order.take n).filter (· != k) := by
  obtain ⟨m, rfl⟩ : ∃ m, n = m + 1 := ⟨n - 1, by omega⟩
  obtain ⟨rest, hrest⟩ : ∃ rest, order = order.take (m + 1) ++ rest :=
    ⟨_, (List.take_append_drop (m + 1) order).symm⟩
  have hshort : (order.take (m + 1)).length ≤ m → rest = [] := by
    intro hle
    have hlen := congrArg List.length hrest
    rw [List.length_take] at hle
    rw [List.length_append, List.length_take] at hlen
    exact List.length_eq_zero_iff.1 (by omega)
  have hfilter : order.filter (· != k) =
      (order.take (m + 1)).filter (· != k) ++ rest.filter (· != k) := by
    rw [← List.filter_append, ← hrest]
  have hle := List.length_take_le (m + 1) order
  rw [List.take_succ_cons, hfilter]
  generalize order.take (m + 1) = first at *
  have hfirst : first.Nodup := by
    rw [hrest] at hnodup
    exact hnodup.of_append_left
  congr 1
  by_cases hk : k ∈ first
  · -- the key is taken out of its old place
    have hlen : (first.filter (· != k)).length + 1 = first.length := by
      rw [← hfirst.erase_eq_filter, List.length_erase_of_mem hk]
      have := List.length_pos_of_mem hk
      omega
    simp only [hk, not_true, false_and, if_false]
    rcases Nat.lt_or_ge m first.length with hfull | hroom
    · exact List.take_left' (by omega)
    · rw [hshort hroom, List.filter_nil, List.append_nil, List.take_of_length_le (by omega)]
  · have hself := filter_ne_self hk
    rw [hself]
    rcases Nat.lt_or_ge m first.length with hfull | hroom
    · -- there is no room, and the last one goes
      have hdrop := filter_ne_self fun h => hk (List.mem_of_mem_dropLast h)
      rw [if_pos ⟨hk, hfull⟩, hdrop, List.take_append_of_le_length (by omega),
        List.dropLast_eq_take, show first.length - 1 = m by omega]
    · rw [if_neg (by omega), hself, hshort hroom, List.filter_nil, List.append_nil,
        List.take_of_length_le hroom]

namespace Cache

open FileSystem

variable {α : Type}

/-! ## Touches -/

namespace Op

/-- Whether an operation is a put or a lookup. -/
def isAccess : Op α → Bool
  | .put .. | .get .. => true
  | _ => false

/-- The key that an operation touches: one that is put, or one that is found. -/
def touched? (codec : Codec α) (now : Nat) (s : Cache α × FileSystem) : Op α → Option String
  | .put k _ _ => some k
  | .get k => if (s.1.get codec s.2 now k).1.isSome then some k else none
  | _ => none

end Op

/-- The keys that operations touch, in order. -/
def touches (codec : Codec α) (dir : String) (s : Cache α × FileSystem) :
    List (Nat × Op α) → List String
  | [] => []
  | x :: rest =>
    (x.2.touched? codec x.1 s).toList ++ touches codec dir (x.2.step codec dir x.1 s) rest

/-- Nothing in memory has expired. -/
def AllLive (c : Cache α) (now : Nat) : Prop := ∀ e ∈ c.recent, e.2.isLive now = true

instance (c : Cache α) (now : Nat) : Decidable (c.AllLive now) :=
  inferInstanceAs (Decidable (∀ e ∈ c.recent, e.2.isLive now = true))

/-- Nothing in memory has expired when an operation is performed, nor at a moment after the last. -/
def NoneExpires (codec : Codec α) (dir : String) (t : Nat) (s : Cache α × FileSystem) :
    List (Nat × Op α) → Prop
  | [] => s.1.AllLive t
  | x :: rest => s.1.AllLive x.1 ∧ NoneExpires codec dir t (x.2.step codec dir x.1 s) rest

instance decidableNoneExpires (codec : Codec α) (dir : String) (t : Nat) :
    (s : Cache α × FileSystem) → (history : List (Nat × Op α)) →
      Decidable (NoneExpires codec dir t s history)
  | s, [] => inferInstanceAs (Decidable (s.1.AllLive t))
  | s, x :: rest =>
    have := decidableNoneExpires codec dir t (x.2.step codec dir x.1 s) rest
    inferInstanceAs (Decidable (_ ∧ _))

/-! ## Single operations -/

theorem mem_keys_of_held? {r : Recent α} {k : String} :
    k ∈ r.keys ↔ ∃ h, r.held? k = some h := by
  rw [← Option.isSome_iff_exists, Recent.held?, lookup_isSome_iff, Recent.keys]
  simp

theorem keys_toFront (r : Recent α) (k : String) (h : Held α) :
    (r.toFront k h).keys = k :: r.keys.filter (· != k) :=
  congrArg (k :: ·) (Recent.keys_forget r k)

theorem isCrowded_iff {r : Recent α} {n : Nat} {k : String} :
    r.isCrowded n k = true ↔ k ∉ r.keys ∧ n ≤ r.keys.length := by
  rw [mem_keys_of_held?]
  simp [Recent.isCrowded, Recent.keys, Option.eq_none_iff_forall_ne_some]

/-- The keys after an entry is added: the last one goes if there is no room. -/
theorem keys_push (r : Recent α) (n : Nat) (k : String) (h : Held α) :
    (r.push n k h).keys =
      k :: (if k ∉ r.keys ∧ n ≤ r.keys.length then r.keys.dropLast else r.keys).filter (· != k) := by
  unfold Recent.push
  by_cases hc : r.isCrowded n k = true
  · rw [if_pos hc, if_pos (isCrowded_iff.1 hc), keys_toFront]
    simp [Recent.keys, List.map_dropLast]
  · rw [if_neg hc, if_neg (mt isCrowded_iff.2 hc), keys_toFront]

section InMemory

variable {codec : Codec α} {c : Cache α} {fs : FileSystem} {now : Nat} {k : String}

/-- Without a directory, a lookup of a key that is not there only counts. -/
theorem get_of_absent (hdir : c.directory = none) (hk : k ∉ c.recent.keys) :
    c.get codec fs now k = (none, c.countMiss, fs) := by
  have hnone : c.recent.held? k = none :=
    Option.eq_none_iff_forall_ne_some.2 fun h hh => hk (mem_keys_of_held?.2 ⟨h, hh⟩)
  simp only [Cache.get, hnone, fetch, hdir]

/-- A lookup of a key that is there and has not expired moves it to the front. -/
theorem get_of_live {h : Held α} (hk : c.recent.held? k = some h) (hl : h.isLive now = true) :
    c.get codec fs now k =
      (some h.value, { c with recent := c.recent.toFront k h }.countHit, fs) := by
  simp only [Cache.get, hk, hl, if_true]

/-- While nothing has expired, a cache without a directory finds what is in memory. -/
theorem get_eq_map_held? (hdir : c.directory = none) (hlive : c.AllLive now) :
    (c.get codec fs now k).1 = (c.recent.held? k).map (·.value) := by
  cases hk : c.recent.held? k with
  | none =>
    have habsent : k ∉ c.recent.keys := by
      rw [mem_keys_of_held?, hk]
      simp
    rw [get_of_absent hdir habsent]
    rfl
  | some h =>
    rw [get_of_live hk (hlive _ (mem_of_held? hk))]
    rfl

end InMemory

/-! ## The invariant -/

/-- A cache without a directory stands for a history of touches and a table: it holds the keys that
were touched last, as many as fit, with the values of the table. -/
structure Ranked (n : Nat) (touched : List String) (m : Table α) (c : Cache α) : Prop where
  capacity : c.capacity = n
  directory : c.directory = none
  keys : c.recent.keys = (recency touched).take n
  values : ∀ e ∈ c.recent, m e.1 = some e.2

namespace Ranked

variable {codec : Codec α} {dir : String} {n : Nat} {touched : List String} {m : Table α}
  {s : Cache α × FileSystem} {now : Nat}

theorem put (R : Ranked n touched m s.1) (hn : 0 < n) (k : String) (v : α) (ttl : Nat) :
    Ranked n (touched ++ [k]) (m.step now (.put k v ttl)) (s.1.put codec s.2 now k v ttl).1 := by
  refine ⟨R.capacity, R.directory, ?_, fun e he => ?_⟩
  · show (s.1.recent.push s.1.capacity k _).keys = _
    rw [recency_concat, take_cons_filter (nodup_recency touched) hn, keys_push, R.keys, R.capacity]
  · rcases mem_push he with rfl | ⟨hmem, hne⟩
    · exact if_pos rfl
    · exact (if_neg hne).trans (R.values e hmem)

theorem get (R : Ranked n touched m s.1) (hn : 0 < n) (hlive : s.1.AllLive now) (k : String) :
    Ranked n (touched ++ (Op.touched? codec now s (.get k)).toList) m
      (s.1.get codec s.2 now k).2.1 := by
  cases hk : s.1.recent.held? k with
  | none =>
    have habsent : k ∉ s.1.recent.keys := by
      rw [mem_keys_of_held?, hk]
      simp
    rw [Op.touched?, get_of_absent R.directory habsent]
    simpa using ⟨R.capacity, R.directory, R.keys, R.values⟩
  | some h =>
    have hmem : k ∈ (recency touched).take n := R.keys ▸ mem_keys_of_held?.2 ⟨h, hk⟩
    rw [Op.touched?, get_of_live hk (hlive _ (mem_of_held? hk))]
    refine ⟨R.capacity, R.directory, ?_, fun e he => ?_⟩
    · show (s.1.recent.toFront k h).keys = _
      rw [keys_toFront, R.keys]
      simp only [Option.isSome_some, if_true, Option.toList_some]
      rw [recency_concat, take_cons_filter (nodup_recency touched) hn, if_neg fun h => h.1 hmem]
    · rcases mem_toFront he with rfl | ⟨he, -⟩
      · exact R.values _ (mem_of_held? hk)
      · exact R.values e he

/-- **Every put and every lookup keeps the cache in step with the touches.** -/
theorem step (R : Ranked n touched m s.1) (hn : 0 < n) (hlive : s.1.AllLive now) {op : Op α}
    (hop : op.isAccess = true) :
    Ranked n (touched ++ (op.touched? codec now s).toList) (m.step now op)
      (op.step codec dir now s).1 := by
  cases op with
  | put k v ttl => exact R.put hn k v ttl
  | get k => exact R.get hn hlive k
  | remove | invalidate | clear | prune | validate | repair | reopen => simp [Op.isAccess] at hop

/-- **So does a whole run**, and nothing has expired at its end. -/
theorem run {t : Nat} {history : List (Nat × Op α)} (R : Ranked n touched m s.1) (hn : 0 < n)
    (hops : ∀ x ∈ history, x.2.isAccess = true) (hlive : NoneExpires codec dir t s history) :
    Ranked n (touched ++ touches codec dir s history)
        (history.foldl (fun m x => m.step x.1 x.2) m) (Cache.run codec dir s history).1 ∧
      (Cache.run codec dir s history).1.AllLive t := by
  induction history generalizing s m touched with
  | nil => exact ⟨by simpa [touches, Cache.run] using R, hlive⟩
  | cons x history ih =>
    rw [List.forall_mem_cons] at hops
    rw [touches, ← List.append_assoc]
    exact ih (R.step hn hlive.1 hops.1) hops.2 hlive.2

theorem nodup (R : Ranked n touched m s.1) : s.1.recent.keys.Nodup :=
  R.keys ▸ (nodup_recency touched).sublist (List.take_sublist n _)

theorem length_le (R : Ranked n touched m s.1) : s.1.recent.length ≤ n := by
  have hlen : s.1.recent.keys.length ≤ n := R.keys ▸ List.length_take_le n _
  simpa [Recent.keys] using hlen

/-- A lookup gives what the table holds, for the keys that were touched last. -/
theorem get_iff (R : Ranked n touched m s.1) (hlive : s.1.AllLive now) {k : String} {v : α} :
    (s.1.get codec s.2 now k).1 = some v ↔
      (∃ e, m k = some ⟨v, e⟩) ∧ k ∈ (recency touched).take n := by
  rw [get_eq_map_held? R.directory hlive, Option.map_eq_some_iff, ← R.keys, mem_keys_of_held?]
  constructor
  · rintro ⟨h, hk, rfl⟩
    exact ⟨⟨h.expires, R.values _ (mem_of_held? hk)⟩, h, hk⟩
  · rintro ⟨⟨e, hm⟩, h, hk⟩
    have hsame := (R.values _ (mem_of_held? hk)).symm.trans hm
    exact ⟨h, hk, congrArg Held.value (Option.some.inj hsame)⟩

end Ranked

theorem ranked_inMemory (maxEntries : Nat) :
    Ranked (max maxEntries 1) [] (fun _ => none) (inMemory maxEntries : Cache α) :=
  ⟨rfl, rfl, by simp [inMemory, Recent.keys, recency], fun e he => absurd he List.not_mem_nil⟩

/-! ## The theorem -/

/-- Between two moments of a cache nothing was evicted: every key is still there, and no eviction
was counted. -/
structure EvictsNothing (c d : Cache α) : Prop where
  keys : c.recent.keys ⊆ d.recent.keys
  counted : d.counters.evictions = c.counters.evictions

/-- An entry for a key that is there takes the place of the old one. -/
theorem evictsNothing_put (codec : Codec α) {c : Cache α} {k : String} (hk : k ∈ c.recent.keys)
    (fs : FileSystem) (now : Nat) (v : α) (ttl : Nat) :
    EvictsNothing c (c.put codec fs now k v ttl).1 := by
  have hcrowded : ¬ c.recent.isCrowded c.capacity k = true := fun h => (isCrowded_iff.1 h).1 hk
  refine ⟨fun j hj => ?_, ?_⟩
  · show j ∈ (c.recent.push c.capacity k _).keys
    rw [keys_push, if_neg fun h => h.1 hk, List.mem_cons, List.mem_filter]
    by_cases h : j = k <;> simp [h, hj]
  · simp [Cache.put, keep, hcrowded]

/-- The last put on a key in a history has a value. -/
def LastPut (history : List (Nat × Op α)) (k : String) (v : α) : Prop :=
  ∃ pre t ttl post, history = pre ++ (t, .put k v ttl) :: post ∧
    ∀ x ∈ post, ∀ w ttl', x.2 ≠ .put k w ttl'

theorem lastPut_iff {history : List (Nat × Op α)} (hops : ∀ x ∈ history, x.2.isAccess = true)
    {k : String} {v : α} :
    LastPut history k v ↔ ∃ e, Table.after history k = some ⟨v, e⟩ := by
  have hundoes : ∀ x ∈ history, x.2.Undoes k ↔ ∃ w ttl, x.2 = .put k w ttl := by
    intro x hx
    have hop := hops x hx
    cases hx2 : x.2 with
    | put j w ttl => simp [Op.Undoes]
    | get j => simp [Op.Undoes]
    | _ => simp [hx2, Op.isAccess] at hop
  constructor
  · rintro ⟨pre, t, ttl, post, rfl, hpost⟩
    refine ⟨_, Table.after_eq_some.2 ⟨pre, t, ttl, post, rfl, fun x hx hundo => ?_, rfl⟩⟩
    obtain ⟨w, ttl', hw⟩ := (hundoes x (by simp [hx])).1 hundo
    exact hpost x hx w ttl' hw
  · rintro ⟨e, hafter⟩
    obtain ⟨pre, t, ttl, post, rfl, hpost, -⟩ := Table.after_eq_some.1 hafter
    refine ⟨pre, t, ttl, post, rfl, fun x hx w ttl' hw => ?_⟩
    exact hpost x hx ((hundoes x (by simp [hx])).2 ⟨w, ttl', hw⟩)

/-- **A cache in memory keeps exactly what was used last.** After any puts and lookups in which
nothing has expired, it holds at most as many entries as fit, one at least, with distinct keys. A
lookup gives a value if and only if it is that of the last put on the key and fewer other keys than
fit were touched since the key was touched last. A lookup that finds nothing and a put on a key that
is there evict nothing. -/
theorem get_memory_iff {codec : Codec α} {maxEntries : Nat} {dir : String} {fs : FileSystem}
    {history : List (Nat × Op α)} {t : Nat} (hops : ∀ x ∈ history, x.2.isAccess = true)
    (hlive : NoneExpires codec dir t (inMemory maxEntries, fs) history) :
    let s := run codec dir (inMemory maxEntries, fs) history
    s.1.recent.length ≤ max maxEntries 1 ∧ s.1.recent.keys.Nodup ∧
      (∀ k v, (s.1.get codec s.2 t k).1 = some v ↔
        LastPut history k v ∧
          ∃ before after, touches codec dir (inMemory maxEntries, fs) history = before ++ k :: after ∧
            k ∉ after ∧ after.toFinset.card < max maxEntries 1) ∧
      (∀ k, (s.1.get codec s.2 t k).1 = none →
        EvictsNothing s.1 (s.1.get codec s.2 t k).2.1) ∧
      ∀ k v ttl, k ∈ s.1.recent.keys → EvictsNothing s.1 (s.1.put codec s.2 t k v ttl).1 := by
  intro s
  have hn : 0 < max maxEntries 1 := by omega
  obtain ⟨R, hend⟩ :=
    (ranked_inMemory maxEntries).run (s := (inMemory maxEntries, fs)) hn hops hlive
  refine ⟨R.length_le, R.nodup, fun k v => ?_, fun k hmiss => ?_, fun k v ttl hk =>
    evictsNothing_put codec hk s.2 t v ttl⟩
  · rw [R.get_iff hend, mem_take_recency, lastPut_iff hops]
    rfl
  · have habsent : k ∉ s.1.recent.keys := by
      intro hk
      obtain ⟨h, hh⟩ := mem_keys_of_held?.1 hk
      rw [get_of_live hh (hend _ (mem_of_held? hh))] at hmiss
      cases hmiss
    rw [get_of_absent R.directory habsent]
    exact ⟨fun j hj => hj, rfl⟩

/-- Two keys fit. A lookup saves the older one, and the next put evicts the other. -/
theorem get_memory_iff_two :
    let s := run Codec.json "" (inMemory 2, .empty)
      [(0, .put "a" (.str "one") 100), (1, .put "b" (.str "two") 100), (2, .get "a"),
        (3, .put "c" (.str "three") 100)]
    (s.1.get Codec.json s.2 4 "a").1 = some (.str "one") ∧
      (s.1.get Codec.json s.2 4 "b").1 = none := by
  intro s
  have hlive : NoneExpires Codec.json "" 4 (inMemory 2, .empty)
      [(0, .put "a" (.str "one") 100), (1, .put "b" (.str "two") 100), (2, .get "a"),
        (3, .put "c" (.str "three") 100)] := by decide
  obtain ⟨-, -, hget, -⟩ := get_memory_iff (by decide) hlive
  refine ⟨(hget "a" (.str "one")).2 ⟨⟨[], 0, 100, _, rfl, by simp⟩, ["a", "b"], ["c"], by decide,
    by decide, by decide⟩, Option.eq_none_iff_forall_ne_some.2 fun v hv => ?_⟩
  have hfar := ((hget "b" v).1 hv).2
  rw [← mem_take_recency] at hfar
  exact absurd hfar (by decide)

end Cache

end CodeSurvey
