import CodeSurvey.Proofs.Bookkeeping
import CodeSurvey.Proofs.Recency
/-!
# Every entry is accounted for

A key that is not in memory comes in by a put. It leaves by an eviction, by expiring or by being taken
out, and the first two are counted. So the entries that came in are those that are there, those that were
counted out and those that were taken out. One operation keeps that (`Tidy.step`), and so does a whole run
on a cache in memory (`Tidy.run`, `counters_conserve`).
-/
namespace CodeSurvey.Cache

variable {α : Type}

/-! ## What operations bring in and take out -/

/-- The keys that memory has lost between two moments. -/
def lost (c d : Cache α) : List String := c.recent.keys.filter (· ∉ d.recent.keys)

namespace Op

/-- Whether an operation is a lookup. -/
def isGet : Op α → Bool
  | .get _ => true
  | _ => false

/-- Whether an operation works on the cache that is there; all do but the making of a new one. -/
def stays : Op α → Bool
  | .reopen _ => false
  | _ => true

/-- The number of entries that an operation brings in: one for a put of a key that is not in memory. -/
def arrivals (c : Cache α) : Op α → Nat
  | .put k _ _ => if k ∈ c.recent.keys then 0 else 1
  | _ => 0

/-- The number of entries that an operation takes out because its owner wants that. -/
def withdrawals (codec : Codec α) (dir : String) (now : Nat) (s : Cache α × FileSystem)
    (op : Op α) : Nat :=
  match op with
  | .remove _ | .invalidate _ | .clear => (s.1.lost (op.step codec dir now s).1).length
  | _ => 0

end Op

/-- Adds up a number for each operation of a run, taken in the state in which it is performed. -/
def sumOver (f : Nat → Cache α × FileSystem → Op α → Nat) (codec : Codec α) (dir : String) :
    Cache α × FileSystem → List (Nat × Op α) → Nat
  | _, [] => 0
  | s, x :: rest => f x.1 s x.2 + sumOver f codec dir (x.2.step codec dir x.1 s) rest

/-! ## Sizes -/

/-- Distinct keys without one of them. -/
theorem length_filter_ne {keys : List String} (h : keys.Nodup) (k : String) :
    (keys.filter (· != k)).length + (if k ∈ keys then 1 else 0) = keys.length := by
  by_cases hk : k ∈ keys
  · have hpos := List.length_pos_of_mem hk
    rw [if_pos hk, ← h.erase_eq_filter, List.length_erase_of_mem hk]
    omega
  · rw [if_neg hk, filter_ne_self hk]
    rfl

theorem length_keys (r : Recent α) : r.keys.length = r.length := List.length_map _

/-- If memory keeps some of its keys, it has lost the others. -/
theorem length_lost {c d : Cache α} {p : String → Bool}
    (h : d.recent.keys = c.recent.keys.filter p) : (c.lost d).length + d.size = c.size := by
  have hlost : c.lost d = c.recent.keys.filter (!p ·) := by
    refine List.filter_congr fun k hk => ?_
    cases hp : p k <;> simp [h, hk, hp]
  have hparts := List.length_eq_length_filter_add (l := c.recent.keys) p
  rw [hlost, size, size, ← length_keys, ← length_keys, h, hparts, Nat.add_comm]

/-- Entries that came in and were not taken out: those that are there and those that were counted out. -/
def accounted (c : Cache α) : Nat := c.size + c.counters.evictions + c.counters.expirations

/-- A cache in memory with room for something and one entry for each of its keys. -/
structure Tidy (c : Cache α) : Prop where
  room : 0 < c.capacity
  directory : c.directory = none
  nodup : c.recent.keys.Nodup

namespace Tidy

variable {codec : Codec α} {c : Cache α} {fs : FileSystem} {now : Nat} {k : String}

theorem of_sublist (T : c.Tidy) {d : Cache α} (hcapacity : d.capacity = c.capacity)
    (hdirectory : d.directory = c.directory) (hkeys : d.recent.keys.Sublist c.recent.keys) : d.Tidy :=
  ⟨hcapacity ▸ T.room, hdirectory ▸ T.directory, T.nodup.sublist hkeys⟩

/-! ### One operation -/

theorem put (T : c.Tidy) (v : α) (ttl : Nat) :
    (c.put codec fs now k v ttl).1.Tidy ∧
      (c.put codec fs now k v ttl).1.accounted = c.accounted + if k ∈ c.recent.keys then 0 else 1 := by
  refine ⟨⟨T.room, T.directory, Recent.nodup_keys_push T.nodup _ _ _⟩, ?_⟩
  have hroom := T.room
  have hsize : (c.put codec fs now k v ttl).1.size = (c.put codec fs now k v ttl).1.recent.keys.length :=
    (length_keys _).symm
  have hkeys : (c.put codec fs now k v ttl).1.recent.keys = (c.recent.push c.capacity k _).keys := rfl
  have hevictions : (c.put codec fs now k v ttl).1.counters.evictions =
      c.counters.evictions + if c.recent.isCrowded c.capacity k then 1 else 0 := rfl
  have hexpirations : (c.put codec fs now k v ttl).1.counters.expirations = c.counters.expirations := rfl
  have hbefore : c.size = c.recent.keys.length := (length_keys _).symm
  rw [accounted, accounted, hsize, hkeys, keys_push, hevictions, hexpirations, hbefore, List.length_cons]
  by_cases hk : k ∈ c.recent.keys
  · -- the new entry takes the place of the old one
    have hlen := length_filter_ne T.nodup k
    have hcrowded : ¬ c.recent.isCrowded c.capacity k = true := fun h => (isCrowded_iff.1 h).1 hk
    rw [if_pos hk] at hlen ⊢
    rw [if_neg fun h => h.1 hk, if_neg hcrowded]
    omega
  · rw [if_neg hk]
    by_cases hfull : c.capacity ≤ c.recent.keys.length
    · -- another entry goes for it
      have hdrop : k ∉ c.recent.keys.dropLast := fun h => hk (List.mem_of_mem_dropLast h)
      rw [if_pos ⟨hk, hfull⟩, if_pos (isCrowded_iff.2 ⟨hk, hfull⟩), filter_ne_self hdrop,
        List.length_dropLast]
      omega
    · rw [if_neg fun h => hfull h.2, if_neg fun h => hfull (isCrowded_iff.1 h).2, filter_ne_self hk]
      omega

theorem get (T : c.Tidy) :
    (c.get codec fs now k).2.1.Tidy ∧ (c.get codec fs now k).2.1.accounted = c.accounted := by
  cases hk : c.recent.held? k with
  | none =>
    have habsent : k ∉ c.recent.keys := by
      rw [mem_keys_of_held?, hk]
      simp
    rw [get_of_absent T.directory habsent]
    exact ⟨⟨T.room, T.directory, T.nodup⟩, rfl⟩
  | some h =>
    have hmem : k ∈ c.recent.keys := mem_keys_of_held?.2 ⟨h, hk⟩
    have hlen := length_filter_ne T.nodup k
    rw [if_pos hmem] at hlen
    cases hl : h.isLive now with
    | true =>
      rw [get_of_live hk hl]
      refine ⟨⟨T.room, T.directory, Recent.nodup_keys_toFront T.nodup k h⟩, ?_⟩
      show (c.recent.toFront k h).length + _ + _ = c.recent.length + _ + _
      rw [← length_keys, keys_toFront, List.length_cons, hlen, length_keys]
      rfl
    | false =>
      have hget : (c.get codec fs now k).2.1 =
          ({ c with recent := c.recent.forget k }.countExpired 1).countMiss := by
        simp only [Cache.get, hk, hl, Bool.false_eq_true, if_false]
      rw [hget]
      refine ⟨T.of_sublist rfl rfl ?_, ?_⟩
      · show (c.recent.forget k).keys.Sublist c.recent.keys
        rw [Recent.keys_forget]
        exact List.filter_sublist
      · show (c.recent.forget k).length + c.counters.evictions + (c.counters.expirations + 1) =
          c.recent.length + c.counters.evictions + c.counters.expirations
        rw [← Recent.keys_forget, length_keys, length_keys] at hlen
        omega

theorem prune (T : c.Tidy) : (c.prune now).2.Tidy ∧ (c.prune now).2.accounted = c.accounted := by
  have hsub : (c.recent.filter (·.2.isLive now)).Sublist c.recent := List.filter_sublist
  refine ⟨T.of_sublist rfl rfl (hsub.map _), ?_⟩
  show (c.recent.filter (·.2.isLive now)).length + c.counters.evictions + (c.counters.expirations +
    (c.recent.length - (c.recent.filter (·.2.isLive now)).length)) =
      c.recent.length + c.counters.evictions + c.counters.expirations
  have hle := hsub.length_le
  omega

/-- Taking out keys without counting them. -/
theorem withdraw (T : c.Tidy) {d : Cache α} {p : String → Bool}
    (hcapacity : d.capacity = c.capacity) (hdirectory : d.directory = c.directory)
    (hcounters : d.counters = c.counters) (hkeys : d.recent.keys = c.recent.keys.filter p) :
    d.Tidy ∧ d.accounted + (c.lost d).length = c.accounted := by
  refine ⟨T.of_sublist hcapacity hdirectory (hkeys ▸ List.filter_sublist), ?_⟩
  have hlost := length_lost hkeys
  rw [accounted, accounted, hcounters]
  omega

/-- **Every operation keeps the account.** -/
theorem step {dir : String} {s : Cache α × FileSystem} (T : s.1.Tidy) {op : Op α}
    (hop : op.stays = true) :
    (op.step codec dir now s).1.Tidy ∧
      (op.step codec dir now s).1.accounted + op.withdrawals codec dir now s =
        s.1.accounted + op.arrivals s.1 := by
  cases op with
  | put k v ttl => exact T.put v ttl
  | get k => exact T.get
  | prune => exact T.prune
  | validate | repair => exact ⟨T, rfl⟩
  | reopen n => cases hop
  | remove k => exact T.withdraw rfl rfl rfl (Recent.keys_forget s.1.recent k)
  | clear => exact T.withdraw rfl rfl rfl (p := fun _ => false) (by simp [Op.step, Cache.clear, Recent.keys])
  | invalidate path =>
    refine T.withdraw rfl rfl rfl (p := fun k => !isKeyOf path k) ?_
    simp [Op.step, Cache.invalidate, Recent.keys, List.filter_map, Function.comp_def]

/-- **So does a whole run.** -/
theorem run {dir : String} {s : Cache α × FileSystem} {history : List (Nat × Op α)} (T : s.1.Tidy)
    (hops : ∀ x ∈ history, x.2.stays = true) :
    (Cache.run codec dir s history).1.accounted +
        sumOver (fun now s op => op.withdrawals codec dir now s) codec dir s history =
      s.1.accounted + sumOver (fun _ s op => op.arrivals s.1) codec dir s history := by
  induction history generalizing s with
  | nil => rfl
  | cons x rest ih =>
    rw [List.forall_mem_cons] at hops
    obtain ⟨T', hstep⟩ : (x.2.step codec dir x.1 s).1.Tidy ∧ _ := T.step hops.1
    have hrest := ih T' hops.2
    rw [sumOver, sumOver]
    show (Cache.run codec dir (x.2.step codec dir x.1 s) rest).1.accounted + _ = _
    omega

end Tidy

theorem tidy_inMemory (maxEntries : Nat) : (inMemory maxEntries : Cache α).Tidy :=
  ⟨Nat.le_max_right maxEntries 1, rfl, List.nodup_nil⟩

/-! ## Lookups -/

/-- The lookups that a cache has counted. -/
def lookups (c : Cache α) : Nat := c.counters.hits + c.counters.misses

theorem lookups_get (codec : Codec α) (c : Cache α) (fs : FileSystem) (now : Nat) (k : String) :
    (c.get codec fs now k).2.1.lookups = c.lookups + 1 := by
  obtain ⟨hhits, hmisses⟩ := countsLookup_get codec c fs now k
  rw [lookups, lookups, hhits, hmisses]
  cases (c.get codec fs now k).1 <;> simp <;> omega

/-- Nothing but lookups is counted as one, with or without a directory. -/
theorem lookups_step (codec : Codec α) (dir : String) (now : Nat) (s : Cache α × FileSystem) {op : Op α}
    (hop : op.stays = true) :
    (op.step codec dir now s).1.lookups = s.1.lookups + if op.isGet then 1 else 0 := by
  cases op with
  | get k => exact lookups_get codec s.1 s.2 now k
  | reopen n => cases hop
  | put | remove | invalidate | clear | prune | validate | repair => rfl

theorem lookups_run (codec : Codec α) (dir : String) (s : Cache α × FileSystem)
    {history : List (Nat × Op α)} (hops : ∀ x ∈ history, x.2.stays = true) :
    (run codec dir s history).1.lookups = s.1.lookups + history.countP (·.2.isGet) := by
  induction history generalizing s with
  | nil => rfl
  | cons x rest ih =>
    rw [List.forall_mem_cons] at hops
    have hrest := ih (x.2.step codec dir x.1 s) hops.2
    rw [lookups_step codec dir x.1 s hops.1] at hrest
    rw [List.countP_cons]
    show (run codec dir (x.2.step codec dir x.1 s) rest).1.lookups = _
    omega

/-! ## The theorem -/

/-- **The counters of a cache conserve its entries.** After any operations on a cache in memory, hits and
misses are together as many as the lookups, and the puts of keys that were not in memory are as many as
the entries that are there, those that were evicted, those that have expired and those that were removed,
invalidated or cleared away. Every lookup, whatever memory and the directory hold, is counted once: as a
hit if it gives a value, and else as a miss. -/
theorem counters_conserve (codec : Codec α) (maxEntries : Nat) (dir : String) (fs : FileSystem)
    {history : List (Nat × Op α)} (hops : ∀ x ∈ history, x.2.stays = true) :
    let start : Cache α × FileSystem := (inMemory maxEntries, fs)
    let c := (run codec dir start history).1
    c.counters.hits + c.counters.misses = history.countP (·.2.isGet) ∧
      sumOver (fun _ s op => op.arrivals s.1) codec dir start history =
        c.size + c.counters.evictions + c.counters.expirations +
          sumOver (fun now s op => op.withdrawals codec dir now s) codec dir start history ∧
      ∀ (d : Cache α) (files : FileSystem) (now : Nat) (key : String),
        d.CountsLookup (d.get codec files now key) := by
  intro start c
  have hlookups : c.lookups = 0 + history.countP (·.2.isGet) := lookups_run codec dir start hops
  have haccount : c.accounted + _ = 0 + _ := (tidy_inMemory maxEntries).run (s := start) hops
  rw [Nat.zero_add] at hlookups haccount
  exact ⟨hlookups, haccount.symm, countsLookup_get codec⟩

/-- Operations that bring in seven entries and lose six of them in every way. -/
def comings : List (Nat × Op Json) :=
  [(0, .put "a:x" .null 0), (1, .put "b:y" .null 100), (2, .put "b:y" (.str "new") 100),
    (3, .put "c:z" .null 5), (4, .get "b:y"), (5, .get "c"), (9, .prune), (10, .put "d:u" .null 100),
    (11, .remove "d:u"), (12, .put "b:z" .null 9), (13, .invalidate "b"), (14, .put "e:x" .null 9),
    (30, .get "e:x"), (31, .put "f:x" .null 9)]

/-- Two entries fit. One is evicted after it has expired, one expires by pruning and one by a lookup, one
is removed and two are invalidated, and one is left. -/
theorem counters_conserve_comings :
    let start : Cache Json × FileSystem := (inMemory 2, .empty)
    let c := (run Codec.json "" start comings).1
    c.counters.hits + c.counters.misses = 3 ∧ c.size = 1 ∧ c.counters.evictions = 1 ∧
      c.counters.expirations = 2 ∧
      sumOver (fun now s op => op.withdrawals Codec.json "" now s) Codec.json "" start comings = 3 ∧
      sumOver (fun _ s op => op.arrivals s.1) Codec.json "" start comings = 7 := by
  obtain ⟨hlookups, haccount, -⟩ := counters_conserve Codec.json 2 "" .empty
    (show ∀ x ∈ comings, x.2.stays = true by decide)
  have hsize : (run Codec.json "" (inMemory 2, .empty) comings).1.size = 1 := by decide +kernel
  have hevictions : (run Codec.json "" (inMemory 2, .empty) comings).1.counters.evictions = 1 := by
    decide +kernel
  have hexpirations : (run Codec.json "" (inMemory 2, .empty) comings).1.counters.expirations = 2 := by
    decide +kernel
  have hwithdrawn : sumOver (fun now s op => op.withdrawals Codec.json "" now s) Codec.json ""
      (inMemory 2, .empty) comings = 3 := by decide +kernel
  have hgets : comings.countP (·.2.isGet) = 3 := by decide
  rw [hsize, hevictions, hexpirations, hwithdrawn] at haccount
  exact ⟨hlookups.trans hgets, hsize, hevictions, hexpirations, hwithdrawn, haccount⟩

end CodeSurvey.Cache
