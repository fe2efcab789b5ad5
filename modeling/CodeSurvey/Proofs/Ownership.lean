import CodeSurvey.Plugin.Registry
import Mathlib.Data.List.Induction
import Mathlib.Data.List.Nodup
/-!
# Registries own their plugins

A history is a list of changes: registrations, removals and clearings. The registry that it leads to
is `after`.

What a registry owns and what it has disposed of are together all instances so far, each once
(`perm_after`): a replacement or a removal moves an instance from one side to the other. A name has
the instance of its latest registration, unless something has ended it since (`get?_after`), and the
names stand in the order in which they arrived (`pairwise_names_after`). The main result is
`owned_after`.
-/
namespace CodeSurvey

/-! ## Rosters -/

namespace Roster

variable {α : Type}

theorem get?_put (r : Roster α) (name x : String) (a : α) :
    (r.put name a).get? x = if x = name then some a else r.get? x := by
  obtain ⟨es⟩ := r
  simp only [put, get?]
  induction es with
  | nil => exact Dict.lookup_entry name x a []
  | cons e es ih =>
    obtain ⟨n, b⟩ := e
    by_cases hn : n = name
    · subst hn
      simp only [putEntry, beq_self_eq_true, if_true, Dict.lookup_entry]
      split <;> rfl
    · simp only [putEntry, beq_false_of_ne hn, Bool.false_eq_true, if_false, Dict.lookup_entry, ih]
      by_cases hx : x = n
      · simp [hx, hn]
      · simp [hx]

/-- The names after a value is put: a new name goes to the end. -/
theorem names_put (r : Roster α) (name : String) (a : α) :
    (r.put name a).names = if name ∈ r.names then r.names else r.names ++ [name] :=
  map_fst_putEntry name a r.entries

theorem mem_names {r : Roster α} {name : String} :
    name ∈ r.names ↔ ∃ a, r.get? name = some a := by
  simp [names, get?, ← Option.isSome_iff_exists, List.lookup_isSome_iff]

/-- With distinct names every value is found under its name. -/
theorem mem_values {r : Roster α} (h : r.names.Nodup) {a : α} :
    a ∈ r.values ↔ ∃ name, r.get? name = some a := by
  obtain ⟨es⟩ := r
  simp only [names, values, get?] at h ⊢
  induction es with
  | nil => simp
  | cons e es ih =>
    obtain ⟨n, b⟩ := e
    obtain ⟨hnot, hnodup⟩ := List.nodup_cons.1 h
    simp only [List.map_cons, List.mem_cons, ih hnodup, Dict.lookup_entry]
    constructor
    · rintro (rfl | ⟨name, hname⟩)
      · exact ⟨n, if_pos rfl⟩
      · refine ⟨name, ?_⟩
        rw [if_neg, hname]
        rintro rfl
        exact hnot (mem_names (r := ⟨es⟩).2 ⟨a, hname⟩)
    · rintro ⟨name, hname⟩
      split at hname
      · exact .inl (Option.some.inj hname).symm
      · exact .inr ⟨name, hname⟩

theorem names_remove (r : Roster α) (name : String) :
    (r.remove name).names = r.names.erase name := by
  obtain ⟨es⟩ := r
  simp only [names, remove]
  induction es with
  | nil => rfl
  | cons e es ih =>
    by_cases hn : e.1 = name
    · simp [hn]
    · simp [hn, ih]

theorem get?_remove {r : Roster α} (h : r.names.Nodup) (name x : String) :
    (r.remove name).get? x = if x = name then none else r.get? x := by
  obtain ⟨es⟩ := r
  simp only [names, get?, remove] at h ⊢
  induction es with
  | nil => simp
  | cons e es ih =>
    obtain ⟨n, b⟩ := e
    obtain ⟨hnot, hnodup⟩ := List.nodup_cons.1 h
    by_cases hn : n = name
    · subst hn
      simp only [beq_self_eq_true, List.eraseP_cons_of_pos, Dict.lookup_entry]
      split
      · rename_i hx
        subst hx
        -- the name stands nowhere else
        by_contra hsome
        obtain ⟨a, ha⟩ := Option.ne_none_iff_exists'.1 hsome
        exact hnot (mem_names (r := ⟨es⟩).2 ⟨a, ha⟩)
      · rfl
    · rw [List.eraseP_cons_of_neg (by simpa using hn)]
      simp only [Dict.lookup_entry, ih hnodup]
      by_cases hx : x = n
      · simp [hx, hn]
      · simp [hx]

/-- Putting a value takes the place of the one that removing would take out. -/
theorem values_put_perm (r : Roster α) (name : String) (a : α) :
    (r.put name a).values.Perm (a :: (r.remove name).values) := by
  obtain ⟨es⟩ := r
  simp only [values, put, remove]
  induction es with
  | nil => exact .refl _
  | cons e es ih =>
    by_cases hn : e.1 = name
    · simp [putEntry, hn]
    · simp only [putEntry, beq_false_of_ne hn, Bool.false_eq_true, if_false, List.map_cons,
        List.eraseP_cons_of_neg (p := fun e : String × α => e.1 == name) (by simpa using hn)]
      exact (ih.cons e.2).trans (.swap a e.2 _)

/-- The values are the one of a name and those that stay when it is removed. -/
theorem values_perm (r : Roster α) (name : String) :
    r.values.Perm ((r.get? name).toList ++ (r.remove name).values) := by
  obtain ⟨es⟩ := r
  simp only [values, get?, remove]
  induction es with
  | nil => exact .refl _
  | cons e es ih =>
    obtain ⟨n, b⟩ := e
    by_cases hn : n = name
    · simp [hn]
    · have hn' : ¬ name = n := fun h => hn h.symm
      simp only [Dict.lookup_entry, if_neg hn', List.map_cons,
        List.eraseP_cons_of_neg (p := fun e : String × α => e.1 == name) (a := (n, b))
          (by simpa using hn)]
      exact (ih.cons b).trans List.perm_middle.symm

end Roster

namespace Registry

variable {α β : Type}

/-! ## Histories -/

/-- What can happen to a registry. -/
inductive Change (α β : Type) where
  | register (name : String) (p : Plugin α β)
  | unregister (name : String)
  | clear

namespace Change

/-- Whether a change brings in an instance. -/
def isRegister : Change α β → Bool
  | .register _ _ => true
  | _ => false

/-- A change takes a name away. -/
def Removes (name : String) : Change α β → Prop
  | .register _ _ => False
  | .unregister n => n = name
  | .clear => True

/-- A change ends the instance that a name has: it removes the name or replaces the instance. -/
def Ends (name : String) : Change α β → Prop
  | .register n _ => n = name
  | .unregister n => n = name
  | .clear => True

end Change

/-- Performs a change. -/
def step (r : Registry α β) : Change α β → Registry α β
  | .register name p => r.register name p
  | .unregister name => r.unregister name
  | .clear => r.clear

/-- The registry after a history. -/
def after (kind : String) (history : List (Change α β)) : Registry α β :=
  history.foldl step (empty kind)

/-- Number of instances that a history has brought in. The serial number of an instance is the
number of those before it. -/
def registered (history : List (Change α β)) : Nat := history.countP Change.isRegister

theorem after_concat (kind : String) (history : List (Change α β)) (c : Change α β) :
    after kind (history ++ [c]) = (after kind history).step c := by
  simp [after]

theorem registered_concat (history : List (Change α β)) (c : Change α β) :
    registered (history ++ [c]) = registered history + if c.isRegister then 1 else 0 := by
  simp [registered, List.countP_append, List.countP_cons]

/-- The serial numbers of the instances that a registry owns. -/
def owned (r : Registry α β) : List Nat := r.roster.values.map (·.serial)

/-- Some change in a history, with what was before it, satisfies `P`, and nothing since satisfies
`Q`. -/
def Since (P : List (Change α β) → Change α β → Prop) (Q : Change α β → Prop)
    (history : List (Change α β)) : Prop :=
  ∃ before c since, history = before ++ c :: since ∧ P before c ∧ ∀ d ∈ since, ¬ Q d

/-- The latest registration of a name brought in the instance, and nothing has ended it since. -/
def Current (history : List (Change α β)) (name : String) (i : Instance α β) : Prop :=
  Since (fun before c => c = .register name i.plugin ∧ i.serial = registered before)
    (Change.Ends name) history

/-- The registration at a place in the history brought in a name that was absent, and the name was
never removed since. -/
def ArrivedAt (kind : String) (history : List (Change α β)) (name : String) (place : Nat) : Prop :=
  Since (fun before c => (∃ p, c = .register name p) ∧ place = before.length ∧
    name ∉ (after kind before).names) (Change.Removes name) history

theorem not_since_nil (P : List (Change α β) → Change α β → Prop) (Q : Change α β → Prop) :
    ¬ Since P Q [] := by
  rintro ⟨before, c, since, h, -⟩
  simp at h

/-- With one more change, either that one counts or an earlier one that it leaves alone. -/
theorem since_concat {P : List (Change α β) → Change α β → Prop} {Q : Change α β → Prop}
    {history : List (Change α β)} {c : Change α β} :
    Since P Q (history ++ [c]) ↔ P history c ∨ ¬ Q c ∧ Since P Q history := by
  constructor
  · rintro ⟨before, d, since, hsplit, hP, hQ⟩
    rcases List.eq_nil_or_concat since with rfl | ⟨since, x, rfl⟩
    · obtain ⟨rfl, hlast⟩ := List.append_inj' hsplit rfl
      obtain rfl := (List.cons.inj hlast).1
      exact .inl hP
    · rw [List.concat_eq_append, ← List.cons_append, ← List.append_assoc] at hsplit
      obtain ⟨rfl, hlast⟩ := List.append_inj' hsplit rfl
      obtain rfl := (List.cons.inj hlast).1
      simp only [List.concat_eq_append, List.mem_append, List.mem_singleton] at hQ
      exact .inr ⟨hQ c (.inr rfl), before, d, since, rfl, hP, fun x hx => hQ x (.inl hx)⟩
  · rintro (hP | ⟨hc, before, d, since, rfl, hP, hQ⟩)
    · exact ⟨history, c, [], rfl, hP, by simp⟩
    · refine ⟨before, d, since ++ [c], by simp, hP, fun x hx => ?_⟩
      rcases List.mem_append.1 hx with hx | hx
      · exact hQ x hx
      · exact List.mem_singleton.1 hx ▸ hc

/-! ## One change -/

variable (r : Registry α β)

theorem names_step (c : Change α β) : (r.step c).names =
    match c with
    | .register n _ => if n ∈ r.names then r.names else r.names ++ [n]
    | .unregister n => r.names.erase n
    | .clear => [] := by
  cases c with
  | register n p => exact r.roster.names_put n _
  | unregister n => exact r.roster.names_remove n
  | clear => rfl

theorem mem_names_step (h : r.names.Nodup) {c : Change α β} {name : String} :
    name ∈ (r.step c).names ↔
      (∃ p, c = .register name p) ∨ ¬ c.Removes name ∧ name ∈ r.names := by
  rw [names_step]
  cases c with
  | register n p =>
    simp only [Change.register.injEq, Change.Removes, not_false_eq_true, true_and]
    by_cases hn : n = name
    · subst hn
      by_cases hmem : n ∈ r.names <;> simp [hmem]
    · by_cases hmem : n ∈ r.names <;> simp [hmem, hn, Ne.symm hn]
  | unregister n => simp [h.mem_erase_iff, Change.Removes, eq_comm]
  | clear => simp [Change.Removes]

theorem nodup_names_step (h : r.names.Nodup) (c : Change α β) : (r.step c).names.Nodup := by
  cases c with
  | register n p => exact Roster.nodup_names_put h n _
  | unregister n => exact Roster.nodup_names_remove h n
  | clear => exact List.nodup_nil

/-- **What a name has after a change**: the new instance, or what it had before if the change has
not ended that. -/
theorem get?_step (h : r.names.Nodup) {c : Change α β} {name : String} {i : Instance α β} :
    (r.step c).get? name = some i ↔
      (c = .register name i.plugin ∧ i.serial = r.issued) ∨
        ¬ c.Ends name ∧ r.get? name = some i := by
  obtain ⟨serial, plugin⟩ := i
  cases c with
  | register n p =>
    simp only [step, register, get?, Roster.get?_put, Change.register.injEq, Change.Ends]
    by_cases hn : name = n
    · simp [hn, and_comm, eq_comm]
    · simp [hn, Ne.symm hn]
  | unregister n =>
    simp only [step, unregister, get?, Roster.get?_remove h, Change.Ends]
    by_cases hn : name = n
    · simp [hn]
    · simp [hn, Ne.symm hn]
  | clear => simp [step, clear, get?, Roster.get?, Roster.empty, Change.Ends]

/-- The serial number of the instance that a name has. -/
def serialOf (name : String) : List Nat := (r.get? name).toList.map (·.serial)

/-- An instance that leaves its name goes from what is owned to what is disposed of. -/
theorem perm_leave (name : String) :
    ((r.roster.remove name).values.map (·.serial) ++ (r.disposed ++ r.serialOf name)).Perm
      (r.owned ++ r.disposed) := by
  have hsplit : r.owned.Perm (r.serialOf name ++ (r.roster.remove name).values.map (·.serial)) := by
    have h := (r.roster.values_perm name).map (·.serial)
    rwa [List.map_append] at h
  refine List.perm_iff_count.2 fun k => ?_
  have hcount := hsplit.count_eq k
  simp only [List.count_append] at hcount ⊢
  omega

/-- **Owning and disposing balance**: a change moves instances from one side to the other, and a
registration adds the one that it brings in. -/
theorem perm_step (c : Change α β) :
    ((r.step c).owned ++ (r.step c).disposed).Perm
      ((if c.isRegister then [r.issued] else []) ++ (r.owned ++ r.disposed)) := by
  cases c with
  | register n p =>
    have hput := (r.roster.values_put_perm n ⟨r.issued, p⟩).map (·.serial)
    exact (hput.append_right _).trans (.cons _ (r.perm_leave n))
  | unregister n => exact r.perm_leave n
  | clear => exact (List.perm_append_comm : (r.disposed ++ r.owned).Perm _)

/-- **What a change disposes of**: exactly the instances that it takes from their names. -/
theorem disposed_step (h : r.names.Nodup) (c : Change α β) :
    ∃ gone, (r.step c).disposed = r.disposed ++ gone ∧
      ∀ k, k ∈ gone ↔ ∃ name i, r.get? name = some i ∧ c.Ends name ∧ i.serial = k := by
  have hname : ∀ n k, k ∈ r.serialOf n ↔
      ∃ name i, r.get? name = some i ∧ n = name ∧ i.serial = k := by
    intro n k
    simp [serialOf]
  cases c with
  | register n p => exact ⟨_, rfl, hname n⟩
  | unregister n => exact ⟨_, rfl, hname n⟩
  | clear =>
    refine ⟨r.owned, rfl, fun k => ?_⟩
    simp only [owned, List.mem_map, Roster.mem_values h, Change.Ends, true_and]
    constructor
    · rintro ⟨i, ⟨name, hget⟩, rfl⟩
      exact ⟨name, i, hget, rfl⟩
    · rintro ⟨name, i, hget, rfl⟩
      exact ⟨i, ⟨name, hget⟩, rfl⟩

/-! ## Whole histories -/

variable (kind : String) (history : List (Change α β))

theorem nodup_names_after : (after kind history).names.Nodup := by
  induction history using List.reverseRecOn with
  | nil => exact List.nodup_nil
  | append_singleton history c ih =>
    rw [after_concat]
    exact nodup_names_step _ ih c

theorem issued_after : (after kind history).issued = registered history := by
  induction history using List.reverseRecOn with
  | nil => rfl
  | append_singleton history c ih =>
    rw [after_concat, registered_concat, ← ih]
    cases c <;> rfl

/-- **Every instance is owned or disposed of, and that once.** -/
theorem perm_after : ((after kind history).owned ++ (after kind history).disposed).Perm
    (List.range (registered history)) := by
  induction history using List.reverseRecOn with
  | nil => exact .refl _
  | append_singleton history c ih =>
    rw [after_concat, registered_concat]
    refine ((after kind history).perm_step c).trans ?_
    rw [issued_after]
    cases c with
    | register n p =>
      rw [Change.isRegister, if_pos rfl, if_pos rfl, List.range_succ]
      exact List.perm_append_comm.trans (ih.append_right _)
    | unregister n => simpa [Change.isRegister] using ih
    | clear => simpa [Change.isRegister] using ih

/-- **A name has the instance of its latest registration**, unless that was ended. -/
theorem get?_after (name : String) (i : Instance α β) :
    (after kind history).get? name = some i ↔ Current history name i := by
  induction history using List.reverseRecOn with
  | nil =>
    have hnone : (after kind ([] : List (Change α β))).get? name = none := rfl
    simp [hnone, Current, not_since_nil]
  | append_singleton history c ih =>
    rw [after_concat, get?_step _ (nodup_names_after kind history), ih, issued_after, Current,
      Current, since_concat]

theorem mem_names_after (name : String) :
    name ∈ (after kind history).names ↔ ∃ i, (after kind history).get? name = some i :=
  Roster.mem_names

/-! ## Places -/

variable {kind history} in
theorem arrivedAt_concat {c : Change α β} {name : String} {place : Nat} :
    ArrivedAt kind (history ++ [c]) name place ↔
      ((∃ p, c = .register name p) ∧ place = history.length ∧ name ∉ (after kind history).names) ∨
        ¬ c.Removes name ∧ ArrivedAt kind history name place :=
  since_concat

/-- The names that are there are those that have arrived. -/
theorem arrivedAt_after (name : String) :
    name ∈ (after kind history).names ↔ ∃ place, ArrivedAt kind history name place := by
  induction history using List.reverseRecOn with
  | nil =>
    have hnil : (after kind ([] : List (Change α β))).names = [] := rfl
    simp [hnil, ArrivedAt, not_since_nil]
  | append_singleton history c ih =>
    rw [after_concat, mem_names_step _ (nodup_names_after kind history)]
    simp only [arrivedAt_concat]
    constructor
    · rintro (⟨p, rfl⟩ | ⟨hkeep, hmem⟩)
      · -- a name that is registered has just arrived, or was there before
        by_cases hmem : name ∈ (after kind history).names
        · obtain ⟨place, hplace⟩ := ih.1 hmem
          exact ⟨place, .inr ⟨id, hplace⟩⟩
        · exact ⟨history.length, .inl ⟨⟨p, rfl⟩, rfl, hmem⟩⟩
      · obtain ⟨place, hplace⟩ := ih.1 hmem
        exact ⟨place, .inr ⟨hkeep, hplace⟩⟩
    · rintro ⟨place, ⟨hnew, -, -⟩ | ⟨hkeep, hplace⟩⟩
      · exact .inl hnew
      · exact .inr ⟨hkeep, ih.2 ⟨place, hplace⟩⟩

variable {kind history} in
theorem ArrivedAt.lt_length {name : String} {place : Nat}
    (h : ArrivedAt kind history name place) : place < history.length := by
  obtain ⟨before, c, since, rfl, ⟨-, rfl, -⟩, -⟩ := h
  simp

variable {kind history} in
/-- A name that is there keeps its place. -/
theorem ArrivedAt.of_concat {c : Change α β} {name : String} {place : Nat}
    (h : ArrivedAt kind (history ++ [c]) name place) (hmem : name ∈ (after kind history).names) :
    ArrivedAt kind history name place := by
  rcases arrivedAt_concat.1 h with ⟨-, -, hnot⟩ | ⟨-, h⟩
  · exact absurd hmem hnot
  · exact h

/-- **The names stand in the order of their places.** -/
theorem pairwise_names_after : (after kind history).names.Pairwise fun a b =>
    ∀ m n, ArrivedAt kind history a m → ArrivedAt kind history b n → m < n := by
  induction history using List.reverseRecOn with
  | nil => exact List.Pairwise.nil
  | append_singleton history c ih =>
    have hold : (after kind history).names.Pairwise fun a b => ∀ m n,
        ArrivedAt kind (history ++ [c]) a m → ArrivedAt kind (history ++ [c]) b n → m < n :=
      ih.imp_of_mem fun ha hb hab m n hm hn => hab m n (hm.of_concat ha) (hn.of_concat hb)
    rw [after_concat, names_step]
    cases c with
    | register x p =>
      dsimp only
      split
      · exact hold
      · rename_i hnot
        refine List.pairwise_append.2 ⟨hold, List.pairwise_singleton _ _, ?_⟩
        intro a ha b hb m n hm hn
        obtain rfl := List.mem_singleton.1 hb
        -- the new name comes last of all
        rcases arrivedAt_concat.1 hn with ⟨-, rfl, -⟩ | ⟨-, hn⟩
        · exact (hm.of_concat ha).lt_length
        · exact absurd ((arrivedAt_after kind history b).2 ⟨n, hn⟩) hnot
    | unregister x => exact hold.sublist List.erase_sublist
    | clear => exact List.Pairwise.nil

/-! ## Ownership -/

/-- What a registry owes to the plugins of a history. -/
structure Owned : Prop where
  /-- When the registry is closed, every instance has been disposed of exactly once. -/
  once : ∀ k, (after kind history).close.count k = if k < registered history then 1 else 0
  /-- An instance that can be reached has not been disposed of. -/
  alive : ∀ name i, (after kind history).get? name = some i →
    i.serial ∉ (after kind history).disposed
  /-- The latest change has disposed of exactly the instances that it took from their names. -/
  ended : ∀ before c, history = before ++ [c] →
    ∃ gone, (after kind history).disposed = (after kind before).disposed ++ gone ∧
      ∀ k, k ∈ gone ↔
        ∃ name i, (after kind before).get? name = some i ∧ c.Ends name ∧ i.serial = k
  distinct : (after kind history).names.Nodup
  reachable : ∀ name, name ∈ (after kind history).names ↔
    ∃ i, (after kind history).get? name = some i
  latest : ∀ name i, (after kind history).get? name = some i ↔ Current history name i
  arrived : ∀ name, name ∈ (after kind history).names ↔ ∃ place, ArrivedAt kind history name place
  ordered : (after kind history).names.Pairwise fun a b =>
    ∀ m n, ArrivedAt kind history a m → ArrivedAt kind history b n → m < n

theorem count_close (k : Nat) :
    (after kind history).close.count k = if k < registered history then 1 else 0 := by
  have hperm : (after kind history).close.Perm (List.range (registered history)) :=
    List.perm_append_comm.trans (perm_after kind history)
  rw [hperm.count_eq, List.nodup_range.count]
  simp

/-- The instance of a name is owned. -/
theorem mem_owned (h : r.names.Nodup) {name : String} {i : Instance α β}
    (hget : r.get? name = some i) : i.serial ∈ r.owned :=
  List.mem_map_of_mem ((Roster.mem_values h).2 ⟨name, hget⟩)

theorem nodup_after :
    ((after kind history).owned ++ (after kind history).disposed).Nodup :=
  (perm_after kind history).nodup_iff.2 List.nodup_range

/-- What is owned has not been disposed of. -/
theorem not_mem_disposed {k : Nat} (h : k ∈ (after kind history).owned) :
    k ∉ (after kind history).disposed :=
  fun hd => (List.nodup_append.1 (nodup_after kind history)).2.2 k h k hd rfl

/-- Two names never share an instance. -/
theorem serial_injective {x y : String} {i j : Instance α β}
    (hx : (after kind history).get? x = some i) (hy : (after kind history).get? y = some j)
    (h : i.serial = j.serial) : x = y := by
  have hnodup : ((after kind history).roster.entries.map (·.2.serial)).Nodup := by
    have h := (List.nodup_append.1 (nodup_after kind history)).1
    rwa [owned, Roster.values, List.map_map] at h
  have hmem : ∀ {n k}, (after kind history).get? n = some k →
      (n, k) ∈ (after kind history).roster.entries := by
    intro n k hget
    obtain ⟨before, after, hsplit, -⟩ := List.lookup_eq_some_iff.1 hget
    exact hsplit ▸ List.mem_append_right _ List.mem_cons_self
  exact congrArg Prod.fst (List.inj_on_of_nodup_map hnodup (hmem hx) (hmem hy) h)

/-- **A registry owns its plugins.** After every history of registrations, removals and clearings,
and so at every point of one: closing the registry leaves each instance disposed of exactly once; no
instance was disposed of that a name still has, and each change disposes of those instances only
that it replaces, takes out or clears away; the names are distinct, each has the instance of its
latest registration, and they stand in the order in which they came in, a replacement keeping its
place. -/
theorem owned_after : Owned kind history := by
  have hnodup := nodup_names_after kind history
  refine ⟨count_close kind history, fun name i hget => ?_, ?_, hnodup, mem_names_after kind history,
    get?_after kind history, arrivedAt_after kind history, pairwise_names_after kind history⟩
  · exact not_mem_disposed kind history (mem_owned _ hnodup hget)
  · rintro before c rfl
    rw [after_concat]
    exact disposed_step _ (nodup_names_after kind before) c

end Registry

end CodeSurvey
