/-!
# Dictionaries

A `Dict β` maps names to values. Its entries stand in ascending order of their names, so that two
dictionaries with the same bindings are equal.
-/
namespace CodeSurvey

/-- Names with values, in ascending order of the names, each name once. -/
structure Dict (β : Type) where
  entries : List (String × β)
  ascending : entries.Pairwise fun a b => a.1 < b.1

namespace Dict

variable {β γ : Type}

def empty : Dict β := ⟨[], List.Pairwise.nil⟩

instance : Inhabited (Dict β) := ⟨empty⟩

/-- Puts a binding into ascending entries, in place of an older one of the same name. -/
def insertEntry (k : String) (v : β) : List (String × β) → List (String × β)
  | [] => [(k, v)]
  | e :: r =>
    if k < e.1 then (k, v) :: e :: r
    else if k = e.1 then (k, v) :: r
    else e :: insertEntry k v r

theorem mem_insertEntry {k : String} {v : β} {l : List (String × β)} {e : String × β}
    (h : e ∈ insertEntry k v l) : e = (k, v) ∨ e ∈ l := by
  induction l with
  | nil => simpa [insertEntry] using h
  | cons d r ih =>
    simp only [insertEntry] at h
    split at h
    · simpa using h
    · split at h
      · rcases List.mem_cons.1 h with h | h
        · exact .inl h
        · exact .inr (List.mem_cons_of_mem _ h)
      · rcases List.mem_cons.1 h with h | h
        · exact .inr (h ▸ List.mem_cons_self)
        · exact (ih h).imp id (List.mem_cons_of_mem _)

theorem ascending_insertEntry {k : String} {v : β} {l : List (String × β)}
    (h : l.Pairwise fun a b => a.1 < b.1) :
    (insertEntry k v l).Pairwise fun a b => a.1 < b.1 := by
  induction l with
  | nil => simp [insertEntry]
  | cons d r ih =>
    obtain ⟨hd, hr⟩ := List.pairwise_cons.1 h
    simp only [insertEntry]
    split
    · rename_i hk
      refine List.pairwise_cons.2 ⟨fun e he => ?_, h⟩
      rcases List.mem_cons.1 he with rfl | he
      · exact hk
      · exact String.lt_trans hk (hd e he)
    · split
      · rename_i hk
        exact List.pairwise_cons.2 ⟨fun e he => hk ▸ hd e he, hr⟩
      · rename_i h₁ h₂
        refine List.pairwise_cons.2 ⟨fun e he => ?_, ih hr⟩
        rcases mem_insertEntry he with rfl | he
        · exact Classical.byContradiction fun h =>
            h₂ (String.le_antisymm (String.not_lt.1 h) (String.not_lt.1 h₁))
        · exact hd e he

def insert (d : Dict β) (k : String) (v : β) : Dict β :=
  ⟨insertEntry k v d.entries, ascending_insertEntry d.ascending⟩

def get? (d : Dict β) (k : String) : Option β := d.entries.lookup k

theorem lookup_entry (i j : String) (w : β) (r : List (String × β)) :
    ((i, w) :: r).lookup j = if j = i then some w else r.lookup j := by
  by_cases h : j = i
  · subst h
    simp
  · have hb : (j == i) = false := beq_false_of_ne h
    simp only [List.lookup_cons, hb, if_neg h]

theorem lookup_insertEntry (k j : String) (v : β) (l : List (String × β)) :
    (insertEntry k v l).lookup j = if j = k then some v else l.lookup j := by
  induction l with
  | nil => exact lookup_entry k j v []
  | cons e r ih =>
    obtain ⟨i, w⟩ := e
    simp only [insertEntry]
    split
    · exact lookup_entry k j v _
    · split
      · rename_i hi
        simp only [lookup_entry, hi]
        split <;> rfl
      · rename_i hi
        simp only [lookup_entry, ih]
        by_cases h : j = i
        · simp [h, Ne.symm hi]
        · simp [h]

/-- A binding gives its name the value and leaves the other names alone. -/
theorem get?_insert (d : Dict β) (k j : String) (v : β) :
    (d.insert k v).get? j = if j = k then some v else d.get? j :=
  lookup_insertEntry k j v d.entries

def erase (d : Dict β) (k : String) : Dict β :=
  ⟨d.entries.filter (·.1 != k), d.ascending.filter _⟩

theorem get?_erase (d : Dict β) (k j : String) :
    (d.erase k).get? j = if j = k then none else d.get? j := by
  show (d.entries.filter (·.1 != k)).lookup j = if j = k then none else d.entries.lookup j
  induction d.entries with
  | nil => simp
  | cons e r ih =>
    obtain ⟨i, w⟩ := e
    rw [lookup_entry, List.filter_cons]
    by_cases hi : i = k
    · simp only [hi, bne_self_eq_false, Bool.false_eq_true, if_false, ih]
      split <;> rfl
    · simp only [bne_iff_ne.2 hi, if_true, lookup_entry, ih]
      by_cases hj : j = i
      · simp [hj, hi]
      · simp [hj]

/-- A dictionary in which no name has a value has no entries. -/
theorem entries_eq_nil {d : Dict β} (h : ∀ k, d.get? k = none) : d.entries = [] := by
  cases hd : d.entries with
  | nil => rfl
  | cons e r =>
    have hk := h e.1
    rw [get?, hd, lookup_entry, if_pos rfl] at hk
    cases hk

def contains (d : Dict β) (k : String) : Bool := (d.get? k).isSome

/-- The dictionary with the given bindings; of several for one name the last counts. -/
def ofList (l : List (String × β)) : Dict β := l.foldl (fun d e => d.insert e.1 e.2) empty

theorem ofList_concat (l : List (String × β)) (e : String × β) :
    ofList (l ++ [e]) = (ofList l).insert e.1 e.2 := by
  rw [ofList, List.foldl_append]
  rfl

def keys (d : Dict β) : List String := d.entries.map (·.1)

def map (f : β → γ) (d : Dict β) : Dict γ :=
  ⟨d.entries.map fun e => (e.1, f e.2), List.pairwise_map.2 d.ascending⟩

/-- Both dictionaries together; where both bind a name the second counts. -/
def union (d e : Dict β) : Dict β := e.entries.foldl (fun d e => d.insert e.1 e.2) d

end Dict

end CodeSurvey
