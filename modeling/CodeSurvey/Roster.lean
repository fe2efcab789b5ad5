/-!
# Rosters

Named values in the order in which their names came in. A name that comes again keeps its place and
gets the new value.
-/
namespace CodeSurvey

/-- Named values in the order of their names' arrival. -/
structure Roster (α : Type) where
  entries : List (String × α)

namespace Roster

variable {α : Type}

def empty : Roster α := ⟨[]⟩

def names (r : Roster α) : List String := r.entries.map (·.1)

def values (r : Roster α) : List α := r.entries.map (·.2)

def get? (r : Roster α) (name : String) : Option α := r.entries.lookup name

def contains (r : Roster α) (name : String) : Bool := r.names.contains name

/-- Puts a value under a name: in the place of the earlier value, or at the end. -/
def putEntry (name : String) (a : α) : List (String × α) → List (String × α)
  | [] => [(name, a)]
  | e :: es => if e.1 == name then (name, a) :: es else e :: putEntry name a es

def put (r : Roster α) (name : String) (a : α) : Roster α := ⟨putEntry name a r.entries⟩

def remove (r : Roster α) (name : String) : Roster α := ⟨r.entries.eraseP (·.1 == name)⟩

def size (r : Roster α) : Nat := r.entries.length

def isEmpty (r : Roster α) : Bool := r.entries.isEmpty

/-! ## Names stay distinct -/

theorem map_fst_putEntry (name : String) (a : α) (es : List (String × α)) :
    (putEntry name a es).map (·.1) =
      if name ∈ es.map (·.1) then es.map (·.1) else es.map (·.1) ++ [name] := by
  induction es with
  | nil => rfl
  | cons e es ih =>
    by_cases h : e.1 = name
    · simp [putEntry, h]
    · have h' : ¬ name = e.1 := fun he => h he.symm
      by_cases hm : name ∈ es.map (·.1) <;> simp_all [putEntry]

theorem nodup_names_put {r : Roster α} (h : r.names.Nodup) (name : String) (a : α) :
    (r.put name a).names.Nodup := by
  unfold put names at *
  rw [map_fst_putEntry]
  split
  · exact h
  · rename_i hm
    exact List.nodup_append.2 ⟨h, by simp, fun x hx y hy => by
      simp only [List.mem_singleton] at hy
      subst hy
      exact fun he => hm (he ▸ hx)⟩

theorem nodup_names_remove {r : Roster α} (h : r.names.Nodup) (name : String) :
    (r.remove name).names.Nodup :=
  List.Nodup.sublist (List.eraseP_sublist.map _) h

end Roster

end CodeSurvey
