/-!
# Recently used entries

A bounded table that forgets the entry that was used least recently. It is a list with the entry
that was used last in front; every entry has a moment from which on it has expired.
-/
namespace CodeSurvey

/-- A value that is kept up to a moment, in milliseconds (`MemoryEntry`). -/
structure Held (α : Type) where
  value : α
  expires : Nat
deriving Repr, DecidableEq

def Held.isLive {α : Type} (h : Held α) (now : Nat) : Bool := decide (now < h.expires)

/-- Entries by key, the one that was used last in front (`LruCache`). -/
abbrev Recent (α : Type) := List (String × Held α)

namespace Recent

variable {α : Type}

def keys (r : Recent α) : List String := r.map (·.1)

/-- The entry of a key. -/
def held? (r : Recent α) (key : String) : Option (Held α) := r.lookup key

/-- Takes out a key (`pop`). -/
def forget (r : Recent α) (key : String) : Recent α := r.filter (·.1 != key)

def toFront (r : Recent α) (key : String) (h : Held α) : Recent α := (key, h) :: r.forget key

/-- Whether an entry for a key fits only if another one goes. -/
def isCrowded (r : Recent α) (capacity : Nat) (key : String) : Bool :=
  (r.held? key).isNone && decide (capacity ≤ r.length)

/-- Adds an entry (`push`); if it does not fit, the one that was used least recently goes. -/
def push (r : Recent α) (capacity : Nat) (key : String) (h : Held α) : Recent α :=
  if r.isCrowded capacity key then toFront r.dropLast key h else r.toFront key h

/-! ## Keys -/

theorem keys_forget (r : Recent α) (key : String) :
    (r.forget key).keys = r.keys.filter (· != key) := by
  simp [keys, forget, List.filter_map, Function.comp_def]

theorem not_mem_keys_forget (r : Recent α) (key : String) : key ∉ (r.forget key).keys := by
  simp [keys_forget]

theorem nodup_keys_toFront {r : Recent α} (h : r.keys.Nodup) (key : String) (v : Held α) :
    (r.toFront key v).keys.Nodup := by
  refine List.nodup_cons.2 ⟨not_mem_keys_forget r key, ?_⟩
  rw [show List.map (fun x : String × Held α => x.1) (r.forget key) = (r.forget key).keys from rfl,
    keys_forget]
  exact h.sublist List.filter_sublist

theorem nodup_keys_push {r : Recent α} (h : r.keys.Nodup) (capacity : Nat) (key : String)
    (v : Held α) : (r.push capacity key v).keys.Nodup := by
  unfold push
  split
  · exact nodup_keys_toFront (h.sublist ((List.dropLast_sublist r).map _)) key v
  · exact nodup_keys_toFront h key v

end Recent

end CodeSurvey
