import CodeSurvey.Plugin.Basic
import CodeSurvey.Roster
/-!
# Plugin registries

A registry owns its plugins. Every plugin that is registered becomes an instance with a serial
number of its own, and is disposed of once: when it is replaced, unregistered or cleared, or when
the registry is closed.
-/
namespace CodeSurvey

/-- A registered plugin (`PluginHandle`). -/
structure Instance (α β : Type) where
  serial : Nat
  plugin : Plugin α β

/-- Plugins by name, in the order of registration (`PluginRegistry`). -/
structure Registry (α β : Type) where
  /-- The word for one of its plugins in messages. -/
  kind : String
  roster : Roster (Instance α β)
  /-- Number of instances so far, which is the serial number of the next one. -/
  issued : Nat
  /-- Serial numbers of the instances that were disposed of, in order. -/
  disposed : List Nat

namespace Registry

variable {α β : Type}

def empty (kind : String) : Registry α β := ⟨kind, .empty, 0, []⟩

def names (r : Registry α β) : List String := r.roster.names

def get? (r : Registry α β) (name : String) : Option (Instance α β) := r.roster.get? name

def contains (r : Registry α β) (name : String) : Bool := r.roster.contains name

def size (r : Registry α β) : Nat := r.roster.size

/-- Registers a plugin (`register`); one of the same name is replaced in its place and disposed
of. -/
def register (r : Registry α β) (name : String) (p : Plugin α β) : Registry α β :=
  { r with
    roster := r.roster.put name ⟨r.issued, p⟩
    issued := r.issued + 1
    disposed := r.disposed ++ (r.get? name).toList.map (·.serial) }

/-- Takes out a plugin and disposes of it (`unregister`). -/
def unregister (r : Registry α β) (name : String) : Registry α β :=
  { r with
    roster := r.roster.remove name
    disposed := r.disposed ++ (r.get? name).toList.map (·.serial) }

/-- Takes out all plugins and disposes of them (`clear`). -/
def clear (r : Registry α β) : Registry α β :=
  { r with
    roster := .empty
    disposed := r.disposed ++ r.roster.values.map (·.serial) }

/-- Ends a registry: the plugins that it still owns are disposed of. Gives the serial numbers of all
instances that were ever disposed of, in order. -/
def close (r : Registry α β) : List Nat := r.clear.disposed

end Registry

end CodeSurvey
