import CodeSurvey.Cache.Directory
import CodeSurvey.Config.Settings
/-!
# Caches

A cache keeps values in memory for some time and, if it has a directory, also in files. What memory
has forgotten is fetched from the directory. All operations are functions of the cache, the files
and the time.
-/
namespace CodeSurvey

-- powers are those of the core library, whatever a later module imports
attribute [local instance(high)] instPowNat

/-- What a cache counts (`CacheStats`). -/
structure CacheCounters where
  hits : Nat := 0
  misses : Nat := 0
  evictions : Nat := 0
  expirations : Nat := 0
deriving Repr, DecidableEq

/-- Values by key (`ResultCache`). -/
structure Cache (α : Type) where
  /-- Number of entries that fit into memory. -/
  capacity : Nat
  recent : Recent α := []
  directory : Option OsString := none
  counters : CacheCounters := {}

namespace Cache

variable {α : Type}

def endOfTime : Nat := 2 ^ (64 : Nat) - 1

/-! ## Making -/

/-- A cache in memory (`in_memory`); it holds one entry at least. -/
def inMemory (maxEntries : Nat) : Cache α := { capacity := max maxEntries 1 }

/-- A cache with a directory, which is made if it is missing (`persistent`). -/
def inDirectory (maxEntries : Nat) (dir : OsString) (fs : FileSystem) :
    Except SurveyError (Cache α × FileSystem) :=
  match fs.makeDirs dir with
  | .ok fs => .ok ({ (inMemory maxEntries : Cache α) with directory := some dir }, fs)
  | .error e => .error (.io dir.display e)

/-- The cache for some settings (`from_config`). Settings that name no directory mean the one that
the platform has for caches (`default_cache_dir`), if it has one; without a usable directory the
cache stays in memory. -/
def ofConfig (c : CacheSettings) (platform : Option OsString) (fs : FileSystem) :
    Cache α × FileSystem :=
  match c.persist, c.directory.or platform with
  | true, some dir => (inDirectory c.maxEntries dir fs).toOption.getD (inMemory c.maxEntries, fs)
  | _, _ => (inMemory c.maxEntries, fs)

/-! ## Counting -/

/-- Number of entries in memory (`len`). -/
def size (c : Cache α) : Nat := c.recent.length

def isEmpty (c : Cache α) : Bool := c.recent.isEmpty

/-- Part of the lookups that found something (`hit_rate`). -/
def hitRate (c : Cache α) : Double :=
  let lookups := c.counters.hits + c.counters.misses
  if lookups = 0 then .zero else .ratio c.counters.hits lookups

/-- Starts counting anew (`reset_stats`). -/
def resetCounters (c : Cache α) : Cache α := { c with counters := {} }

def countHit (c : Cache α) : Cache α :=
  { c with counters := { c.counters with hits := c.counters.hits + 1 } }

def countMiss (c : Cache α) : Cache α :=
  { c with counters := { c.counters with misses := c.counters.misses + 1 } }

def countExpired (c : Cache α) (n : Nat) : Cache α :=
  { c with counters := { c.counters with expirations := c.counters.expirations + n } }

/-! ## Keeping -/

/-- Puts an entry into memory (`insert_memory`). -/
def keep (c : Cache α) (key : String) (h : Held α) : Cache α :=
  let evicted := if c.recent.isCrowded c.capacity key then 1 else 0
  { c with
    recent := c.recent.push c.capacity key h
    counters := { c.counters with evictions := c.counters.evictions + evicted } }

/-- Keeps a value for some milliseconds (`put`). -/
def put (codec : Codec α) (c : Cache α) (fs : FileSystem) (now : Nat) (key : String) (value : α)
    (ttl : Nat) : Cache α × FileSystem :=
  let h : Held α := ⟨value, min (now + ttl) endOfTime⟩
  (c.keep key h, c.directory.elim fs fun dir => CacheDir.write codec fs dir key h)

/-! ## Looking up -/

/-- Looks up a key that is not in memory. -/
def fetch (codec : Codec α) (c : Cache α) (fs : FileSystem) (now : Nat) (key : String) :
    Option α × Cache α × FileSystem :=
  match c.directory with
  | none => (none, c.countMiss, fs)
  | some dir => match CacheDir.read codec fs dir key with
    | .found _ h =>
      if h.isLive now then (some h.value, (c.keep key h).countHit, fs)
      else (none, (c.countExpired 1).countMiss, CacheDir.remove fs dir key)
    | _ => (none, c.countMiss, fs)

/-- Looks up a key (`get`). An entry that has expired goes, from its file too. -/
def get (codec : Codec α) (c : Cache α) (fs : FileSystem) (now : Nat) (key : String) :
    Option α × Cache α × FileSystem :=
  match c.recent.held? key with
  | none => c.fetch codec fs now key
  | some h =>
    if h.isLive now then
      (some h.value, { c with recent := c.recent.toFront key h }.countHit, fs)
    else (none, ({ c with recent := c.recent.forget key }.countExpired 1).countMiss,
      c.directory.elim fs fun dir => CacheDir.remove fs dir key)

/-! ## Taking out -/

/-- Takes out a key (`remove`). -/
def remove (c : Cache α) (fs : FileSystem) (key : String) : Cache α × FileSystem :=
  ({ c with recent := c.recent.forget key },
    c.directory.elim fs fun dir => CacheDir.remove fs dir key)

/-- Whether a key is one of a path. -/
def isKeyOf (path key : String) : Bool := pathOfKey? key == some path

/-- Takes out everything that is kept for a path, and gives the number of keys
(`invalidate_path`). -/
def invalidate (codec : Codec α) (c : Cache α) (fs : FileSystem) (path : String) :
    Nat × Cache α × FileSystem :=
  let inMemory := c.recent.keys.filter (isKeyOf path)
  let (inFiles, fs) := c.directory.elim ([], fs) fun dir =>
    CacheDir.removeWhere codec (isKeyOf path) ((CacheDir.files fs dir).toOption.getD []) fs
  ((inMemory ++ inFiles).eraseDups.length,
    { c with recent := c.recent.filter fun e => !isKeyOf path e.1 }, fs)

/-- Takes out everything (`clear`). -/
def clear (c : Cache α) (fs : FileSystem) : Cache α × FileSystem :=
  ({ c with recent := [] }, c.directory.elim fs (CacheDir.clear fs))

/-- Takes out of memory what has expired, and gives the number of entries (`prune_expired`). -/
def prune (c : Cache α) (now : Nat) : Nat × Cache α :=
  let live := c.recent.filter (·.2.isLive now)
  let expired := c.recent.length - live.length
  (expired, { c with recent := live }.countExpired expired)

end Cache

end CodeSurvey
