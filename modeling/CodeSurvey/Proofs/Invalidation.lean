import CodeSurvey.Proofs.CacheKey
import CodeSurvey.Proofs.Repair
/-!
# Invalidating one path

An invalidation filters two stores by the path in a key: the entries in memory and the files of the
directory. Deleting the files of chosen keys takes away the places where valid entries of these keys
stand and no other (`CacheDir.Swept`), so files that are no entries stay as well. A key gives its path
back, however many colons the path holds, so the chosen keys are those that were made for the path.
What was made for another path stays as it is, and a key that stood in both stores counts once
(`invalidate_exact`).
-/
namespace CodeSurvey

open FileSystem

attribute [local irreducible] CacheDir.fileName

-- `eraseDups` drops later copies of the head before it goes on, so the recursion is on the length
theorem nodup_eraseDups : ∀ l : List String, l.eraseDups.Nodup
  | [] => List.nodup_nil
  | a :: l => by
    rw [List.eraseDups_cons, List.nodup_cons, List.mem_eraseDups]
    exact ⟨by simp, nodup_eraseDups (l.filter fun b => !b == a)⟩
termination_by l => l.length
decreasing_by exact Nat.lt_succ_of_le (List.length_filter_le _ _)

/-! ## Chosen entries -/

namespace Reading

variable {α : Type} {chosen : String → Bool} {x y : Reading α} {k : String}

/-- The key of an entry that is chosen. -/
def chosenKey? (chosen : String → Bool) : Reading α → Option String
  | .found key _ => if chosen key then some key else none
  | _ => none

theorem chosenKey?_eq_some :
    x.chosenKey? chosen = some k ↔ (∃ held, x = .found k held) ∧ chosen k = true := by
  cases x with
  | missing => simp [chosenKey?]
  | corrupt => simp [chosenKey?]
  | found key held =>
    simp only [chosenKey?, Option.ite_none_right_eq_some, Option.some.injEq, found.injEq]
    constructor
    · rintro ⟨hchosen, rfl⟩
      exact ⟨⟨held, rfl, rfl⟩, hchosen⟩
    · rintro ⟨⟨_, rfl, -⟩, hchosen⟩
      exact ⟨hchosen, rfl⟩

/-- Files that hold the same entry, if any, give the same value. -/
theorem live?_congr (h : ∀ k held, x = .found k held ↔ y = .found k held) (now : Nat) :
    x.live? now = y.live? now := by
  cases x with
  | found k held => rw [(h k held).1 rfl]
  | missing | corrupt =>
    cases y with
    | found k held => cases (h k held).2 rfl
    | missing | corrupt => rfl

end Reading

namespace CacheDir

variable {α : Type} {codec : Codec α} {chosen : String → Bool} {fs fs' : FileSystem}
  {dir n : OsString} {k : String} {top : Place} {paths : List OsString}

/-- The key that the file of a name holds, if it is chosen. -/
def chosenAt? (codec : Codec α) (chosen : String → Bool) (fs : FileSystem) (dir n : OsString) :
    Option String :=
  (readEntry codec fs (Path.join dir n)).chosenKey? chosen

theorem removeWhere_skip (h : chosenAt? codec chosen fs dir n = none) :
    removeWhere codec chosen (Path.join dir n :: paths) fs = removeWhere codec chosen paths fs := by
  rw [removeWhere]
  unfold chosenAt? at h
  split
  · rename_i key held hr
    rw [hr] at h
    split
    · rename_i hchosen
      simp [Reading.chosenKey?, hchosen] at h
    · rfl
  · rfl

theorem removeWhere_take (h : chosenAt? codec chosen fs dir n = some k)
    (hr : removeFile fs (Path.join dir n) = .ok fs') :
    removeWhere codec chosen (Path.join dir n :: paths) fs =
      (k :: (removeWhere codec chosen paths fs').1, (removeWhere codec chosen paths fs').2) := by
  obtain ⟨⟨held, hfound⟩, hchosen⟩ := Reading.chosenKey?_eq_some.1 h
  rw [removeWhere, hfound]
  simp only [hchosen, if_true, hr]

/-- **Deleting by key**: the names whose files hold a chosen key go, and these keys are given in order. -/
theorem removeWhere_names (codec : Codec α) (chosen : String → Bool) {ns : List OsString}
    (ht : fs.IsTree) (h : OpensAt fs dir top) (hns : ∀ n ∈ ns, PlainName n) (hnodup : ns.Nodup) :
    (removeWhere codec chosen (ns.map (Path.join dir)) fs).1 =
        ns.filterMap (chosenAt? codec chosen fs dir) ∧
      TakesOut fs (removeWhere codec chosen (ns.map (Path.join dir)) fs).2 dir top
        (ns.filter fun n => (chosenAt? codec chosen fs dir n).isSome) := by
  induction ns generalizing fs with
  | nil => exact ⟨rfl, TakesOut.refl ht h⟩
  | cons n ns ih =>
    rw [List.forall_mem_cons] at hns
    rw [List.nodup_cons] at hnodup
    cases hk : chosenAt? codec chosen fs dir n with
    | none =>
      rw [List.map_cons, removeWhere_skip hk, List.filterMap_cons_none hk,
        List.filter_cons_of_neg (by simp [hk])]
      exact ih ht h hns.2 hnodup.2
    | some k =>
      obtain ⟨⟨held, hfound⟩, -⟩ := Reading.chosenKey?_eq_some.1 hk
      have hfile : fs.child? top n ≠ some .dir := by
        intro hdir
        rw [readEntry_join h hns.1, hdir] at hfound
        cases hfound
      obtain ⟨-, fs₁, hr, hfirst⟩ :=
        (removeFile_cases ht h hns.1).resolve_right fun hdir => hfile hdir.1
      -- the other names hold what they held before
      have hsame : ∀ m ∈ ns, chosenAt? codec chosen fs₁ dir m =
          chosenAt? codec chosen fs dir m := by
        intro m hm
        have hne : m ∉ [n] := fun hmn => hnodup.1 (List.mem_singleton.1 hmn ▸ hm)
        rw [chosenAt?, readEntry_of_takesOut h hfirst (hns.2 m hm) hne, chosenAt?]
      obtain ⟨hkeys, hrest⟩ := ih hfirst.tree hfirst.opens hns.2 hnodup.2
      rw [List.filterMap_congr hsame] at hkeys
      rw [List.filter_congr fun m hm => by rw [hsame m hm]] at hrest
      rw [List.map_cons, removeWhere_take hk hr, List.filterMap_cons_some hk,
        List.filter_cons_of_pos (by simp [hk]), hkeys]
      exact ⟨rfl, hfirst.trans hrest⟩

/-! ## Whole directories -/

/-- The files of some keys went from a directory. -/
structure Swept (codec : Codec α) (chosen : String → Bool) (dir : OsString) (fs fs' : FileSystem)
    (keys : List String) : Prop where
  /-- The keys are the chosen ones with a valid entry. -/
  keys : ∀ k, k ∈ keys ↔ chosen k = true ∧ ∃ held, read codec fs dir k = .found k held
  /-- An entry that is not chosen keeps its bytes. -/
  bytes : ∀ k held, chosen k = false → read codec fs dir k = .found k held →
    fs'.readBytes (filePath dir k) = fs.readBytes (filePath dir k)
  /-- Where no valid entry of a chosen key stands, nothing changes. -/
  unchanged : ∀ p, (∀ k held, chosen k = true → read codec fs dir k = .found k held →
    fs.locate (filePath dir k) ≠ .ok p) → fs'.stored? p = fs.stored? p

/-- A name with a chosen key is the name of that key. -/
theorem chosenAt?_eq_some (hd : dir.isEmpty = false) (hn : PlainName n) :
    chosenAt? codec chosen fs dir n = some k ↔
      n = ↑(fileName k) ∧ chosen k = true ∧ ∃ held, read codec fs dir k = .found k held := by
  rw [chosenAt?, Reading.chosenKey?_eq_some]
  constructor
  · rintro ⟨⟨held, hr⟩, hchosen⟩
    obtain ⟨-, -, -, hname⟩ := readEntry_eq_found.1 hr
    rw [fileName?_join hd hn] at hname
    obtain rfl := Option.some.inj hname
    exact ⟨rfl, hchosen, held, read_eq_found.2 ⟨rfl, hr⟩⟩
  · rintro ⟨rfl, hchosen, held, hr⟩
    exact ⟨⟨held, (read_eq_found.1 hr).2⟩, hchosen⟩

/-- An entry that is not chosen is found if and only if it was found before. -/
theorem Swept.read_eq_found_iff {keys : List String} (h : Swept codec chosen dir fs fs' keys)
    (hfades : fs.Fades fs') (hk : chosen k = false) (j : String) (held : Held α) :
    read codec fs' dir k = .found j held ↔ read codec fs dir k = .found j held := by
  constructor
  · intro hr
    obtain ⟨rfl, -⟩ := read_eq_found.1 hr
    exact read_of_fades hfades hr
  · intro hr
    obtain ⟨rfl, hentry⟩ := read_eq_found.1 hr
    rw [read_eq_found, readEntry_eq_found, h.bytes _ held hk hr]
    exact ⟨rfl, readEntry_eq_found.1 hentry⟩

/-- The names of the files that hold a chosen key. -/
def chosenNames (codec : Codec α) (chosen : String → Bool) (fs : FileSystem) (dir : OsString)
    (top : Place) : List OsString :=
  (entryNames fs top).filter fun n => (chosenAt? codec chosen fs dir n).isSome

theorem fileName_mem_entryNames (h : OpensAt fs dir top) {held : Held α}
    (hr : read codec fs dir k = .found k held) : ↑(fileName k) ∈ entryNames fs top := by
  refine (mem_entryNames h).2 ⟨nameExtension?_fileName k, ?_⟩
  have hentry := (read_eq_found.1 hr).2
  rw [filePath, readEntry_join h (plain_fileName k)] at hentry
  cases hc : fs.child? top (fileName k) with
  | none => rw [hc] at hentry; cases hentry
  | some e => rfl

/-- They are the names of the chosen keys with a valid entry. -/
theorem mem_chosenNames (ht : fs.IsTree) (h : OpensAt fs dir top) :
    n ∈ chosenNames codec chosen fs dir top ↔
      ∃ k held, n = ↑(fileName k) ∧ chosen k = true ∧ read codec fs dir k = .found k held := by
  rw [chosenNames, List.mem_filter, Option.isSome_iff_exists]
  constructor
  · rintro ⟨hmem, k, hk⟩
    obtain ⟨hname, hchosen, held, hr⟩ :=
      (chosenAt?_eq_some h.nonempty (plain_of_mem_entryNames ht h hmem)).1 hk
    exact ⟨k, held, hname, hchosen, hr⟩
  · rintro ⟨k, held, rfl, hchosen, hr⟩
    exact ⟨fileName_mem_entryNames h hr, k,
      (chosenAt?_eq_some h.nonempty (plain_fileName k)).2 ⟨rfl, hchosen, held, hr⟩⟩

theorem swept_of_opensAt (ht : fs.IsTree) (h : OpensAt fs dir top) :
    Swept codec chosen dir fs
      (removeWhere codec chosen ((entryNames fs top).map (Path.join dir)) fs).2
      (removeWhere codec chosen ((entryNames fs top).map (Path.join dir)) fs).1 := by
  have hplain : ∀ n ∈ entryNames fs top, PlainName n := fun n hn => plain_of_mem_entryNames ht h hn
  obtain ⟨hkeys, hout⟩ := removeWhere_names codec chosen ht h hplain (nodup_entryNames ht top)
  rw [← chosenNames] at hout
  refine ⟨fun k => ?_, fun k held hchosen hr => ?_, fun p hp => ?_⟩
  · rw [hkeys, List.mem_filterMap]
    constructor
    · rintro ⟨n, hn, hk⟩
      exact ((chosenAt?_eq_some h.nonempty (hplain n hn)).1 hk).2
    · rintro ⟨hchosen, held, hr⟩
      exact ⟨fileName k, fileName_mem_entryNames h hr,
        (chosenAt?_eq_some h.nonempty (plain_fileName k)).2 ⟨rfl, hchosen, held, hr⟩⟩
  · have hstays : ↑(fileName k) ∉ chosenNames codec chosen fs dir top := by
      intro hn
      obtain ⟨j, held', hname, hj, hr'⟩ := (mem_chosenNames ht h).1 hn
      -- one file holds one key
      have hboth := (read_eq_found.1 hr').2
      rw [filePath, ← hname, ← filePath, (read_eq_found.1 hr).2] at hboth
      cases hboth
      rw [hchosen] at hj
      cases hj
    rw [filePath, hout.opens.readBytes_join (plain_fileName k), h.readBytes_join (plain_fileName k),
      hout.child?_of_not_mem hstays]
  · refine hout.kept p fun n hn hplace => ?_
    obtain ⟨k, held, rfl, hchosen, hr⟩ := (mem_chosenNames ht h).1 hn
    refine hp k held hchosen hr ?_
    rw [filePath, h.locate_join (plain_fileName k),
      if_pos ((mem_entryNames h).1 (fileName_mem_entryNames h hr)).2, hplace]

/-- **Deleting the files of chosen keys** from a directory, whatever else stands in it. -/
theorem swept_removeWhere (codec : Codec α) (chosen : String → Bool) (ht : fs.IsTree)
    (hd : dir.isEmpty = false) :
    Swept codec chosen dir fs
      (removeWhere codec chosen ((files fs dir).toOption.getD []) fs).2
      (removeWhere codec chosen ((files fs dir).toOption.getD []) fs).1 := by
  have hcases : (files fs dir).toOption.getD [] = [] ∨ ∃ top, OpensAt fs dir top := by
    cases hfiles : files fs dir with
    | error e => exact .inl rfl
    | ok paths => exact .inr (opensAt_of_files hfiles)
  rcases hcases with hempty | ⟨top, h⟩
  · -- nothing is listed, so there are no entries
    have habsent {k : String} {held : Held α} (hr : read codec fs dir k = .found k held) : False := by
      obtain ⟨bytes, hb, -⟩ := readEntry_eq_found.1 (read_eq_found.1 hr).2
      have hmem := mem_files_of_read hd hb
      rw [hempty] at hmem
      cases hmem
    rw [hempty]
    refine ⟨fun k => ⟨fun hk => ?_, fun h => ?_⟩, fun _ _ _ _ => rfl, fun _ _ => rfl⟩
    · cases hk
    · obtain ⟨-, held, hr⟩ := h
      exact (habsent hr).elim
  · rw [files_opensAt h]
    exact swept_of_opensAt ht h

end CacheDir

/-! ## Both stores -/

namespace Cache

variable {α : Type} {codec : Codec α} {c : Cache α} {fs : FileSystem}

/-- Whether a cache has an entry of a key, in memory or in a valid file. -/
def Holds (codec : Codec α) (c : Cache α) (fs : FileSystem) (k : String) : Prop :=
  k ∈ c.recent.keys ∨
    ∃ dir held, c.directory = some dir ∧ CacheDir.read codec fs dir k = .found k held

/-- A lookup depends on the entries of its key only. -/
theorem fst_get_congr {c' : Cache α} {fs' : FileSystem} {k : String}
    (hmemory : c'.recent.held? k = c.recent.held? k) (hdir : c'.directory = c.directory)
    (hfile : ∀ dir, c.directory = some dir → ∀ j held,
      CacheDir.read codec fs' dir k = .found j held ↔ CacheDir.read codec fs dir k = .found j held)
    (now : Nat) : (c'.get codec fs' now k).1 = (c.get codec fs now k).1 := by
  rw [fst_get, fst_get, hmemory, hdir]
  cases hd : c.directory with
  | none => rfl
  | some dir => simp only [Option.bind_some, Reading.live?_congr (hfile dir hd) now]

/-- What an invalidation does: it counts the keys of the path, filters memory and sweeps the directory. -/
theorem invalidate_eq (codec : Codec α) (ht : fs.IsTree)
    (hdir : ∀ dir, c.directory = some dir → dir.isEmpty = false) (p : String) :
    ∃ (keys : List String) (fs' : FileSystem), c.invalidate codec fs p =
        (keys.length, { c with recent := c.recent.filter fun e => !isKeyOf p e.1 }, fs') ∧
      keys.Nodup ∧ (∀ k, k ∈ keys ↔ isKeyOf p k = true ∧ c.Holds codec fs k) ∧
      (c.directory = none → fs' = fs) ∧
      ∀ dir, c.directory = some dir → ∃ gone, CacheDir.Swept codec (isKeyOf p) dir fs fs' gone := by
  have hmem (k : String) : k ∈ c.recent.keys.filter (isKeyOf p) ↔
      isKeyOf p k = true ∧ k ∈ c.recent.keys := by rw [List.mem_filter, and_comm]
  cases hd : c.directory with
  | none =>
    refine ⟨_, fs, by simp only [invalidate, hd]; rfl, nodup_eraseDups _, fun k => ?_, fun _ => rfl,
      by simp⟩
    rw [List.mem_eraseDups, List.mem_append, hmem, Holds, hd]
    simp
  | some dir =>
    have hswept := CacheDir.swept_removeWhere codec (isKeyOf p) ht (hdir dir hd)
    refine ⟨_, _, by simp only [invalidate, hd]; rfl, nodup_eraseDups _, fun k => ?_, by simp,
      fun dir' hdir' => ?_⟩
    · rw [List.mem_eraseDups, List.mem_append, hmem, Option.elim_some, hswept.keys, ← and_or_left,
        Holds, hd]
      simp
    · cases hdir'
      exact ⟨_, hswept⟩

/-- What an invalidation of a path leaves behind, and the number that it gives. -/
structure Invalidated (codec : Codec α) (p : String) (c c' : Cache α) (fs fs' : FileSystem)
    (number : Nat) : Prop where
  /-- Under every configuration the path is missed, and nothing but that is noticed. -/
  misses : ∀ (config : SettledConfig) now,
    c'.get codec fs' now (config.key p) = (none, c'.countMiss, fs')
  /-- The entries of other paths stay in memory with their values and moments, in their order. -/
  memory : ∃ stays : String → Bool,
    (∀ (q : String) (config : SettledConfig), stays (config.key q) = true ↔ q ≠ p) ∧
    c'.recent = c.recent.filter fun e => stays e.1
  /-- The entries of other paths stay in their files, byte for byte. -/
  files : ∀ dir, c.directory = some dir → ∀ (q : String) (config : SettledConfig) held, q ≠ p →
    CacheDir.read codec fs dir (config.key q) = .found (config.key q) held →
    CacheDir.read codec fs' dir (config.key q) = .found (config.key q) held ∧
    fs'.readBytes (CacheDir.filePath dir (config.key q)) =
      fs.readBytes (CacheDir.filePath dir (config.key q))
  /-- At every place where no valid entry of the path stood, there is what was there. -/
  unchanged : ∀ place, (∀ dir (config : SettledConfig) held, c.directory = some dir →
    CacheDir.read codec fs dir (config.key p) = .found (config.key p) held →
    fs.locate (CacheDir.filePath dir (config.key p)) ≠ .ok place) →
    fs'.stored? place = fs.stored? place
  /-- Other paths are found as before. -/
  lookups : ∀ (q : String) (config : SettledConfig) now, q ≠ p →
    (c'.get codec fs' now (config.key q)).1 = (c.get codec fs now (config.key q)).1
  counters : c'.counters = c.counters
  capacity : c'.capacity = c.capacity
  directory : c'.directory = c.directory
  /-- The number is the one of distinct keys of the path that were there. -/
  number : ∃ keys : List String, keys.Nodup ∧ number = keys.length ∧
    ∀ k, k ∈ keys ↔ (∃ config : SettledConfig, k = config.key p) ∧ c.Holds codec fs k

/-- **An invalidation takes out exactly one path**, whatever is in memory and in the files, and however the
path looks, if every key was made for some path and configuration and the directory has a name. -/
theorem invalidate_exact (codec : Codec α) (c : Cache α) (ht : fs.IsTree)
    (hdir : ∀ dir, c.directory = some dir → dir.isEmpty = false)
    (hmade : ∀ k, c.Holds codec fs k → ∃ (q : String) (config : SettledConfig), k = config.key q)
    (p : String) :
    c.Invalidated codec p (c.invalidate codec fs p).2.1 fs (c.invalidate codec fs p).2.2
      (c.invalidate codec fs p).1 := by
  have hother {q : String} (config : SettledConfig) (hq : q ≠ p) : isKeyOf p (config.key q) = false :=
    Bool.eq_false_iff.2 fun h => hq ((isKeyOf_key p q config).1 h)
  -- among the keys that are there, the chosen ones were made for the path
  have hchosen {k : String} (hk : c.Holds codec fs k) :
      isKeyOf p k = true ↔ ∃ config : SettledConfig, k = config.key p := by
    constructor
    · intro hkey
      obtain ⟨q, config, rfl⟩ := hmade k hk
      exact ⟨config, by rw [(isKeyOf_key p q config).1 hkey]⟩
    · rintro ⟨config, rfl⟩
      exact (isKeyOf_key p p config).2 rfl
  have hfades := fades_invalidate codec c fs p
  have hheld : AllHeld codec (fun k _ => isKeyOf p k = false) (c.invalidate codec fs p).2.1
      (c.invalidate codec fs p).2.2 :=
    (AllHeld.invalidate (P := fun _ _ => True) ⟨by simp, by simp⟩ hdir p).imp fun _ _ h => h.2
  obtain ⟨keys, fs', heq, hnodup, hkeys, hnone, hswept⟩ := invalidate_eq codec ht hdir p
  rw [heq] at hfades hheld ⊢
  dsimp only at hfades hheld ⊢
  refine ⟨fun config now => ?_, ⟨fun k => !isKeyOf p k, fun q config => ?_, rfl⟩,
    fun dir hd q config held hq hr => ?_, fun place hplace => ?_, fun q config now hq => ?_,
    rfl, rfl, rfl, ⟨keys, hnodup, rfl, fun k => ?_⟩⟩
  · exact hheld.get_eq_miss (fun _ hk => by simp [(isKeyOf_key p p config).2 rfl] at hk) now
  · rw [Bool.not_eq_true', Bool.eq_false_iff, Ne, isKeyOf_key]
  · obtain ⟨gone, hgone⟩ := hswept dir hd
    exact ⟨(hgone.read_eq_found_iff hfades (hother config hq) _ held).2 hr,
      hgone.bytes _ held (hother config hq) hr⟩
  · cases hd : c.directory with
    | none => rw [hnone hd]
    | some dir =>
      obtain ⟨gone, hgone⟩ := hswept dir hd
      refine hgone.unchanged place fun k held hk hr => ?_
      obtain ⟨config, rfl⟩ := (hchosen (.inr ⟨dir, held, hd, hr⟩)).1 hk
      exact hplace dir config held hd hr
  · refine fst_get_congr ?_ ?_ (fun dir hd => ?_) now
    · rw [Recent.held?, lookup_filter_key (fun k => !isKeyOf p k), hother config hq]
      rfl
    · rfl
    · obtain ⟨gone, hgone⟩ := hswept dir hd
      exact hgone.read_eq_found_iff hfades (hother config hq)
  · rw [hkeys]
    exact and_congr_left hchosen

/-- A key of a path under a configuration without options. -/
def plainKey (path : String) (useCache : Bool) : String :=
  (⟨[], [], useCache, defaultTtl, .empty, .empty⟩ : SettledConfig).key path

/-- A directory with one entry. -/
def oneFile : FileSystem :=
  ⟨[(["cache"], .dir), (["cache", ↑(CacheDir.fileName (plainKey "a" false))],
    .file (CacheDir.content Codec.json (plainKey "a" false) ⟨.str "two", 50⟩))], []⟩

/-- A cache with two keys of a path, one of them also in a file, and one of a path that starts like it. -/
def twoPaths : Cache Json where
  capacity := 3
  recent := [(plainKey "a" true, ⟨.str "one", 50⟩), (plainKey "a:b" true, ⟨.str "three", 50⟩),
    (plainKey "a" false, ⟨.str "two", 50⟩)]
  directory := some ↑"cache"

theorem isTree_oneFile : oneFile.IsTree := by
  have hplain : PlainName (CacheDir.fileName (plainKey "a" false)) := CacheDir.plain_fileName _
  have hcache : PlainName "cache" := by decide
  refine ⟨?_, ?_, ?_, rfl⟩
  · simp [oneFile]
  · simp [oneFile, hplain, hcache]
  · simp [oneFile, stored?]

theorem eq_of_read_oneFile {k : String} {held : Held Json}
    (h : CacheDir.read Codec.json oneFile "cache" k = .found k held) : k = plainKey "a" false := by
  obtain ⟨bytes, hb, ho, -⟩ := CacheDir.readEntry_eq_found.1 (CacheDir.read_eq_found.1 h).2
  obtain ⟨top, -, hchild⟩ := opensAt_of_readBytes (by decide) (CacheDir.plain_fileName k) hb
  have hbytes : bytes = CacheDir.content Codec.json (plainKey "a" false) ⟨.str "two", 50⟩ := by
    have hmem := mem_of_stored? (by simp) hchild
    simp only [oneFile, List.mem_cons, Prod.mk.injEq, reduceCtorEq, and_false, Entry.file.injEq,
      List.not_mem_nil, or_false, false_or] at hmem
    exact hmem.2
  rw [hbytes, CacheDir.ofContent?_content ⟨.str "two", Json.readValue_str 126 "two" _, rfl⟩
    (by decide)] at ho
  exact (Prod.mk.inj (Option.some.inj ho)).1.symm

/-- Both keys of the path go, the one in both stores counts once, and the longer path is still found. -/
theorem invalidate_exact_twoPaths :
    ∃ c' fs', twoPaths.invalidate Codec.json oneFile "a" = (2, c', fs') ∧ oneFile.IsTree ∧
      (∀ k, twoPaths.Holds Codec.json oneFile k →
        ∃ (q : String) (config : SettledConfig), k = config.key q) ∧
      (∀ config : SettledConfig, (c'.get Codec.json fs' 0 (config.key "a")).1 = none) ∧
      (c'.get Codec.json fs' 0 (plainKey "a:b" true)).1 = some (.str "three") ∧
      c'.counters = twoPaths.counters := by
  have hholds {k : String} (hk : twoPaths.Holds Codec.json oneFile k) :
      k = plainKey "a" true ∨ k = plainKey "a:b" true ∨ k = plainKey "a" false := by
    rcases hk with hk | ⟨dir, held, hd, hr⟩
    · simpa [twoPaths, Recent.keys] using hk
    · cases hd
      exact .inr (.inr (eq_of_read_oneFile hr))
  have hmade : ∀ k, twoPaths.Holds Codec.json oneFile k →
      ∃ (q : String) (config : SettledConfig), k = config.key q := by
    intro k hk
    rcases hholds hk with rfl | rfl | rfl <;> exact ⟨_, _, rfl⟩
  have hdone := invalidate_exact Codec.json twoPaths isTree_oneFile
    (fun dir hd => by cases hd; decide) hmade "a"
  rcases hr : twoPaths.invalidate Codec.json oneFile "a" with ⟨number, c', fs'⟩
  rw [hr] at hdone
  obtain ⟨keys, hnodup, hlength, hkeys⟩ := hdone.number
  have hnumber : number = 2 := by
    have hne : plainKey "a" true ≠ plainKey "a" false := fun h => by
      cases (SettledConfig.key_injective h).2
    have hperm : keys.Perm [plainKey "a" true, plainKey "a" false] := by
      refine (List.perm_ext_iff_of_nodup hnodup (by simpa using hne)).2 fun k => ?_
      rw [hkeys]
      constructor
      · rintro ⟨⟨config, hk⟩, hheld⟩
        rcases hholds hheld with rfl | rfl | rfl
        · simp
        · exact absurd (SettledConfig.key_injective hk).1 (by decide)
        · simp
      · intro hk
        rcases List.mem_pair.1 hk with rfl | rfl
        · exact ⟨⟨_, rfl⟩, .inl (by simp [twoPaths, Recent.keys])⟩
        · exact ⟨⟨_, rfl⟩, .inl (by simp [twoPaths, Recent.keys])⟩
    exact hlength.trans hperm.length_eq
  refine ⟨c', fs', by rw [hnumber], isTree_oneFile, hmade, fun config => ?_, ?_, hdone.counters⟩
  · rw [hdone.misses]
  · have hne : plainKey "a:b" true ≠ plainKey "a" true := fun h =>
      absurd (SettledConfig.key_injective h).1 (by decide)
    have hheld : twoPaths.recent.held? (plainKey "a:b" true) = some ⟨.str "three", 50⟩ := by
      rw [Recent.held?, twoPaths, lookup_cons_ne hne, List.lookup_cons_self]
    refine (hdone.lookups "a:b" _ 0 (by decide)).trans ?_
    rw [← plainKey, fst_get, hheld]
    rfl

end Cache

end CodeSurvey
