import CodeSurvey.Proofs.CacheDirectory
import CodeSurvey.Proofs.JsonReading
/-!
# What a cache directory can still give

Nothing is assumed here about the directory: it may be missing, hold other files or be taken away.
A write adds what the written content holds at most (`ofContent?_or_read`), deletions add nothing
(`Fades`), and after a clearing or an invalidation nothing of what they aim at can be read (`not_read_of_clear`,
`not_chosen_of_read`). `Cache.AllHeld` puts that together for a cache with its memory: one lemma for
each operation says which entries can be there after it.
-/
namespace CodeSurvey

open FileSystem

/-- What can be read afterwards could be read before. -/
def FileSystem.Fades (fs fs' : FileSystem) : Prop :=
  ∀ path bytes, fs'.readBytes path = .ok bytes → fs.readBytes path = .ok bytes

namespace FileSystem.Fades

variable {fs fs' fs'' : FileSystem}

theorem refl (fs : FileSystem) : fs.Fades fs := fun _ _ h => h

theorem trans (h : fs.Fades fs') (h' : fs'.Fades fs'') : fs.Fades fs'' :=
  fun path bytes hr => h path bytes (h' path bytes hr)

end FileSystem.Fades

namespace CacheDir

attribute [local irreducible] fileName

variable {α : Type} {codec : Codec α} {fs fs' : FileSystem} {dir : OsString} {key : String}
  {held : Held α}

/-! ## Entries and bytes -/

theorem readEntry_eq_found {path : OsString} :
    readEntry codec fs path = .found key held ↔
      ∃ bytes, fs.readBytes path = .ok bytes ∧ ofContent? codec bytes = some (key, held) ∧
        Path.fileName? path = some ↑(fileName key) := by
  unfold readEntry
  cases hr : fs.readBytes path with
  | error e => cases e <;> simp
  | ok bytes =>
    cases ho : ofContent? codec bytes with
    | none => simp [ho]
    | some x =>
      obtain ⟨k, h⟩ := x
      simp only [Except.ok.injEq, exists_eq_left', Option.some.injEq, Prod.mk.injEq, ho]
      split <;> simp_all
      rintro rfl rfl
      assumption

theorem readEntry_of_fades {path : OsString} (h : fs.Fades fs')
    (hr : readEntry codec fs' path = .found key held) :
    readEntry codec fs path = .found key held := by
  obtain ⟨bytes, hb, ho⟩ := readEntry_eq_found.1 hr
  exact readEntry_eq_found.2 ⟨bytes, h _ _ hb, ho⟩

/-! ## Writing -/

/-- **After a write**, a key gives what the written content holds, or what it gave before. -/
theorem ofContent?_or_read {j : String} {g : Held α}
    (h : read codec (write codec fs dir key held) dir j = .found j g) :
    ofContent? codec (content codec key held) = some (j, g) ∨ read codec fs dir j = .found j g := by
  unfold write at h
  cases hw : fs.writeFile (filePath dir key) (content codec key held) with
  | error e => exact .inr (by simpa [hw, Except.toOption] using h)
  | ok fs' =>
    simp only [hw, Except.toOption, Option.getD_some] at h
    obtain ⟨bytes, hb, ho, hname⟩ := readEntry_eq_found.1 (read_eq_found.1 h).2
    rcases readBytes_of_writeFile hw hb with rfl | hb
    · exact .inl ho
    · exact .inr (read_eq_found.2 ⟨rfl, readEntry_eq_found.2 ⟨bytes, hb, ho, hname⟩⟩)

/-- What is read from the content of an entry has its key, and a value that was read from an echo of
the written one. -/
theorem echoes_of_content {k : String} {g : Held α}
    (h : ofContent? codec (content codec key held) = some (k, g)) :
    k = key ∧ ∃ v, (codec.write held.value).Echoes v ∧ codec.read v = some g.value := by
  rw [ofContent?, content, Utf8.decode?_encode] at h
  simp only [Option.bind_eq_bind, Option.bind_some, Option.bind_eq_some_iff] at h
  obtain ⟨j, hj, e, he, k', hk, v', hv, x, hx, heq⟩ := h
  obtain ⟨gs, rfl, a, as, rfl, rfl, b, bs, rfl, -, v, vs, rfl, hecho, rfl⟩ := Json.echoes_of_read? hj
  rw [object_entry] at he
  cases he
  cases heq
  exact ⟨(Option.some.inj hk).symm, v, hecho, hv⟩

/-! ## Deleting -/

theorem fades_removeFile {path : OsString} (h : removeFile fs path = .ok fs') : fs.Fades fs' := by
  unfold removeFile at h
  split at h
  · cases h
    exact Fades.refl fs
  · exact fun _ _ hr => readBytes_of_removeFile h hr

theorem fades_tryRemoveFile (fs : FileSystem) (path : OsString) :
    fs.Fades (tryRemoveFile fs path) := by
  unfold tryRemoveFile
  cases h : removeFile fs path with
  | error e => exact Fades.refl fs
  | ok fs' => exact fades_removeFile h

/-- A file that can be read can be deleted, and then cannot be read. -/
theorem removeFile_of_readBytes {path : OsString} {bytes : List UInt8}
    (h : fs.readBytes path = .ok bytes) :
    ∃ fs', removeFile fs path = .ok fs' ∧ ∀ found, fs'.readBytes path ≠ .ok found := by
  obtain ⟨p, hl, he⟩ := readBytes_eq_ok.1 h
  have hr : fs.removeFile path = .ok (fs.erase p) := by
    unfold FileSystem.removeFile
    rw [hl]
    simp only [he]
  refine ⟨fs.erase p, ?_, fun found => not_readBytes_of_removeFile hr⟩
  unfold removeFile
  rw [hr]

theorem not_readBytes_tryRemoveFile {path : OsString} {found : List UInt8} :
    (tryRemoveFile fs path).readBytes path ≠ .ok found := by
  intro h
  obtain ⟨fs', hr, hgone⟩ := removeFile_of_readBytes (fades_tryRemoveFile fs path _ _ h)
  rw [tryRemoveFile, hr] at h
  exact hgone found h

theorem fades_foldl (paths : List OsString) (fs : FileSystem) :
    fs.Fades (paths.foldl tryRemoveFile fs) := by
  induction paths generalizing fs with
  | nil => exact Fades.refl fs
  | cons path paths ih => exact (fades_tryRemoveFile fs path).trans (ih _)

theorem not_readBytes_foldl {paths : List OsString} {path : OsString} (hmem : path ∈ paths)
    {found : List UInt8} : (paths.foldl tryRemoveFile fs).readBytes path ≠ .ok found := by
  induction paths generalizing fs with
  | nil => cases hmem
  | cons first rest ih =>
    rcases List.mem_cons.1 hmem with rfl | hmem
    · exact fun h => not_readBytes_tryRemoveFile (fades_foldl rest _ _ _ h)
    · exact ih hmem

theorem fades_removeWhere (chosen : String → Bool) (paths : List OsString) (fs : FileSystem) :
    fs.Fades (removeWhere codec chosen paths fs).2 := by
  induction paths generalizing fs with
  | nil => exact Fades.refl fs
  | cons path paths ih =>
    unfold removeWhere
    split
    · split
      · split
        · rename_i hr
          exact (fades_removeFile hr).trans (ih _)
        · exact ih fs
      · exact ih fs
    · exact ih fs

/-- What is left in one of the files is not of a chosen key. -/
theorem not_chosen_of_removeWhere {chosen : String → Bool} {paths : List OsString} {path : OsString}
    (hmem : path ∈ paths)
    (h : readEntry codec (removeWhere codec chosen paths fs).2 path = .found key held) :
    chosen key = false := by
  induction paths generalizing fs with
  | nil => cases hmem
  | cons first rest ih =>
    by_cases hrest : path ∈ rest
    · unfold removeWhere at h
      split at h
      · split at h
        · split at h
          · exact ih hrest h
          · exact ih hrest h
        · exact ih hrest h
      · exact ih hrest h
    · obtain rfl := (List.mem_cons.1 hmem).resolve_right hrest
      have hbefore := readEntry_of_fades (fades_removeWhere chosen (path :: rest) fs) h
      unfold removeWhere at h
      rw [hbefore] at h
      by_contra hchosen
      obtain ⟨bytes, hb, -⟩ := readEntry_eq_found.1 hbefore
      obtain ⟨fs', hr, hgone⟩ := removeFile_of_readBytes hb
      simp only [Bool.not_eq_false] at hchosen
      simp only [hchosen, if_true, hr] at h
      obtain ⟨found, hf, -⟩ := readEntry_eq_found.1 h
      exact hgone found (fades_removeWhere chosen rest fs' _ _ hf)

theorem fades_removeFiles (paths : List OsString) (fs : FileSystem) :
    fs.Fades (Cache.removeFiles paths fs).2 := by
  induction paths generalizing fs with
  | nil => exact Fades.refl fs
  | cons path paths ih =>
    unfold Cache.removeFiles
    split
    · exact Fades.refl fs
    · rename_i hr
      exact (fades_removeFile hr).trans (ih _)

theorem fades_repair (c : Cache α) (fs : FileSystem) (now : Nat) :
    fs.Fades (c.repair codec fs now).2 := by
  unfold Cache.repair
  split
  · exact Fades.refl fs
  · exact fades_removeFiles _ fs

/-! ## Clearing and invalidating a directory -/

/-- An entry that can be read is among the entry files of its directory. -/
theorem mem_files_of_read (hd : dir.isEmpty = false) {bytes : List UInt8}
    (h : fs.readBytes (filePath dir key) = .ok bytes) :
    filePath dir key ∈ (files fs dir).toOption.getD [] := by
  obtain ⟨top, hopens, hchild⟩ := opensAt_of_readBytes hd (plain_fileName key) h
  obtain ⟨ns, hns, hmem⟩ := files_eq hopens
  rw [hns]
  exact List.mem_map.2
    ⟨fileName key, (hmem _).2 ⟨nameExtension?_fileName key, by simp [hchild]⟩, rfl⟩

/-- **After a clearing** no key gives anything. -/
theorem not_read_of_clear (hd : dir.isEmpty = false) :
    read codec (clear fs dir) dir key ≠ .found key held := by
  intro h
  obtain ⟨bytes, hb, -⟩ := readEntry_eq_found.1 (read_eq_found.1 h).2
  unfold clear at hb
  exact not_readBytes_foldl (mem_files_of_read hd (fades_foldl _ fs _ _ hb)) hb

/-- **After the keys of some kind were taken out** none of them gives anything. -/
theorem not_chosen_of_read (hd : dir.isEmpty = false) {chosen : String → Bool}
    (h : read codec (removeWhere codec chosen ((files fs dir).toOption.getD []) fs).2 dir key =
      .found key held) : chosen key = false := by
  have hentry := (read_eq_found.1 h).2
  obtain ⟨bytes, hb, -⟩ := readEntry_eq_found.1 hentry
  exact not_chosen_of_removeWhere (mem_files_of_read hd (fades_removeWhere chosen _ fs _ _ hb)) hentry

theorem read_of_fades (hf : fs.Fades fs') (h : read codec fs' dir key = .found key held) :
    read codec fs dir key = .found key held :=
  read_eq_found.2 ⟨rfl, readEntry_of_fades hf (read_eq_found.1 h).2⟩

/-! ## The empty path as a directory -/

theorem filePath_empty (hd : dir.isEmpty = true) (key : String) : filePath dir key = ↑(fileName key) := by
  simp [filePath, Path.join, hd]

/-- The empty path cannot be listed. -/
theorem files_empty (hd : dir.isEmpty = true) (fs : FileSystem) : (files fs dir).toOption.getD [] = [] := by
  have hnul : hasNul dir = false := by simp_all [hasNul, OsString.isEmpty]
  simp [files, names, locate, hnul, hd, Except.map, Except.toOption]

/-- Under the empty path an entry stands in the working directory. -/
theorem read_write_empty (hd : dir.isEmpty = true) (hcwd : fs.stored? fs.cwd = some .dir)
    (hfree : fs.child? fs.cwd (fileName key) ≠ some .dir) (hv : codec.Survives held.value)
    (he : held.expires < 2 ^ 64) :
    read codec (write codec fs dir key held) dir key = .found key held := by
  have hn := plain_fileName key
  have hne : fs.cwd ++ [OsString.ofText (fileName key)] ≠ [] := by simp
  have hwrite : write codec fs dir key held =
      fs.put (fs.cwd ++ [OsString.ofText (fileName key)]) (.file (content codec key held)) := by
    rw [write, filePath_empty hd, writeFile_plain hcwd hn hfree]
    rfl
  have hcwd' : (write codec fs dir key held).stored? (write codec fs dir key held).cwd = some .dir := by
    rw [hwrite, cwd_put, stored?_put_ne (by simp), hcwd]
  have hchild : (write codec fs dir key held).child? (write codec fs dir key held).cwd (fileName key) =
      some (.file (content codec key held)) := by
    rw [hwrite, cwd_put, child?, stored?_put hne]
  refine read_eq_found.2 ⟨rfl, readEntry_eq_found.2 ⟨content codec key held, ?_, ofContent?_content hv he, ?_⟩⟩
  · refine readBytes_eq_ok.2 ⟨_, ?_, hchild⟩
    rw [filePath_empty hd, locate_plain hcwd' hn, hchild]
    rfl
  · rw [filePath_empty hd, Path.fileName?, Path.components]
    simp [splitAt_of_not_mem hn.noSlash, hn.nonempty, hn.notDot, hn.notUp]

end CacheDir

namespace Cache

attribute [local irreducible] CacheDir.fileName

variable {α : Type}

/-! ## Memory -/

theorem mem_of_held? {r : Recent α} {k : String} {h : Held α} (hk : r.held? k = some h) :
    (k, h) ∈ r := by
  induction r with
  | nil => cases hk
  | cons e r ih =>
    obtain ⟨j, g⟩ := e
    by_cases hj : k = j
    · subst hj
      simp only [Recent.held?, List.lookup_cons_self, Option.some.injEq] at hk
      exact hk ▸ List.mem_cons_self
    · rw [Recent.held?, lookup_cons_ne hj] at hk
      exact List.mem_cons_of_mem _ (ih hk)

theorem mem_forget {r : Recent α} {k : String} {e : String × Held α} :
    e ∈ r.forget k ↔ e ∈ r ∧ e.1 ≠ k := by
  simp [Recent.forget]

theorem mem_toFront {r : Recent α} {k : String} {h : Held α} {e : String × Held α}
    (he : e ∈ r.toFront k h) : e = (k, h) ∨ e ∈ r ∧ e.1 ≠ k :=
  (List.mem_cons.1 he).imp id mem_forget.1

/-- What is in memory after an entry is added is that entry, or was there under another key. -/
theorem mem_push {r : Recent α} {n : Nat} {k : String} {h : Held α} {e : String × Held α}
    (he : e ∈ r.push n k h) : e = (k, h) ∨ e ∈ r ∧ e.1 ≠ k := by
  unfold Recent.push at he
  split at he
  · exact (mem_toFront he).imp id fun ⟨hm, hk⟩ => ⟨List.dropLast_subset r hm, hk⟩
  · exact mem_toFront he

/-! ## Whole caches -/

/-- Whatever a cache holds, in memory or in its files, satisfies a predicate. -/
structure AllHeld (codec : Codec α) (P : String → Held α → Prop) (c : Cache α) (fs : FileSystem) :
    Prop where
  memory : ∀ k h, (k, h) ∈ c.recent → P k h
  files : ∀ dir, c.directory = some dir →
    ∀ k h, CacheDir.read codec fs dir k = .found k h → P k h

@[simp] theorem directory_get (codec : Codec α) (c : Cache α) (fs : FileSystem) (now : Nat)
    (key : String) : (c.get codec fs now key).2.1.directory = c.directory := by
  unfold get fetch
  split
  · split
    · rfl
    · split
      · split <;> rfl
      · rfl
  · split <;> rfl

theorem fades_remove (c : Cache α) (fs : FileSystem) (key : String) :
    fs.Fades (c.directory.elim fs fun dir => CacheDir.remove fs dir key) := by
  cases c.directory with
  | none => exact Fades.refl fs
  | some dir => exact CacheDir.fades_tryRemoveFile fs _

theorem fades_clear (c : Cache α) (fs : FileSystem) : fs.Fades (c.clear fs).2 := by
  unfold clear
  cases c.directory with
  | none => exact Fades.refl fs
  | some dir => exact CacheDir.fades_foldl _ fs

theorem fades_invalidate (codec : Codec α) (c : Cache α) (fs : FileSystem) (path : String) :
    fs.Fades (c.invalidate codec fs path).2.2 := by
  unfold invalidate
  cases c.directory with
  | none => exact Fades.refl fs
  | some dir => exact CacheDir.fades_removeWhere _ _ fs

namespace AllHeld

variable {codec : Codec α} {P Q : String → Held α → Prop} {c : Cache α} {fs fs' : FileSystem}

theorem imp (H : AllHeld codec P c fs) (h : ∀ k h, P k h → Q k h) : AllHeld codec Q c fs :=
  ⟨fun k g hg => h k g (H.memory k g hg), fun dir hd k g hg => h k g (H.files dir hd k g hg)⟩

/-- Changes of the files that bring no new entries. -/
theorem of_readBytes (H : AllHeld codec P c fs)
    (h : ∀ dir, c.directory = some dir → ∀ key bytes,
      fs'.readBytes (CacheDir.filePath dir key) = .ok bytes →
        fs.readBytes (CacheDir.filePath dir key) = .ok bytes) : AllHeld codec P c fs' := by
  refine ⟨H.memory, fun dir hd k g hg => H.files dir hd k g ?_⟩
  obtain ⟨bytes, hb, hrest⟩ := CacheDir.readEntry_eq_found.1 (CacheDir.read_eq_found.1 hg).2
  exact CacheDir.read_eq_found.2
    ⟨rfl, CacheDir.readEntry_eq_found.2 ⟨bytes, h dir hd k bytes hb, hrest⟩⟩

theorem fades (H : AllHeld codec P c fs) (h : fs.Fades fs') : AllHeld codec P c fs' :=
  H.of_readBytes fun _ _ _ _ hb => h _ _ hb

/-- Changes of the memory that bring no new entries. -/
theorem of_recent (H : AllHeld codec P c fs) {d : Cache α} (hd : d.directory = c.directory)
    (h : ∀ k g, (k, g) ∈ d.recent → P k g) : AllHeld codec P d fs :=
  ⟨h, fun dir hdir => H.files dir (hd ▸ hdir)⟩

/-- What a lookup gives was held under the key and has not expired. -/
theorem get_eq_some (H : AllHeld codec P c fs) {now : Nat} {key : String} {v : α}
    (h : (c.get codec fs now key).1 = some v) :
    ∃ g, P key g ∧ g.value = v ∧ now < g.expires := by
  unfold Cache.get at h
  split at h
  · unfold fetch at h
    split at h
    · cases h
    · rename_i dir hdir
      split at h
      · rename_i k g hread
        obtain ⟨rfl, -⟩ := CacheDir.read_eq_found.1 hread
        split at h
        · rename_i hlive
          exact ⟨g, H.files dir hdir _ g hread, Option.some.inj h, of_decide_eq_true hlive⟩
        · cases h
      · cases h
  · rename_i g hheld
    split at h
    · rename_i hlive
      exact ⟨g, H.memory key g (mem_of_held? hheld), Option.some.inj h, of_decide_eq_true hlive⟩
    · cases h

/-- A lookup of a key that cannot be held only counts. -/
theorem get_eq_miss (H : AllHeld codec P c fs) {k : String}
    (hk : ∀ h, ¬ P k h) (now : Nat) : c.get codec fs now k = (none, c.countMiss, fs) := by
  have hmemory : c.recent.held? k = none :=
    Option.eq_none_iff_forall_ne_some.2 fun h hh => hk h (H.memory k h (mem_of_held? hh))
  simp only [Cache.get, hmemory, fetch]
  cases hd : c.directory with
  | none => rfl
  | some dir =>
    cases hr : CacheDir.read codec fs dir k with
    | missing => simp only [hr]
    | corrupt => simp only [hr]
    | found j h =>
      obtain ⟨rfl, -⟩ := CacheDir.read_eq_found.1 hr
      exact absurd (H.files dir hd _ h hr) (hk h)

theorem get (H : AllHeld codec P c fs) (now : Nat) (key : String) :
    AllHeld codec P (c.get codec fs now key).2.1 (c.get codec fs now key).2.2 := by
  unfold Cache.get
  split
  · unfold fetch
    split
    · exact H.of_recent rfl H.memory
    · rename_i dir hdir
      split
      · rename_i k g hread
        obtain ⟨rfl, -⟩ := CacheDir.read_eq_found.1 hread
        split
        · refine H.of_recent rfl fun k' g' hmem => ?_
          rcases mem_push hmem with heq | ⟨hmem, -⟩
          · cases heq
            exact H.files dir hdir _ _ hread
          · exact H.memory k' g' hmem
        · exact (H.fades (CacheDir.fades_tryRemoveFile fs _)).of_recent rfl H.memory
      · exact H.of_recent rfl H.memory
  · rename_i g hheld
    split
    · refine H.of_recent rfl fun k' g' hmem => ?_
      rcases mem_toFront hmem with heq | ⟨hmem, -⟩
      · cases heq
        exact H.memory key g (mem_of_held? hheld)
      · exact H.memory k' g' hmem
    · exact (H.fades (fades_remove c fs key)).of_recent rfl fun k' g' hmem =>
        H.memory k' g' (mem_forget.1 hmem).1

/-- After a value is kept, it is held as it is in memory and as it is read back in its file. -/
theorem put_of_content (H : AllHeld codec P c fs) {now ttl : Nat} {key : String} {v : α}
    (hnew : P key ⟨v, min (now + ttl) endOfTime⟩)
    (hfile : c.directory.isSome → ∀ k g, CacheDir.ofContent? codec
      (CacheDir.content codec key ⟨v, min (now + ttl) endOfTime⟩) = some (k, g) → P k g) :
    AllHeld codec P (c.put codec fs now key v ttl).1 (c.put codec fs now key v ttl).2 := by
  refine ⟨fun k g hmem => ?_, fun dir hdir k g hread => ?_⟩
  · rcases mem_push hmem with heq | ⟨hmem, -⟩
    · cases heq
      exact hnew
    · exact H.memory k g hmem
  · replace hdir : c.directory = some dir := hdir
    simp only [Cache.put, hdir, Option.elim_some] at hread
    rcases CacheDir.ofContent?_or_read hread with hcontent | hread
    · exact hfile (by simp [hdir]) k g hcontent
    · exact H.files dir hdir k g hread

theorem put (H : AllHeld codec P c fs) {now ttl : Nat} {key : String} {v : α}
    (hv : c.directory.isSome → codec.Survives v) (hnew : P key ⟨v, min (now + ttl) endOfTime⟩) :
    AllHeld codec P (c.put codec fs now key v ttl).1 (c.put codec fs now key v ttl).2 := by
  refine H.put_of_content hnew fun hdir k g hcontent => ?_
  have hexpires : min (now + ttl) endOfTime < 2 ^ 64 := by
    simp only [endOfTime]
    omega
  rw [CacheDir.ofContent?_content (hv hdir) hexpires] at hcontent
  obtain ⟨rfl, rfl⟩ := Prod.mk.inj (Option.some.inj hcontent)
  exact hnew

/-- After a clearing nothing is held. -/
theorem clear (hdir : ∀ dir, c.directory = some dir → dir.isEmpty = false) :
    AllHeld codec (fun _ _ => False) (c.clear fs).1 (c.clear fs).2 := by
  refine ⟨fun k g hmem => (List.not_mem_nil hmem).elim, fun dir hd k g hread => ?_⟩
  replace hd : c.directory = some dir := hd
  simp only [Cache.clear, hd, Option.elim_some] at hread
  exact CacheDir.not_read_of_clear (hdir dir hd) hread

/-- After an invalidation nothing is held under the keys of the path. -/
theorem invalidate (H : AllHeld codec P c fs)
    (hdir : ∀ dir, c.directory = some dir → dir.isEmpty = false) (path : String) :
    AllHeld codec (fun k g => P k g ∧ isKeyOf path k = false) (c.invalidate codec fs path).2.1
      (c.invalidate codec fs path).2.2 := by
  refine ⟨fun k g hmem => ?_, fun dir hd k g hread => ?_⟩
  · obtain ⟨hmem, hk⟩ := List.mem_filter.1 hmem
    exact ⟨H.memory k g hmem, by simpa using hk⟩
  · replace hd : c.directory = some dir := hd
    simp only [Cache.invalidate, hd, Option.elim_some] at hread
    exact ⟨H.files dir hd k g (CacheDir.read_of_fades (CacheDir.fades_removeWhere _ _ fs) hread),
      CacheDir.not_chosen_of_read (hdir dir hd) hread⟩

theorem repair (H : AllHeld codec P c fs) (now : Nat) :
    AllHeld codec P c (c.repair codec fs now).2 :=
  H.fades (CacheDir.fades_repair c fs now)

end AllHeld

/-- **Under the empty path an entry outlives the invalidation of its path**: it leaves the memory, but
its file is not listed and gives the value again. -/
theorem get_invalidate_put {codec : Codec α} {c : Cache α} {fs : FileSystem} {dir : OsString} (hdir : c.directory = some dir) (hd : dir.isEmpty = true)
    (hcwd : fs.stored? fs.cwd = some .dir) {key path : String}
    (hfree : fs.child? fs.cwd (CacheDir.fileName key) ≠ some .dir)
    (hpath : isKeyOf path key = true) {v : α} (hv : codec.Survives v) {t ttl now : Nat}
    (hlive : now < min (t + ttl) endOfTime) :
    ((((c.put codec fs t key v ttl).1.invalidate codec (c.put codec fs t key v ttl).2 path).2.1.get codec
      ((c.put codec fs t key v ttl).1.invalidate codec (c.put codec fs t key v ttl).2 path).2.2 now
        key).1) = some v := by
  have hexpires : min (t + ttl) endOfTime < 2 ^ 64 := by
    simp only [endOfTime]
    omega
  have hread : CacheDir.read codec
      (CacheDir.write codec fs dir key ⟨v, min (t + ttl) endOfTime⟩) dir key =
      .found key ⟨v, min (t + ttl) endOfTime⟩ := CacheDir.read_write_empty hd hcwd hfree hv hexpires
  have hmemory : Recent.held? ((c.put codec fs t key v ttl).1.recent.filter fun e => !isKeyOf path e.1) key =
      none := by
    rw [Recent.held?, lookup_filter_key (fun k => !isKeyOf path k), hpath]
    rfl
  have hkept : (c.put codec fs t key v ttl).1.directory = some dir := hdir
  unfold Cache.get invalidate
  simp only [hmemory, hkept, Option.elim_some, CacheDir.files_empty hd, CacheDir.removeWhere, fetch]
  simp only [put, hdir, Option.elim_some, hread, Held.isLive, hlive, decide_true, if_true]

end Cache

end CodeSurvey
