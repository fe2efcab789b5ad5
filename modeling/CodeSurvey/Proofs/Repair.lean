import CodeSurvey.Proofs.CacheReading
import CodeSurvey.Proofs.FileTree
/-!
# Repairs of a cache directory

A scan sorts the entry files of a directory into corrupt ones, expired ones and the rest (`scan_eq`), and
a repair deletes the first two, file by file, up to one that cannot be deleted. Each deletion takes away
one name and changes nothing else (`TakesOut`). Lookups classify files through the name of a key, scans
through the listing; both come down to the entry below the directory (`CacheDir.readEntry_join`), so a
file that a repair deletes gives nothing to any lookup from then on, and a repair cannot be noticed,
wherever it stops (`repair_unnoticed`).
-/
namespace CodeSurvey

open FileSystem

attribute [local irreducible] CacheDir.fileName

/-! ## What a file gives -/

namespace Reading

variable {α : Type}

/-- Whether a file is not the entry of its key. -/
def isCorrupt : Reading α → Bool
  | .corrupt => true
  | _ => false

/-- Whether a file holds an entry that has expired. -/
def isExpired (now : Nat) : Reading α → Bool
  | .found _ held => !held.isLive now
  | _ => false

/-- The value that a file gives at a moment. -/
def live? (now : Nat) : Reading α → Option α
  | .found _ held => if held.isLive now then some held.value else none
  | _ => none

theorem isDoomed_eq (x : Reading α) (now : Nat) :
    x.isDoomed now = (x.isCorrupt || x.isExpired now) := by
  cases x <;> simp [isDoomed, isCorrupt, isExpired]

/-- What is corrupt or has expired gives nothing from then on. -/
theorem live?_of_isDoomed {x : Reading α} {now t : Nat} (h : x.isDoomed now = true) (ht : now ≤ t) :
    x.live? t = none := by
  cases x with
  | missing => rfl
  | corrupt => rfl
  | found key held =>
    have hnow : held.expires ≤ now := by simpa [isDoomed, Held.isLive] using h
    have hlater : held.isLive t = false := by
      simp only [Held.isLive, decide_eq_false_iff_not, Nat.not_lt]
      omega
    simp [live?, hlater]

end Reading

/-! ## Scans -/

/-- The audit of some files. -/
def CacheAudit.ofFiles {α : Type} (codec : Codec α) (fs : FileSystem) (now : Nat)
    (paths : List OsString) : CacheAudit where
  scanned := paths.length
  corrupt := paths.filter fun p => (CacheDir.readEntry codec fs p).isCorrupt
  expired := paths.filter fun p => (CacheDir.readEntry codec fs p).isExpired now

/-- Files are added in order to those that are corrupt or have expired. -/
theorem CacheAudit.foldl_add {α : Type} (now : Nat) (f : OsString → Reading α) (paths : List OsString)
    (r : CacheAudit) :
    paths.foldl (fun r p => r.add now p (f p)) r =
      { scanned := r.scanned + paths.length
        corrupt := r.corrupt ++ paths.filter fun p => (f p).isCorrupt
        expired := r.expired ++ paths.filter fun p => (f p).isExpired now
        removed := r.removed } := by
  induction paths generalizing r with
  | nil => simp
  | cons p ps ih =>
    rw [List.foldl_cons, ih]
    cases hp : f p with
    | missing =>
      simp [add, hp, Reading.isCorrupt, Reading.isExpired, Nat.add_assoc, Nat.add_comm 1]
    | corrupt =>
      simp [add, hp, Reading.isCorrupt, Reading.isExpired, Nat.add_assoc, Nat.add_comm 1]
    | found key held =>
      cases hl : held.isLive now <;>
        simp [add, hp, hl, Reading.isCorrupt, Reading.isExpired, Nat.add_assoc, Nat.add_comm 1]

namespace CacheDir

variable {α : Type} {codec : Codec α} {fs fs' : FileSystem} {dir n : OsString} {top : Place}

/-- The names of the entry files of a directory, in order. -/
def entryNames (fs : FileSystem) (top : Place) : List OsString :=
  (((fs.children top).map (·.1)).filter fun n =>
    Path.nameExtension? n == some ↑"json").mergeSort (· ≤ ·)

theorem files_opensAt (h : OpensAt fs dir top) :
    files fs dir = .ok ((entryNames fs top).map (Path.join dir)) := by
  rw [files, names, h.located]
  simp only [h.isDir]
  rfl

theorem mem_entryNames (h : OpensAt fs dir top) :
    n ∈ entryNames fs top ↔
      Path.nameExtension? n = some ↑"json" ∧ (fs.child? top n).isSome = true := by
  obtain ⟨ns, hns, hmem⟩ := h.mem_names
  have hchildren : ns = (fs.children top).map (·.1) := by
    rw [names, h.located] at hns
    simp only [h.isDir, Except.ok.injEq] at hns
    exact hns.symm
  rw [entryNames, List.mem_mergeSort, List.mem_filter, ← hchildren, hmem, beq_iff_eq, and_comm]

theorem pairwise_entryNames (fs : FileSystem) (top : Place) :
    (entryNames fs top).Pairwise (· ≤ ·) := by
  have hsorted := @List.pairwise_mergeSort OsString (fun a b => decide (a ≤ b))
    (fun a b c hab hbc => by simpa using OsString.le_trans (by simpa using hab) (by simpa using hbc))
    (fun a b => by simpa using OsString.le_total a b)
    (((fs.children top).map (·.1)).filter fun n => Path.nameExtension? n == some ↑"json")
  exact hsorted.imp fun h => by simpa using h

/-- No name stands twice in a directory of a tree. -/
theorem nodup_entryNames (h : fs.IsTree) (top : Place) : (entryNames fs top).Nodup := by
  have hchildren : (fs.children top).map (·.1) = (fs.entries.map (·.1)).filterMap fun ns =>
      if ns.dropLast = top then ns.getLast? else none := by
    rw [children, List.map_filterMap, List.filterMap_map]
    refine List.filterMap_congr fun x _ => ?_
    obtain ⟨ns, e⟩ := x
    simp only [Function.comp_apply]
    cases ns.getLast? with
    | none => simp
    | some last => by_cases hd : ns.dropLast = top <;> simp [hd]
  refine (List.mergeSort_perm _ _).nodup_iff.2 (List.Nodup.filter _ ?_)
  rw [hchildren]
  refine List.Nodup.filterMap (fun ns ms last hns hms => ?_) h.nodup
  split at hns
  · split at hms
    · rw [← List.dropLast_append_getLast? last hns, ← List.dropLast_append_getLast? last hms]
      congr 1
      exact Eq.trans ‹_› (Eq.symm ‹_›)
    · cases hms
  · cases hns

theorem plain_of_mem_entryNames (ht : fs.IsTree) (h : OpensAt fs dir top)
    (hn : n ∈ entryNames fs top) : PlainName n := by
  obtain ⟨e, he⟩ := Option.isSome_iff_exists.1 ((mem_entryNames h).1 hn).2
  exact (ht.dir_above he).2

/-! ## Deleting names -/

/-- Some names of an open directory went, and nothing else changed anywhere. -/
structure TakesOut (fs fs' : FileSystem) (dir : OsString) (top : Place) (gone : List OsString) :
    Prop where
  tree : fs'.IsTree
  opens : OpensAt fs' dir top
  absent : ∀ n ∈ gone, fs'.child? top n = none
  kept : ∀ p : Place, (∀ n ∈ gone, p ≠ top ++ [n]) → fs'.stored? p = fs.stored? p

namespace TakesOut

variable {fs'' : FileSystem} {gone gone' : List OsString}

theorem refl (ht : fs.IsTree) (h : OpensAt fs dir top) : TakesOut fs fs dir top [] :=
  ⟨ht, h, fun _ hn => absurd hn List.not_mem_nil, fun _ _ => rfl⟩

theorem child?_of_not_mem (h : TakesOut fs fs' dir top gone) (hn : n ∉ gone) :
    fs'.child? top n = fs.child? top n := by
  refine h.kept _ fun m hm heq => hn ?_
  obtain rfl : n = m := by simpa using heq
  exact hm

theorem trans (h : TakesOut fs fs' dir top gone) (h' : TakesOut fs' fs'' dir top gone') :
    TakesOut fs fs'' dir top (gone ++ gone') := by
  refine ⟨h'.tree, h'.opens, fun n hn => ?_, fun p hp => ?_⟩
  · by_cases hlast : n ∈ gone'
    · exact h'.absent n hlast
    · rw [h'.child?_of_not_mem hlast]
      exact h.absent n ((List.mem_append.1 hn).resolve_right hlast)
  · rw [h'.kept p fun n hn => hp n (List.mem_append_right _ hn),
      h.kept p fun n hn => hp n (List.mem_append_left _ hn)]

end TakesOut

/-- A name is deleted unless it is the one of a directory. -/
theorem removeFile_cases (ht : fs.IsTree) (h : OpensAt fs dir top) (hn : PlainName n) :
    (fs.child? top n ≠ some .dir ∧
      ∃ fs', removeFile fs (Path.join dir n) = .ok fs' ∧ TakesOut fs fs' dir top [n]) ∨
    (fs.child? top n = some .dir ∧ ∃ e, removeFile fs (Path.join dir n) = .error e) := by
  rw [removeFile, h.removeFile_join hn]
  cases hc : fs.child? top n with
  | none =>
    refine .inl ⟨by simp, fs, rfl, ht, h, fun m hm => ?_, fun _ _ => rfl⟩
    rw [List.mem_singleton.1 hm, hc]
  | some e =>
    cases e with
    | dir => exact .inr ⟨rfl, _, rfl⟩
    | file bytes =>
      refine .inl ⟨by simp, _, rfl, ht.erase hc, h.erase_file (by simp [hc]), fun m hm => ?_,
        fun p hp => ?_⟩
      · rw [List.mem_singleton.1 hm, OpensAt.child?_erase, if_pos rfl]
      · rw [stored?_erase fs (by simp), if_neg (hp n List.mem_cons_self)]

/-- Files are deleted in order, up to the first name of a directory: all of them if there is none. -/
theorem removeFiles_cases {ns : List OsString} (ht : fs.IsTree) (h : OpensAt fs dir top)
    (hns : ∀ n ∈ ns, PlainName n) :
    ∃ done, done <+: ns ∧
      TakesOut fs (Cache.removeFiles (ns.map (Path.join dir)) fs).2 dir top done ∧
      (((∀ n ∈ ns, fs.child? top n ≠ some .dir) ∧ done = ns ∧
          (Cache.removeFiles (ns.map (Path.join dir)) fs).1 = .ok ()) ∨
        ((∃ n ∈ ns, fs.child? top n = some .dir) ∧
          ∃ err, (Cache.removeFiles (ns.map (Path.join dir)) fs).1 = .error err)) := by
  induction ns generalizing fs with
  | nil =>
    exact ⟨[], List.prefix_rfl, TakesOut.refl ht h, .inl ⟨by simp, rfl, rfl⟩⟩
  | cons n ns ih =>
    rw [List.forall_mem_cons] at hns
    rw [List.map_cons, Cache.removeFiles]
    rcases removeFile_cases ht h hns.1 with ⟨hfile, fs₁, hr, hfirst⟩ | ⟨hdir, e, hr⟩
    · -- the other names are directories afterwards if they were before
      have hsame : ∀ m, fs₁.child? top m = some .dir ↔ fs.child? top m = some .dir := by
        intro m
        by_cases hm : m = n
        · subst hm
          simp [hfirst.absent m List.mem_cons_self, hfile]
        · rw [hfirst.child?_of_not_mem (by simpa using hm)]
      obtain ⟨done, hdone, hrest, hend⟩ := ih hfirst.tree hfirst.opens hns.2
      rw [hr]
      refine ⟨n :: done, List.cons_prefix_cons.2 ⟨rfl, hdone⟩, hfirst.trans hrest, ?_⟩
      rcases hend with ⟨hnone, rfl, hok⟩ | ⟨⟨m, hm, hdir⟩, err, herr⟩
      · refine .inl ⟨fun m hm => ?_, rfl, hok⟩
        rcases List.mem_cons.1 hm with rfl | hm
        · exact hfile
        · exact fun hdir => hnone m hm ((hsame m).2 hdir)
      · exact .inr ⟨⟨m, List.mem_cons_of_mem n hm, (hsame m).1 hdir⟩, err, herr⟩
    · rw [hr]
      exact ⟨[], List.nil_prefix, TakesOut.refl ht h, .inr ⟨⟨n, List.mem_cons_self, hdir⟩, _, rfl⟩⟩

/-- The listing loses the names that went. -/
theorem entryNames_of_takesOut {gone : List OsString} (ht : fs.IsTree) (h : OpensAt fs dir top)
    (hout : TakesOut fs fs' dir top gone) :
    entryNames fs' top = (entryNames fs top).filter (· ∉ gone) := by
  have hperm : (entryNames fs' top).Perm ((entryNames fs top).filter (· ∉ gone)) := by
    refine (List.perm_ext_iff_of_nodup (nodup_entryNames hout.tree top)
      ((nodup_entryNames ht top).filter _)).2 fun n => ?_
    rw [mem_entryNames hout.opens, List.mem_filter, mem_entryNames h, decide_eq_true_eq]
    by_cases hn : n ∈ gone
    · simp [hout.absent n hn, hn]
    · simp [hout.child?_of_not_mem hn, hn]
  exact hperm.eq_of_pairwise (fun _ _ _ _ => OsString.le_antisymm) (pairwise_entryNames fs' top)
    ((pairwise_entryNames fs top).filter _)

/-- The names of the files that a repair is to delete: the corrupt ones, then the expired ones. -/
def doomedNames (codec : Codec α) (fs : FileSystem) (dir : OsString) (top : Place) (now : Nat) :
    List OsString :=
  ((entryNames fs top).filter fun n => (readEntry codec fs (Path.join dir n)).isCorrupt) ++
    (entryNames fs top).filter fun n => (readEntry codec fs (Path.join dir n)).isExpired now

theorem mem_doomedNames {now : Nat} :
    n ∈ doomedNames codec fs dir top now ↔
      n ∈ entryNames fs top ∧ (readEntry codec fs (Path.join dir n)).isDoomed now = true := by
  simp [doomedNames, Reading.isDoomed_eq, and_or_left]

/-- A repair is to delete a directory if some entry file is one. -/
theorem exists_dir_iff (codec : Codec α) (now : Nat) (ht : fs.IsTree) (h : OpensAt fs dir top) :
    (∃ n ∈ doomedNames codec fs dir top now, fs.child? top n = some .dir) ↔
      ∃ path ∈ (entryNames fs top).map (Path.join dir), fs.readBytes path = .error .isDirectory := by
  have hread : ∀ n ∈ entryNames fs top,
      (fs.readBytes (Path.join dir n) = .error .isDirectory ↔ fs.child? top n = some .dir) := by
    intro n hn
    rw [h.readBytes_join (plain_of_mem_entryNames ht h hn)]
    cases fs.child? top n with
    | none => simp
    | some e => cases e <;> simp
  constructor
  · rintro ⟨n, hn, hdir⟩
    have hin := (mem_doomedNames.1 hn).1
    exact ⟨_, List.mem_map_of_mem hin, (hread n hin).2 hdir⟩
  · rintro ⟨path, hpath, herr⟩
    obtain ⟨n, hn, rfl⟩ := List.mem_map.1 hpath
    have hdir := (hread n hn).1 herr
    refine ⟨n, mem_doomedNames.2 ⟨hn, ?_⟩, hdir⟩
    rw [readEntry_join h (plain_of_mem_entryNames ht h hn), hdir]
    rfl

theorem doomed_ofFiles (codec : Codec α) (fs : FileSystem) (dir : OsString) (top : Place)
    (now : Nat) :
    (CacheAudit.ofFiles codec fs now ((entryNames fs top).map (Path.join dir))).corrupt ++
        (CacheAudit.ofFiles codec fs now ((entryNames fs top).map (Path.join dir))).expired =
      (doomedNames codec fs dir top now).map (Path.join dir) := by
  simp [CacheAudit.ofFiles, doomedNames, List.filter_map, Function.comp_def]

theorem readEntry_of_takesOut {gone : List OsString} (h : OpensAt fs dir top)
    (hout : TakesOut fs fs' dir top gone) (hplain : PlainName n) (hn : n ∉ gone) :
    readEntry codec fs' (Path.join dir n) = readEntry codec fs (Path.join dir n) := by
  rw [readEntry_join hout.opens hplain, readEntry_join h hplain, hout.child?_of_not_mem hn]

/-- A lookup reads the same value from then on, if only files went that were corrupt or had expired. -/
theorem live?_read_of_takesOut {gone : List OsString} {now t : Nat} (h : OpensAt fs dir top)
    (hout : TakesOut fs fs' dir top gone)
    (hgone : ∀ n ∈ gone, (readEntry codec fs (Path.join dir n)).isDoomed now = true) (ht : now ≤ t)
    (key : String) : (read codec fs' dir key).live? t = (read codec fs dir key).live? t := by
  have hplain := plain_fileName key
  by_cases hmem : ↑(fileName key) ∈ gone
  · -- the file of the key went: it gave nothing any more
    have hmissing : readEntry codec fs' (filePath dir key) = .missing := by
      rw [filePath, readEntry_join hout.opens hplain, hout.absent _ hmem]
    have hnone : (readEntry codec fs (filePath dir key)).live? t = none :=
      Reading.live?_of_isDoomed (hgone _ hmem) ht
    rw [read_of_missing hmissing]
    unfold read
    split
    · rename_i k held hfound
      rw [hfound] at hnone
      split
      · exact hnone.symm
      · rfl
    · exact hnone.symm
  · have hsame : readEntry codec fs' (Path.join dir (fileName key)) =
        readEntry codec fs (Path.join dir (fileName key)) := readEntry_of_takesOut h hout hplain hmem
    unfold read filePath
    rw [hsame]

end CacheDir

/-! ## Repairs -/

namespace Cache

variable {α : Type} {codec : Codec α} {c : Cache α} {fs fs' : FileSystem} {dir : OsString}
  {top : Place} {now : Nat}

/-- The entry files of a cache, in order. -/
def entryFiles (c : Cache α) (fs : FileSystem) : List OsString :=
  c.directory.elim [] fun dir => (CacheDir.files fs dir).toOption.getD []

/-- What a lookup gives: the entry in memory decides, and only without one the file of the key. -/
theorem fst_get (key : String) :
    (c.get codec fs now key).1 =
      (c.recent.held? key).elim
        (c.directory.bind fun dir => (CacheDir.read codec fs dir key).live? now)
        fun h => if h.isLive now then some h.value else none := by
  unfold get
  cases c.recent.held? key with
  | some h =>
    dsimp only [Option.elim]
    split <;> rfl
  | none =>
    dsimp only [Option.elim]
    unfold fetch
    cases c.directory with
    | none => rfl
    | some dir =>
      dsimp only [Option.bind]
      cases CacheDir.read codec fs dir key with
      | missing => rfl
      | corrupt => rfl
      | found k h =>
        dsimp only [Reading.live?]
        split <;> rfl

theorem fst_get_of_forgotten (hc : c.directory = some dir) {key : String}
    (hkey : c.recent.held? key = none) :
    (c.get codec fs now key).1 = (CacheDir.read codec fs dir key).live? now := by
  rw [fst_get, hkey, hc]
  rfl

theorem entryFiles_opensAt (hc : c.directory = some dir) (h : OpensAt fs dir top) :
    c.entryFiles fs = (CacheDir.entryNames fs top).map (Path.join dir) := by
  rw [entryFiles, hc]
  simp only [Option.elim, CacheDir.files_opensAt h, Except.toOption, Option.getD_some]

theorem scan_opensAt (hc : c.directory = some dir) (h : OpensAt fs dir top) :
    c.scan codec fs now = .ok (.ofFiles codec fs now (c.entryFiles fs)) := by
  rw [entryFiles_opensAt hc h]
  simp only [scan, hc, CacheDir.files_opensAt h, CacheAudit.foldl_add, CacheAudit.ofFiles,
    List.nil_append, Nat.zero_add]

/-- **What a repair does**: it fails before it starts, or there is nothing to delete, or it deletes files
that are corrupt or have expired, in order, up to the first one that is a directory. -/
theorem repair_cases (ht : fs.IsTree) (codec : Codec α) (c : Cache α) (now : Nat) :
    (∃ err, c.scan codec fs now = .error err ∧ c.repair codec fs now = (.error err, fs)) ∨
    (c.entryFiles fs = [] ∧ c.scan codec fs now = .ok {} ∧ c.repair codec fs now = (.ok {}, fs)) ∨
    ∃ dir top done, c.directory = some dir ∧ OpensAt fs dir top ∧
      done <+: CacheDir.doomedNames codec fs dir top now ∧
      CacheDir.TakesOut fs (c.repair codec fs now).2 dir top done ∧
      (((∀ n ∈ CacheDir.doomedNames codec fs dir top now, fs.child? top n ≠ some .dir) ∧
          done = CacheDir.doomedNames codec fs dir top now ∧
          (c.repair codec fs now).1 = .ok { CacheAudit.ofFiles codec fs now (c.entryFiles fs) with
            removed := done.map (Path.join dir) }) ∨
        ((∃ n ∈ CacheDir.doomedNames codec fs dir top now, fs.child? top n = some .dir) ∧
          ∃ err, (c.repair codec fs now).1 = .error err)) := by
  cases hc : c.directory with
  | none =>
    have hscan : c.scan codec fs now = .ok {} := by rw [scan, hc]
    exact .inr (.inl ⟨by rw [entryFiles, hc]; rfl, hscan, by rw [repair, hscan]; rfl⟩)
  | some dir =>
    cases hfiles : CacheDir.files fs dir with
    | error e =>
      left
      have hscan : c.scan codec fs now = .error (.io dir.display e) := by simp only [scan, hc, hfiles]
      exact ⟨_, hscan, by rw [repair, hscan]⟩
    | ok paths =>
      right
      right
      obtain ⟨top, h⟩ := CacheDir.opensAt_of_files hfiles
      have hplain : ∀ n ∈ CacheDir.doomedNames codec fs dir top now, PlainName n := fun n hn =>
        CacheDir.plain_of_mem_entryNames ht h (CacheDir.mem_doomedNames.1 hn).1
      obtain ⟨done, hdone, hout, hend⟩ := CacheDir.removeFiles_cases ht h hplain
      have hdoomed := CacheDir.doomed_ofFiles codec fs dir top now
      rw [← entryFiles_opensAt hc h] at hdoomed
      have hrepair : c.repair codec fs now =
          ((removeFiles ((CacheDir.doomedNames codec fs dir top now).map (Path.join dir)) fs).1.map
              fun _ => { CacheAudit.ofFiles codec fs now (c.entryFiles fs) with
                removed := (CacheDir.doomedNames codec fs dir top now).map (Path.join dir) },
            (removeFiles ((CacheDir.doomedNames codec fs dir top now).map (Path.join dir)) fs).2) := by
        rw [repair, scan_opensAt hc h]
        simp only [hdoomed]
      rw [hrepair]
      refine ⟨dir, top, done, rfl, h, hdone, hout, ?_⟩
      rcases hend with ⟨hnone, rfl, hok⟩ | ⟨hdir, err, herr⟩
      · exact .inl ⟨hnone, rfl, by rw [hok]; rfl⟩
      · exact .inr ⟨hdir, err, by rw [herr]; rfl⟩

/-- What a repair that has succeeded leaves behind. -/
structure Mended (codec : Codec α) (c : Cache α) (now : Nat) (fs fs' : FileSystem) (r : CacheAudit) :
    Prop where
  scanned : r.scanned = (c.entryFiles fs).length
  /-- The corrupt files, in the order of the listing. -/
  corrupt : r.corrupt =
    (c.entryFiles fs).filter fun path => (CacheDir.readEntry codec fs path).isCorrupt
  /-- The files that have expired, in the order of the listing. -/
  expired : r.expired =
    (c.entryFiles fs).filter fun path => (CacheDir.readEntry codec fs path).isExpired now
  removed : r.removed = r.corrupt ++ r.expired
  gone : ∀ path ∈ r.removed, fs'.readBytes path = .error .notFound
  /-- At every other place stands what stood there, byte for byte. -/
  unchanged : ∀ p, (∀ path ∈ r.removed, fs.locate path ≠ .ok p) → fs'.stored? p = fs.stored? p
  remaining : c.entryFiles fs' = (c.entryFiles fs).filter (· ∉ r.removed)
  /-- Another scan goes over the remaining files and finds nothing. -/
  rescan : c.scan codec fs' now = .ok { scanned := (c.entryFiles fs').length }
  /-- Another repair deletes nothing. -/
  again : c.repair codec fs' now = (.ok { scanned := (c.entryFiles fs').length }, fs')

/-- A directory without the names of doomed files is mended. -/
theorem mended_of_takesOut (ht : fs.IsTree) (hc : c.directory = some dir) (h : OpensAt fs dir top)
    (hout : CacheDir.TakesOut fs fs' dir top (CacheDir.doomedNames codec fs dir top now)) :
    c.Mended codec now fs fs' { CacheAudit.ofFiles codec fs now (c.entryFiles fs) with
      removed := (CacheDir.doomedNames codec fs dir top now).map (Path.join dir) } := by
  have hmem {n : OsString} (hn : n ∈ CacheDir.doomedNames codec fs dir top now) :=
    CacheDir.mem_doomedNames.1 hn
  have hplain {n : OsString} (hn : n ∈ CacheDir.entryNames fs top) : PlainName n :=
    CacheDir.plain_of_mem_entryNames ht h hn
  have hfiles := entryFiles_opensAt hc h
  have hfiles' := entryFiles_opensAt hc hout.opens
  have hnames := CacheDir.entryNames_of_takesOut ht h hout
  -- what remains reads as before, so nothing of it is doomed
  have hclean : ∀ n ∈ CacheDir.entryNames fs' top,
      (CacheDir.readEntry codec fs' (Path.join dir n)).isDoomed now = false := by
    intro n hn
    rw [hnames, List.mem_filter, decide_eq_true_eq] at hn
    rw [CacheDir.readEntry_of_takesOut h hout (hplain hn.1) hn.2]
    by_contra hdoomed
    exact hn.2 (CacheDir.mem_doomedNames.2 ⟨hn.1, Bool.eq_true_of_not_eq_false hdoomed⟩)
  have hnone : CacheDir.doomedNames codec fs' dir top now = [] := by
    refine List.eq_nil_iff_forall_not_mem.2 fun n hn => ?_
    obtain ⟨hin, hdoomed⟩ := CacheDir.mem_doomedNames.1 hn
    rw [hclean n hin] at hdoomed
    cases hdoomed
  have hscan : c.scan codec fs' now = .ok { scanned := (c.entryFiles fs').length } := by
    have hempty := CacheDir.doomed_ofFiles codec fs' dir top now
    rw [hnone, List.map_nil, List.append_eq_nil_iff, ← hfiles'] at hempty
    rw [scan_opensAt hc hout.opens]
    simp only [CacheAudit.ofFiles] at hempty ⊢
    rw [hempty.1, hempty.2]
  refine ⟨rfl, rfl, rfl, ?_, fun path hpath => ?_, fun p hp => ?_, ?_, hscan, ?_⟩
  · rw [hfiles]
    exact (CacheDir.doomed_ofFiles codec fs dir top now).symm
  · obtain ⟨n, hn, rfl⟩ := List.mem_map.1 hpath
    rw [hout.opens.readBytes_join (hplain (hmem hn).1), hout.absent n hn]
  · refine hout.kept p fun n hn hplace => hp _ (List.mem_map_of_mem hn) ?_
    have hin := (hmem hn).1
    rw [h.locate_join (hplain hin), if_pos ((CacheDir.mem_entryNames h).1 hin).2, hplace]
  · rw [hfiles, hfiles', hnames, List.filter_map]
    congr 1
    refine List.filter_congr fun n hn => ?_
    -- a path of the directory has its name as its last component
    have hiff : Path.join dir n ∈ (CacheDir.doomedNames codec fs dir top now).map (Path.join dir) ↔
        n ∈ CacheDir.doomedNames codec fs dir top now := by
      refine ⟨fun hpath => ?_, List.mem_map_of_mem⟩
      obtain ⟨m, hm, heq⟩ := List.mem_map.1 hpath
      have hname := congrArg Path.fileName? heq
      rw [fileName?_join h.nonempty (hplain (hmem hm).1), fileName?_join h.nonempty (hplain hn)] at hname
      exact Option.some.inj hname ▸ hm
    simp only [Function.comp_apply, hiff]
  · rw [repair, hscan]
    rfl

/-- **A repair cannot be noticed by a lookup.** Whatever is in memory and in the files, every key gives
at every moment from the repair on what it would give without the repair, also if the repair stops at
a file that cannot be deleted. It succeeds if the directory can be listed and no entry file is a
directory; then it has deleted the corrupt files and those that have expired and nothing else, and
neither another scan nor another repair finds anything. -/
theorem repair_unnoticed (codec : Codec α) (c : Cache α) (ht : fs.IsTree) (now : Nat) :
    (∀ key t, now ≤ t →
      (c.get codec (c.repair codec fs now).2 t key).1 = (c.get codec fs t key).1) ∧
    ((∃ r, (c.repair codec fs now).1 = .ok r) ↔ (∃ r, c.scan codec fs now = .ok r) ∧
      ∀ path ∈ c.entryFiles fs, fs.readBytes path ≠ .error .isDirectory) ∧
    ∀ r, (c.repair codec fs now).1 = .ok r → c.Mended codec now fs (c.repair codec fs now).2 r := by
  rcases repair_cases ht codec c now with ⟨err, hscan, hrepair⟩ | ⟨hnone, hscan, hrepair⟩ |
    ⟨dir, top, done, hc, h, hdone, hout, hend⟩
  · rw [hrepair]
    exact ⟨fun _ _ _ => rfl, by simp [hscan], fun r hr => by cases hr⟩
  · rw [hrepair]
    refine ⟨fun _ _ _ => rfl, by simp [hscan, hnone], fun r hr => ?_⟩
    cases hr
    have hempty : ({} : CacheAudit) = { scanned := (c.entryFiles fs).length } := by rw [hnone]; rfl
    exact ⟨by simp [hnone], by simp [hnone], by simp [hnone], rfl, fun _ hp => absurd hp List.not_mem_nil,
      fun _ _ => rfl, by simp [hnone], hempty ▸ hscan, hempty ▸ hrepair⟩
  · refine ⟨fun key t htime => ?_, ?_, fun r hr => ?_⟩
    · have hgone : ∀ n ∈ done, (CacheDir.readEntry codec fs (Path.join dir n)).isDoomed now = true :=
        fun n hn => (CacheDir.mem_doomedNames.1 (hdone.subset hn)).2
      rw [fst_get, fst_get, hc]
      simp only [Option.bind_some, CacheDir.live?_read_of_takesOut h hout hgone htime key]
    · have hdirs := CacheDir.exists_dir_iff codec now ht h
      rw [← entryFiles_opensAt hc h] at hdirs
      rcases hend with ⟨hfiles, -, hok⟩ | ⟨hdir, err, herr⟩
      · refine ⟨fun _ => ⟨⟨_, scan_opensAt hc h⟩, fun path hpath herr => ?_⟩, fun _ => ⟨_, hok⟩⟩
        obtain ⟨n, hn, hdir⟩ := hdirs.2 ⟨path, hpath, herr⟩
        exact hfiles n hn hdir
      · obtain ⟨path, hpath, hread⟩ := hdirs.1 hdir
        refine ⟨fun hok => ?_, fun hall => absurd hread (hall.2 path hpath)⟩
        obtain ⟨r, hok⟩ := hok
        rw [herr] at hok
        cases hok
    · rcases hend with ⟨-, rfl, hok⟩ | ⟨-, err, herr⟩
      · rw [hok] at hr
        cases hr
        exact mended_of_takesOut ht hc h hout
      · rw [herr] at hr
        cases hr

/-- A directory with a file that is no entry, one that has expired and one that has not. -/
def littered : FileSystem :=
  ⟨[(["cache"], .dir), (["cache", "x.json"], .file [35]),
    (["cache", CacheDir.fileName "k"], .file (CacheDir.content Codec.json "k" ⟨.str "old", 5⟩)),
    (["cache", CacheDir.fileName "l"], .file (CacheDir.content Codec.json "l" ⟨.str "new", 50⟩))], []⟩

theorem isTree_littered : littered.IsTree := by
  have hnames : ["x.json", CacheDir.fileName "k", CacheDir.fileName "l"].Nodup := by decide +kernel
  have hplain : ∀ key, PlainName (CacheDir.fileName key) := CacheDir.plain_fileName
  have hcache : PlainName "cache" := by decide
  have hx : PlainName "x.json" := by decide
  refine ⟨?_, ?_, ?_, rfl⟩
  · simpa [littered, and_assoc] using hnames
  · simp [littered, hplain, hcache, hx]
  · simp [littered, stored?]

/-- Two files go, and the lookup of the third entry does not notice. -/
theorem repair_unnoticed_littered :
    let c : Cache Json := { capacity := 1, directory := some "cache" }
    let fs := (c.repair Codec.json littered 7).2
    littered.IsTree ∧ fs.readBytes "cache/x.json" = .error .notFound ∧
      fs.readBytes (CacheDir.filePath "cache" "k") = .error .notFound ∧
      (c.get Codec.json fs 9 "l").1 = some (.str "new") := by
  intro c fs
  have ht := isTree_littered
  have h : OpensAt littered "cache" ["cache"] := ⟨rfl, rfl⟩
  have hentry {n : OsString} {e : FileSystem.Entry} (hmem : ((["cache", n] : Place), e) ∈ littered.entries) :
      littered.child? ["cache"] n = some e := ht.stored?_of_mem hmem
  have hplain : ((["cache", "x.json"] : Place), Entry.file [35]) ∈ littered.entries := by simp [littered]
  have hold : ((["cache", CacheDir.fileName "k"] : Place),
      Entry.file (CacheDir.content Codec.json "k" ⟨.str "old", 5⟩)) ∈ littered.entries := by simp [littered]
  have hnew : ((["cache", CacheDir.fileName "l"] : Place),
      Entry.file (CacheDir.content Codec.json "l" ⟨.str "new", 50⟩)) ∈ littered.entries := by simp [littered]
  have hfiles : c.entryFiles littered =
      (CacheDir.entryNames littered ["cache"]).map (Path.join "cache") := entryFiles_opensAt rfl h
  have hread (key text : String) (expires : Nat) (hexpires : expires < 2 ^ 64)
      (hmem : ((["cache", CacheDir.fileName key] : Place),
        Entry.file (CacheDir.content Codec.json key ⟨.str text, expires⟩)) ∈ littered.entries) :
      CacheDir.readEntry Codec.json littered (CacheDir.filePath "cache" key) =
        .found key ⟨.str text, expires⟩ :=
    CacheDir.readEntry_content h (hentry hmem) ⟨.str text, Json.readValue_str 126 text _, rfl⟩ hexpires
  obtain ⟨hget, hok, hmended⟩ := repair_unnoticed Codec.json c ht 7
  obtain ⟨r, hr⟩ : ∃ r, (c.repair Codec.json littered 7).1 = .ok r := by
    refine hok.2 ⟨⟨_, scan_opensAt rfl h⟩, fun path hpath hread => ?_⟩
    rw [hfiles] at hpath
    obtain ⟨n, -, hdir⟩ := (CacheDir.exists_dir_iff Codec.json 7 ht h).2 ⟨path, hpath, hread⟩
    have hentry := mem_of_stored? (by simp) hdir
    simp [littered] at hentry
  have hm := hmended r hr
  have hx : ↑"cache/x.json" ∈ r.removed := by
    rw [hm.removed, hm.corrupt, hfiles]
    refine List.mem_append_left _ (List.mem_filter.2 ⟨List.mem_map.2 ⟨"x.json", ?_, rfl⟩, ?_⟩)
    · exact (CacheDir.mem_entryNames h).2 ⟨by decide, by rw [hentry hplain]; rfl⟩
    · decide +kernel
  have hk : CacheDir.filePath "cache" "k" ∈ r.removed := by
    rw [hm.removed, hm.expired, hfiles]
    refine List.mem_append_right _ (List.mem_filter.2
      ⟨List.mem_map.2 ⟨CacheDir.fileName "k", ?_, rfl⟩, ?_⟩)
    · exact (CacheDir.mem_entryNames h).2
        ⟨CacheDir.nameExtension?_fileName "k", by rw [hentry hold]; rfl⟩
    · rw [hread "k" "old" 5 (by decide) hold]
      rfl
  refine ⟨ht, hm.gone _ hx, hm.gone _ hk, (hget "l" 9 (by decide)).trans ?_⟩
  have hlive : CacheDir.read Codec.json littered "cache" "l" = .found "l" ⟨.str "new", 50⟩ :=
    CacheDir.read_eq_found.2 ⟨rfl, hread "l" "new" 50 (by decide) hnew⟩
  rw [fst_get_of_forgotten rfl rfl, hlive]
  rfl

end Cache

end CodeSurvey
