import CodeSurvey.Proofs.Detection
import CodeSurvey.Proofs.FileTree
import CodeSurvey.Proofs.Masking
/-!
# Walking a tree

A walk lists each file of a tree once, in the order of the paths (`nodup_claimedFiles`,
`sorted_claimedFiles`), and leaves out what stands in a directory whose name starts with a dot or is
excluded (`mem_claimedFiles`). It reads the first bytes of a file only and replaces what is faulty in
them, but a first line that fits into these bytes is read as it stands, so that the same files are
claimed as by their whole text (`isClaimed_iff`).
-/
namespace CodeSurvey

open Text

/-! ## Order of paths -/

namespace Path

theorem Component.le_total (a b : Component) : a.le b = true ∨ b.le a = true := by
  cases a <;> cases b <;> simp [Component.le, Component.rank, OsString.le_total]

theorem Component.le_trans {a b c : Component} (hab : a.le b = true) (hbc : b.le c = true) :
    a.le c = true := by
  cases a <;> cases b <;> cases c <;> simp_all [Component.le, Component.rank]
  exact OsString.le_trans hab hbc

theorem Component.le_antisymm {a b : Component} (hab : a.le b = true) (hba : b.le a = true) :
    a = b := by
  cases a <;> cases b <;> simp_all [Component.le, Component.rank]
  exact OsString.le_antisymm hab hba

theorem leComponents_total (p q : List Component) :
    leComponents p q = true ∨ leComponents q p = true := by
  induction p generalizing q with
  | nil => exact .inl rfl
  | cons a r ih =>
    cases q with
    | nil => exact .inr rfl
    | cons b s =>
      rw [leComponents, leComponents]
      by_cases hab : a = b
      · simpa [hab] using ih s
      · simpa [hab, Ne.symm hab] using a.le_total b

theorem leComponents_trans {p q r : List Component} (hpq : leComponents p q = true)
    (hqr : leComponents q r = true) : leComponents p r = true := by
  induction p generalizing q r with
  | nil => rfl
  | cons a p ih =>
    cases q with
    | nil => cases hpq
    | cons b q =>
      cases r with
      | nil => cases hqr
      | cons c r =>
        rw [leComponents] at hpq hqr ⊢
        by_cases hab : a = b
        · subst hab
          by_cases hac : a = c
          · simp only [hac, if_true] at hpq hqr ⊢
            exact ih hpq hqr
          · simpa [hac] using hqr
        · by_cases hbc : b = c
          · subst hbc
            simpa [hab] using hpq
          · simp only [hab, hbc, if_false] at hpq hqr
            -- components that differ pairwise cannot lead back to the first
            have hac : a ≠ c := by
              rintro rfl
              exact hab (Component.le_antisymm hpq hqr)
            simpa [hac] using Component.le_trans hpq hqr

theorem pairwise_mergeSort (paths : List OsString) :
    (paths.mergeSort Path.le).Pairwise fun p q => Path.le p q = true := by
  apply List.pairwise_mergeSort
  · intro p q r hpq hqr
    exact leComponents_trans hpq hqr
  · intro p q
    rw [Bool.or_eq_true]
    exact leComponents_total (components p) (components q)

end Path

/-! ## The first bytes -/

theorem Utf8.isSome_decodeFrom (n : Nat) (bytes : List UInt8) :
    (decodeFrom true n bytes).isSome = true := by
  induction bytes generalizing n with
  | nil => simp [decodeFrom]
  | cons b r ih =>
    cases n with
    | succ n => exact ih n
    | zero =>
      rw [decodeFrom]
      split <;> simp [ih]

/-- A text in front of other bytes is read as it is. -/
theorem Utf8.decodeLossy_append (s : List Char) (bytes : List UInt8) :
    decodeLossy (encode s ++ bytes) = s ++ decodeLossy bytes := by
  unfold decodeLossy
  induction s with
  | nil => rfl
  | cons c r ih =>
    obtain ⟨t, ht⟩ := Option.isSome_iff_exists.1 (isSome_decodeFrom 0 (encode r ++ bytes))
    rw [encode_cons, List.append_assoc, decodeFrom_encodeChar]
    rw [ht] at ih ⊢
    simpa using ih

/-- What is cut behind a first line still ends the line. -/
theorem EndsLine.decodeLossy_take {tail : List Char} (h : EndsLine tail) (n : Nat) :
    EndsLine (Utf8.decodeLossy ((Utf8.encode tail).take n)) := by
  have hreturn (bytes : List UInt8) : Utf8.decodeLossy (13 :: bytes) = '\r' :: Utf8.decodeLossy bytes :=
    Utf8.decodeLossy_append ['\r'] bytes
  have hnewline (bytes : List UInt8) : Utf8.decodeLossy (10 :: bytes) = '\n' :: Utf8.decodeLossy bytes :=
    Utf8.decodeLossy_append ['\n'] bytes
  cases n with
  | zero => exact .empty
  | succ n =>
    cases h with
    | empty => exact .empty
    | cut =>
      change EndsLine (Utf8.decodeLossy (13 :: List.take n []))
      rw [hreturn, List.take_nil]
      exact .cut
    | newline rest =>
      change EndsLine (Utf8.decodeLossy (10 :: (Utf8.encode rest).take n))
      rw [hnewline]
      exact .newline _
    | returnNewline rest =>
      change EndsLine (Utf8.decodeLossy (13 :: (10 :: Utf8.encode rest).take n))
      rw [hreturn]
      cases n with
      | zero => exact .cut
      | succ n =>
        rw [List.take_succ_cons, hnewline]
        exact .returnNewline _

/-- A text is its first line and what follows it. -/
theorem exists_firstLine (text : List Char) : ∃ line tail, text = line ++ tail ∧ '\n' ∉ line ∧
    EndsLine tail ∧ (line = [] ∨ (lines text).head? = some line) := by
  by_cases h : '\n' ∈ text
  · obtain ⟨l, r, rfl, hl⟩ := List.eq_append_cons_of_mem h
    have hline : '\n' ∉ dropReturn l := fun hn => hl ((prefix_dropReturn l).subset hn)
    have hhead : (lines (l ++ '\n' :: r)).head? = some (dropReturn l) := by
      rw [lines_append hl]
      rfl
    rcases dropReturn_cases l with ⟨heq, -⟩ | heq
    · exact ⟨dropReturn l, '\n' :: r, by rw [heq], hline, .newline r, .inr hhead⟩
    · refine ⟨dropReturn l, '\r' :: '\n' :: r, ?_, hline, .returnNewline r, .inr hhead⟩
      conv_lhs => rw [heq]
      simp
  · refine ⟨text, [], by simp, h, .empty, ?_⟩
    rcases eq_or_ne text [] with rfl | hne
    · exact .inl rfl
    · exact .inr (by rw [lines_of_not_mem h hne]; rfl)

/-- The first line of a text fits into the bytes that are looked at. -/
def FirstLineFits (text : List Char) : Prop :=
  ∀ line ∈ (lines text).head?, size line ≤ leadingBytes

/-- The interpreter is read in the first bytes if the first line fits into them. -/
theorem interpreter?_leading {text : List Char} (h : FirstLineFits text) :
    interpreter? (Utf8.decodeLossy ((Utf8.encode text).take leadingBytes)) = interpreter? text := by
  obtain ⟨line, tail, rfl, hline, htail, hfirst⟩ := exists_firstLine text
  have hsize : size line ≤ leadingBytes := by
    rcases hfirst with rfl | hfirst
    · exact Nat.zero_le _
    · exact h line hfirst
  have hencode : Utf8.encode (line ++ tail) = Utf8.encode line ++ Utf8.encode tail :=
    List.flatMap_append
  have htake : (Utf8.encode (line ++ tail)).take leadingBytes =
      Utf8.encode line ++ (Utf8.encode tail).take (leadingBytes - size line) := by
    rw [hencode, List.take_append, Utf8.length_encode, List.take_of_length_le]
    rw [Utf8.length_encode]
    exact hsize
  rw [htake, Utf8.decodeLossy_append, interpreter?_append hline (htail.decodeLossy_take _),
    interpreter?_append hline htail]

/-- **A walk claims the files that their whole text claims**, as far as their first lines fit. -/
theorem Found.isClaimed_iff {text : List Char} (h : FirstLineFits text) (path relative : OsString) :
    isClaimed .builtin ⟨path, relative, Utf8.encode text⟩ = true ↔
      (Providers.builtin.detect? path (some text)).isSome = true := by
  unfold isClaimed
  rw [Bool.or_eq_true, Providers.isSome_detect?_iff, Providers.isSome_detect?_iff,
    Providers.isSome_detect?_iff]
  simp only [Option.bind_none, Option.bind_some, interpreter?_leading h]
  simp

/-! ## Files below a root -/

namespace FileSystem

/-- A file below a root: the names that lead to it from the root, and what it holds. -/
def FileBelow (fs : FileSystem) (root : OsString) (names : List OsString) (bytes : List UInt8) : Prop :=
  ∃ top, fs.locate root = .ok top ∧
    fs.stored? (top ++ names) = some (.file bytes)

/-- A directory on the way has a name that starts with a dot. -/
def IsHidden (names : List OsString) : Prop := ∃ d ∈ names.dropLast, d.bytes.head? = some Path.dot

/-- How a walk from a place lists an entry. -/
def listed? (top : Place) (x : Place × Entry) : Option (List OsString × List UInt8) :=
  match x.2, top.isPrefixOf? x.1 with
  | .file bytes, some rest =>
    if rest.dropLast.any fun d => d.bytes.head? == some Path.dot then none else some (rest, bytes)
  | _, _ => none

theorem filesBelow_eq (fs : FileSystem) (top : Place) :
    fs.filesBelow top = fs.entries.filterMap (listed? top) := rfl

theorem listed?_eq_some {top : Place} {x : Place × Entry}
    {y : List OsString × List UInt8} :
    listed? top x = some y ↔ x = (top ++ y.1, .file y.2) ∧ ¬ IsHidden y.1 := by
  obtain ⟨ns, e⟩ := x
  obtain ⟨names, bytes⟩ := y
  have hrest {rest : List OsString} : top.isPrefixOf? ns = some rest ↔ ns = top ++ rest := by
    rw [List.isPrefixOf?_eq_some_iff_append_eq]
    exact eq_comm
  have hhidden (rest : List OsString) :
      (rest.dropLast.any fun d => d.bytes.head? == some Path.dot) = true ↔ IsHidden rest := by
    simp [IsHidden]
  unfold listed?
  dsimp only
  split
  · rename_i rest hfound
    obtain rfl := hrest.1 hfound
    split
    · rename_i hdot
      have hdotted := (hhidden rest).1 hdot
      simp only [reduceCtorEq, false_iff, not_and, not_not, Prod.mk.injEq]
      rintro ⟨hnames, -⟩
      exact List.append_cancel_left hnames ▸ hdotted
    · rename_i hdot
      rw [hhidden] at hdot
      simp only [Option.some.injEq, Prod.mk.injEq, List.append_cancel_left_eq, Entry.file.injEq]
      constructor
      · rintro ⟨rfl, rfl⟩
        exact ⟨⟨rfl, rfl⟩, hdot⟩
      · exact fun h => h.1
  · rename_i hother
    simp only [reduceCtorEq, false_iff, not_and, Prod.mk.injEq]
    rintro ⟨rfl, rfl⟩
    exact (hother bytes names rfl (hrest.2 rfl)).elim

variable {fs : FileSystem} {root : OsString} {names : List OsString} {bytes : List UInt8}

theorem IsTree.mem_filesBelow (h : fs.IsTree) {top : Place} :
    (names, bytes) ∈ fs.filesBelow top ↔
      fs.stored? (top ++ names) = some (.file bytes) ∧ ¬ IsHidden names := by
  have hstored : (top ++ names, Entry.file bytes) ∈ fs.entries ↔
      fs.stored? (top ++ names) = some (.file bytes) := by
    refine ⟨h.stored?_of_mem, fun hs => mem_of_stored? ?_ hs⟩
    intro hnil
    rw [hnil] at hs
    cases hs
  rw [filesBelow_eq, List.mem_filterMap, ← hstored]
  constructor
  · rintro ⟨x, hmem, hx⟩
    obtain ⟨rfl, hhidden⟩ := listed?_eq_some.1 hx
    exact ⟨hmem, hhidden⟩
  · rintro ⟨hmem, hhidden⟩
    exact ⟨_, hmem, listed?_eq_some.2 ⟨rfl, hhidden⟩⟩

/-- No file is listed twice. -/
theorem IsTree.nodup_filesBelow (h : fs.IsTree) (top : Place) : (fs.filesBelow top).Nodup := by
  refine List.Nodup.filterMap ?_ h.nodup.of_map
  intro x x' y hx hx'
  rw [(listed?_eq_some.1 hx).1, (listed?_eq_some.1 hx').1]

theorem FileBelow.stored? (hb : fs.FileBelow root names bytes) {top : Place}
    (hroot : fs.locate root = .ok top) :
    fs.stored? (top ++ names) = some (.file bytes) := by
  obtain ⟨top', hroot', hs⟩ := hb
  rw [hroot] at hroot'
  cases hroot'
  exact hs

/-- The path of a file leads to it. -/
theorem FileBelow.locate (hb : fs.FileBelow root names bytes) (h : fs.IsTree) :
    ∃ p, fs.locate (names.foldl Path.join root) = .ok p ∧ fs.stored? p = some (.file bytes) := by
  obtain ⟨top, hroot, hs⟩ := hb
  exact ⟨_, h.locate_foldl hroot hs, hs⟩

/-- Two files below a root have two paths. -/
theorem FileBelow.unique (hb : fs.FileBelow root names bytes) {names' : List OsString}
    {bytes' : List UInt8} (hb' : fs.FileBelow root names' bytes') (h : fs.IsTree)
    (hpath : names.foldl Path.join root = names'.foldl Path.join root) :
    names = names' ∧ bytes = bytes' := by
  obtain ⟨top, hroot, hs⟩ := hb
  have hs' := hb'.stored? hroot
  have hplace := h.locate_foldl hroot hs
  rw [hpath, h.locate_foldl hroot hs'] at hplace
  cases List.append_cancel_left (Except.ok.inj hplace)
  rw [hs] at hs'
  cases hs'
  exact ⟨rfl, rfl⟩

end FileSystem

/-! ## What a walk finds -/

open FileSystem

/-- A file as a walk from a root finds it. -/
def Found.reached (root : OsString) (names : List OsString) (bytes : List UInt8) : Found :=
  ⟨names.foldl Path.join root, Path.render (names.map .name), bytes⟩

variable {fs : FileSystem} {root : OsString}

theorem Found.below_eq (fs : FileSystem) (root : OsString) :
    (∃ top, fs.locate root = .ok top ∧
      below fs root = (fs.filesBelow top).map fun x => reached root x.1 x.2) ∨
    (∃ err, fs.locate root = .error err) ∧ below fs root = [] := by
  unfold below
  split
  · rename_i top hroot
    exact .inl ⟨top, hroot, rfl⟩
  · rename_i err hroot
    exact .inr ⟨⟨err, hroot⟩, rfl⟩

theorem Found.mem_below (h : fs.IsTree) {f : Found} :
    f ∈ below fs root ↔
      ∃ names bytes, fs.FileBelow root names bytes ∧ ¬ IsHidden names ∧ f = reached root names bytes := by
  rcases below_eq fs root with ⟨top, hroot, heq⟩ | ⟨⟨err, hroot⟩, heq⟩
  · rw [heq, List.mem_map]
    constructor
    · rintro ⟨⟨names, bytes⟩, hmem, rfl⟩
      obtain ⟨hs, hhidden⟩ := h.mem_filesBelow.1 hmem
      exact ⟨names, bytes, ⟨top, hroot, hs⟩, hhidden, rfl⟩
    · rintro ⟨names, bytes, hfile, hhidden, rfl⟩
      exact ⟨(names, bytes), h.mem_filesBelow.2 ⟨hfile.stored? hroot, hhidden⟩, rfl⟩
  · rw [heq]
    constructor
    · intro hf
      cases hf
    · rintro ⟨names, bytes, ⟨top, hroot', -⟩, -⟩
      rw [hroot] at hroot'
      cases hroot'

section claimedFiles

variable (ps : Providers) (globs : EngineSettings.Exclusions) (root)

/-- **The files that a walk claims.** -/
theorem mem_claimedFiles (h : fs.IsTree) {path : OsString} :
    path ∈ claimedFiles ps globs fs root ↔
      ∃ names bytes, fs.FileBelow root names bytes ∧ ¬ IsHidden names ∧
        path = names.foldl Path.join root ∧
        globs.isMatch (Path.render (names.map .name)) = false ∧ globs.isMatch path = false ∧
        (Found.reached root names bytes).isClaimed ps = true := by
  unfold claimedFiles
  rw [(List.mergeSort_perm _ _).mem_iff, List.mem_map]
  constructor
  · rintro ⟨f, hf, rfl⟩
    obtain ⟨hbelow, hkept⟩ := List.mem_filter.1 hf
    obtain ⟨names, bytes, hfile, hhidden, rfl⟩ := (Found.mem_below h).1 hbelow
    simp only [Found.isExcluded, Bool.and_eq_true, Bool.not_eq_true', Bool.or_eq_false_iff] at hkept
    exact ⟨names, bytes, hfile, hhidden, rfl, hkept.1.1, hkept.1.2, hkept.2⟩
  · rintro ⟨names, bytes, hfile, hhidden, rfl, hrelative, hfull, hclaimed⟩
    refine ⟨Found.reached root names bytes, List.mem_filter.2 ⟨?_, ?_⟩, rfl⟩
    · exact (Found.mem_below h).2 ⟨names, bytes, hfile, hhidden, rfl⟩
    · have hexcluded : (Found.reached root names bytes).isExcluded globs = false := by
        simp only [Found.isExcluded, Bool.or_eq_false_iff]
        exact ⟨hrelative, hfull⟩
      simp [hexcluded, hclaimed]

theorem sorted_claimedFiles (fs : FileSystem) :
    (claimedFiles ps globs fs root).Pairwise fun p q => Path.le p q = true :=
  Path.pairwise_mergeSort _

theorem nodup_claimedFiles (h : fs.IsTree) : (claimedFiles ps globs fs root).Nodup := by
  have hbelow : ((Found.below fs root).map (·.path)).Nodup := by
    rcases Found.below_eq fs root with ⟨top, hroot, heq⟩ | ⟨-, heq⟩
    · rw [heq, List.map_map]
      refine List.Nodup.map_on ?_ (h.nodup_filesBelow top)
      rintro ⟨names, bytes⟩ hx ⟨names', bytes'⟩ hy hpath
      have hb : fs.FileBelow root names bytes := ⟨top, hroot, (h.mem_filesBelow.1 hx).1⟩
      have hb' : fs.FileBelow root names' bytes' := ⟨top, hroot, (h.mem_filesBelow.1 hy).1⟩
      obtain ⟨rfl, rfl⟩ := hb.unique hb' h hpath
      rfl
    · rw [heq]
      exact List.nodup_nil
  unfold claimedFiles
  rw [(List.mergeSort_perm _ _).nodup_iff]
  exact hbelow.sublist (List.filter_sublist.map _)

end claimedFiles

end CodeSurvey
