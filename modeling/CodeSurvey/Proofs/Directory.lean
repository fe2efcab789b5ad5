import CodeSurvey.Proofs.FileSystem
/-!
# The files of one directory

A plain name joined to a directory leads to the entry of that name: `OpensAt fs dir top` says that
`dir` names the directory at the place `top`, and then reading, writing and deleting `dir/n` act on
`child? fs top n` alone. Making a directory that is there changes nothing
(`OpensAt.makeDirs`).
-/
namespace CodeSurvey.FileSystem

open CodeSurvey.Path (Component dot slash)

/-! ## Pieces of a path -/

section Pieces

variable {α : Type}

theorem splitBy_ne_nil (p : α → Bool) (s : List α) : Text.splitBy p s ≠ [] := by
  cases s with
  | nil => simp [Text.splitBy]
  | cons c r =>
    unfold Text.splitBy
    split
    · simp
    · split <;> simp

theorem splitBy_append {p : α → Bool} {c : α} (hc : p c = true) (s t : List α) :
    Text.splitBy p (s ++ c :: t) = Text.splitBy p s ++ Text.splitBy p t := by
  induction s with
  | nil => simp [Text.splitBy, hc]
  | cons a r ih =>
    rw [List.cons_append, Text.splitBy, Text.splitBy, ih]
    split
    · rfl
    · obtain ⟨w, ws, hw⟩ := List.exists_cons_of_ne_nil (splitBy_ne_nil p r)
      simp [hw]

variable [BEq α] [LawfulBEq α]

theorem splitAt_append (sep : α) (s t : List α) :
    Text.splitAt sep (s ++ sep :: t) = Text.splitAt sep s ++ Text.splitAt sep t :=
  splitBy_append (p := (· == sep)) (beq_self_eq_true sep) s t

theorem splitAt_of_not_mem {sep : α} {s : List α} (h : sep ∉ s) : Text.splitAt sep s = [s] := by
  unfold Text.splitAt
  induction s with
  | nil => rfl
  | cons c r ih =>
    have hc : (c == sep) = false := by simpa using fun heq : c = sep => h (heq ▸ List.mem_cons_self)
    rw [Text.splitBy, if_neg (by simp [hc]), ih fun hr => h (List.mem_cons_of_mem _ hr)]

end Pieces

/-- A name that can stand for an entry of a directory. -/
structure PlainName (n : OsString) : Prop where
  nonempty : n.bytes ≠ []
  noSlash : slash ∉ n.bytes
  noNul : 0 ∉ n.bytes
  notDot : n.bytes ≠ [dot]
  notUp : n.bytes ≠ [dot, dot]
  short : n.bytes.length ≤ 255

/-- The step of a piece of a path. -/
def pieceStep (p : List UInt8) : Option Component :=
  if p.isEmpty then none
  else if p = [dot] then some .here
  else if p = [dot, dot] then some .up
  else some (.name ⟨p⟩)

theorem steps_eq (path : OsString) :
    steps path = (if path.bytes.head? = some slash then [Component.root] else []) ++
      (Text.splitAt slash path.bytes).filterMap pieceStep ++
        (if path.bytes.getLast? = some slash then [.here] else []) := rfl

theorem PlainName.pieceStep {n : OsString} (h : PlainName n) :
    pieceStep n.bytes = some (.name n) := by
  simp [FileSystem.pieceStep, h.nonempty, h.notDot, h.notUp]

theorem PlainName.isAbsolute {n : OsString} (h : PlainName n) : Path.isAbsolute n = false := by
  cases hc : n.bytes with
  | nil => exact absurd hc h.nonempty
  | cons c r =>
    have : c ≠ slash := fun heq => h.noSlash (by rw [hc, heq]; exact List.mem_cons_self)
    simp [Path.isAbsolute, hc, this]

theorem bytes_ne_nil {path : OsString} (h : path.isEmpty = false) : path.bytes ≠ [] :=
  fun hnil => by simp [OsString.isEmpty, hnil] at h

/-- A plain name is joined to a directory by one slash. -/
theorem bytes_join {dir n : OsString} (hd : dir.isEmpty = false) (hn : PlainName n) :
    ∃ d, (Path.join dir n).bytes = d ++ slash :: n.bytes ∧
      (dir.bytes = d ++ [slash] ∨ dir.bytes = d ∧ d ≠ [] ∧ d.getLast? ≠ some slash) := by
  unfold Path.join
  rw [if_neg (by simp [hn.isAbsolute, hd])]
  split <;> rename_i hlast
  · obtain ⟨d, c, hdc⟩ := (List.eq_nil_or_concat' dir.bytes).resolve_left (bytes_ne_nil hd)
    have hc : c = slash := by simpa [hdc] using hlast
    refine ⟨d, ?_, .inl (by rw [hdc, hc])⟩
    change dir.bytes ++ n.bytes = _
    simp [hdc, hc]
  · exact ⟨dir.bytes, rfl, .inr ⟨rfl, bytes_ne_nil hd, by simpa using hlast⟩⟩

/-- A joined path starts where the directory starts. -/
theorem isAbsolute_join {dir n : OsString} (hd : dir.isEmpty = false) (hn : PlainName n) :
    Path.isAbsolute (Path.join dir n) = Path.isAbsolute dir := by
  obtain ⟨d, hj, hdir⟩ := bytes_join hd hn
  unfold Path.isAbsolute
  rw [hj]
  rcases hdir with h | ⟨h, hne, -⟩
  · rw [h]
    cases d <;> rfl
  · obtain ⟨c, r, rfl⟩ := List.exists_cons_of_ne_nil hne
    rw [h]
    rfl

/-- The steps of a joined path are those of the directory, but for a closing dot, and the name. -/
theorem steps_join {dir n : OsString} (hd : dir.isEmpty = false) (hn : PlainName n) :
    ∃ pre, steps (Path.join dir n) = pre ++ [.name n] ∧
      (steps dir = pre ∨ steps dir = pre ++ [.here]) := by
  obtain ⟨d, hj, hdir⟩ := bytes_join hd hn
  have hlast : (d ++ slash :: n.bytes).getLast? ≠ some slash := by
    intro h
    rw [List.getLast?_append, List.getLast?_cons] at h
    obtain ⟨m, c, hc⟩ := (List.eq_nil_or_concat' n.bytes).resolve_left hn.nonempty
    rw [hc] at h
    have : c = slash := by simpa using h
    exact hn.noSlash (by simp [hc, this])
  refine ⟨(if (d ++ [slash]).head? = some slash then [Component.root] else []) ++
    (Text.splitAt slash d).filterMap pieceStep, ?_, ?_⟩
  · have hhead : (d ++ slash :: n.bytes).head? = (d ++ [slash]).head? := by cases d <;> rfl
    rw [steps_eq, hj, splitAt_append, splitAt_of_not_mem hn.noSlash, if_neg hlast, hhead]
    simp [hn.pieceStep]
  · rw [steps_eq]
    rcases hdir with h | ⟨h, hne, hnot⟩
    · right
      rw [h, splitAt_append, if_pos (by simp : (d ++ [slash]).getLast? = some slash)]
      simp [Text.splitAt, Text.splitBy, pieceStep]
    · left
      have hhead : d.head? = (d ++ [slash]).head? := by
        obtain ⟨c, r, rfl⟩ := List.exists_cons_of_ne_nil hne
        rfl
      rw [h, if_neg hnot, List.append_nil, hhead]

/-- A joined path has the name as its file name. -/
theorem fileName?_join {dir n : OsString} (hd : dir.isEmpty = false) (hn : PlainName n) :
    Path.fileName? (Path.join dir n) = some n := by
  obtain ⟨d, hj, -⟩ := bytes_join hd hn
  unfold Path.fileName? Path.components
  simp only [hj, splitAt_append, splitAt_of_not_mem hn.noSlash]
  simp [hn.nonempty, hn.notDot, hn.notUp]

/-! ## Open directories -/

/-- What stands under a name in the directory at a place. -/
abbrev child? (fs : FileSystem) (top : Place) (n : OsString) : Option Entry :=
  fs.stored? (top ++ [n])

/-- A path names the directory at a place. -/
structure OpensAt (fs : FileSystem) (dir : OsString) (top : Place) : Prop where
  located : fs.locate dir = .ok top
  isDir : fs.stored? top = some .dir

theorem join_nul {dir n : OsString} (hd : dir.isEmpty = false) (hn : PlainName n) :
    hasNul (Path.join dir n) = hasNul dir := by
  obtain ⟨d, hj, hdir⟩ := bytes_join hd hn
  have hnul : (0 : UInt8) ≠ slash := by decide
  rw [hasNul, hasNul, hj, Bool.eq_iff_iff, List.contains_iff_mem, List.contains_iff_mem]
  rcases hdir with h | ⟨h, -⟩ <;> simp [h, hn.noNul, hnul]

theorem join_nonempty {dir n : OsString} (hd : dir.isEmpty = false) (hn : PlainName n) :
    (Path.join dir n).isEmpty = false := by
  obtain ⟨d, hj, -⟩ := bytes_join hd hn
  simp [OsString.isEmpty, hj]

theorem origin_join {dir n : OsString} (hd : dir.isEmpty = false) (hn : PlainName n)
    (fs : FileSystem) : fs.origin (Path.join dir n) = fs.origin dir := by
  rw [origin, origin, isAbsolute_join hd hn]

/-- A closing dot on a directory leads nowhere else. -/
theorem follow_here {fs : FileSystem} {p q : Place} {cs : List Component} :
    fs.follow p (cs ++ [.here]) = .ok q ↔ fs.follow p cs = .ok q ∧ fs.stored? q = some .dir := by
  rw [follow_append]
  cases h : fs.follow p cs with
  | error e => simp [Except.bind]
  | ok r =>
    simp only [Except.bind, follow, step, Except.ok.injEq]
    constructor
    · intro hq
      cases he : fs.stored? r with
      | none => simp [he] at hq
      | some e => cases e <;> simp_all
    · rintro ⟨rfl, he⟩
      simp [he]

namespace OpensAt

variable {fs : FileSystem} {dir n : OsString} {top : Place}

theorem nonempty (h : OpensAt fs dir top) : dir.isEmpty = false := (locate_eq_ok.1 h.located).2.1

/-- The steps of a file of the directory: those that lead to the directory, and its name. -/
theorem follow_parent (h : OpensAt fs dir top) (hn : PlainName n) :
    ∃ pre, steps (Path.join dir n) = pre ++ [.name n] ∧
      fs.follow (fs.origin (Path.join dir n)) pre = .ok top := by
  obtain ⟨pre, hs, hpre⟩ := steps_join h.nonempty hn
  have hf := (locate_eq_ok.1 h.located).2.2
  rw [← origin_join h.nonempty hn] at hf
  refine ⟨pre, hs, ?_⟩
  rcases hpre with hpre | hpre
  · rwa [hpre] at hf
  · rw [hpre, follow_here] at hf
    exact hf.1

theorem step_name (hn : PlainName n) : step top (.name n) = .ok (top ++ [n]) := by
  have := hn.short
  simp only [step]
  rw [if_neg (by omega)]

theorem locate_join (h : OpensAt fs dir top) (hn : PlainName n) :
    fs.locate (Path.join dir n) =
      if (fs.child? top n).isSome then .ok (top ++ [n]) else .error .notFound := by
  obtain ⟨pre, hs, hf⟩ := h.follow_parent hn
  have hnul := (locate_eq_ok.1 h.located).1
  rw [locate, if_neg (by rw [join_nul h.nonempty hn, hnul]; simp),
    if_neg (by simp [join_nonempty h.nonempty hn]), hs, follow_append, hf]
  simp only [Except.bind, follow, h.isDir, step_name hn]
  cases he : fs.child? top n <;> simp only [child?] at he <;> simp [he]

/-- **Reading a file of an open directory** reads the entry of its name. -/
theorem readBytes_join (h : OpensAt fs dir top) (hn : PlainName n) :
    fs.readBytes (Path.join dir n) =
      match fs.child? top n with
      | some (.file bytes) => .ok bytes
      | some .dir => .error .isDirectory
      | none => .error .notFound := by
  rw [readBytes, find, h.locate_join hn]
  cases he : fs.child? top n with
  | none => rfl
  | some e => cases e <;> simp [he]

theorem writeFile_join (h : OpensAt fs dir top) (hn : PlainName n)
    (he : fs.child? top n ≠ some .dir) (bytes : List UInt8) :
    fs.writeFile (Path.join dir n) bytes = .ok (fs.put (top ++ [n]) (.file bytes)) := by
  obtain ⟨pre, hs, hf⟩ := h.follow_parent hn
  have hnul := (locate_eq_ok.1 h.located).1
  rw [writeFile, if_neg (by rw [join_nul h.nonempty hn, hnul]; simp)]
  simp only [hs, List.getLast?_concat, List.dropLast_concat, hf, h.isDir, step_name hn]

theorem removeFile_join (h : OpensAt fs dir top) (hn : PlainName n) :
    fs.removeFile (Path.join dir n) =
      match fs.child? top n with
      | some (.file _) => .ok (fs.erase (top ++ [n]))
      | some .dir => .error .isDirectory
      | none => .error .notFound := by
  rw [removeFile, h.locate_join hn]
  cases he : fs.child? top n with
  | none => rfl
  | some e => cases e <;> simp [he]

/-- A change at one file of the directory leaves the directory open. -/
theorem of_agree (h : OpensAt fs dir top) (he : fs.child? top n ≠ some .dir)
    {fs' : FileSystem} (hcwd : fs'.cwd = fs.cwd)
    (agree : ∀ p, p ≠ top ++ [n] → fs'.stored? p = fs.stored? p) : OpensAt fs' dir top := by
  have hne : top ≠ top ++ [n] := by simp
  refine ⟨?_, by rw [agree _ hne, h.isDir]⟩
  rcases locate_agree hcwd he agree h.located with heq | ⟨-, hl⟩
  · exact absurd heq hne
  · exact hl

theorem put_file (h : OpensAt fs dir top) (he : fs.child? top n ≠ some .dir)
    (bytes : List UInt8) : OpensAt (fs.put (top ++ [n]) (.file bytes)) dir top :=
  h.of_agree he (cwd_put ..) fun _ hp => stored?_put_ne hp

theorem erase_file (h : OpensAt fs dir top) (he : fs.child? top n ≠ some .dir) :
    OpensAt (fs.erase (top ++ [n])) dir top :=
  h.of_agree he rfl fun p hp => by rw [stored?_erase fs (by simp), if_neg hp]

theorem child?_put {m : OsString} (e : Entry) :
    (fs.put (top ++ [n]) e).child? top m =
      if m = n then some e else fs.child? top m := by
  split <;> rename_i hm
  · rw [hm, child?, stored?_put (by simp)]
  · exact stored?_put_ne (by simpa using hm)

theorem child?_erase {m : OsString} :
    (fs.erase (top ++ [n])).child? top m =
      if m = n then none else fs.child? top m := by
  rw [child?, stored?_erase fs (by simp)]
  simp

/-- The names in the directory are those of its entries. -/
theorem mem_names (h : OpensAt fs dir top) :
    ∃ ns, fs.names dir = .ok ns ∧
      ∀ n, n ∈ ns ↔ (fs.child? top n).isSome = true := by
  refine ⟨(fs.children top).map (·.1), by rw [names, h.located]; simp [h.isDir], fun n => ?_⟩
  have hlook : fs.child? top n = fs.entries.lookup (top ++ [n]) := by
    cases top <;> rfl
  rw [hlook, lookup_isSome_iff]
  simp only [children, List.mem_map, List.mem_filterMap]
  constructor
  · rintro ⟨⟨m, e⟩, ⟨⟨ns, e'⟩, hmem, hx⟩, rfl⟩
    dsimp only at hx
    split at hx
    · rename_i last hlast
      split at hx
      · rename_i hdrop
        obtain ⟨rfl, rfl⟩ := Prod.mk.inj (Option.some.inj hx)
        rw [← hdrop, List.dropLast_append_getLast? last hlast]
        exact ⟨e', hmem⟩
      · cases hx
    · cases hx
  · rintro ⟨e, hmem⟩
    exact ⟨(n, e), ⟨(top ++ [n], e), hmem, by simp⟩, rfl⟩

end OpensAt

/-! ## Names in the working directory -/

section WorkingDirectory

variable {fs : FileSystem} {n : OsString}

theorem steps_plain (hn : PlainName n) : steps n = [.name n] := by
  have hlast : n.bytes.getLast? ≠ some Path.slash := fun h => hn.noSlash (List.mem_of_getLast? h)
  have hhead : n.bytes.head? ≠ some Path.slash := fun h => hn.noSlash (List.mem_of_head? h)
  simp [steps_eq, splitAt_of_not_mem hn.noSlash, hn.pieceStep, hlast, hhead]

theorem origin_plain (hn : PlainName n) : fs.origin n = fs.cwd := by
  simp [origin, hn.isAbsolute]

theorem locate_plain (hcwd : fs.stored? fs.cwd = some .dir) (hn : PlainName n) :
    fs.locate n =
      if (fs.child? fs.cwd n).isSome then .ok (fs.cwd ++ [n]) else .error .notFound := by
  have hempty : n.isEmpty = false := by simp [OsString.isEmpty, hn.nonempty]
  rw [locate, if_neg (by simp [hasNul, hn.noNul]), if_neg (by simp [hempty]), steps_plain hn,
    origin_plain hn]
  simp only [follow, hcwd, OpensAt.step_name hn]
  cases he : fs.child? fs.cwd n <;> simp only [child?] at he <;> simp [he]

theorem writeFile_plain (hcwd : fs.stored? fs.cwd = some .dir) (hn : PlainName n)
    (he : fs.child? fs.cwd n ≠ some .dir) (bytes : List UInt8) :
    fs.writeFile n bytes = .ok (fs.put (fs.cwd ++ [n]) (.file bytes)) := by
  rw [writeFile, if_neg (by simp [hasNul, hn.noNul]), origin_plain hn]
  simp only [steps_plain hn, List.getLast?_singleton, List.dropLast_singleton, follow, hcwd,
    OpensAt.step_name hn]

end WorkingDirectory

/-- A file that can be read through a directory lies in it. -/
theorem opensAt_of_readBytes {fs : FileSystem} {dir n : OsString} {bytes : List UInt8}
    (hd : dir.isEmpty = false) (hn : PlainName n)
    (h : fs.readBytes (Path.join dir n) = .ok bytes) :
    ∃ top, OpensAt fs dir top ∧ fs.child? top n = some (.file bytes) := by
  obtain ⟨p, hl, he⟩ := readBytes_eq_ok.1 h
  obtain ⟨hnul, -, hf⟩ := locate_eq_ok.1 hl
  obtain ⟨pre, hs, hpre⟩ := steps_join hd hn
  rw [hs, follow_append, origin_join hd hn] at hf
  cases hq : fs.follow (fs.origin dir) pre with
  | error e => simp [hq, Except.bind] at hf
  | ok top =>
    simp only [hq, Except.bind, follow] at hf
    split at hf
    · rename_i hdir
      rw [OpensAt.step_name hn] at hf
      dsimp only at hf
      split at hf <;> cases hf
      refine ⟨top, ⟨?_, hdir⟩, he⟩
      rw [join_nul hd hn] at hnul
      refine locate_eq_ok.2 ⟨hnul, hd, ?_⟩
      rcases hpre with hpre | hpre
      · rw [hpre, hq]
      · rw [hpre]
        exact follow_here.2 ⟨hq, hdir⟩
    · cases hf
    · cases hf

/-! ## Making a directory that is there -/

/-- A way to a directory starts at one. -/
theorem dir_of_follow {fs : FileSystem} {p q : Place} {cs : List Component}
    (h : fs.follow p cs = .ok q) (hq : fs.stored? q = some .dir) : fs.stored? p = some .dir := by
  cases cs with
  | nil =>
    simp only [follow] at h
    split at h <;> cases h
    exact hq
  | cons c cs =>
    simp only [follow] at h
    split at h
    · assumption
    · cases h
    · cases h

theorem makeSteps_of_follow {fs : FileSystem} {p q : Place} {cs : List Component}
    (h : fs.follow p cs = .ok q) (hq : fs.stored? q = some .dir) :
    fs.makeSteps p (cs.filter (· ≠ .here)) = .ok (fs, q) := by
  induction cs generalizing p with
  | nil =>
    simp only [follow] at h
    split at h <;> cases h
    rfl
  | cons c cs ih =>
    simp only [follow] at h
    split at h
    · split at h
      · rename_i r hr
        by_cases hc : c = .here
        · subst hc
          cases hr
          simpa using ih h
        · have hdir : fs.stored? r = some .dir := dir_of_follow h hq
          rw [List.filter_cons_of_pos (by simpa using hc), makeSteps, hr]
          simp only [hdir]
          exact ih h
      · cases h
    · cases h
    · cases h

theorem filterMap_pieces (pieces : List (List UInt8)) :
    (pieces.filterMap pieceStep).filter (· ≠ .here) =
      (pieces.filter (! ·.isEmpty)).filterMap fun p =>
        if p = [dot] then none
        else if p = [dot, dot] then some Component.up
        else some (.name ⟨p⟩) := by
  induction pieces with
  | nil => rfl
  | cons p ps ih =>
    rw [List.filterMap_cons, List.filter_cons]
    unfold pieceStep at ih ⊢
    by_cases h0 : p.isEmpty = true
    · simpa [h0] using ih
    · by_cases h1 : p = [dot]
      · simpa [h0, h1] using ih
      · by_cases h2 : p = [dot, dot] <;> simpa [h0, h1, h2] using ih

/-- The components of a path are its steps without dots, but for one in front. -/
theorem components_eq (path : OsString) :
    ∃ start, (start = [] ∨ start = [Component.here]) ∧
      Path.components path = start ++ (steps path).filter (· ≠ .here) := by
  have hlast : (if path.bytes.getLast? = some slash then [Component.here] else []).filter
      (· ≠ .here) = [] := by split <;> rfl
  rw [steps_eq, List.filter_append, List.filter_append, hlast, List.append_nil, filterMap_pieces]
  unfold Path.components
  dsimp only
  split
  · exact ⟨[], .inl rfl, rfl⟩
  · split
    · exact ⟨[.here], .inr rfl, rfl⟩
    · exact ⟨[], .inl rfl, rfl⟩

theorem OpensAt.makeDirs {fs : FileSystem} {dir : OsString} {top : Place}
    (h : OpensAt fs dir top) : fs.makeDirs dir = .ok fs := by
  obtain ⟨hnul, hne, hf⟩ := locate_eq_ok.1 h.located
  have hmake := makeSteps_of_follow hf h.isDir
  obtain ⟨start, hstart, hc⟩ := components_eq dir
  have horigin : fs.stored? (fs.origin dir) = some .dir := dir_of_follow hf h.isDir
  have hall : fs.makeSteps (fs.origin dir) (Path.components dir) = .ok (fs, top) := by
    rw [hc]
    rcases hstart with rfl | rfl
    · exact hmake
    · rw [List.cons_append, List.nil_append, makeSteps]
      simpa [step, horigin] using hmake
  rw [FileSystem.makeDirs, if_neg (by rw [hnul]; simp), if_neg (by simp [hne]), horigin, hall]
  rfl

end CodeSurvey.FileSystem
