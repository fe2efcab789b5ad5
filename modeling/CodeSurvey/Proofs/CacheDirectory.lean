import CodeSurvey.Cache.Audit
import CodeSurvey.Proofs.Directory
import CodeSurvey.Proofs.JsonText
import CodeSurvey.Proofs.OsString
/-!
# Cache files

The file of a key has a plain name with the extension of entry files, and two keys share a name only
if their digests collide (`digest_eq_of_fileName`). What is written for a key reads back as it was,
if the text of the value does (`ofContent?_content`).
-/
namespace CodeSurvey

/-! ## Names -/

namespace Hex

/-- A digit is one byte, and none of those that a path treats in its own way. -/
theorem digit_spec {n : Nat} (h : n < 16) :
    (digit n).toNat < 0x80 ∧ (digit n).toUInt8 ≠ Path.slash ∧ (digit n).toUInt8 ≠ 0 := by
  have table : ∀ n < 16, (digit n).toNat < 0x80 ∧ (digit n).toUInt8 ≠ Path.slash ∧
      (digit n).toUInt8 ≠ 0 := by decide +kernel
  exact table n h

theorem digit_inj {m n : Nat} (hm : m < 16) (hn : n < 16) (h : digit m = digit n) : m = n := by
  have table : ∀ m < 16, ∀ n < 16, digit m = digit n → m = n := by decide +kernel
  exact table m hm n hn h

theorem mem_encode {bs : List UInt8} {c : Char} (h : c ∈ encode bs) : ∃ n < 16, c = digit n := by
  obtain ⟨b, -, hc⟩ := List.mem_flatMap.1 h
  have hb := b.toNat_lt
  rcases List.mem_cons.1 hc with rfl | hc
  · exact ⟨_, by omega, rfl⟩
  · exact ⟨_, Nat.mod_lt _ (by omega), List.mem_singleton.1 hc⟩

theorem length_encode (bs : List UInt8) : (encode bs).length = 2 * bs.length := by
  induction bs with
  | nil => rfl
  | cons b bs ih =>
    rw [encode, List.flatMap_cons, ← encode, List.length_append, ih]
    simp; omega

theorem encode_injective : ∀ {s t : List UInt8}, encode s = encode t → s = t
  | [], [], _ => rfl
  | [], _ :: _, h | _ :: _, [], h => by simp [encode] at h
  | a :: s, b :: t, h => by
    have ha := a.toNat_lt
    have hb := b.toNat_lt
    simp only [encode, List.flatMap_cons, List.cons_append, List.nil_append, List.cons.injEq] at h
    have hhigh := digit_inj (by omega) (by omega) h.1
    have hlow := digit_inj (Nat.mod_lt _ (by omega)) (Nat.mod_lt _ (by omega)) h.2.1
    rw [UInt8.toNat_inj.1 (by omega : a.toNat = b.toNat), encode_injective h.2.2]

end Hex

theorem Sha256.length_digest (m : List UInt8) : (digest m).length = 32 := by
  have hword : ∀ n x, (bigEndian n x).length = n := by
    intro n
    induction n with
    | zero => simp [bigEndian]
    | succ n ih => simp [bigEndian, ih]
  simp [digest, hword]

namespace CacheDir

open FileSystem

theorem toList_fileName (key : String) :
    (fileName key).toList =
      Hex.encode (Sha256.digest (Utf8.encode key.toList)) ++ ['.', 'j', 's', 'o', 'n'] := by
  simp [fileName]

/-- The bytes of the digits of a key. -/
def digits (key : String) : List UInt8 :=
  (Hex.encode (Sha256.digest (Utf8.encode key.toList))).map Char.toUInt8

theorem length_digits (key : String) : (digits key).length = 64 := by
  rw [digits, List.length_map, Hex.length_encode, Sha256.length_digest]

theorem bytes_fileName (key : String) :
    (OsString.ofText (fileName key)).bytes = digits key ++ [0x2E, 0x6A, 0x73, 0x6F, 0x6E] := by
  have hdigits : ∀ c ∈ Hex.encode (Sha256.digest (Utf8.encode key.toList)), c.toNat < 0x80 := by
    intro c hc
    obtain ⟨n, hn, rfl⟩ := Hex.mem_encode hc
    exact (Hex.digit_spec hn).1
  rw [OsString.ofText, toList_fileName, Utf8.encode_append, Utf8.encode_of_ascii hdigits]
  rfl

theorem plain_fileName (key : String) : PlainName (fileName key) := by
  have hbyte : ∀ b ∈ digits key, b ≠ Path.slash ∧ b ≠ 0 := by
    intro b hb
    obtain ⟨c, hc, rfl⟩ := List.mem_map.1 hb
    obtain ⟨n, hn, rfl⟩ := Hex.mem_encode hc
    exact (Hex.digit_spec hn).2
  have hlen := length_digits key
  have hname := bytes_fileName key
  refine ⟨?_, ?_, ?_, ?_, ?_, ?_⟩
  · simp [hname]
  · rw [hname, List.mem_append]
    rintro (h | h)
    · exact (hbyte _ h).1 rfl
    · revert h; decide
  · rw [hname, List.mem_append]
    rintro (h | h)
    · exact (hbyte _ h).2 rfl
    · revert h; decide
  · intro h
    have := congrArg List.length (hname.symm.trans h)
    simp [hlen] at this
  · intro h
    have := congrArg List.length (hname.symm.trans h)
    simp [hlen] at this
  · simp [hname, hlen]

theorem nameExtension?_fileName (key : String) :
    Path.nameExtension? (fileName key) = some ↑"json" := by
  have hext : Text.afterLast Path.dot (OsString.ofText (fileName key)).bytes =
      [0x6A, 0x73, 0x6F, 0x6E] := by
    rw [bytes_fileName, Text.afterLast, List.reverse_append]
    rfl
  simp only [Path.nameExtension?, hext]
  rw [bytes_fileName, if_pos (by simp [length_digits])]
  rfl

theorem digest_eq_of_fileName {a b : String} (h : fileName a = fileName b) :
    Sha256.digest (Utf8.encode a.toList) = Sha256.digest (Utf8.encode b.toList) := by
  have := congrArg String.toList h
  rw [toList_fileName, toList_fileName] at this
  exact Hex.encode_injective (List.append_cancel_right this)

-- from here on only what was shown about names counts, not how they are computed
attribute [local irreducible] fileName

end CacheDir

/-! ## Contents -/

/-- A value survives being written into a file: its text reads back in front of the brace that closes
an entry, one level below the entry. -/
def Codec.Survives {α : Type} (codec : Codec α) (v : α) : Prop :=
  ∃ j, Json.readValue 127 (Json.compact (codec.write v) ++ ['\x7d']) = some (j, ['\x7d']) ∧
    codec.read j = some v

/-- Whether a file is corrupt or has expired. -/
def Reading.isDoomed {α : Type} (now : Nat) : Reading α → Bool
  | .found _ held => !held.isLive now
  | .missing => false
  | .corrupt => true

namespace CacheDir

open Json

/-- Reading sorts the fields of an entry. -/
theorem object_entry (key expires value : Json) :
    object [("key", key), ("expiresAtMs", expires), ("value", value)] =
      .obj [("expiresAtMs", expires), ("key", key), ("value", value)] := by
  have h1 : "expiresAtMs" < "key" := by decide +kernel
  have h2 : ¬ "value" < "expiresAtMs" := by decide +kernel
  have h3 : ¬ "value" < "key" := by decide +kernel
  have h4 : "value" ≠ "expiresAtMs" := by decide +kernel
  have h5 : "value" ≠ "key" := by decide +kernel
  simp only [object, Dict.ofList, List.foldl_cons, List.foldl_nil, Dict.insert, Dict.empty,
    Dict.insertEntry, h1, h2, h3, h4, h5, if_true, if_false]

theorem read?_entry {key : String} {expires : Nat} (he : expires < 2 ^ 64) {w j : Json}
    (hw : readValue 127 (compact w ++ ['\x7d']) = some (j, ['\x7d'])) :
    read? (compact (.obj [("key", .str key), ("expiresAtMs", .ofNat expires), ("value", w)])) =
      some (.obj [("expiresAtMs", .ofNat expires), ("key", .str key), ("value", j)]) := by
  have htext : compact (.obj [("key", .str key), ("expiresAtMs", .ofNat expires), ("value", w)]) =
      '\x7b' :: (quote "key" ++ ':' :: (compact (.str key) ++ ',' :: (quote "expiresAtMs" ++
        ':' :: (compact (.ofNat expires) ++ ',' :: (quote "value" ++
          ':' :: (compact w ++ ['\x7d'])))))) := by
    simp [compact, compactFields, join_cons, tails]
  have hfields : ∀ fuel, 3 ≤ fuel → readFields (readValue 127) fuel
      (quote "key" ++ ':' :: (compact (.str key) ++ ',' :: (quote "expiresAtMs" ++
        ':' :: (compact (.ofNat expires) ++ ',' :: (quote "value" ++
          ':' :: (compact w ++ ['\x7d'])))))) =
      some ([("key", .str key), ("expiresAtMs", .ofNat expires), ("value", j)], []) := by
    intro fuel hf
    obtain ⟨n, rfl⟩ : ∃ n, fuel = n + 1 + 1 + 1 := ⟨fuel - 3, by omega⟩
    rw [show quote "expiresAtMs" = '"' :: "expiresAtMs\"".toList from rfl, List.cons_append,
      readFields_comma (v := .str key) (readValue_str 126 key _)]
    rw [← List.cons_append, show '"' :: "expiresAtMs\"".toList = quote "expiresAtMs" from rfl,
      show quote "value" = '"' :: "value\"".toList from rfl, List.cons_append,
      readFields_comma (readValue_ofNat 126 he _)]
    rw [← List.cons_append, show '"' :: "value\"".toList = quote "value" from rfl,
      readFields_last hw]
    rfl
  rw [htext]
  have hlen : 3 ≤ (quote "key" ++ ':' :: (compact (.str key) ++ ',' :: (quote "expiresAtMs" ++
      ':' :: (compact (.ofNat expires) ++ ',' :: (quote "value" ++
        ':' :: (compact w ++ ['\x7d'])))))).length.succ := by
    simp only [List.length_append, List.length_cons]
    omega
  exact (read?_object (hfields _ hlen)).trans (congrArg some (object_entry _ _ _))

/-- **An entry reads back**, with its key and its moment, if its value does. -/
theorem ofContent?_content {α : Type} {codec : Codec α} {key : String} {h : Held α}
    (hv : codec.Survives h.value) (he : h.expires < 2 ^ 64) :
    ofContent? codec (content codec key h) = some (key, h) := by
  obtain ⟨j, hj, hr⟩ := hv
  have hfield : ∀ {β : Type} (f : Json → Option β) (e k v : Json),
      (obj [("expiresAtMs", e), ("key", k), ("value", v)]).need "key" f = f k ∧
      (obj [("expiresAtMs", e), ("key", k), ("value", v)]).need "value" f = f v ∧
      (obj [("expiresAtMs", e), ("key", k), ("value", v)]).need "expiresAtMs" f = f e :=
    fun _ _ _ _ => ⟨rfl, rfl, rfl⟩
  rw [ofContent?, content, Utf8.decode?_encode]
  simp only [Option.bind_eq_bind, Option.bind_some, read?_entry he hj, record?, hfield, hr, text?,
    nat64?, natBelow?_ofNat he]
  rfl

/-! ## Entry files of an open directory -/

section OpenDirectory

open FileSystem

variable {α : Type} {codec : Codec α} {fs fs' fs'' : FileSystem} {dir n : OsString}
  {top : Place}

/-- What the entry file of a plain name holds. -/
theorem readEntry_join (h : OpensAt fs dir top) (hn : PlainName n) :
    readEntry codec fs (Path.join dir n) =
      match fs.child? top n with
      | none => .missing
      | some .dir => .corrupt
      | some (.file bytes) => match ofContent? codec bytes with
        | none => .corrupt
        | some (key, held) => if n = fileName key then .found key held else .corrupt := by
  rw [readEntry, h.readBytes_join hn, fileName?_join h.nonempty hn]
  cases fs.child? top n with
  | none => rfl
  | some e =>
    cases e with
    | dir => rfl
    | file bytes => cases ho : ofContent? codec bytes <;> simp [ho]

theorem readEntry_content (h : OpensAt fs dir top) {key : String} {held : Held α}
    (hc : fs.child? top (fileName key) = some (.file (content codec key held)))
    (hv : codec.Survives held.value) (he : held.expires < 2 ^ 64) :
    readEntry codec fs (Path.join dir (fileName key)) = .found key held := by
  rw [readEntry_join h (plain_fileName key), hc]
  simp [ofContent?_content hv he]

theorem read_of_missing {key : String} (h : readEntry codec fs (filePath dir key) = .missing) :
    read codec fs dir key = .missing := by
  unfold read
  split
  · rename_i hfound
    rw [h] at hfound
    cases hfound
  · exact h

/-- An entry is found for a key if its file holds that key. -/
theorem read_eq_found {key k : String} {held : Held α} :
    read codec fs dir key = .found k held ↔
      k = key ∧ readEntry codec fs (filePath dir key) = .found key held := by
  unfold read
  split
  · rename_i hfound
    rw [hfound]
    split <;> simp_all [eq_comm]
  · rename_i hnone
    constructor
    · exact fun h => absurd h (hnone _ _)
    · rintro ⟨rfl, h⟩
      exact h

/-- Some names of an open directory went, and nothing else changed in it. -/
structure Deletes (fs fs' : FileSystem) (dir : OsString) (top : Place) (gone : OsString → Prop) :
    Prop where
  opens : OpensAt fs' dir top
  absent : ∀ n, gone n → fs'.child? top n = none
  kept : ∀ n, ¬ gone n → fs'.child? top n = fs.child? top n

theorem Deletes.refl (h : OpensAt fs dir top) : Deletes fs fs dir top fun _ => False :=
  ⟨h, fun _ => False.elim, fun _ _ => rfl⟩

theorem Deletes.trans {gone gone' : OsString → Prop} (h : Deletes fs fs' dir top gone)
    (h' : Deletes fs' fs'' dir top gone') : Deletes fs fs'' dir top fun n => gone n ∨ gone' n := by
  refine ⟨h'.opens, fun n hn => ?_, fun n hn => ?_⟩
  · by_cases hg : gone' n
    · exact h'.absent n hg
    · rw [h'.kept n hg, h.absent n (hn.resolve_right hg)]
  · rw [h'.kept n fun hg => hn (.inr hg), h.kept n fun hg => hn (.inl hg)]

theorem Deletes.congr {gone gone' : OsString → Prop} (h : Deletes fs fs' dir top gone)
    (heq : ∀ n, gone n ↔ gone' n) : Deletes fs fs' dir top gone' :=
  ⟨h.opens, fun n hn => h.absent n ((heq n).2 hn), fun n hn => h.kept n fun hg => hn ((heq n).1 hg)⟩

theorem Deletes.not_dir {gone : OsString → Prop} (h : Deletes fs fs' dir top gone)
    (hd : fs.child? top n ≠ some .dir) : fs'.child? top n ≠ some .dir := by
  by_cases hg : gone n
  · simp [h.absent n hg]
  · rwa [h.kept n hg]

/-- Deleting an entry file takes away its name. -/
theorem removeFile_join (h : OpensAt fs dir top) (hn : PlainName n)
    (hd : fs.child? top n ≠ some .dir) :
    ∃ fs', removeFile fs (Path.join dir n) = .ok fs' ∧ Deletes fs fs' dir top (· = n) := by
  rw [removeFile, h.removeFile_join hn]
  cases he : fs.child? top n with
  | none =>
    refine ⟨fs, rfl, h, fun m hm => hm ▸ he, fun _ _ => rfl⟩
  | some e =>
    cases e with
    | dir => exact absurd he hd
    | file bytes =>
      refine ⟨_, rfl, h.erase_file (by simp [he]), fun m hm => ?_, fun m hm => ?_⟩ <;>
        simp [OpensAt.child?_erase, hm]

theorem tryRemoveFile_join (h : OpensAt fs dir top) (hn : PlainName n)
    (hd : fs.child? top n ≠ some .dir) :
    Deletes fs (tryRemoveFile fs (Path.join dir n)) dir top (· = n) := by
  obtain ⟨fs', hr, hdel⟩ := removeFile_join h hn hd
  rw [tryRemoveFile, hr]
  exact hdel

/-- Names that can be deleted: plain, and not those of directories. -/
def Deletable (fs : FileSystem) (top : Place) (ns : List OsString) : Prop :=
  ∀ n ∈ ns, PlainName n ∧ fs.child? top n ≠ some .dir

theorem Deletable.after {ns : List OsString} {gone : OsString → Prop} (hns : Deletable fs top ns)
    (h : Deletes fs fs' dir top gone) : Deletable fs' top ns :=
  fun n hn => ⟨(hns n hn).1, h.not_dir (hns n hn).2⟩

/-- Deleting files in order takes away their names. -/
theorem foldl_tryRemoveFile {ns : List OsString} (h : OpensAt fs dir top)
    (hns : Deletable fs top ns) :
    Deletes fs ((ns.map (Path.join dir)).foldl tryRemoveFile fs) dir top (· ∈ ns) := by
  induction ns generalizing fs with
  | nil => exact (Deletes.refl h).congr (by simp)
  | cons n ns ih =>
    obtain ⟨hn, hd⟩ := hns n List.mem_cons_self
    have hfirst := tryRemoveFile_join h hn hd
    have hrest := ih hfirst.opens (Deletable.after (fun m hm => hns m (List.mem_cons_of_mem _ hm)) hfirst)
    exact (hfirst.trans hrest).congr (by simp)

theorem removeFiles_join {ns : List OsString} (h : OpensAt fs dir top) (hns : Deletable fs top ns) :
    ∃ fs', Cache.removeFiles (ns.map (Path.join dir)) fs = (.ok (), fs') ∧
      Deletes fs fs' dir top (· ∈ ns) := by
  induction ns generalizing fs with
  | nil => exact ⟨fs, rfl, (Deletes.refl h).congr (by simp)⟩
  | cons n ns ih =>
    obtain ⟨hn, hd⟩ := hns n List.mem_cons_self
    obtain ⟨fs₁, hr, hfirst⟩ := removeFile_join h hn hd
    obtain ⟨fs₂, hrs, hrest⟩ := ih hfirst.opens
      (Deletable.after (fun m hm => hns m (List.mem_cons_of_mem _ hm)) hfirst)
    refine ⟨fs₂, ?_, (hfirst.trans hrest).congr (by simp)⟩
    rw [List.map_cons, Cache.removeFiles, hr]
    exact hrs

/-- Whether the entry file of a name holds a key of some kind. -/
def HoldsKey (codec : Codec α) (fs : FileSystem) (dir : OsString) (chosen : String → Bool)
    (n : OsString) : Prop :=
  ∃ key held, readEntry codec fs (Path.join dir n) = .found key held ∧ chosen key = true

variable (codec) in
/-- Deleting the files of chosen keys takes away the names that hold such a key. -/
theorem removeWhere_join (chosen : String → Bool) {ns : List OsString} (h : OpensAt fs dir top)
    (hns : Deletable fs top ns) :
    Deletes fs (removeWhere codec chosen (ns.map (Path.join dir)) fs).2 dir top
      fun n => n ∈ ns ∧ HoldsKey codec fs dir chosen n := by
  induction ns generalizing fs with
  | nil => exact (Deletes.refl h).congr (by simp)
  | cons n ns ih =>
    obtain ⟨hn, hd⟩ := hns n List.mem_cons_self
    have hrest : Deletable fs top ns := fun m hm => hns m (List.mem_cons_of_mem _ hm)
    by_cases hkey : HoldsKey codec fs dir chosen n
    · obtain ⟨key, held, hread, hchosen⟩ := hkey
      obtain ⟨fs₁, hr, hfirst⟩ := removeFile_join h hn hd
      have hstep := ih hfirst.opens (hrest.after hfirst)
      rw [List.map_cons, removeWhere, hread]
      simp only [hchosen, if_true, hr]
      refine (hfirst.trans hstep).congr fun m => ?_
      by_cases hm : m = n
      · subst hm
        simp only [true_or, List.mem_cons, true_and, true_iff]
        exact ⟨key, held, hread, hchosen⟩
      · -- the other names hold what they held before
        simp only [hm, List.mem_cons, false_or]
        refine and_congr_right fun hmem => ?_
        have hplain := (hrest m hmem).1
        rw [HoldsKey, HoldsKey, readEntry_join hfirst.opens hplain, readEntry_join h hplain,
          hfirst.kept m hm]
    · have hskip : (removeWhere codec chosen ((n :: ns).map (Path.join dir)) fs).2 =
          (removeWhere codec chosen (ns.map (Path.join dir)) fs).2 := by
        rw [List.map_cons, removeWhere]
        split
        · rename_i key held hread
          split
          · exact absurd ⟨key, held, hread, ‹_›⟩ hkey
          · rfl
        · rfl
      rw [hskip]
      refine (ih h hrest).congr fun m => ?_
      by_cases hm : m = n
      · subst hm; simp [hkey]
      · simp [hm]

/-- A directory that can be listed is open. -/
theorem opensAt_of_files {paths : List OsString} (h : files fs dir = .ok paths) :
    ∃ top, OpensAt fs dir top := by
  cases hl : fs.locate dir with
  | error e => simp [files, names, hl, Except.map] at h
  | ok top =>
    refine ⟨top, hl, ?_⟩
    simp only [files, names, hl] at h
    split at h
    · assumption
    · cases h

/-- The entry files of the directory are those with their extension. -/
theorem files_eq (h : OpensAt fs dir top) :
    ∃ ns : List OsString, files fs dir = .ok (ns.map (Path.join dir)) ∧
      ∀ n, n ∈ ns ↔ Path.nameExtension? n = some ↑"json" ∧ (fs.child? top n).isSome = true := by
  obtain ⟨all, hall, hmem⟩ := h.mem_names
  refine ⟨_, by rw [files, hall]; rfl, fun n => ?_⟩
  rw [List.mem_mergeSort, List.mem_filter, hmem, beq_iff_eq, and_comm]

variable (codec) in
/-- Writing an entry puts its file under the name of its key. -/
theorem write_join {key : String} (h : OpensAt fs dir top)
    (hd : fs.child? top (fileName key) ≠ some .dir) (held : Held α) :
    OpensAt (write codec fs dir key held) dir top ∧
      ∀ n, (write codec fs dir key held).child? top n =
        if n = fileName key then some (.file (content codec key held)) else fs.child? top n := by
  rw [write, filePath, h.writeFile_join (plain_fileName key) hd]
  exact ⟨h.put_file hd _, fun _ => OpensAt.child?_put _⟩

theorem mem_add {now : Nat} {r : CacheAudit} {path p : OsString} {x : Reading α}
    (h : path ∈ (r.add now p x).corrupt ++ (r.add now p x).expired) :
    path ∈ r.corrupt ++ r.expired ∨ path = p ∧ x.isDoomed now = true := by
  cases x with
  | missing => exact .inl h
  | corrupt =>
    simp only [CacheAudit.add, List.mem_append, List.mem_singleton] at h ⊢
    rcases h with (h | h) | h
    · exact .inl (.inl h)
    · exact .inr ⟨h, rfl⟩
    · exact .inl (.inr h)
  | found key held =>
    cases hl : held.isLive now with
    | true =>
      rw [CacheAudit.add, if_pos hl] at h
      exact .inl h
    | false =>
      simp only [CacheAudit.add, hl, List.mem_append, Bool.false_eq_true, if_false,
        List.mem_singleton] at h ⊢
      rcases h with h | h | h
      · exact .inl (.inl h)
      · exact .inl (.inr h)
      · exact .inr ⟨h, by simp [Reading.isDoomed, hl]⟩

/-- A scan finds files of the directory that are corrupt or have expired. -/
theorem mem_foldl_add {now : Nat} {paths : List OsString} {r : CacheAudit} {path : OsString}
    (h : path ∈ (paths.foldl (fun r p => r.add now p (readEntry codec fs p)) r).corrupt ++
      (paths.foldl (fun r p => r.add now p (readEntry codec fs p)) r).expired) :
    path ∈ r.corrupt ++ r.expired ∨
      path ∈ paths ∧ (readEntry codec fs path).isDoomed now = true := by
  induction paths generalizing r with
  | nil => exact .inl h
  | cons p ps ih =>
    rcases ih h with h | ⟨hmem, hdoomed⟩
    · rcases mem_add h with h | ⟨rfl, hd⟩
      · exact .inl h
      · exact .inr ⟨List.mem_cons_self, hd⟩
    · exact .inr ⟨List.mem_cons_of_mem _ hmem, hdoomed⟩

theorem exists_names {paths : List OsString} {p : OsString → Prop}
    (h : ∀ path ∈ paths, ∃ n, p n ∧ path = Path.join dir n) :
    ∃ ns : List OsString, paths = ns.map (Path.join dir) ∧ ∀ n ∈ ns, p n := by
  induction paths with
  | nil => exact ⟨[], rfl, by simp⟩
  | cons path paths ih =>
    rw [List.forall_mem_cons] at h
    obtain ⟨n, hn, rfl⟩ := h.1
    obtain ⟨ns, rfl, hns⟩ := ih h.2
    exact ⟨n :: ns, rfl, by simpa using ⟨hn, hns⟩⟩

variable (codec) in
/-- A repair takes away names whose files are corrupt or have expired. -/
theorem repair_join {c : Cache α} (now : Nat) {ns : List OsString} (hc : c.directory = some dir)
    (h : OpensAt fs dir top) (hfiles : files fs dir = .ok (ns.map (Path.join dir)))
    (hns : Deletable fs top ns) :
    ∃ gone : List OsString, Deletes fs (c.repair codec fs now).2 dir top (· ∈ gone) ∧
      ∀ n ∈ gone, n ∈ ns ∧ (readEntry codec fs (Path.join dir n)).isDoomed now = true := by
  generalize hr : (ns.map (Path.join dir)).foldl
    (fun r path => r.add now path (readEntry codec fs path)) ({} : CacheAudit) = r
  have hscan : c.scan codec fs now = .ok r := by
    simp only [Cache.scan, hc, hfiles, hr]
  have hall : ∀ path ∈ r.corrupt ++ r.expired,
      ∃ n, (n ∈ ns ∧ (readEntry codec fs (Path.join dir n)).isDoomed now = true) ∧
        path = Path.join dir n := by
    intro path hpath
    rw [← hr] at hpath
    rcases mem_foldl_add hpath with hnil | ⟨hin, hd⟩
    · simp at hnil
    · obtain ⟨n, hn, rfl⟩ := List.mem_map.1 hin
      exact ⟨n, ⟨hn, hd⟩, rfl⟩
  obtain ⟨gone, hgone, hmem⟩ := exists_names hall
  have hdeletable : Deletable fs top gone := fun n hn => hns n (hmem n hn).1
  obtain ⟨fs', hremove, hdel⟩ := removeFiles_join h hdeletable
  refine ⟨gone, ?_, hmem⟩
  rw [Cache.repair, hscan]
  dsimp only
  rw [hgone, hremove]
  exact hdel

end OpenDirectory

end CacheDir

end CodeSurvey
