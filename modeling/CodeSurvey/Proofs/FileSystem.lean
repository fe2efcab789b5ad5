import CodeSurvey.FileSystem
import Mathlib.Data.List.Basic
/-!
# Reading, writing and deleting files

A change at one place is seen only through paths that lead there: `follow_agree` says so for every
two file systems that agree but for a place where no directory stands. From it come what a read can
find after a write (`readBytes_of_writeFile`) and after a deletion (`readBytes_of_removeFile`), and,
for the files of one open directory, exact equations through the entries below it (`OpensAt`).
-/
namespace CodeSurvey.FileSystem

open CodeSurvey.Path (Component)

/-! ## Entries after a change -/

section Lookup

variable {κ β : Type} [BEq κ] [LawfulBEq κ]

theorem lookup_cons_ne {k a : κ} (h : k ≠ a) (b : β) (l : List (κ × β)) :
    ((a, b) :: l).lookup k = l.lookup k := by
  rw [List.lookup_cons, beq_false_of_ne h]

theorem lookup_isSome_iff {k : κ} {l : List (κ × β)} :
    (l.lookup k).isSome = true ↔ ∃ v, (k, v) ∈ l := by
  induction l with
  | nil => simp
  | cons x l ih =>
    obtain ⟨a, b⟩ := x
    by_cases hk : k = a
    · subst hk
      simp only [List.lookup_cons_self, Option.isSome_some, true_iff]
      exact ⟨b, List.mem_cons_self⟩
    · simp [lookup_cons_ne hk, ih, hk]

theorem lookup_filter_key (q : κ → Bool) (l : List (κ × β)) (k : κ) :
    (l.filter fun x => q x.1).lookup k = if q k then l.lookup k else none := by
  induction l with
  | nil => simp
  | cons x l ih =>
    obtain ⟨a, b⟩ := x
    by_cases hk : k = a
    · subst hk
      cases hq : q k <;> simp [hq, ih]
    · cases hq : q a <;> simp [hq, lookup_cons_ne hk, ih]

theorem lookup_replace [DecidableEq κ] (l : List (κ × β)) (k j : κ) (v : β) :
    (l.map fun x => if x.1 = k then (k, v) else x).lookup j =
      if j = k then (l.lookup k).map fun _ => v else l.lookup j := by
  induction l with
  | nil => simp
  | cons x l ih =>
    obtain ⟨a, b⟩ := x
    rw [List.map_cons]
    by_cases ha : a = k
    · subst ha
      by_cases hj : j = a
      · subst hj; simp
      · simp [hj, lookup_cons_ne hj, ih]
    · by_cases hj : j = a
      · subst hj; simp [ha]
      · simp [ha, lookup_cons_ne hj, lookup_cons_ne (Ne.symm ha), ih]

end Lookup

theorem stored?_put {fs : FileSystem} {p : Place} (h : p ≠ []) (e : Entry) :
    (fs.put p e).stored? p = some e := by
  obtain ⟨n, ns, rfl⟩ := List.exists_cons_of_ne_nil h
  unfold put
  split <;> rename_i hs
  · obtain ⟨v, hv⟩ := Option.isSome_iff_exists.1 hs
    simp [stored?, lookup_replace, hv]
  · have hnone := Option.not_isSome_iff_eq_none.1 hs
    simp [stored?, List.lookup_append, hnone]

theorem stored?_put_ne {fs : FileSystem} {p q : Place} {e : Entry} (h : q ≠ p) :
    (fs.put p e).stored? q = fs.stored? q := by
  cases q with
  | nil => rfl
  | cons n ns =>
    unfold put
    split
    · simp [stored?, lookup_replace, h]
    · simp [stored?, List.lookup_append, lookup_cons_ne h]

theorem stored?_erase (fs : FileSystem) {p : Place} (h : p ≠ []) (q : Place) :
    (fs.erase p).stored? q = if q = p then none else fs.stored? q := by
  cases q with
  | nil => rw [if_neg (Ne.symm h)]; rfl
  | cons n ns =>
    refine (lookup_filter_key (fun x => x != p) fs.entries (n :: ns)).trans ?_
    by_cases hq : n :: ns = p
    · simp [hq]
    · rw [if_pos (by simpa using hq), if_neg hq]
      rfl

@[simp] theorem cwd_put (fs : FileSystem) (p : Place) (e : Entry) : (fs.put p e).cwd = fs.cwd := by
  unfold put
  split <;> rfl

@[simp] theorem cwd_erase (fs : FileSystem) (p : Place) : (fs.erase p).cwd = fs.cwd := rfl

/-! ## Following steps -/

/-- Steps can be followed in two parts. -/
theorem follow_append (fs : FileSystem) (p : Place) (cs ds : List Component) :
    fs.follow p (cs ++ ds) = (fs.follow p cs).bind (fs.follow · ds) := by
  induction cs generalizing p with
  | nil =>
    cases hp : fs.stored? p with
    | some e => simp [follow, hp, Except.bind]
    | none => cases ds <;> simp [follow, hp, Except.bind]
  | cons c cs ih =>
    cases hp : fs.stored? p with
    | none => simp [follow, hp, Except.bind]
    | some e =>
      cases e with
      | file => simp [follow, hp, Except.bind]
      | dir =>
        simp only [List.cons_append, follow, hp]
        cases step p c with
        | error => rfl
        | ok q => exact ih q

theorem stored?_of_follow {fs : FileSystem} {p q : Place} {cs : List Component}
    (h : fs.follow p cs = .ok q) : (fs.stored? q).isSome = true := by
  induction cs generalizing p with
  | nil =>
    simp only [follow] at h
    split at h <;> cases h
    simp [*]
  | cons c cs ih =>
    simp only [follow] at h
    split at h
    · split at h
      · exact ih h
      · cases h
    · cases h
    · cases h

/-- **Changes are local**: file systems that agree but for a place where the first has no directory
lead to the same places, except for paths that end right there. -/
theorem follow_agree {fs fs' : FileSystem} {top : Place} (htop : fs.stored? top ≠ some .dir)
    (agree : ∀ p, p ≠ top → fs'.stored? p = fs.stored? p) {cs : List Component} {p q : Place}
    (h : fs.follow p cs = .ok q) : q = top ∨ q ≠ top ∧ fs'.follow p cs = .ok q := by
  induction cs generalizing p with
  | nil =>
    simp only [follow] at h
    split at h <;> cases h
    by_cases hq : q = top
    · exact .inl hq
    · exact .inr ⟨hq, by simp [follow, agree q hq, *]⟩
  | cons c cs ih =>
    simp only [follow] at h
    split at h
    · rename_i hdir
      split at h
      · rename_i r hr
        -- the place left behind is a directory, and so another one
        have hp : p ≠ top := fun heq => htop (heq ▸ hdir)
        refine (ih h).imp id fun ⟨hq, hf⟩ => ⟨hq, ?_⟩
        simp only [follow, agree p hp, hdir, hr, hf]
      · cases h
    · cases h
    · cases h

/-! ## What can be read after a change -/

theorem locate_eq_ok {fs : FileSystem} {path : OsString} {p : Place} :
    fs.locate path = .ok p ↔ hasNul path = false ∧ path.isEmpty = false ∧
      fs.follow (fs.origin path) (steps path) = .ok p := by
  unfold locate
  split
  · simp_all
  · split <;> simp_all

theorem locate_agree {fs fs' : FileSystem} {top : Place} (hcwd : fs'.cwd = fs.cwd)
    (htop : fs.stored? top ≠ some .dir) (agree : ∀ p, p ≠ top → fs'.stored? p = fs.stored? p)
    {path : OsString} {q : Place} (h : fs.locate path = .ok q) :
    q = top ∨ q ≠ top ∧ fs'.locate path = .ok q := by
  obtain ⟨hnul, hempty, hf⟩ := locate_eq_ok.1 h
  have horigin : fs'.origin path = fs.origin path := by rw [origin, origin, hcwd]
  exact (follow_agree htop agree hf).imp id
    fun ⟨hq, hf'⟩ => ⟨hq, locate_eq_ok.2 ⟨hnul, hempty, horigin ▸ hf'⟩⟩

theorem readBytes_eq_ok {fs : FileSystem} {path : OsString} {bytes : List UInt8} :
    fs.readBytes path = .ok bytes ↔
      ∃ p, fs.locate path = .ok p ∧ fs.stored? p = some (.file bytes) := by
  unfold readBytes find
  cases hl : fs.locate path with
  | error e => simp
  | ok p =>
    cases he : fs.stored? p with
    | none => simp [he]
    | some e => cases e <;> simp [he]

/-- A write puts a file where no directory stands. If something stands there, it is what the path
names. -/
theorem put_of_writeFile {fs fs' : FileSystem} {path : OsString} {bytes : List UInt8}
    (h : fs.writeFile path bytes = .ok fs') :
    ∃ q, q ≠ [] ∧ fs.stored? q ≠ some .dir ∧ fs' = fs.put q (.file bytes) ∧
      ∀ e, fs.stored? q = some e → fs.locate path = .ok q := by
  unfold writeFile at h
  split at h
  · cases h
  · rename_i hnul
    dsimp only at h
    split at h
    · rename_i s hlast
      split at h
      · cases h
      · rename_i p hfollow
        split at h
        · rename_i habove
          split at h
          · cases h
          · rename_i q hstep
            split at h
            · cases h
            · rename_i hdir
              cases h
              refine ⟨q, ?_, hdir, rfl, fun e he => ?_⟩
              · rintro rfl
                exact hdir rfl
              · have hsteps : steps path = (steps path).dropLast ++ [.name s] :=
                  (List.dropLast_append_getLast? _ hlast).symm
                have hempty : path.isEmpty = false := by
                  rw [Bool.eq_false_iff]
                  intro hp
                  have hbytes : path.bytes = [] := List.isEmpty_iff.1 hp
                  simp [steps, hbytes, Text.splitAt, Text.splitBy] at hlast
                refine locate_eq_ok.2 ⟨by simpa using hnul, hempty, ?_⟩
                rw [hsteps, follow_append, hfollow]
                simp [Except.bind, follow, habove, hstep, he]
        · cases h
    · cases h
    · cases h

/-- A deletion takes away the place of a file. -/
theorem erase_of_removeFile {fs fs' : FileSystem} {path : OsString}
    (h : fs.removeFile path = .ok fs') :
    ∃ p bytes, p ≠ [] ∧ fs.locate path = .ok p ∧ fs.stored? p = some (.file bytes) ∧
      fs' = fs.erase p := by
  unfold removeFile at h
  split at h
  · cases h
  · rename_i p hl
    split at h
    · rename_i bytes he
      cases h
      refine ⟨p, bytes, ?_, hl, he, rfl⟩
      rintro rfl
      cases he
    · cases h
    · cases h

/-- **After a write**, a file holds the new bytes or could be read before. -/
theorem readBytes_of_writeFile {fs fs' : FileSystem} {path other : OsString}
    {bytes found : List UInt8} (h : fs.writeFile path bytes = .ok fs')
    (hr : fs'.readBytes other = .ok found) : found = bytes ∨ fs.readBytes other = .ok found := by
  obtain ⟨p, hne, -, rfl, -⟩ := put_of_writeFile h
  obtain ⟨q, hq, he⟩ := readBytes_eq_ok.1 hr
  have htop : (fs.put p (.file bytes)).stored? p ≠ some .dir := by
    simp [stored?_put hne]
  have agree : ∀ q, q ≠ p → fs.stored? q = (fs.put p (.file bytes)).stored? q :=
    fun q hq => (stored?_put_ne hq).symm
  rcases locate_agree (cwd_put ..).symm htop agree hq with rfl | ⟨hqp, hq'⟩
  · rw [stored?_put hne] at he
    cases he
    exact .inl rfl
  · exact .inr (readBytes_eq_ok.2 ⟨q, hq', by rw [agree q hqp, he]⟩)

theorem locate_of_erase {fs : FileSystem} {p : Place} (hne : p ≠ []) {path : OsString} {q : Place}
    (h : (fs.erase p).locate path = .ok q) : q ≠ p ∧ fs.locate path = .ok q := by
  have gone : (fs.erase p).stored? p = none := by rw [stored?_erase fs hne, if_pos rfl]
  have agree : ∀ q, q ≠ p → fs.stored? q = (fs.erase p).stored? q :=
    fun q hq => by rw [stored?_erase fs hne, if_neg hq]
  have hfile : (fs.erase p).stored? p ≠ some .dir := by simp [gone]
  rcases locate_agree (cwd_erase fs p).symm hfile agree h with rfl | hq
  · have := stored?_of_follow (locate_eq_ok.1 h).2.2
    simp [gone] at this
  · exact hq

/-- **After a deletion**, what can be read could be read before. -/
theorem readBytes_of_removeFile {fs fs' : FileSystem} {path other : OsString} {found : List UInt8}
    (h : fs.removeFile path = .ok fs') (hr : fs'.readBytes other = .ok found) :
    fs.readBytes other = .ok found := by
  obtain ⟨p, _, hne, -, -, rfl⟩ := erase_of_removeFile h
  obtain ⟨q, hq, he⟩ := readBytes_eq_ok.1 hr
  obtain ⟨hqp, hq'⟩ := locate_of_erase hne hq
  rw [stored?_erase fs hne, if_neg hqp] at he
  exact readBytes_eq_ok.2 ⟨q, hq', he⟩

/-- The deleted file itself cannot be read. -/
theorem not_readBytes_of_removeFile {fs fs' : FileSystem} {path : OsString} {found : List UInt8}
    (h : fs.removeFile path = .ok fs') : fs'.readBytes path ≠ .ok found := by
  intro hr
  obtain ⟨p, _, hne, hl, -, rfl⟩ := erase_of_removeFile h
  obtain ⟨q, hq, -⟩ := readBytes_eq_ok.1 hr
  obtain ⟨hqp, hq'⟩ := locate_of_erase hne hq
  rw [hl] at hq'
  cases hq'
  exact hqp rfl

end CodeSurvey.FileSystem
