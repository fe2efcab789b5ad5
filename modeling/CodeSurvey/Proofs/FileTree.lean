import CodeSurvey.Proofs.NormalPath
import Mathlib.Data.List.Induction
import Mathlib.Data.List.Nodup
/-!
# File systems as trees

`IsTree` says what the operations on a file system keep: no place has two entries, every entry stands
under a plain name in a directory, and the working directory is there (`IsTree.writeFile`,
`IsTree.removeFile`, `IsTree.makeDirs`). In a tree nothing stands below a file, and joining the names
of an entry to a path of a directory above it gives a path of the entry (`IsTree.locate_foldl`). A
normal path leads to what stands at its lexical destination, wherever that is (`IsTree.locate_render`);
only the empty one leads nowhere.
-/
namespace CodeSurvey.FileSystem

open CodeSurvey.Path (Component destination dot slash)

instance (n : OsString) : Decidable (PlainName n) :=
  decidable_of_iff
    (n.bytes ≠ [] ∧ slash ∉ n.bytes ∧ 0 ∉ n.bytes ∧ n.bytes ≠ [dot] ∧ n.bytes ≠ [dot, dot] ∧
      n.bytes.length ≤ 255)
    ⟨fun h => ⟨h.1, h.2.1, h.2.2.1, h.2.2.2.1, h.2.2.2.2.1, h.2.2.2.2.2⟩,
      fun h => ⟨h.nonempty, h.noSlash, h.noNul, h.notDot, h.notUp, h.short⟩⟩

/-- Entries that form a tree below the root, with the working directory in it. -/
structure IsTree (fs : FileSystem) : Prop where
  /-- No two entries stand at one place. -/
  nodup : (fs.entries.map (·.1)).Nodup
  /-- Every entry has a plain name. -/
  named : ∀ x ∈ fs.entries, ∃ n ∈ x.1.getLast?, PlainName n
  /-- Every entry stands in a directory. -/
  inDir : ∀ x ∈ fs.entries, fs.stored? x.1.dropLast = some .dir
  cwd : fs.stored? fs.cwd = some .dir

instance (fs : FileSystem) : Decidable fs.IsTree :=
  decidable_of_iff
    ((fs.entries.map (·.1)).Nodup ∧
      (∀ x ∈ fs.entries, ∃ n ∈ x.1.getLast?, PlainName n) ∧
      (∀ x ∈ fs.entries, fs.stored? x.1.dropLast = some .dir) ∧ fs.stored? fs.cwd = some .dir)
    ⟨fun h => ⟨h.1, h.2.1, h.2.2.1, h.2.2.2⟩, fun h => ⟨h.nodup, h.named, h.inDir, h.cwd⟩⟩

theorem stored?_of_ne_nil (fs : FileSystem) {p : Place} (h : p ≠ []) :
    fs.stored? p = fs.entries.lookup p := by
  obtain ⟨n, ns, rfl⟩ := List.exists_cons_of_ne_nil h
  rfl

theorem mem_of_stored? {fs : FileSystem} {p : Place} {e : Entry} (hne : p ≠ [])
    (h : fs.stored? p = some e) : (p, e) ∈ fs.entries := by
  rw [stored?_of_ne_nil fs hne, List.lookup_eq_some_iff] at h
  obtain ⟨before, after, heq, -⟩ := h
  rw [heq]
  exact List.mem_append_right _ List.mem_cons_self

/-! ## Names in paths -/

theorem mem_of_mem_splitAt {α : Type} [BEq α] {sep c : α} {s w : List α}
    (h : w ∈ Text.splitAt sep s) (hc : c ∈ w) : c ∈ s := by
  unfold Text.splitAt at h
  induction s generalizing w with
  | nil =>
    obtain rfl : w = [] := by simpa [Text.splitBy] using h
    exact hc
  | cons d r ih =>
    rw [Text.splitBy] at h
    split at h
    · rcases List.mem_cons.1 h with rfl | h
      · exact absurd hc List.not_mem_nil
      · exact List.mem_cons_of_mem d (ih h hc)
    · obtain ⟨v, vs, hv⟩ := List.exists_cons_of_ne_nil (splitBy_ne_nil (· == sep) r)
      rw [hv] at h ih
      rcases List.mem_cons.1 h with rfl | h
      · exact (List.mem_cons.1 hc).elim (fun hd => hd ▸ List.mem_cons_self)
          fun hc => List.mem_cons_of_mem d (ih List.mem_cons_self hc)
      · exact List.mem_cons_of_mem d (ih (List.mem_cons_of_mem v h) hc)

theorem name_mem_components {path s : OsString} :
    Component.name s ∈ Path.components path ↔ Component.name s ∈ steps path := by
  obtain ⟨start, hstart, heq⟩ := components_eq path
  rw [heq]
  rcases hstart with rfl | rfl <;> simp

/-- A name in a path without NUL is plain if it is not too long. -/
theorem plain_of_mem_steps {path s : OsString} (hnul : hasNul path = false)
    (hs : Component.name s ∈ steps path) (hshort : s.bytes.length ≤ 255) : PlainName s := by
  have hname := (Path.legal_components path).isName s (name_mem_components.2 hs)
  refine ⟨hname.nonempty, hname.noSlash, fun hmem => ?_, hname.notDot, hname.notUp, hshort⟩
  have hpiece : Component.name s ∈ (Text.splitAt slash path.bytes).filterMap pieceStep := by
    rw [steps_eq, List.mem_append, List.mem_append] at hs
    rcases hs with (hs | hs) | hs
    · split at hs <;> simp at hs
    · exact hs
    · split at hs <;> simp at hs
  obtain ⟨p, hp, hstep⟩ := List.mem_filterMap.1 hpiece
  have heq : s = ⟨p⟩ := by
    unfold pieceStep at hstep
    split at hstep
    · cases hstep
    · split at hstep
      · cases hstep
      · split at hstep
        · cases hstep
        · exact (Component.name.inj (Option.some.inj hstep)).symm
  have hin : (0 : UInt8) ∈ path.bytes := mem_of_mem_splitAt hp (by rwa [heq] at hmem)
  simp [hasNul, hin] at hnul

/-- A name leads to a place in the directory it is looked up in. -/
theorem of_step_name {p q : Place} {s : OsString} (h : step p (.name s) = .ok q) :
    q = p ++ [s] ∧ s.bytes.length ≤ 255 := by
  simp only [step] at h
  split at h
  · cases h
  · cases h
    exact ⟨rfl, by omega⟩

/-- Where components lead to from the working directory, by their names alone. -/
def lexical (fs : FileSystem) (cs : List Component) : Place :=
  (destination fs.cwd.reverse cs).reverse

/-- One step leads where it is said to lead. -/
theorem reverse_of_step {p q : Place} {c : Component} (h : step p c = .ok q) :
    q.reverse = Path.move p.reverse c := by
  cases c with
  | root => cases h; rfl
  | here => cases h; rfl
  | up =>
    cases h
    simp [Path.move]
  | name s =>
    obtain ⟨rfl, -⟩ := of_step_name h
    simp [Path.move]

/-- **There are no links**: steps lead nowhere but to their lexical destination. -/
theorem eq_destination_of_follow {fs : FileSystem} {p q : Place} {cs : List Component}
    (h : fs.follow p cs = .ok q) : q = (destination p.reverse cs).reverse := by
  induction cs generalizing p with
  | nil =>
    simp only [follow] at h
    split at h <;> cases h
    simp [destination]
  | cons c cs ih =>
    simp only [follow] at h
    split at h
    · split at h
      · rename_i r hr
        rw [ih h, reverse_of_step hr]
        rfl
      · cases h
    · cases h
    · cases h

/-! ## Straight paths -/

/-- Where a path with or without a root starts. -/
def startOf (fs : FileSystem) (absolute : Bool) : Place := if absolute then [] else fs.cwd

theorem origin_render {fs : FileSystem} {absolute : Bool} {ups : Nat} {names : List OsString}
    (h : Path.IsNormal (Path.straight absolute ups names)) :
    fs.origin (Path.render (Path.straight absolute ups names)) = fs.startOf absolute := by
  have habs : Path.isAbsolute (Path.render (Path.straight absolute ups names)) = true ↔
      absolute = true := by
    rw [← Path.root_mem_components, Path.components_render h, Path.root_mem_straight]
  simp only [origin, startOf, habs]

/-- The root, if the path has it, only says where to start. -/
theorem follow_straight (fs : FileSystem) (absolute : Bool) (ups : Nat) (names : List OsString) :
    fs.follow (fs.startOf absolute) (Path.straight absolute ups names) =
      fs.follow (fs.startOf absolute) (List.replicate ups .up ++ names.map .name) := by
  cases absolute <;> rfl

theorem lexical_straight (fs : FileSystem) (absolute : Bool) (ups : Nat) (names : List OsString) :
    fs.lexical (Path.straight absolute ups names) = (destination (fs.startOf absolute).reverse
      (List.replicate ups .up ++ names.map .name)).reverse := by
  cases absolute <;> rfl

/-! ## Places in a tree -/

namespace IsTree

variable {fs : FileSystem} {top rest : Place} {n : OsString} {e : Entry}

theorem ne_nil (h : fs.IsTree) {x : Place × Entry} (hx : x ∈ fs.entries) : x.1 ≠ [] := by
  obtain ⟨n, hn, -⟩ := h.named x hx
  intro hnil
  rw [hnil] at hn
  cases hn

/-- The entries are what stands at the places. -/
theorem stored?_of_mem (h : fs.IsTree) (hmem : (top, e) ∈ fs.entries) : fs.stored? top = some e := by
  rw [stored?_of_ne_nil fs (h.ne_nil hmem), List.lookup_eq_some_iff]
  obtain ⟨before, after, heq⟩ := List.append_of_mem hmem
  refine ⟨before, after, heq, fun x hx => ?_⟩
  have hnodup := h.nodup
  rw [heq, List.map_append, List.map_cons, List.nodup_append] at hnodup
  have hne : x.1 ≠ top :=
    hnodup.2.2 x.1 (List.mem_map_of_mem hx) top List.mem_cons_self
  simpa [bne_iff_ne] using Ne.symm hne

/-- Whatever has something below it is a directory, and what leads on from it is a plain name. -/
theorem dir_above (h : fs.IsTree) (hs : fs.stored? (top ++ n :: rest) = some e) :
    fs.stored? top = some .dir ∧ PlainName n := by
  induction rest using List.reverseRecOn generalizing e with
  | nil =>
    have hmem := mem_of_stored? (by simp) hs
    obtain ⟨m, hm, hplain⟩ := h.named _ hmem
    have hdir := h.inDir _ hmem
    simp only [List.getLast?_concat, Option.mem_some_iff] at hm
    rw [List.dropLast_concat] at hdir
    exact ⟨hdir, hm ▸ hplain⟩
  | append_singleton rest m ih =>
    have hdir := h.inDir _ (mem_of_stored? (by simp) hs)
    rw [← List.cons_append, ← List.append_assoc, List.dropLast_concat] at hdir
    exact ih hdir

/-- What is above a directory is a directory. -/
theorem dir_dropLast (h : fs.IsTree) (hs : fs.stored? top = some .dir) :
    fs.stored? top.dropLast = some .dir := by
  cases top with
  | nil => rfl
  | cons m ms => exact h.inDir _ (mem_of_stored? (by simp) hs)

/-- The names of an entry, joined to a path of a directory above it, lead to the entry. -/
theorem locate_foldl (h : fs.IsTree) {root : OsString} (hroot : fs.locate root = .ok top)
    (hs : fs.stored? (top ++ rest) = some e) :
    fs.locate (rest.foldl Path.join root) = .ok (top ++ rest) := by
  induction rest generalizing root top with
  | nil => simpa using hroot
  | cons n rest ih =>
    obtain ⟨hdir, hn⟩ := h.dir_above hs
    have hopens : OpensAt fs root top := ⟨hroot, hdir⟩
    have hchild : (fs.child? top n).isSome = true := by
      cases rest with
      | nil => rw [child?, hs]; rfl
      | cons m rest =>
        rw [List.append_cons] at hs
        rw [child?, (h.dir_above hs).1]
        rfl
    have hstep : fs.locate (Path.join root n) = .ok (top ++ [n]) := by
      rw [hopens.locate_join hn, if_pos hchild]
    rw [List.append_cons] at hs ⊢
    exact ih hstep hs

theorem follow_names (h : fs.IsTree) (hs : fs.stored? (top ++ rest) = some e) :
    fs.follow top (rest.map .name) = .ok (top ++ rest) := by
  induction rest generalizing top with
  | nil =>
    rw [List.append_nil] at hs ⊢
    simp [follow, hs]
  | cons n rest ih =>
    obtain ⟨hdir, hn⟩ := h.dir_above hs
    rw [List.append_cons] at hs ⊢
    simp only [List.map_cons, follow, hdir, OpensAt.step_name hn]
    exact ih hs

theorem follow_ups (h : fs.IsTree) (hs : fs.stored? top = some .dir) (ups : Nat) :
    ∃ q, fs.follow top (List.replicate ups .up) = .ok q ∧ fs.stored? q = some .dir := by
  induction ups generalizing top with
  | zero => exact ⟨top, by simp [follow, hs], hs⟩
  | succ ups ih =>
    obtain ⟨q, hq, hdir⟩ := ih (h.dir_dropLast hs)
    refine ⟨q, ?_, hdir⟩
    simp only [List.replicate_succ, follow, hs, step]
    exact hq

/-- Steps up and then down along names lead somewhere if something stands there. -/
theorem follow_moves (h : fs.IsTree) (hs : fs.stored? top = some .dir) (ups : Nat)
    {names : List OsString}
    (hend : fs.stored? (destination top.reverse
      (List.replicate ups .up ++ names.map .name)).reverse = some e) :
    ∃ base, fs.follow top (List.replicate ups .up ++ names.map .name) = .ok (base ++ names) ∧
      fs.stored? (base ++ names) = some e := by
  obtain ⟨base, hbase, -⟩ := h.follow_ups hs ups
  have heq : (destination top.reverse
      (List.replicate ups .up ++ names.map .name)).reverse = base ++ names := by
    rw [eq_destination_of_follow hbase, destination, List.foldl_append]
    exact (congrArg List.reverse (Path.destination_names _ names)).trans (by simp [destination])
  rw [heq] at hend
  refine ⟨base, ?_, hend⟩
  rw [follow_append, hbase]
  exact h.follow_names hend

/-- No path of names in a tree holds a NUL byte. -/
theorem hasNul_render (h : fs.IsTree) {absolute : Bool} {ups : Nat} {names : List OsString}
    (hs : fs.stored? (top ++ names) = some e) :
    hasNul (Path.render (Path.straight absolute ups names)) = false := by
  have hplain : ∀ n ∈ names, PlainName n := by
    intro n hn
    obtain ⟨before, after, rfl⟩ := List.append_of_mem hn
    rw [← List.append_assoc] at hs
    exact (h.dir_above hs).2
  refine Bool.eq_false_iff.2 fun hnul => ?_
  have hmem : 0 ∈ (Path.render (Path.straight absolute ups names)).bytes := by
    simpa [hasNul] using hnul
  by_cases hroot : Path.straight absolute ups names = [.root]
  · rw [hroot] at hmem
    revert hmem
    decide
  rw [Path.bytes_render hroot] at hmem
  obtain hslash | ⟨w, hw, hzero⟩ := Path.mem_intercalate hmem
  · exact absurd hslash (by decide)
  · obtain ⟨c, hc, rfl⟩ := List.mem_map.1 hw
    cases c with
    | root => cases hzero
    | here | up => revert hzero; decide
    | name n => exact (hplain n (by cases absolute <;> simpa [Path.straight] using hc)).noNul hzero

theorem stored?_startOf (h : fs.IsTree) (absolute : Bool) :
    fs.stored? (fs.startOf absolute) = some .dir := by
  cases absolute with
  | true => rfl
  | false => exact h.cwd

/-- **A normal path leads to its lexical destination** if something stands there, from the root or from
the working directory, however far up. -/
theorem locate_render (h : fs.IsTree) {cs : List Component} (hcs : Path.IsNormal cs) (hne : cs ≠ [])
    {q : Place} :
    fs.locate (Path.render cs) = .ok q ↔ q = fs.lexical cs ∧ (fs.stored? q).isSome = true := by
  have hsteps := Path.steps_render hcs hne
  have hnonempty := Path.render_nonempty hcs hne
  have hnormal := hcs
  obtain ⟨absolute, ups, names, rfl, -⟩ := hcs
  rw [locate_eq_ok, origin_render hnormal, lexical_straight]
  constructor
  · rintro ⟨-, -, hf⟩
    have hmoves : fs.follow (fs.startOf absolute) (List.replicate ups .up ++ names.map .name) = .ok q := by
      rw [← follow_straight]
      rcases hsteps with hsteps | ⟨hroot, hsteps⟩ <;> rw [hsteps] at hf
      · exact hf
      · rw [hroot]
        exact ((follow_here : fs.follow _ ([.root] ++ [.here]) = .ok q ↔ _).1 hf).1
    exact ⟨eq_destination_of_follow hmoves, stored?_of_follow hmoves⟩
  · rintro ⟨rfl, hs⟩
    obtain ⟨e, he⟩ := Option.isSome_iff_exists.1 hs
    obtain ⟨base, hmoves, hend⟩ := h.follow_moves (h.stored?_startOf absolute) ups he
    refine ⟨h.hasNul_render hend, hnonempty, ?_⟩
    rw [← eq_destination_of_follow hmoves, ← hmoves, ← follow_straight]
    rcases hsteps with hsteps | ⟨hroot, hsteps⟩
    · rw [hsteps]
    · rw [hsteps, hroot]
      simp only [follow, step, stored?]

/-! ## Operations keep trees -/

theorem empty : FileSystem.empty.IsTree :=
  ⟨List.nodup_nil, fun _ hx => absurd hx List.not_mem_nil, fun _ hx => absurd hx List.not_mem_nil, rfl⟩

/-- Without one of its files a tree is a tree. -/
theorem erase (h : fs.IsTree) {bytes : List UInt8} (hfile : fs.stored? top = some (.file bytes)) :
    (fs.erase top).IsTree := by
  have hne : top ≠ [] := by
    rintro rfl
    cases hfile
  have hdir {p : Place} (hp : fs.stored? p = some .dir) : (fs.erase top).stored? p = some .dir := by
    rw [stored?_erase fs hne, if_neg, hp]
    rintro rfl
    rw [hfile] at hp
    cases hp
  refine ⟨h.nodup.sublist (List.filter_sublist.map _), fun x hx => ?_, fun x hx => ?_, hdir h.cwd⟩
  · exact h.named x (List.mem_filter.1 hx).1
  · exact hdir (h.inDir x (List.mem_filter.1 hx).1)

theorem removeFile (h : fs.IsTree) {path : OsString} {fs' : FileSystem}
    (hr : fs.removeFile path = .ok fs') : fs'.IsTree := by
  obtain ⟨p, bytes, -, -, hfile, rfl⟩ := erase_of_removeFile hr
  exact h.erase hfile

theorem mem_put {x : Place × Entry} (hx : x ∈ (fs.put top e).entries) :
    x = (top, e) ∨ x ∈ fs.entries := by
  unfold FileSystem.put at hx
  split at hx
  · obtain ⟨y, hy, rfl⟩ := List.mem_map.1 hx
    split
    · exact .inl rfl
    · exact .inr hy
  · rcases List.mem_append.1 hx with hx | hx
    · exact .inr hx
    · exact .inl (List.mem_singleton.1 hx)

/-- A new entry in a directory keeps the tree, unless it takes the place of a directory. -/
theorem put (h : fs.IsTree) (hdir : fs.stored? top = some .dir) (hn : PlainName n)
    (hold : fs.child? top n ≠ some .dir) (e : Entry) : (fs.put (top ++ [n]) e).IsTree := by
  -- directories stay, since none of them stood at the place of the new entry
  have hkeep {p : Place} (hp : fs.stored? p = some .dir) :
      (fs.put (top ++ [n]) e).stored? p = some .dir := by
    rw [stored?_put_ne, hp]
    rintro rfl
    exact hold hp
  refine ⟨?_, fun x hx => ?_, fun x hx => ?_, by rw [cwd_put]; exact hkeep h.cwd⟩
  · unfold FileSystem.put
    split
    · rw [List.map_map]
      have hkeys : fs.entries.map ((·.1) ∘ fun x => if x.1 = top ++ [n] then (top ++ [n], e) else x) =
          fs.entries.map (·.1) := by
        refine List.map_congr_left fun x _ => ?_
        simp only [Function.comp_apply]
        split
        · exact Eq.symm ‹_›
        · rfl
      rw [hkeys]
      exact h.nodup
    · rename_i hnone
      rw [List.map_append, List.map_singleton, List.nodup_append]
      refine ⟨h.nodup, List.nodup_singleton _, fun a ha b hb => ?_⟩
      obtain ⟨⟨p, old⟩, hmem, rfl⟩ := List.mem_map.1 ha
      rintro rfl
      obtain rfl : p = top ++ [n] := List.mem_singleton.1 hb
      exact hnone (lookup_isSome_iff.2 ⟨old, hmem⟩)
  · rcases mem_put hx with rfl | hmem
    · exact ⟨n, by simp, hn⟩
    · exact h.named x hmem
  · rcases mem_put hx with rfl | hmem
    · rw [List.dropLast_concat]
      exact hkeep hdir
    · exact hkeep (h.inDir x hmem)

theorem writeFile (h : fs.IsTree) {path : OsString} {bytes : List UInt8} {fs' : FileSystem}
    (hw : fs.writeFile path bytes = .ok fs') : fs'.IsTree := by
  unfold FileSystem.writeFile at hw
  split at hw
  · cases hw
  · rename_i hnul
    dsimp only at hw
    split at hw
    · rename_i s hlast
      split at hw
      · cases hw
      · rename_i p _
        split at hw
        · rename_i hdir
          split at hw
          · cases hw
          · rename_i q hstep
            split at hw
            · cases hw
            · rename_i hold
              cases hw
              obtain ⟨rfl, hshort⟩ := of_step_name hstep
              have hn := plain_of_mem_steps (by simpa using hnul) (List.mem_of_getLast? hlast) hshort
              exact h.put hdir hn hold _
        · cases hw
    · cases hw
    · cases hw

/-- Making the directories on the way keeps the tree. -/
theorem makeSteps (h : fs.IsTree) {p q : Place} {cs : List Component} {fs' : FileSystem}
    (hp : fs.stored? p = some .dir)
    (hcs : ∀ s, Component.name s ∈ cs → s.bytes.length ≤ 255 → PlainName s)
    (hm : fs.makeSteps p cs = .ok (fs', q)) : fs'.IsTree := by
  induction cs generalizing fs p with
  | nil =>
    cases hm
    exact h
  | cons c cs ih =>
    have hrest : ∀ s, Component.name s ∈ cs → s.bytes.length ≤ 255 → PlainName s :=
      fun s hs => hcs s (List.mem_cons_of_mem c hs)
    rw [FileSystem.makeSteps] at hm
    split at hm
    · cases hm
    · rename_i r hstep
      split at hm
      · exact ih h ‹_› hrest hm
      · cases hm
      · rename_i hnone
        -- only a name leads from a directory of a tree to a place where nothing stands
        cases c with
        | root =>
          cases hstep
          cases hnone
        | here =>
          cases hstep
          rw [hp] at hnone
          cases hnone
        | up =>
          cases hstep
          rw [h.dir_dropLast hp] at hnone
          cases hnone
        | name s =>
          obtain ⟨rfl, hshort⟩ := of_step_name hstep
          have hput := h.put hp (hcs s List.mem_cons_self hshort) (by rw [child?, hnone]; simp) .dir
          exact ih hput (stored?_put (by simp) _) hrest hm

theorem makeDirs (h : fs.IsTree) {path : OsString} {fs' : FileSystem}
    (hm : fs.makeDirs path = .ok fs') : fs'.IsTree := by
  unfold FileSystem.makeDirs at hm
  split at hm
  · cases hm
  · rename_i hnul
    split at hm
    · cases hm
      exact h
    · split at hm
      · rename_i hdir
        cases hmake : fs.makeSteps (fs.origin path) (Path.components path) with
        | error err => simp [hmake, Except.map] at hm
        | ok made =>
          obtain ⟨fs₁, q⟩ := made
          simp only [hmake, Except.map, Except.ok.injEq] at hm
          subst hm
          refine h.makeSteps hdir (fun s hs hshort => ?_) hmake
          exact plain_of_mem_steps (by simpa using hnul) (name_mem_components.1 hs) hshort
      · cases hm

end IsTree

end CodeSurvey.FileSystem
