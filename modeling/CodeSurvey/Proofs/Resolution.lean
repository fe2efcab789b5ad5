import CodeSurvey.Proofs.Extraction
import CodeSurvey.Proofs.FileTree
import Mathlib.Data.List.Find
/-!
# What resolvers answer

A resolver tries the candidates that apply (`Resolver.tried`) and finds the first that exists
(`find?_eq`); its answer is how that path is shown. So it sees of a file system only which of them exist
(`find?_congr`), and deleting the file that it has found makes it go on behind that candidate
(`find?_of_removeFile`). In a tree a candidate exists if something of its kind stands where the source
leads, except that nothing is found at the working directory itself (`existsAt_fullPath`). Whether a
dependency is local is decided before anything is resolved (`Extractor.unresolved_dependenciesOn`).
-/
namespace CodeSurvey

/-! ## What exists after a deletion -/

theorem Candidate.existsAt_eq (c : Candidate) (fs : FileSystem) (p : OsString) :
    c.existsAt fs p = if c = .directory then fs.isDir p else fs.isFile p := by
  cases c <;> simp [existsAt]

/-- Whether an entry is what a candidate asks for: a directory, or a file. -/
def Candidate.wants : Candidate → FileSystem.Entry → Prop
  | .directory, e => e = .dir
  | _, e => e ≠ .dir

theorem Candidate.existsAt_iff {c : Candidate} {fs : FileSystem} {path : OsString} :
    c.existsAt fs path = true ↔
      ∃ p e, fs.locate path = .ok p ∧ fs.stored? p = some e ∧ c.wants e := by
  unfold existsAt FileSystem.isFile FileSystem.isDir FileSystem.find
  cases hl : fs.locate path with
  | error e => cases c <;> simp
  | ok p =>
    cases he : fs.stored? p with
    | none => cases c <;> simp [he]
    | some e => cases c <;> cases e <;> simp [he, wants]

namespace FileSystem

/-- A file can be deleted. -/
theorem removeFile_of_isFile {fs : FileSystem} {path : OsString} (h : fs.isFile path = true) :
    ∃ fs', fs.removeFile path = .ok fs' := by
  obtain ⟨p, e, hl, hp, hfile⟩ := (Candidate.existsAt_iff (c := .asIs)).1 h
  cases e with
  | dir => exact absurd rfl hfile
  | file bytes => exact ⟨fs.erase p, by simp only [removeFile, hl, hp]⟩

/-- After a deletion the same is found as before, except at the place of the file. -/
theorem found_of_removeFile {fs fs' : FileSystem} {path other : OsString} {p : Place} {e : Entry}
    (h : fs.removeFile path = .ok fs') :
    fs'.locate other = .ok p ∧ fs'.stored? p = some e ↔
      fs.locate other = .ok p ∧ fs.stored? p = some e ∧ fs.locate path ≠ .ok p := by
  obtain ⟨top, bytes, hne, hl, hfile, rfl⟩ := erase_of_removeFile h
  have hother : fs.locate path ≠ .ok p ↔ p ≠ top := by
    rw [hl, Ne, Except.ok.injEq, eq_comm]
  rw [hother]
  constructor
  · rintro ⟨hp, he⟩
    obtain ⟨hpt, hp'⟩ := locate_of_erase hne hp
    rw [stored?_erase fs hne, if_neg hpt] at he
    exact ⟨hp', he, hpt⟩
  · rintro ⟨hp, he, hpt⟩
    have agree : ∀ q, q ≠ top → (fs.erase top).stored? q = fs.stored? q :=
      fun q hq => by rw [stored?_erase fs hne, if_neg hq]
    have hnodir : fs.stored? top ≠ some .dir := by simp [hfile]
    rcases locate_agree (cwd_erase fs top) hnodir agree hp with heq | ⟨-, hp'⟩
    · exact absurd heq hpt
    · exact ⟨hp', by rw [agree p hpt, he]⟩

end FileSystem

/-- After the deletion of a file candidates exist as before, except where the file stood. -/
theorem Candidate.existsAt_of_removeFile {fs fs' : FileSystem} {path : OsString}
    (h : fs.removeFile path = .ok fs') (c : Candidate) (other : OsString) :
    c.existsAt fs' other = true ↔
      c.existsAt fs other = true ∧ fs.locate other ≠ fs.locate path := by
  simp only [existsAt_iff]
  constructor
  · rintro ⟨p, e, hp, he, hc⟩
    obtain ⟨hp, he, hother⟩ := (FileSystem.found_of_removeFile h).1 ⟨hp, he⟩
    exact ⟨⟨p, e, hp, he, hc⟩, fun heq => hother (by rw [← heq, hp])⟩
  · rintro ⟨⟨p, e, hp, he, hc⟩, hne⟩
    obtain ⟨hp, he⟩ := (FileSystem.found_of_removeFile h).2 ⟨hp, he, fun heq => hne (by rw [hp, heq])⟩
    exact ⟨p, e, hp, he, hc⟩

/-! ## The candidates that are tried -/

namespace Resolver

/-- What is tried has a path in normal form. -/
theorem normal_fullPath (file : OsString) (relative : String) :
    Path.IsNormal (Path.normalize (Path.joinComponents ((Path.parent? file).getD []) relative)) :=
  Path.isNormal_normalize (Path.legal_joinComponents (Path.legal_parent file) relative)

/-- **Where a candidate exists** in a tree: what it asks for stands at the place to which its path leads
from the directory of the importing file, and this is not the working directory named by no steps. -/
theorem existsAt_fullPath {fs : FileSystem} (h : fs.IsTree) (file : OsString) (relative : String)
    (c : Candidate) :
    c.existsAt fs (fullPath file relative) = true ↔ (fullPath file relative).isEmpty = false ∧
      ∃ e, c.wants e ∧ fs.stored? (fs.lexical
        (Path.joinComponents ((Path.parent? file).getD []) relative)) = some e := by
  have hnormal := normal_fullPath file relative
  have hlexical : fs.lexical (Path.normalize
      (Path.joinComponents ((Path.parent? file).getD []) relative)) =
        fs.lexical (Path.joinComponents ((Path.parent? file).getD []) relative) := by
    rw [FileSystem.lexical, Path.destination_normalize, FileSystem.lexical]
  rw [Candidate.existsAt_iff, ← hlexical]
  unfold fullPath
  generalize Path.normalize (Path.joinComponents ((Path.parent? file).getD []) relative) = cs at hnormal
  by_cases hne : cs = []
  · subst hne
    constructor
    · rintro ⟨p, e, hl, -⟩
      exact absurd (FileSystem.locate_eq_ok.1 hl).2.1 (by decide)
    · rintro ⟨hempty, -⟩
      exact absurd hempty (by decide)
  · simp only [Path.render_nonempty hnormal hne, true_and, h.locate_render hnormal hne]
    constructor
    · rintro ⟨p, e, ⟨rfl, -⟩, he, hc⟩
      exact ⟨e, hc, he⟩
    · rintro ⟨e, hc, he⟩
      exact ⟨_, e, ⟨rfl, by rw [he]; rfl⟩, he, hc⟩

variable (r : Resolver) (file : OsString) (source : String) (kind : DependencyKind)

/-- The candidates that apply to a dependency, in the order of the list, each with its path: the
directory of the importing file joined with the candidate, normalized. -/
def tried : List (Candidate × OsString) :=
  match r.naming.path? source kind with
  | none => []
  | some path => r.candidates.filterMap fun c =>
    (c.path? path).map fun relative => (c, fullPath file relative)

theorem mem_tried {c : Candidate} {p : OsString} :
    (c, p) ∈ r.tried file source kind ↔ ∃ path relative, r.naming.path? source kind = some path ∧
      c ∈ r.candidates ∧ c.path? path = some relative ∧ p = fullPath file relative := by
  unfold tried
  cases r.naming.path? source kind with
  | none => simp
  | some path =>
    simp only [List.mem_filterMap, Option.map_eq_some_iff, Prod.mk.injEq]
    constructor
    · rintro ⟨c', hmem, relative, happ, rfl, rfl⟩
      exact ⟨path, relative, rfl, hmem, happ, rfl⟩
    · rintro ⟨_, relative, hpath, hmem, happ, rfl⟩
      cases hpath
      exact ⟨c, hmem, relative, happ, rfl, rfl⟩

/-- **The first candidate that exists wins.** -/
theorem find?_eq (fs : FileSystem) : r.find? fs file source kind =
    ((r.tried file source kind).find? fun x => x.1.existsAt fs x.2).map (·.2) := by
  unfold find? tried
  cases r.naming.path? source kind with
  | none => rfl
  | some path =>
    rw [Option.bind_some]
    dsimp only
    induction r.candidates with
    | nil => rfl
    | cons c cs ih =>
      cases happ : c.path? path with
      | none => simpa [probe, happ] using ih
      | some relative =>
        cases hex : c.existsAt fs (fullPath file relative) <;> simp [probe, happ, hex, ih]

theorem find?_eq_some {fs : FileSystem} {p : OsString} :
    r.find? fs file source kind = some p ↔ ∃ before c after,
      r.tried file source kind = before ++ (c, p) :: after ∧ c.existsAt fs p = true ∧
        ∀ x ∈ before, x.1.existsAt fs x.2 = false := by
  rw [find?_eq, Option.map_eq_some_iff]
  constructor
  · rintro ⟨⟨c, p⟩, hfind, rfl⟩
    obtain ⟨hex, before, after, htried, hbefore⟩ := List.find?_eq_some_iff_append.1 hfind
    exact ⟨before, c, after, htried, hex, by simpa using hbefore⟩
  · rintro ⟨before, c, after, htried, hex, hbefore⟩
    exact ⟨(c, p), List.find?_eq_some_iff_append.2 ⟨hex, before, after, htried, by simpa using hbefore⟩,
      rfl⟩

/-- **Nothing outside the list is looked at.** -/
theorem find?_congr {fs fs' : FileSystem}
    (h : ∀ x ∈ r.tried file source kind, x.1.existsAt fs x.2 = x.1.existsAt fs' x.2) :
    r.find? fs file source kind = r.find? fs' file source kind := by
  rw [find?_eq, find?_eq, List.find?_congr h]

/-- **After a deletion** of the file that was found, the next path of the list is found that existed and
does not lead to the same file. -/
theorem find?_of_removeFile {fs fs' : FileSystem} {p : OsString}
    {before after : List (Candidate × OsString)} {c : Candidate}
    (htried : r.tried file source kind = before ++ (c, p) :: after)
    (hbefore : ∀ x ∈ before, x.1.existsAt fs x.2 = false) (h : fs.removeFile p = .ok fs') :
    r.find? fs' file source kind =
      (after.find? fun x => x.1.existsAt fs x.2 && fs.locate x.2 ≠ fs.locate p).map (·.2) := by
  have hleft : ∀ x ∈ r.tried file source kind,
      x.1.existsAt fs' x.2 = (x.1.existsAt fs x.2 && fs.locate x.2 ≠ fs.locate p) := by
    rintro ⟨d, q⟩ -
    rw [Bool.eq_iff_iff, Candidate.existsAt_of_removeFile h]
    simp
  have hskip : ∀ x ∈ before, ¬ (x.1.existsAt fs x.2 && fs.locate x.2 ≠ fs.locate p) = true := by
    intro x hx
    simp [hbefore x hx]
  rw [find?_eq, List.find?_congr hleft, htried, List.find?_append, List.find?_eq_none.2 hskip]
  simp

end Resolver

/-! ## Dependencies without their paths -/

/-- A dependency without its path. -/
def Dependency.unresolved (d : Dependency) : Dependency := { d with resolvedPath := none }

theorem Scan.map_byOffset {α β : Type} (f : α → β) (xs : List (Nat × α)) :
    (byOffset xs).map f = byOffset (xs.map fun x => (x.1, f x.2)) := by
  have hsort : (xs.mergeSort fun a b => a.1 ≤ b.1).map (fun x => (x.1, f x.2)) =
      (xs.map fun x => (x.1, f x.2)).mergeSort fun a b => a.1 ≤ b.1 :=
    List.map_mergeSort fun a _ b _ => rfl
  unfold byOffset
  rw [← hsort, List.map_map, List.map_map]
  rfl

/-- What a scan finds but for its paths does not depend on files. -/
theorem Scan.unresolved_dependencies (sc : Scan) (fs fs' : FileSystem) (file file' : OsString) :
    (sc.dependencies fs file).map Dependency.unresolved =
      (sc.dependencies fs' file').map Dependency.unresolved := by
  have hrule (rule : DependencyRule) :
      (sc.dependenciesBy fs file rule).map (fun x => (x.1, x.2.unresolved)) =
        (sc.dependenciesBy fs' file' rule).map fun x => (x.1, x.2.unresolved) := by
    unfold dependenciesBy
    rw [List.map_flatMap, List.map_flatMap]
    refine congrArg (List.flatMap · _) (funext fun m => ?_)
    cases m.group? "source" with
    | none => rfl
    | some sp =>
      simp only [List.map_map]
      refine List.map_congr_left ?_
      rintro ⟨cs, offset⟩ -
      simp only [Function.comp_apply, Dependency.unresolved]
  unfold dependencies
  rw [map_byOffset, map_byOffset, List.map_flatMap, List.map_flatMap, funext hrule]

namespace Extractor

open Syntax

/-- Every language with a surveyor has a table. -/
theorem find?_of_supports {language : String} (h : supports language = true) :
    (Language.find? language).isSome = true := by
  rcases Bool.or_eq_true_iff.1 h with h | h
  · obtain ⟨s, hs⟩ := Option.isSome_iff_exists.1 h
    have hname : s.language = language := by simpa using List.find?_some hs
    have hmem := List.mem_of_find?_eq_some hs
    simp only [Surveyor.all, List.mem_cons, List.not_mem_nil, or_false] at hmem
    rcases hmem with rfl | rfl | rfl | rfl | rfl | rfl <;> subst hname <;> decide
  · exact h

theorem exists_route {language : String} (h : supports language = true) (t : Tree) :
    ∃ route, route? t language = some route := by
  obtain ⟨l, hl⟩ := Option.isSome_iff_exists.1 (find?_of_supports h)
  unfold route?
  split
  · exact ⟨_, rfl⟩
  · exact ⟨.table l, by rw [hl]; rfl⟩

/-- The dependencies that a route finds. -/
def dependenciesOn (t : Tree) (c : Context) (options : Json) : Route → List Dependency
  | .grammar s => (s.dependencies t).map (settle c (wantsResolution options))
  | .table l =>
    let found := (Scan.ofSource l t.source).dependencies c.files c.path
    if wantsResolution options then found else found.map Dependency.unresolved

theorem execute_dependenciesOn {t : Tree} {c : Context} {route : Route}
    (h : route? t c.language = some route) (options : Json) :
    dependencies.execute t c options = .output (.dependencies (dependenciesOn t c options route)) := by
  cases route <;> simp only [dependencies, ofRoutes, h] <;> rfl

/-- **What resolves is local and shows a path that exists**, by either route. -/
theorem shows_dependenciesOn (t : Tree) (c : Context) (options : Json) (route : Route) :
    ∀ d ∈ dependenciesOn t c options route, ∀ p, d.resolvedPath = some p →
      d.isLocal = true ∧ c.files.Shows c.path p := by
  intro d hd p hp
  cases route with
  | grammar s =>
    obtain ⟨site, -, rfl⟩ := List.mem_map.1 hd
    -- the line of the site plays no part
    have hproper : (settle c (wantsResolution options) { site with line := 1 }).Proper c.files c.path :=
      proper_settle Nat.one_pos
    exact ⟨hproper.isLocal p hp, hproper.shows p hp⟩
  | table l =>
    have hproper := proper_scanned l t.source c.files c.path
    simp only [dependenciesOn] at hd
    split at hd
    · exact ⟨(hproper d hd).isLocal p hp, (hproper d hd).shows p hp⟩
    · obtain ⟨found, -, rfl⟩ := List.mem_map.1 hd
      cases hp

/-- **Locality is settled before anything is resolved**: on one route the dependencies of a tree in
one language differ in their paths only. -/
theorem unresolved_dependenciesOn {c c' : Context} (h : c'.language = c.language) (t : Tree)
    (options options' : Json) (route : Route) :
    (dependenciesOn t c options route).map Dependency.unresolved =
      (dependenciesOn t c' options' route).map Dependency.unresolved := by
  cases route with
  | grammar s =>
    simp only [dependenciesOn, List.map_map]
    refine List.map_congr_left fun d _ => ?_
    simp only [Function.comp_apply, settle, Dependency.unresolved, h]
  | table l =>
    have hdrop (resolve : Bool) (ds : List Dependency) :
        (if resolve then ds else ds.map Dependency.unresolved).map Dependency.unresolved =
          ds.map Dependency.unresolved := by
      cases resolve with
      | true => rfl
      | false => rw [if_neg Bool.false_ne_true, List.map_map]; rfl
    simp only [dependenciesOn, hdrop]
    exact Scan.unresolved_dependencies _ _ _ _ _

end Extractor

/-! ## Safety -/

namespace Resolver

/-- What holds of a path that is found: it is the one of a candidate that applies and exists while none
before it does, the path is normal, it is a text if the path of the importing file is, and a deletion of
the file leads on to the next candidate. -/
structure Finds (r : Resolver) (fs : FileSystem) (file : OsString) (source : String)
    (kind : DependencyKind) (p : OsString) (before : List (Candidate × OsString)) (c : Candidate)
    (after : List (Candidate × OsString)) : Prop where
  listed : r.tried file source kind = before ++ (c, p) :: after
  first : ∀ x ∈ before, x.1.existsAt fs x.2 = false
  found : (if c = .directory then fs.isDir p else fs.isFile p) = true
  joined : ∃ path relative, r.naming.path? source kind = some path ∧ c ∈ r.candidates ∧
    c.path? path = some relative ∧ Path.components p =
      Path.normalize (Path.joinComponents ((Path.parent? file).getD []) relative)
  normal : Path.IsNormal (Path.components p) ∧ Path.normalizeText p = p
  text : file.IsText → p.IsText
  deleted : c ≠ .directory → ∃ fs', fs.removeFile p = .ok fs' ∧
    r.resolve fs' file source kind = (after.find? fun x =>
      x.1.existsAt fs x.2 && fs.locate x.2 ≠ fs.locate p).map (·.2.display)

variable (r : Resolver) (fs : FileSystem) (file : OsString) (source : String) (kind : DependencyKind)

/-- The first candidate that exists has all that. -/
theorem finds_of_first {p : OsString} {before after : List (Candidate × OsString)} {c : Candidate}
    (htried : r.tried file source kind = before ++ (c, p) :: after) (hex : c.existsAt fs p = true)
    (hbefore : ∀ x ∈ before, x.1.existsAt fs x.2 = false) :
    r.Finds fs file source kind p before c after := by
  have hmem : (c, p) ∈ r.tried file source kind := by
    rw [htried]
    simp
  obtain ⟨path, relative, hpath, hc, happ, hfull⟩ := (r.mem_tried file source kind).1 hmem
  have hnormal := normal_fullPath file relative
  have hcomponents : Path.components p =
      Path.normalize (Path.joinComponents ((Path.parent? file).getD []) relative) := by
    rw [hfull, fullPath, Path.components_render hnormal]
  refine ⟨htried, hbefore, c.existsAt_eq fs p ▸ hex, ⟨path, relative, hpath, hc, happ, hcomponents⟩,
    ⟨hcomponents ▸ hnormal, ?_⟩, fun htext => hfull ▸ isText_fullPath htext relative, fun hdir => ?_⟩
  · rw [hfull, fullPath, Path.normalizeText_render hnormal]
  · have hfile : fs.isFile p = true := by rw [c.existsAt_eq, if_neg hdir] at hex; exact hex
    obtain ⟨fs', hremove⟩ := FileSystem.removeFile_of_isFile hfile
    refine ⟨fs', hremove, ?_⟩
    rw [resolve, r.find?_of_removeFile file source kind htried hbefore hremove, Option.map_map]
    rfl

theorem find?_eq_some_iff_finds {p : OsString} :
    r.find? fs file source kind = some p ↔
      ∃ before c after, r.Finds fs file source kind p before c after := by
  rw [find?_eq_some]
  constructor
  · rintro ⟨before, c, after, htried, hex, hbefore⟩
    exact ⟨before, c, after, r.finds_of_first fs file source kind htried hex hbefore⟩
  · rintro ⟨before, c, after, h⟩
    exact ⟨before, c, after, h.listed, c.existsAt_eq fs p ▸ h.found, h.first⟩

/-- **What resolving gives.** There is an answer exactly if the source names a path and a candidate
applies and exists. In a tree it exists if what it asks for stands where the path leads, unless that is
the working directory without a step. The answer shows the first candidate that exists, and names it if
and only if that path is a text, as it is if the path of the importing file is one. Only whether the
listed candidates exist counts. Of the dependencies that are reported in a language, by either route,
those with a path are local and show a path that exists, while nothing but these paths depends on
files. -/
theorem resolve_exact :
    ((r.resolve fs file source kind).isSome = true ↔
      ∃ path, r.naming.path? source kind = some path ∧ ∃ c ∈ r.candidates, ∃ relative,
        c.path? path = some relative ∧ c.existsAt fs (fullPath file relative) = true) ∧
    (fs.IsTree → ∀ (relative : String) (c : Candidate),
      c.existsAt fs (fullPath file relative) = true ↔
      (fullPath file relative).isEmpty = false ∧ ∃ e, c.wants e ∧ fs.stored? (fs.lexical
        (Path.joinComponents ((Path.parent? file).getD []) relative)) = some e) ∧
    (∀ shown, r.resolve fs file source kind = some shown ↔
      ∃ p before c after, r.Finds fs file source kind p before c after ∧ p.display = shown ∧
        (↑shown = p ↔ p.IsText)) ∧
    (∀ fs', (∀ x ∈ r.tried file source kind, x.1.existsAt fs x.2 = x.1.existsAt fs' x.2) →
      r.resolve fs file source kind = r.resolve fs' file source kind) ∧
    ∀ (t : Syntax.Tree) (c c' : Context) (options options' : Json),
      Extractor.supports c.language = true → c'.language = c.language →
      ∃ ds ds', Extractor.dependencies.execute t c options = .output (.dependencies ds) ∧
        Extractor.dependencies.execute t c' options' = .output (.dependencies ds') ∧
        (∀ d ∈ ds, ∀ q, d.resolvedPath = some q → d.isLocal = true ∧ c.files.Shows c.path q ∧
          (c.path.IsText → c.files.holds q = true)) ∧
        ds.map Dependency.unresolved = ds'.map Dependency.unresolved := by
  refine ⟨?_, fun h relative c => existsAt_fullPath h file relative c, fun shown => ⟨fun h => ?_, ?_⟩,
    fun fs' h => by rw [resolve, resolve, r.find?_congr file source kind h], ?_⟩
  · rw [resolve, find?_eq, Option.isSome_map, Option.isSome_map, List.find?_isSome]
    constructor
    · rintro ⟨⟨c, p⟩, hmem, hex⟩
      obtain ⟨path, relative, hpath, hc, happ, rfl⟩ := (r.mem_tried file source kind).1 hmem
      exact ⟨path, hpath, c, hc, relative, happ, hex⟩
    · rintro ⟨path, hpath, c, hc, relative, happ, hex⟩
      exact ⟨(c, fullPath file relative),
        (r.mem_tried file source kind).2 ⟨path, relative, hpath, hc, happ, rfl⟩, hex⟩
  · obtain ⟨p, hp, rfl⟩ := Option.map_eq_some_iff.1 h
    obtain ⟨before, c, after, hfinds⟩ := (r.find?_eq_some_iff_finds fs file source kind).1 hp
    exact ⟨p, before, c, after, hfinds, rfl, OsString.ofText_display_iff⟩
  · rintro ⟨p, before, c, after, hfinds, rfl, -⟩
    exact Option.map_eq_some_iff.2
      ⟨p, (r.find?_eq_some_iff_finds fs file source kind).2 ⟨before, c, after, hfinds⟩, rfl⟩
  · intro t c c' options options' hsupports hsame
    obtain ⟨route, hroute⟩ := Extractor.exists_route hsupports t
    refine ⟨_, _, Extractor.execute_dependenciesOn hroute options,
      Extractor.execute_dependenciesOn (hsame ▸ hroute) options', fun d hd q hq => ?_,
      Extractor.unresolved_dependenciesOn hsame t options options' route⟩
    obtain ⟨hlocal, hshows⟩ := Extractor.shows_dependenciesOn t c options route d hd q hq
    exact ⟨hlocal, hshows, hshows.holds⟩

/-- A script in two forms, imported from beside the working directory: the first is found, other files
do not matter, and the language is one in which dependencies are found. -/
theorem resolve_exact_two_forms :
    let r : Resolver := ⟨.asWritten, [.replace ".js" ".ts", .asIs]⟩
    let fs : FileSystem := ⟨[(["src"], .dir), (["src", "x.ts"], .file []), (["src", "x.js"], .file []),
      (["work"], .dir)], ["work"]⟩
    let more : FileSystem := fs.put ["src", "x"] .dir
    let t : Syntax.Tree := .plain "import './x.js'".toList
    (∃ p before c after, r.Finds fs "../src/a/../main.ts" "./x.js" .imports p before c after ∧
      p.display = "../src/x.ts" ∧ (↑"../src/x.ts" = p ↔ p.IsText)) ∧
    (Candidate.asIs.existsAt fs (fullPath "/src/main.ts" "./x.js") = true ↔
      (fullPath "/src/main.ts" "./x.js").isEmpty = false ∧
        ∃ e, Candidate.asIs.wants e ∧ fs.stored? (fs.lexical
          (Path.joinComponents ((Path.parent? "/src/main.ts").getD []) "./x.js")) = some e) ∧
    r.resolve fs "/src/main.ts" "./x.js" .imports = r.resolve more "/src/main.ts" "./x.js" .imports ∧
    ∃ ds ds',
      Extractor.dependencies.execute t ⟨"/src/main.ts", "typescript", fs⟩ .null =
        .output (.dependencies ds) ∧
      Extractor.dependencies.execute t ⟨"main.ts", "typescript", more⟩ .null =
        .output (.dependencies ds') ∧
      (∀ d ∈ ds, ∀ q, d.resolvedPath = some q → d.isLocal = true ∧ fs.Shows "/src/main.ts" q ∧
        ((↑"/src/main.ts" : OsString).IsText → fs.holds q = true)) ∧
      ds.map Dependency.unresolved = ds'.map Dependency.unresolved := by
  intro r fs more t
  have hanswer : r.resolve fs "../src/a/../main.ts" "./x.js" .imports = some "../src/x.ts" := by
    decide +kernel
  have htree : fs.IsTree := by decide +kernel
  have hexact := r.resolve_exact fs "/src/main.ts" "./x.js" .imports
  refine ⟨((r.resolve_exact fs _ _ _).2.2.1 _).1 hanswer, hexact.2.1 htree "./x.js" .asIs,
    hexact.2.2.2.1 more (by decide +kernel), ?_⟩
  exact hexact.2.2.2.2 t ⟨_, "typescript", fs⟩ ⟨_, "typescript", more⟩ .null .null (by decide +kernel)
    rfl

/-- Two answers that are not what they should be: a script in a directory whose name is not UTF-8 is
found but shown as a path at which there is nothing; and a package in the working directory is not
found from a directory in it, although packages further down are. -/
theorem shown_elsewhere :
    let dir : OsString := ⟨[0x64, 0xFF]⟩
    let fs : FileSystem := ⟨[([dir], .dir), ([dir, "util.ts"], .file []), (["sub"], .dir)], []⟩
    fs.IsTree ∧
    Language.Script.typescript.resolve fs (dir ++ "/main.ts") "./util" .imports = some "d\uFFFD/util.ts" ∧
    fs.holds "d\uFFFD/util.ts" = false ∧
    Language.Go.table.resolve fs "sub/main.go" ".." .imports = none ∧
    fs.stored? (fs.lexical (Path.joinComponents ((Path.parent? "sub/main.go").getD []) "..")) =
      some .dir ∧
    Language.Go.table.resolve fs "sub/deep/main.go" ".." .imports = some "sub" := by
  decide +kernel

end Resolver

end CodeSurvey
