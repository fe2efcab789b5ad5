import CodeSurvey.Plugin.Extractors
import CodeSurvey.Proofs.OsString
/-!
# Extracted facts pass their checks

Every built-in extractor judges its own output. Dependencies stand on lines, and the paths that they
resolve to are those of something that exists, as they are shown (`proper_settle`, `proper_scanned`).
So the judgement on them is about what is shown (`acceptsDependencies_iff`), and favourable if the path
of the file is a text (`grounded_of_proper`). No two gathered exports have one key
(`Export.nodup_gather`), and complexity counts on from one (`Surveyor.Reliable`). So each extractor has
an output on every tree of a known language, by either route.
-/
namespace CodeSurvey

/-! ## Lines -/

/-- The first line starts at zero, so every offset has a line. -/
theorem Text.LineIndex.line_pos (s : List Char) (offset : Nat) : 0 < (ofText s).line offset := by
  simp [line, ofText]

/-! ## Resolved paths exist -/

theorem Candidate.holds_of_existsAt {fs : FileSystem} {path : OsString} {c : Candidate}
    (h : c.existsAt fs path = true) : fs.holds path = true := by
  cases hf : fs.find path with
  | ok entry => simp [FileSystem.holds, hf, Except.isOk, Except.toBool]
  | error e => cases c <;> simp [existsAt, FileSystem.isDir, FileSystem.isFile, hf] at h

namespace Resolver

variable {fs : FileSystem} {file full : OsString}

/-- What is taken from a path that is a text is one, too. -/
theorem isText_fullPath (h : file.IsText) (relative : String) : (fullPath file relative).IsText := by
  refine Path.TextNames.isText_render (Path.TextNames.normalize fun s hs => ?_)
  have hrelative (hs : .name s ∈ Path.components relative) : s.IsText :=
    Path.isText_of_mem_components (OsString.isText_ofText relative) hs
  unfold Path.joinComponents at hs
  split at hs
  · exact hrelative hs
  · rcases List.mem_append.1 hs with hs | hs
    · exact Path.isText_of_mem_components h (Path.mem_of_mem_parent hs)
    · exact hrelative hs

theorem probe_eq_some {path : String} {c : Candidate} :
    probe fs file path c = some full ↔ ∃ relative, c.path? path = some relative ∧
      full = fullPath file relative ∧ c.existsAt fs full = true := by
  unfold probe
  rw [Option.bind_eq_some_iff]
  refine exists_congr fun relative => and_congr_right fun _ => ?_
  dsimp only
  split
  · rename_i hexists
    exact ⟨fun h => ⟨(Option.some.inj h).symm, (Option.some.inj h) ▸ hexists⟩, fun h => h.1 ▸ rfl⟩
  · rename_i hnone
    exact ⟨fun h => (by cases h), fun h => absurd (h.1 ▸ h.2) hnone⟩

/-- What is found exists, and it is a text if the path of the importing file is one. -/
theorem exists_of_find? {r : Resolver} {source : String} {kind : DependencyKind}
    (h : r.find? fs file source kind = some full) :
    fs.holds full = true ∧ (file.IsText → full.IsText) := by
  obtain ⟨path, -, h⟩ := Option.bind_eq_some_iff.1 h
  obtain ⟨c, -, h⟩ := List.exists_of_findSome?_eq_some h
  obtain ⟨relative, -, rfl, hexists⟩ := probe_eq_some.1 h
  exact ⟨Candidate.holds_of_existsAt hexists, fun htext => isText_fullPath htext relative⟩

end Resolver

/-- A text that shows a path that exists, which is a text itself if the path of the file is one. -/
def FileSystem.Shows (fs : FileSystem) (file : OsString) (shown : String) : Prop :=
  ∃ full : OsString, full.display = shown ∧ fs.holds full = true ∧ (file.IsText → full.IsText)

theorem FileSystem.Shows.holds {fs : FileSystem} {file : OsString} {shown : String}
    (h : fs.Shows file shown) (htext : file.IsText) : fs.holds shown = true := by
  obtain ⟨full, rfl, hfull, hsame⟩ := h
  rwa [OsString.ofText_display_iff.2 (hsame htext)]

theorem Language.shows_of_resolve {l : Language} {fs : FileSystem} {file : OsString}
    {source shown : String} {kind : DependencyKind}
    (h : l.resolve fs file source kind = some shown) : fs.Shows file shown := by
  obtain ⟨r, -, h⟩ := Option.bind_eq_some_iff.1 h
  obtain ⟨full, hfull, rfl⟩ := Option.map_eq_some_iff.1 h
  exact ⟨full, rfl, Resolver.exists_of_find? hfull⟩

/-! ## Dependencies -/

/-- A dependency of a file stands on a line, and its path is local and shows one that exists. -/
structure Dependency.Proper (fs : FileSystem) (file : OsString) (d : Dependency) : Prop where
  line_pos : 0 < d.line
  isLocal : ∀ p, d.resolvedPath = some p → d.isLocal = true
  shows : ∀ p, d.resolvedPath = some p → fs.Shows file p

/-- The paths of dependencies exist as they are shown. -/
def Grounded (fs : FileSystem) (ds : List Dependency) : Prop :=
  ∀ d ∈ ds, ∀ p ∈ d.resolvedPath, fs.holds p = true

instance (fs : FileSystem) (ds : List Dependency) : Decidable (Grounded fs ds) :=
  inferInstanceAs (Decidable (∀ d ∈ ds, _))

theorem grounded_of_proper {fs : FileSystem} {file : OsString} {ds : List Dependency}
    (h : ∀ d ∈ ds, d.Proper fs file) (htext : file.IsText) : Grounded fs ds :=
  fun d hd p hp => ((h d hd).shows p hp).holds htext

/-- **The check of proper dependencies** is whether their paths exist as they are shown. -/
theorem acceptsDependencies_iff {fs : FileSystem} {file : OsString} {ds : List Dependency}
    (h : ∀ d ∈ ds, d.Proper fs file) :
    Extractor.acceptsDependencies fs (.dependencies ds) = true ↔ Grounded fs ds := by
  simp only [Extractor.acceptsDependencies, FactSet.dependencies?, Option.any_some, List.all_eq_true,
    Bool.and_eq_true, decide_eq_true_eq]
  refine forall₂_congr fun d hd => ?_
  cases hp : d.resolvedPath with
  | none => simp [(h d hd).line_pos]
  | some p => simp [(h d hd).line_pos, (h d hd).isLocal p hp]

/-- What a tree names as a dependency is settled properly. -/
theorem proper_settle {c : Context} {resolve : Bool} {d : DependencySite} (hline : 0 < d.line) :
    (Extractor.settle c resolve d).Proper c.files c.path := by
  refine ⟨hline, fun p hp => ?_, fun p hp => ?_⟩ <;> simp only [Extractor.settle] at hp ⊢ <;>
    split at hp
  · rename_i hlocal
    exact (Bool.and_eq_true_iff.1 hlocal).1
  · cases hp
  · obtain ⟨l, -, hp⟩ := Option.bind_eq_some_iff.1 hp
    exact Language.shows_of_resolve hp
  · cases hp

theorem mem_byOffset {α : Type} {xs : List (Nat × α)} {x : α} :
    x ∈ Scan.byOffset xs ↔ ∃ offset, (offset, x) ∈ xs := by
  simp [Scan.byOffset, List.mem_mergeSort]

/-- What patterns find as dependencies is proper. -/
theorem proper_scanned (l : Language) (source : List Char) (fs : FileSystem) (file : OsString) :
    ∀ d ∈ (Scan.ofSource l source).dependencies fs file, d.Proper fs file := by
  intro d hd
  obtain ⟨offset, hd⟩ := mem_byOffset.1 hd
  obtain ⟨rule, -, hd⟩ := List.mem_flatMap.1 hd
  obtain ⟨m, -, hd⟩ := List.mem_flatMap.1 hd
  split at hd
  · cases hd
  · obtain ⟨⟨cs, o⟩, -, hd⟩ := List.mem_map.1 hd
    obtain ⟨rfl, rfl⟩ := Prod.mk.inj hd
    refine ⟨Text.LineIndex.line_pos source _, fun p hp => ?_, fun p hp => ?_⟩ <;>
      dsimp only at hp ⊢ <;> split at hp
    · assumption
    · cases hp
    · exact Language.shows_of_resolve hp
    · cases hp

/-! ## Exports -/

namespace Export

theorem key_keep {kept : List Export} {e : Export} :
    (keep kept e).map key = if e.key ∈ kept.map key then kept.map key else kept.map key ++ [e.key] := by
  induction kept with
  | nil => simp [keep]
  | cons k ks ih =>
    unfold keep
    split
    · rename_i hk
      have hsame : { k with isDefault := k.isDefault || e.isDefault }.key = k.key := rfl
      rw [List.map_cons, List.map_cons, hsame, hk, if_pos List.mem_cons_self]
    · rename_i hk
      simp only [List.map_cons, ih, List.mem_cons, Ne.symm hk, false_or]
      split <;> simp

theorem nodup_foldl_keep {all kept : List Export} (h : (kept.map key).Nodup) :
    ((all.foldl keep kept).map key).Nodup := by
  induction all generalizing kept with
  | nil => exact h
  | cons e es ih =>
    refine ih ?_
    rw [key_keep]
    split
    · exact h
    · rename_i hnew
      refine List.nodup_append.2 ⟨h, by simp, ?_⟩
      rintro k hk k' hk' rfl
      exact hnew (List.mem_singleton.1 hk' ▸ hk)

/-- **No two gathered exports have one key.** -/
theorem nodup_gather (all : List Export) : ((gather all).exports.map key).Nodup :=
  nodup_foldl_keep List.nodup_nil

/-- There is one class for each export of a class. -/
theorem length_classes_gather (all : List Export) :
    (gather all).classes.length = ((gather all).exports.filter (·.kind = .classType)).length :=
  List.length_map _

end Export

/-! ## Functions -/

/-- A surveyor places dependencies on the lines of nodes and counts complexity on from one. -/
structure Surveyor.Reliable (s : Surveyor) : Prop where
  line : ∀ t, ∀ d ∈ s.dependencies t, ∃ n, d.line = t.line n
  complexity : ∀ t, ∀ f ∈ s.functions t, 1 ≤ f.complexity

theorem Surveyor.one_le_complexity {t : Syntax.Tree} {branches : List Syntax.Branch}
    {exports : List Export} {sites : List FunctionNode} :
    ∀ f ∈ measureAll t branches exports sites, 1 ≤ f.complexity := by
  intro f hf
  obtain ⟨site, -, rfl⟩ := List.mem_map.1 hf
  exact Nat.le_add_right 1 _

theorem Surveyor.reliable_go : Go.surveyor.Reliable := by
  refine ⟨fun t d hd => ?_, fun t => one_le_complexity⟩
  obtain ⟨n, -, rfl⟩ := List.mem_map.1 hd
  exact ⟨n, rfl⟩

theorem Surveyor.reliable_java : Java.surveyor.Reliable := by
  refine ⟨fun t d hd => ?_, fun t => one_le_complexity⟩
  obtain ⟨n, -, hd⟩ := List.mem_filterMap.1 hd
  cases hfirst : n.firstNamed? with
  | none => simp [Java.import?, hfirst] at hd
  | some path =>
    by_cases hkind : (n.kind != "import_declaration") = true
    · simp [Java.import?, hkind] at hd
    · simp only [Java.import?, hkind, hfirst] at hd
      exact ⟨n, Option.some.inj hd ▸ rfl⟩

theorem Surveyor.reliable_python : Python.surveyor.Reliable := by
  refine ⟨fun t d hd => ?_, fun t => one_le_complexity⟩
  obtain ⟨n, -, rfl⟩ := List.mem_map.1 hd
  exact ⟨n, rfl⟩

theorem Surveyor.reliable_rust : Rust.surveyor.Reliable := by
  refine ⟨fun t d hd => ?_, fun t => one_le_complexity⟩
  obtain ⟨site, -, hd⟩ := List.mem_filterMap.1 hd
  obtain ⟨x, -, rfl⟩ := Option.map_eq_some_iff.1 hd
  exact ⟨site.node, rfl⟩

theorem Surveyor.reliable_script (language : String) : (Script.surveyor language).Reliable := by
  refine ⟨fun t d hd => ?_, fun t => one_le_complexity⟩
  obtain ⟨site, -, hd⟩ := List.mem_filterMap.1 hd
  obtain ⟨⟨source, kind⟩, -, rfl⟩ := Option.map_eq_some_iff.1 hd
  exact ⟨source, rfl⟩

/-- **All surveyors are reliable.** -/
theorem Surveyor.reliable_of_find {language : String} {s : Surveyor}
    (h : Surveyor.find? language = some s) : s.Reliable := by
  have hmem := List.mem_of_find?_eq_some h
  simp only [Surveyor.all, List.mem_cons, List.not_mem_nil, or_false] at hmem
  rcases hmem with rfl | rfl | rfl | rfl | rfl | rfl
  · exact reliable_go
  · exact reliable_java
  · exact reliable_script _
  · exact reliable_python
  · exact reliable_rust
  · exact reliable_script _

theorem acceptsFunctions_of_le {fs : List FunctionFact} (h : ∀ f ∈ fs, 1 ≤ f.complexity) :
    Extractor.acceptsFunctions (.functions fs) = true := by
  simpa [Extractor.acceptsFunctions, FactSet.functions?] using h

/-- Functions that patterns find have complexity one. -/
theorem Scan.one_le_complexity (sc : Scan) (exported : List String) (classes : List ClassSite) :
    ∀ f ∈ sc.functions exported classes, 1 ≤ f.complexity := by
  intro f hf
  obtain ⟨offset, hf⟩ := mem_byOffset.1 hf
  obtain ⟨⟨m, sp⟩, -, hf⟩ := List.mem_map.1 hf
  obtain ⟨-, rfl⟩ := Prod.mk.inj hf
  exact Nat.le_refl 1

/-! ## Extractors -/

namespace Extractor

open Syntax

/-- In a language with a table an extractor has an output, by one of its two routes. -/
theorem execute_ofRoutes {c : Context} (h : (Language.find? c.language).isSome = true)
    (grammar : Surveyor → Tree → Context → Json → FactSet) (table : Scan → Context → Json → FactSet)
    (accepts : FileSystem → FactSet → Bool) (t : Tree) (options : Json) :
    (∃ s, Surveyor.find? c.language = some s ∧
      (ofRoutes grammar table accepts).execute t c options = .output (grammar s t c options)) ∨
    ∃ l, (ofRoutes grammar table accepts).execute t c options =
      .output (table (Scan.ofSource l t.source) c options) := by
  obtain ⟨l, hl⟩ := Option.isSome_iff_exists.1 h
  have htable (hroute : route? t c.language = some (.table l)) :
      (ofRoutes grammar table accepts).execute t c options =
        .output (table (Scan.ofSource l t.source) c options) := by
    simp only [ofRoutes, hroute]
  cases hs : Surveyor.find? c.language with
  | none => exact .inr ⟨l, htable (by simp [route?, hs, hl])⟩
  | some s =>
    cases hp : t.isPlain with
    | true => exact .inr ⟨l, htable (by simp [route?, hp, hl])⟩
    | false => exact .inl ⟨s, rfl, by simp [ofRoutes, route?, hs, hp]⟩

theorem supports_of_find? {language : String} (h : (Language.find? language).isSome = true) :
    supports language = true := by
  simp [supports, h]

variable {c : Context} (hc : (Language.find? c.language).isSome = true) (t : Tree) (options : Json)
include hc

theorem execute_dependencies (ht : t.lines = .ofText t.source) :
    ∃ ds, dependencies.execute t c options = .output (.dependencies ds) ∧
      ∀ d ∈ ds, d.Proper c.files c.path := by
  obtain ⟨s, hs, hout⟩ | ⟨l, hout⟩ := execute_ofRoutes hc _ _ _ t options
  · refine ⟨_, hout, fun d hd => ?_⟩
    obtain ⟨site, hsite, rfl⟩ := List.mem_map.1 hd
    obtain ⟨n, hn⟩ := (Surveyor.reliable_of_find hs).line t site hsite
    refine proper_settle ?_
    rw [hn, Tree.line, ht]
    exact Text.LineIndex.line_pos _ _
  · refine ⟨_, hout, fun d hd => ?_⟩
    have hproper := proper_scanned l t.source c.files c.path
    split at hd
    · exact hproper d hd
    · obtain ⟨found, hfound, rfl⟩ := List.mem_map.1 hd
      exact ⟨(hproper found hfound).line_pos, fun _ h => (by cases h), fun _ h => (by cases h)⟩

theorem execute_exports :
    ∃ all, exports.execute t c options = .output (.exports (Export.gather all)) := by
  obtain ⟨s, -, hout⟩ | ⟨l, hout⟩ := execute_ofRoutes hc _ _ _ t options <;> exact ⟨_, hout⟩

theorem execute_functions :
    ∃ fs, functions.execute t c options = .output (.functions fs) ∧ ∀ f ∈ fs, 1 ≤ f.complexity := by
  obtain ⟨s, hs, hout⟩ | ⟨l, hout⟩ := execute_ofRoutes hc _ _ _ t options
  · exact ⟨_, hout, (Surveyor.reliable_of_find hs).complexity t⟩
  · exact ⟨_, hout, Scan.one_le_complexity _ _ _⟩

theorem execute_classes :
    ∃ cs, classes.execute t c options = .output (.classes cs) := by
  obtain ⟨s, -, hout⟩ | ⟨l, hout⟩ := execute_ofRoutes hc _ _ _ t options <;> exact ⟨_, hout⟩

theorem execute_identifiers :
    ∃ is, identifiers.execute t c options = .output (.identifiers is) := by
  obtain ⟨s, -, hout⟩ | ⟨l, hout⟩ := execute_ofRoutes hc _ _ _ t options <;> exact ⟨_, hout⟩

theorem execute_comments :
    ∃ f, comments.execute t c options = .output (.comments f) := by
  obtain ⟨s, -, hout⟩ | ⟨l, hout⟩ := execute_ofRoutes hc _ _ _ t options <;> exact ⟨_, hout⟩

end Extractor

end CodeSurvey
