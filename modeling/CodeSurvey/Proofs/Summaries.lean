import CodeSurvey.Proofs.Execution
import CodeSurvey.Proofs.Statements
import CodeSurvey.Proofs.Surface
import Mathlib.Data.List.Sort
/-!
# Summaries of dependencies conserve and ignore the order

A dictionary is determined by its look-ups (`Dict.eq_of_get?`), a tally by how often each word occurs
(`get?_tallyWords_eq_some`), and a sorted list by what it holds (`mem_sortedTexts`). None of them sees
in which order a list stands. The one pass of a summary gives its divisions (`ofDependencies_eq`). So it
counts every dependency once in each of them, and of the order it keeps that of the unresolved sources
alone (`ofDependencies_conserves`).
-/
namespace CodeSurvey

open Text

/-! ## Dictionaries -/

namespace Dict

variable {β : Type}

/-- A dictionary is determined by its look-ups. -/
theorem eq_of_get? {d e : Dict β} (h : ∀ k, d.get? k = e.get? k) : d = e := by
  have hmem : ∀ b, b ∈ d.entries ↔ b ∈ e.entries := by
    rintro ⟨k, v⟩
    rw [mem_iff_lookup d.ascending, mem_iff_lookup e.ascending]
    exact iff_of_eq (congrArg (· = some v) (h k))
  have hirrefl : Std.Irrefl fun a b : String × β => a.1 < b.1 := ⟨fun a => String.lt_irrefl a.1⟩
  have hantisymm : Std.Antisymm fun a b : String × β => a.1 < b.1 :=
    ⟨fun a b hab hba => absurd (String.lt_trans hab hba) (String.lt_irrefl a.1)⟩
  have hentries : d.entries = e.entries := d.ascending.eq_of_mem_iff e.ascending hmem
  cases d
  cases e
  cases hentries
  rfl

theorem pairwise_keys (d : Dict β) : d.keys.Pairwise (· < ·) := List.pairwise_map.2 d.ascending

end Dict

/-! ## Tallies and sorted texts -/

theorem tallyWords_concat (ws : List String) (w : String) :
    tallyWords (ws ++ [w]) = (tallyWords ws).insert w (((tallyWords ws).get? w).getD 0 + 1) := by
  rw [tallyWords, List.foldl_append]
  rfl

/-- A tally enters the words that occur, each with the number of its occurrences. -/
theorem get?_tallyWords_eq_some {ws : List String} {x : String} {n : Nat} :
    (tallyWords ws).get? x = some n ↔ 0 < n ∧ ws.count x = n := by
  induction ws using List.reverseRecOn with
  | nil =>
    have hnone : (tallyWords []).get? x = none := rfl
    rw [hnone, List.count_nil]
    constructor
    · intro h
      cases h
    · rintro ⟨hpos, hn⟩
      omega
  | append_singleton ws w ih =>
    rw [tallyWords_concat, Dict.get?_insert, List.count_append, get?_tallyWords]
    by_cases hx : x = w
    · subst hx
      rw [if_pos rfl, List.count_singleton_self, Option.some.injEq]
      omega
    · rw [if_neg hx, List.count_singleton, if_neg (by simpa using Ne.symm hx), ih, Nat.add_zero]

theorem tallyWords_perm {xs ys : List String} (h : xs.Perm ys) : tallyWords xs = tallyWords ys := by
  refine Dict.eq_of_get? fun x => Option.ext fun n => ?_
  rw [get?_tallyWords_eq_some, get?_tallyWords_eq_some, h.count_eq]

/-- Texts without repetition, in ascending order. -/
def sortedTexts (xs : List String) : List String := (Dict.ofList (xs.map fun x => (x, ()))).keys

theorem mem_sortedTexts {xs : List String} {x : String} : x ∈ sortedTexts xs ↔ x ∈ xs := by
  rw [sortedTexts, Dict.mem_keys_ofList, List.map_map]
  exact iff_of_eq (congrArg (x ∈ ·) (List.map_id xs))

theorem sortedTexts_ascending (xs : List String) : (sortedTexts xs).Pairwise (· < ·) :=
  Dict.pairwise_keys _

theorem sortedTexts_perm {xs ys : List String} (h : xs.Perm ys) :
    sortedTexts xs = sortedTexts ys := by
  refine (sortedTexts_ascending xs).eq_of_mem_iff (sortedTexts_ascending ys) fun x => ?_
  rw [mem_sortedTexts, mem_sortedTexts, h.mem_iff]

/-! ## Dependencies -/

theorem DependencyKind.word_injective {k j : DependencyKind} (h : k.word = j.word) : k = j := by
  revert h
  cases k <;> cases j <;> decide

/-- Sources that are not blank, and no others, belong to a package. -/
theorem packageOf?_isSome {language source : String} :
    (packageOf? language source).isSome ↔ ¬ Blank source.toList := by
  unfold packageOf?
  rw [← trim_eq_nil_iff, ← List.isEmpty_iff]
  by_cases hempty : (trim source.toList).isEmpty = true
  · simp only [hempty, if_true, Option.isSome_none, Bool.false_eq_true, not_true]
  · simp only [hempty, Bool.false_eq_true, if_false, Option.isSome_some, not_false_eq_true]

namespace Dependency

/-- Whether a dependency names no path and is local. -/
def isMissing (d : Dependency) : Bool := d.resolvedPath.isNone && d.isLocal

/-- Whether a dependency names a path and is local. -/
def isFound (d : Dependency) : Bool := d.resolvedPath.isSome && d.isLocal

end Dependency

namespace DependencySummary

/-- A summary accounts for dependencies of a language: each counts once under its kind, once as
local or external, and once more, if it is local, as resolved or not. -/
structure Accounts (language : String) (ds : List Dependency) (s : DependencySummary) : Prop where
  total : s.total = ds.length
  localCount : s.localCount = ds.countP (·.isLocal)
  resolved : s.resolved = ds.countP (·.isFound)
  unresolvedLocal : s.unresolvedLocal = ds.countP (·.isMissing)
  /-- The kinds that occur are entered, each with the number of its dependencies. -/
  byKind : ∀ w n, s.byKind.get? w = some n ↔
    0 < n ∧ ∃ k : DependencyKind, k.word = w ∧ ds.countP (·.kind = k) = n
  total_eq_kinds : s.total = (s.byKind.entries.map (·.2)).sum
  total_eq_local : s.total = s.localCount + s.external
  local_eq_resolved : s.localCount = s.resolved + s.unresolvedLocal
  unresolved : s.unresolved = (ds.filter (·.isMissing)).map (·.source)
  length_unresolved : s.unresolved.length = s.unresolvedLocal
  ascending : s.externalPackages.Pairwise (· < ·)
  /-- The packages are those of the external dependencies whose source is not blank. -/
  mem_packages : ∀ p, p ∈ s.externalPackages ↔
    ∃ d ∈ ds, d.isLocal = false ∧ ¬ Blank d.source.toList ∧ packageOf? language d.source = some p
  /-- None of these dependencies is without a package. -/
  package_listed : ∀ d ∈ ds, d.isLocal = false → ¬ Blank d.source.toList →
    ∃ p ∈ s.externalPackages, packageOf? language d.source = some p

variable (language : String) (ds : List Dependency)

/-- The divisions of dependencies one by one: the summary without its one pass. -/
def divided : DependencySummary :=
  let locals := ds.filter (·.isLocal)
  let externals := ds.filter fun d => !d.isLocal
  let missing := locals.filter fun d => d.resolvedPath.isNone
  { total := ds.length
    byKind := tallyWords (ds.map (·.kind.word))
    localCount := locals.length
    external := externals.length
    resolved := (locals.filter fun d => d.resolvedPath.isSome).length
    unresolvedLocal := missing.length
    externalPackages := sortedTexts (externals.filterMap fun d => packageOf? language d.source)
    unresolved := missing.map (·.source) }

/-- What the pass has gathered: the divisions so far, and the packages apart. -/
theorem foldl_add (total : Nat) :
    ds.foldl (add language) (start total, .empty) =
      ({ divided language ds with total := total, externalPackages := [] },
        .ofList (((ds.filter fun d => !d.isLocal).filterMap fun d => packageOf? language d.source).map
          fun p => (p, ()))) := by
  induction ds using List.reverseRecOn with
  | nil => rfl
  | append_singleton ds d ih =>
    rw [List.foldl_append, ih]
    have hcount : countWord (tallyWords (ds.map (·.kind.word))) d.kind.word =
        tallyWords ((ds ++ [d]).map (·.kind.word)) := by
      rw [List.map_append]
      exact (tallyWords_concat _ _).symm
    cases hlocal : d.isLocal with
    | true => cases hpath : d.resolvedPath <;> simp [add, divided, hlocal, hpath, hcount]
    | false =>
      cases hpackage : packageOf? language d.source with
      | none => simp [add, divided, hlocal, hpackage, hcount]
      | some p => simp [add, divided, hlocal, hpackage, hcount, Dict.ofList_concat]

/-- **The pass gives the divisions.** -/
theorem ofDependencies_eq : ofDependencies language ds = divided language ds := by
  rw [ofDependencies, foldl_add]
  rfl

theorem mem_externalPackages {p : String} :
    p ∈ (divided language ds).externalPackages ↔
      ∃ d ∈ ds, d.isLocal = false ∧ packageOf? language d.source = some p := by
  simp only [divided, mem_sortedTexts, List.mem_filterMap, List.mem_filter,
    Bool.not_eq_true', and_assoc]

theorem get?_byKind {w : String} {n : Nat} :
    (divided language ds).byKind.get? w = some n ↔
      0 < n ∧ ∃ k : DependencyKind, k.word = w ∧ ds.countP (·.kind = k) = n := by
  have hcount : ∀ k : DependencyKind,
      (ds.map (·.kind.word)).count k.word = ds.countP (·.kind = k) := by
    intro k
    rw [List.count, List.countP_map]
    refine List.countP_congr fun d _ => ?_
    simpa using ⟨DependencyKind.word_injective, congrArg DependencyKind.word⟩
  refine get?_tallyWords_eq_some.trans (and_congr_right fun hpos => ⟨?_, ?_⟩)
  · intro hn
    have hmem : w ∈ ds.map (·.kind.word) := List.count_pos_iff.1 (hn ▸ hpos)
    obtain ⟨d, -, rfl⟩ := List.mem_map.1 hmem
    exact ⟨d.kind, rfl, (hcount d.kind).symm.trans hn⟩
  · rintro ⟨k, rfl, hn⟩
    exact (hcount k).trans hn

theorem accounts_divided : Accounts language ds (divided language ds) where
  total := rfl
  localCount := List.countP_eq_length_filter.symm
  resolved := (congrArg List.length List.filter_filter).trans List.countP_eq_length_filter.symm
  unresolvedLocal :=
    (congrArg List.length List.filter_filter).trans List.countP_eq_length_filter.symm
  byKind _ _ := get?_byKind language ds
  total_eq_kinds := (List.length_map _).symm.trans (sum_tallyWords _).symm
  total_eq_local := List.length_eq_length_filter_add fun d : Dependency => d.isLocal
  local_eq_resolved := by
    have hsplit := List.length_eq_length_filter_add (l := ds.filter (·.isLocal))
      fun d => d.resolvedPath.isSome
    simp only [Option.not_isSome] at hsplit
    exact hsplit
  unresolved := congrArg (List.map fun d : Dependency => d.source) List.filter_filter
  length_unresolved := List.length_map _
  ascending := sortedTexts_ascending _
  mem_packages p := by
    rw [mem_externalPackages]
    refine exists_congr fun d => and_congr_right fun _ => and_congr_right fun _ => ?_
    exact ⟨fun hp => ⟨packageOf?_isSome.1 (Option.isSome_of_eq_some hp), hp⟩, And.right⟩
  package_listed d hd hlocal hsource := by
    obtain ⟨p, hp⟩ := Option.isSome_iff_exists.1 (packageOf?_isSome.2 hsource)
    exact ⟨p, (mem_externalPackages language ds).2 ⟨d, hd, hlocal, hp⟩, hp⟩

variable {ds}

theorem unresolved_perm {ds' : List Dependency} (h : ds.Perm ds') :
    (divided language ds').unresolved.Perm (divided language ds).unresolved :=
  (((h.filter _).filter _).map _).symm

theorem divided_perm {ds' : List Dependency} (h : ds.Perm ds') :
    divided language ds' =
      { divided language ds with
        unresolved := (divided language ds').unresolved } := by
  simp only [divided, mk.injEq]
  refine ⟨h.length_eq.symm, (tallyWords_perm (h.map _)).symm, ?_, ?_, ?_, ?_, ?_, trivial⟩
  · exact (h.filter _).length_eq.symm
  · exact (h.filter _).length_eq.symm
  · exact ((h.filter _).filter _).length_eq.symm
  · exact ((h.filter _).filter _).length_eq.symm
  · exact (sortedTexts_perm ((h.filter _).filterMap _)).symm

/-- **Summaries conserve and ignore the order.** A summary accounts for its dependencies, and that of
the same dependencies in another order differs in the order of the unresolved sources alone. -/
theorem ofDependencies_conserves (language : String) (ds : List Dependency) :
    Accounts language ds (ofDependencies language ds) ∧
      ∀ ds' : List Dependency, ds.Perm ds' →
        ∃ us : List String, us.Perm (ofDependencies language ds).unresolved ∧
          us = (ds'.filter (·.isMissing)).map (·.source) ∧
          ofDependencies language ds' = { ofDependencies language ds with unresolved := us } := by
  simp only [ofDependencies_eq]
  refine ⟨accounts_divided language ds, fun ds' h => ?_⟩
  exact ⟨_, unresolved_perm language h, (accounts_divided language ds').unresolved,
    divided_perm language h⟩

-- the order of the packages is their own, that of the unresolved sources is the one of the list
example :
    let ds : List Dependency :=
      [⟨"os.path", .imports, false, 1, none⟩, ⟨".b", .imports, true, 2, none⟩,
        ⟨" ", .imports, false, 3, none⟩, ⟨".a", .uses, true, 4, none⟩,
        ⟨"json", .imports, false, 5, none⟩]
    (ofDependencies "python" ds).externalPackages = ["json", "os"] ∧
      (ofDependencies "python" ds).unresolved = [".b", ".a"] ∧
      (ofDependencies "python" ds).byKind.get? "import" = some 4 := by
  decide +kernel

end DependencySummary

end CodeSurvey
