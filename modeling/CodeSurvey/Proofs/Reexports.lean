import CodeSurvey.Proofs.Statements
import Mathlib.Data.List.Forall2
/-!
# Adding re-exports

Exports that are known stay in front, as they are, and every export behind them comes from a
statement of the text (`exists_makes`). A name that is known is not added. The names of members
count as known, so a name that only members have stays without an export of the module itself, and
this is the only way in which a name is lost (`exported_addReexports_iff`).
-/
namespace CodeSurvey.Export

open Text Pattern

/-! ## What a statement adds -/

/-- A name that a statement exports: one of its list, or the one that stands for everything. -/
inductive Statement.Offers {s : List Char} (st : Statement s) : List Char → Prop
  | listed {names entry name : List Char} (hclause : ListClause st.clause names)
      (hentry : entry ∈ splitAt ',' names) (hname : specifierName? entry = some name) :
      Offers st name
  | all (hclause : StarClause st.clause none) : Offers st ("* from ".toList ++ st.module)
  | renamed {name : List Char} (hclause : StarClause st.clause (some name)) : Offers st name

/-- An export that a statement adds. -/
structure Statement.Adds {s : List Char} (ix : LineIndex) (st : Statement s) (e : Export) :
    Prop where
  name : st.Offers e.name.toList
  kind : e.kind = .reExport
  source : e.source = some (String.ofList st.module)
  location : e.location = .ofOffsets ix st.start st.stop
  parentClass : e.parentClass = none
  isDefault : e.isDefault = false

variable {s : List Char} {ix : LineIndex}

/-- Where the keyword of a match stands, behind its leading blanks. -/
def keywordOf (s : List Char) (m : Match) : Nat :=
  m.start + size ((slice m.start m.stop s).takeWhile isBlank)

theorem Statement.FoundBy.keywordOf_eq {st : Statement s} {m : Match} (h : st.FoundBy m) :
    keywordOf s m = st.keyword := by
  rw [keywordOf, Match.start, Match.stop, h.span, st.slice_eq, st.takeWhile_text, Statement.keyword]

/-- A re-export comes from a statement: it adds the export, and the offsets are its own. -/
structure Statement.Makes {s : List Char} (ix : LineIndex) (st : Statement s) (r : Reexport) :
    Prop where
  adds : st.Adds ix r.value
  offset : st.start = r.offset
  keyword : st.keyword = r.keyword

theorem Statement.FoundBy.makes {st : Statement s} {m : Match} (h : st.FoundBy m)
    {name : List Char} (hname : st.Offers name) (declaration : String) :
    st.Makes ix (reexportOf ix s m declaration name) := by
  refine ⟨⟨?_, rfl, ?_, ?_, rfl, rfl⟩, ?_, h.keywordOf_eq.symm⟩
  · simpa [reexportOf] using hname
  · simp [reexportOf, h.module]
  · simp [reexportOf, Match.start, Match.stop, h.span]
  · simp [reexportOf, Match.start, h.span]

/-- Every re-export found in a text is made by a statement of it. -/
theorem exists_makes {r : Reexport} (h : r ∈ namedReexports ix s ++ wildcardReexports ix s) :
    ∃ st : Statement s, st.Makes ix r := by
  rcases List.mem_append.1 h with h | h
  · obtain ⟨m, hm, h⟩ := List.mem_flatMap.1 h
    obtain ⟨name, hname, rfl⟩ := List.mem_map.1 h
    obtain ⟨entry, hentry, hspec⟩ := List.mem_filterMap.1 hname
    obtain ⟨st, hfound, hclause⟩ := exists_listStatement hm
    exact ⟨st, hfound.makes (.listed hclause hentry hspec) _⟩
  · obtain ⟨m, hm, rfl⟩ := List.mem_map.1 h
    obtain ⟨st, hfound, hclause⟩ := exists_starStatement hm
    refine ⟨st, hfound.makes ?_ _⟩
    cases hgroup : m.group? "alias" with
    | some sp =>
      rw [hgroup] at hclause
      exact .renamed hclause
    | none =>
      rw [hgroup] at hclause
      simp only [hfound.module]
      exact .all hclause

/-! ## New names -/

section

variable {known : List String} {rs : List Reexport}

/-- Names that are taken are new, each once. -/
theorem names_takeNew : ((takeNew known rs).map (·.value.name)).Nodup ∧
    ∀ r ∈ takeNew known rs, r.value.name ∉ known := by
  induction rs generalizing known with
  | nil => simp [takeNew]
  | cons r rs ih =>
    rw [takeNew]
    by_cases hknown : r.value.name ∈ known
    · rw [if_pos (List.contains_iff_mem.2 hknown)]
      exact ih
    · rw [if_neg (by simpa using hknown)]
      obtain ⟨hnodup, hnew⟩ := @ih (r.value.name :: known)
      constructor
      · rw [List.map_cons, List.nodup_cons]
        refine ⟨?_, hnodup⟩
        intro hmem
        obtain ⟨x, hx, hname⟩ := List.mem_map.1 hmem
        exact hnew x hx (by simp [hname])
      · intro x hx
        rcases List.mem_cons.1 hx with rfl | hx
        · exact hknown
        · exact fun hmem => hnew x hx (List.mem_cons_of_mem _ hmem)

/-- No name is left out. -/
theorem mem_names_takeNew {r : Reexport} (h : r ∈ rs) :
    r.value.name ∈ known ∨ ∃ x ∈ takeNew known rs, x.value.name = r.value.name := by
  induction rs generalizing known with
  | nil => cases h
  | cons y rs ih =>
    rw [takeNew]
    by_cases hknown : y.value.name ∈ known
    · rw [if_pos (List.contains_iff_mem.2 hknown)]
      rcases List.mem_cons.1 h with rfl | h
      · exact .inl hknown
      · exact ih h
    · rw [if_neg (by simpa using hknown)]
      rcases List.mem_cons.1 h with rfl | h
      · exact .inr ⟨r, List.mem_cons_self, rfl⟩
      · rcases @ih (y.value.name :: known) h with hmem | ⟨x, hx, hname⟩
        · rcases List.mem_cons.1 hmem with hname | hmem
          · exact .inr ⟨y, List.mem_cons_self, hname.symm⟩
          · exact .inl hmem
        · exact .inr ⟨x, List.mem_cons_of_mem _ hx, hname⟩

theorem takeNew_of_known (h : ∀ r ∈ rs, r.value.name ∈ known) : takeNew known rs = [] := by
  induction rs with
  | nil => rfl
  | cons r rs ih =>
    rw [takeNew, if_pos (List.contains_iff_mem.2 (h r List.mem_cons_self))]
    exact ih fun x hx => h x (List.mem_cons_of_mem _ hx)

end

/-! ## Adding -/

/-- An offset counts if there are no anchors or it is one of them. -/
def Anchored (anchors : Option (List Nat)) (offset : Nat) : Prop :=
  ∀ offsets, anchors = some offsets → offset ∈ offsets

/-- The re-exports of a text that count. -/
def anchoredReexports (s : List Char) (ix : LineIndex) (anchors : Option (List Nat)) :
    List Reexport :=
  (namedReexports ix s ++ wildcardReexports ix s).filter fun r => anchors.all (·.contains r.keyword)

/-- The re-exports that are added to some exports. -/
def newReexports (s : List Char) (ix : LineIndex) (anchors : Option (List Nat))
    (exports : List Export) : List Reexport :=
  (takeNew (exports.map (·.name)) (anchoredReexports s ix anchors)).mergeSort
    fun a b => a.offset ≤ b.offset

variable {anchors : Option (List Nat)} {exports : List Export}

theorem addReexports_eq (s : List Char) (ix : LineIndex) (anchors : Option (List Nat))
    (exports : List Export) : addReexports s ix anchors exports =
      exports ++ (newReexports s ix anchors exports).map (·.value) := rfl

theorem mem_anchoredReexports {r : Reexport} : r ∈ anchoredReexports s ix anchors ↔
    r ∈ namedReexports ix s ++ wildcardReexports ix s ∧ Anchored anchors r.keyword := by
  rw [anchoredReexports, List.mem_filter]
  apply and_congr_right
  intro _
  cases anchors <;> simp [Anchored]

theorem mem_newReexports {r : Reexport} : r ∈ newReexports s ix anchors exports ↔
    r ∈ takeNew (exports.map (·.name)) (anchoredReexports s ix anchors) :=
  List.mem_mergeSort

theorem pairwise_newReexports :
    (newReexports s ix anchors exports).Pairwise fun a b => a.offset ≤ b.offset := by
  refine (List.pairwise_mergeSort ?_ ?_ _).imp fun {a b} h => by simpa using h
  · intro a b c hab hbc
    simp only [decide_eq_true_eq] at hab hbc ⊢
    omega
  · intro a b
    simp only [Bool.or_eq_true, decide_eq_true_eq]
    omega

theorem nodup_names_newReexports :
    ((newReexports s ix anchors exports).map (·.value.name)).Nodup :=
  ((List.mergeSort_perm _ _).map _).nodup_iff.2 names_takeNew.1

/-- Re-exports that count have their names among the exports afterwards. -/
theorem mem_names_addReexports {r : Reexport} (h : r ∈ anchoredReexports s ix anchors) :
    r.value.name ∈ (addReexports s ix anchors exports).map (·.name) := by
  rw [addReexports_eq, List.map_append, List.mem_append]
  rcases mem_names_takeNew h with hknown | ⟨x, hx, hname⟩
  · exact .inl hknown
  · refine .inr (List.mem_map.2 ⟨x.value, List.mem_map_of_mem (mem_newReexports.2 hx), hname⟩)

/-- Adding again adds nothing. -/
theorem addReexports_again : addReexports s ix anchors (addReexports s ix anchors exports) =
    addReexports s ix anchors exports := by
  rw [addReexports_eq s ix anchors (addReexports s ix anchors exports), newReexports,
    takeNew_of_known fun r hr => mem_names_addReexports hr]
  simp

/-- Statements behind re-exports, in the same order. -/
theorem exists_statements {rs : List Reexport} (h : ∀ r ∈ rs, ∃ st : Statement s, st.Makes ix r) :
    ∃ sts : List (Statement s), List.Forall₂ (Statement.Makes ix) sts rs := by
  induction rs with
  | nil => exact ⟨[], .nil⟩
  | cons r rs ih =>
    obtain ⟨st, hst⟩ := h r List.mem_cons_self
    obtain ⟨sts, hsts⟩ := ih fun x hx => h x (List.mem_cons_of_mem _ hx)
    exact ⟨st :: sts, .cons hst hsts⟩

/-- Statements behind re-exports agree with them in what both of them have. -/
theorem map_eq_of_makes {α : Type} {sts : List (Statement s)} {rs : List Reexport}
    (h : List.Forall₂ (Statement.Makes ix) sts rs) {f : Statement s → α} {g : Reexport → α}
    (hfg : ∀ st r, st.Makes ix r → f st = g r) : sts.map f = rs.map g := by
  rw [← List.forall₂_eq_eq_eq, List.forall₂_map_left_iff, List.forall₂_map_right_iff]
  exact h.imp hfg

/-- **Re-exports are only ever added**: what is known stays in front. Behind it stand exports that
statements of the text make, in the order of the statements, each under a name of its own. With
anchors, the keyword of each statement stands at one of them. Every name that a statement offers is
there afterwards, and adding again changes nothing. -/
theorem addReexports_only_adds (s : List Char) (ix : LineIndex) (anchors : Option (List Nat))
    (exports : List Export) :
    (∃ (statements : List (Statement s)) (added : List Export),
      addReexports s ix anchors exports = exports ++ added ∧
      List.Forall₂ (Statement.Adds ix) statements added ∧
      statements.Pairwise (fun st st' => st.start ≤ st'.start) ∧
      (∀ st ∈ statements, Anchored anchors st.keyword) ∧
      (added.map (·.name)).Nodup ∧ ∀ a ∈ added, ∀ e ∈ exports, a.name ≠ e.name) ∧
    (∀ r ∈ namedReexports ix s ++ wildcardReexports ix s, Anchored anchors r.keyword →
      r.value.name ∈ (addReexports s ix anchors exports).map (·.name)) ∧
    addReexports s ix anchors (addReexports s ix anchors exports) =
      addReexports s ix anchors exports := by
  have hnew {r : Reexport} (hr : r ∈ newReexports s ix anchors exports) :=
    mem_anchoredReexports.1 (mem_of_mem_takeNew (mem_newReexports.1 hr))
  obtain ⟨sts, hsts⟩ := exists_statements fun r hr => exists_makes (hnew hr).1
  refine ⟨⟨sts, _, addReexports_eq .., ?_, ?_, ?_, ?_, ?_⟩, ?_, addReexports_again⟩
  · rw [List.forall₂_map_right_iff]
    exact hsts.imp fun st r h => h.adds
  · have hoffsets := map_eq_of_makes hsts fun st r h => h.offset
    rw [← List.pairwise_map (R := (· ≤ ·)), hoffsets, List.pairwise_map]
    exact pairwise_newReexports
  · intro st hst
    have hkeywords := map_eq_of_makes hsts fun st r h => h.keyword
    have hmem : st.keyword ∈ sts.map (·.keyword) := List.mem_map_of_mem hst
    rw [hkeywords] at hmem
    obtain ⟨r, hr, hkeyword⟩ := List.mem_map.1 hmem
    rw [← hkeyword]
    exact (hnew hr).2
  · rw [List.map_map]
    exact nodup_names_newReexports
  · intro a ha e he hname
    obtain ⟨r, hr, rfl⟩ := List.mem_map.1 ha
    exact names_takeNew.2 r (mem_newReexports.1 hr) (hname ▸ List.mem_map_of_mem he)
  · intro r hr hanchored
    exact mem_names_addReexports (mem_anchoredReexports.2 ⟨hr, hanchored⟩)

/-! ## Names of members -/

/-- The module itself exports a name: the name does not only belong to a member. -/
def Exported (exports : List Export) (name : String) : Prop :=
  ∃ e ∈ exports, e.name = name ∧ e.parentClass = none

/-- A name is known, but only as the name of members. -/
def OnlyMembers (exports : List Export) (name : String) : Prop :=
  (∃ e ∈ exports, e.name = name) ∧ ∀ e ∈ exports, e.name = name → e.parentClass ≠ none

/-- A name of a re-export that counts is exported, unless members hide it. -/
theorem exported_addReexports_iff {r : Reexport} (h : r ∈ anchoredReexports s ix anchors) :
    Exported (addReexports s ix anchors exports) r.value.name ↔
      ¬ OnlyMembers exports r.value.name := by
  rw [addReexports_eq]
  constructor
  · rintro ⟨e, he, hname, hparent⟩ ⟨hknown, hmembers⟩
    rcases List.mem_append.1 he with he | he
    · exact hmembers e he hname hparent
    · obtain ⟨x, hx, rfl⟩ := List.mem_map.1 he
      apply names_takeNew.2 x (mem_newReexports.1 hx)
      rw [hname]
      exact List.mem_map.2 hknown
  · intro hmembers
    rcases mem_names_takeNew h with hknown | ⟨x, hx, hname⟩
    · rw [OnlyMembers, not_and] at hmembers
      have htop := hmembers (List.mem_map.1 hknown)
      push Not at htop
      obtain ⟨e, he, hname, hparent⟩ := htop
      exact ⟨e, List.mem_append_left _ he, hname, hparent⟩
    · obtain ⟨st, hst⟩ := exists_makes (mem_anchoredReexports.1 (mem_of_mem_takeNew hx)).1
      refine ⟨x.value, List.mem_append_right _ ?_, hname, hst.adds.parentClass⟩
      exact List.mem_map_of_mem (mem_newReexports.2 hx)

/-- The name under which a match exports everything of a module. -/
def starName (s : List Char) (m : Match) : List Char :=
  ((m.group? "alias").map fun sp => slice sp.start sp.stop s).getD
    ("* from ".toList ++ Comment.groupText s m "source")

theorem starred_mem_anchoredReexports {m : Match} (h : m ∈ starForm.findAll s)
    (hanchored : Anchored anchors (keywordOf s m)) :
    reexportOf ix s m "export_star" (starName s m) ∈ anchoredReexports s ix anchors := by
  refine mem_anchoredReexports.2 ⟨List.mem_append_right _ (List.mem_map.2 ⟨m, h, ?_⟩), hanchored⟩
  rw [starName]
  cases m.group? "alias" <;> rfl

theorem listed_mem_anchoredReexports {m : Match} (h : m ∈ listForm.findAll s)
    (hanchored : Anchored anchors (keywordOf s m)) {entry name : List Char}
    (hentry : entry ∈ splitAt ',' (Comment.groupText s m "names"))
    (hname : specifierName? entry = some name) :
    reexportOf ix s m "export_from" name ∈ anchoredReexports s ix anchors := by
  have hmem := List.mem_filterMap.2 ⟨entry, hentry, hname⟩
  refine mem_anchoredReexports.2 ⟨List.mem_append_left _ ?_, hanchored⟩
  exact List.mem_flatMap.2 ⟨m, h, List.mem_map_of_mem hmem⟩

/-- **No re-export is lost, unless members hide it**: every entry of a list that is not blank is
read as a name, as the name it is meant to give where spaces stand next to its words. For every such
name, and for the name of every statement that exports a whole module, there is an export of the
module itself exactly if the name was not known as the name of members only. -/
theorem reexports_exported_unless_members (s : List Char) (ix : LineIndex)
    (anchors : Option (List Nat)) (exports : List Export) :
    (∀ m ∈ listForm.findAll s, Anchored anchors (keywordOf s m) →
      ∀ entry ∈ splitAt ',' (Comment.groupText s m "names"), ¬ Blank entry →
        ∃ name, specifierName? entry = some name ∧ (∀ name', Specifies entry name' → name = name') ∧
          (Exported (addReexports s ix anchors exports) (String.ofList name) ↔
            ¬ OnlyMembers exports (String.ofList name))) ∧
    ∀ m ∈ starForm.findAll s, Anchored anchors (keywordOf s m) →
      (Exported (addReexports s ix anchors exports) (String.ofList (starName s m)) ↔
        ¬ OnlyMembers exports (String.ofList (starName s m))) := by
  constructor
  · intro m hm hanchored entry hentry hblank
    obtain ⟨name, hname⟩ := exists_specifierName? hblank
    refine ⟨name, hname, ?_, ?_⟩
    · intro name' hspec
      exact Option.some.inj (hname.symm.trans (specifierName?_of_specifies hspec))
    · have hmem : reexportOf ix s m "export_from" name ∈ anchoredReexports s ix anchors :=
        listed_mem_anchoredReexports hm hanchored hentry hname
      exact exported_addReexports_iff hmem
  · intro m hm hanchored
    have hmem : reexportOf ix s m "export_star" (starName s m) ∈ anchoredReexports s ix anchors :=
      starred_mem_anchoredReexports hm hanchored
    exact exported_addReexports_iff hmem

/-- A member of a class. -/
def memberExport (name : String) : Export where
  name := name
  kind := .classMethod
  declaration := "method_definition"
  location := .ofOffsets (.ofText []) 0 0
  parentClass := some "C"

/-- An indented list with a renamed type, and a member that has the type's own name. -/
theorem renamed_type_exported :
    let s := "  export \x7b type a as b \x7d from 'm'".toList
    Exported (addReexports s (.ofText s) (some [2]) [memberExport "a"]) "b" := by
  intro s
  let m : Match := ⟨⟨0, 33⟩, [("source", ⟨31, 32⟩), ("names", ⟨10, 23⟩)]⟩
  have hm : m ∈ listForm.findAll s := by decide +kernel
  have hanchored : Anchored (some [2]) (keywordOf s m) := by
    rintro _ ⟨⟩
    decide +kernel
  have hlisted := (reexports_exported_unless_members s (.ofText s) (some [2]) [memberExport "a"]).1
  obtain ⟨name, hname, -, hiff⟩ := hlisted m hm hanchored " type a as b ".toList
    (by decide +kernel) (by decide)
  obtain rfl : "b".toList = name := Option.some.inj (Eq.trans (by decide +kernel) hname)
  refine hiff.2 ?_
  rintro ⟨⟨e, he, hb⟩, -⟩
  rw [List.mem_singleton.1 he] at hb
  exact absurd hb (by decide)

/-- A member stands in for a re-export of its name: the module's own export is missing. -/
theorem member_hides_reexport :
    let s := "export \x7b run \x7d from 'm'".toList
    (∃ m ∈ listForm.findAll s, ∃ entry ∈ splitAt ',' (Comment.groupText s m "names"),
      Specifies entry "run".toList) ∧
    ¬ Exported (addReexports s (.ofText s) none [memberExport "run"]) "run" := by
  intro s
  constructor
  · let m : Match := ⟨⟨0, 23⟩, [("source", ⟨21, 22⟩), ("names", ⟨8, 13⟩)]⟩
    refine ⟨m, by decide +kernel, " run ".toList, by decide +kernel, ?_⟩
    have hname : IsName "run".toList := by decide
    have hspace : Blank [' '] := by decide
    exact .value hspace hspace (.own hname) (by decide)
  · have hsame : addReexports s (.ofText s) none [memberExport "run"] = [memberExport "run"] := by
      decide +kernel
    rintro ⟨e, he, -, hparent⟩
    rw [hsame, List.mem_singleton] at he
    rw [he] at hparent
    cases hparent

end CodeSurvey.Export
