import CodeSurvey.Plugin.Extractors
import CodeSurvey.Proofs.Gathering
import CodeSurvey.Proofs.Reexports
/-!
# Default exports count once

A statement that exports a default is taken by the first rule of the chain, whatever it exports
(`DefaultStatement.find?_eq`). It gives one export with the default flag and, for a class, the members of
this class (`DefaultStatement.exists_exports`). A name that is exported has the kind of its first
declaration (`firstDeclared_localKindIn?`). Gathering keeps one entry for it, also where its name is
exported by another statement: the flag moves to the entry that comes first (`countedOnce_gather`).
-/
namespace CodeSurvey

/-! ## One entry for a key -/

namespace Export

theorem filter_key_eq {kept : List Export} {k : Export} (hnodup : (kept.map key).Nodup) (hk : k ∈ kept) :
    kept.filter (fun x => x.key = k.key) = [k] := by
  induction kept with
  | nil => cases hk
  | cons x kept ih =>
    rw [List.map_cons, List.nodup_cons] at hnodup
    rcases List.mem_cons.1 hk with rfl | hk
    · have hnone : kept.filter (fun x => x.key = k.key) = [] := by
        apply List.filter_eq_nil_iff.2
        intro x hx hkey
        exact hnodup.1 (List.mem_map.2 ⟨x, hx, by simpa using hkey⟩)
      rw [List.filter_cons_of_pos (by simp), hnone]
    · have hne : x.key ≠ k.key := fun hkey => hnodup.1 (List.mem_map.2 ⟨k, hk, hkey.symm⟩)
      rw [List.filter_cons_of_neg (by simpa using hne), ih hnodup.2 hk]

/-- A default export among gathered exports: one entry has its key, this one has the flag, and the file
has a default export, which is this one unless an entry with another key has the flag, too. -/
structure CountedOnce (facts : ExportFacts) (e : Export) : Prop where
  kept : ∃ k, facts.exports.filter (fun x => x.key = e.key) = [k] ∧ k.isDefault = true
  present : facts.defaultExport.isSome = true
  named : (∀ x ∈ facts.exports, x.isDefault = true → x.key = e.key) →
    facts.defaultExport = some e.name

theorem countedOnce_gather {all : List Export} {e : Export} (he : e ∈ all)
    (hdefault : e.isDefault = true) : CountedOnce (gather all) e := by
  obtain ⟨k, hk, hkey⟩ := List.mem_map.1 (mem_keys_dedup.2 (List.mem_map_of_mem he))
  have hflag : k.isDefault = true := by
    obtain ⟨x, -, rfl⟩ := exists_of_mem_dedup hk
    refine List.any_eq_true.2 ⟨e, he, ?_⟩
    rw [key_merged] at hkey
    simp [hkey, hdefault]
  have hfirst : ∃ d, (dedup all).find? (·.isDefault) = some d :=
    Option.isSome_iff_exists.1 (List.find?_isSome.2 ⟨k, hk, hflag⟩)
  obtain ⟨d, hd⟩ := hfirst
  refine ⟨⟨k, ?_, hflag⟩, ?_, ?_⟩
  · rw [← hkey]
    exact filter_key_eq (nodup_dedup all) hk
  · simp [gather, hd]
  · intro honly
    have hsame : d.key = e.key := honly d (List.mem_of_find?_eq_some hd) (List.find?_some hd)
    have hname : d.name = e.name := congrArg Prod.fst hsame
    simp [gather, hd, hname]

end Export

namespace Surveyor.Script

open Syntax

variable {t : Tree} {n target : Node}

/-! ## What a name is declared as -/

/-- The declaration that a top-level node is or exports. -/
def declaration? (n : Node) : Option Node :=
  if n.kind == "export_statement" then declared? n else some n

/-- A declarator gives a variable its name. -/
def IsDeclarator (t : Tree) (name : String) (v : Node) : Prop :=
  v.kind = "variable_declarator" ∧ t.textAt? v "name" = some name

/-- A top-level node declares a name, as something of a kind if its declaration tells. -/
inductive Declares (t : Tree) (name : String) (n : Node) : Option ExportKind → Prop
  | named (d : Node) (hd : declaration? n = some d) (hkind : d.kind ∉ variableKinds)
    (hname : t.textAt? d "name" = some name) : Declares t name n (declaredKind? d.kind)
  | bound (d v : Node) (before after : List Node) (hd : declaration? n = some d)
    (hkind : d.kind ∈ variableKinds) (hsplit : d.namedChildren = before ++ v :: after)
    (hfirst : ∀ u ∈ before, ¬ IsDeclarator t name u) (hname : IsDeclarator t name v) :
    Declares t name n
      (some (if (v.child? "value").any isFunctionValue then .function else .variable))

/-- The kind that the first of some nodes which declares a name gives it. -/
inductive FirstDeclared (t : Tree) (name : String) : List Node → Option ExportKind → Prop
  | nowhere : FirstDeclared t name [] none
  | here {n : Node} {k : Option ExportKind} (ns : List Node) (h : Declares t name n k) :
    FirstDeclared t name (n :: ns) k
  | later {n : Node} {ns : List Node} {k : Option ExportKind} (hnot : ∀ j, ¬ Declares t name n j)
    (h : FirstDeclared t name ns k) : FirstDeclared t name (n :: ns) k

theorem isDeclarator_iff {name : String} {v : Node} :
    (v.kind == "variable_declarator" && (v.child? "name").any fun n => t.text n == name) = true ↔
      IsDeclarator t name v := by
  rw [Bool.and_eq_true, beq_iff_eq, IsDeclarator, Tree.textAt?]
  cases v.child? "name" <;> simp

theorem declaratorKind?_eq_none {name : String} {d : Node}
    (h : declaratorKind? t name d = none) : ∀ v ∈ d.namedChildren, ¬ IsDeclarator t name v := by
  intro v hv hname
  rw [declaratorKind?, Option.map_eq_none_iff, List.find?_eq_none] at h
  exact h v hv (isDeclarator_iff.2 hname)

theorem declaratorKind?_eq_some {name : String} {d : Node} {k : ExportKind}
    (h : declaratorKind? t name d = some k) :
    ∃ v before after, d.namedChildren = before ++ v :: after ∧
      (∀ u ∈ before, ¬ IsDeclarator t name u) ∧ IsDeclarator t name v ∧
      k = if (v.child? "value").any isFunctionValue then .function else .variable := by
  rw [declaratorKind?, Option.map_eq_some_iff] at h
  obtain ⟨v, hv, rfl⟩ := h
  obtain ⟨hname, before, after, hsplit, hbefore⟩ := List.find?_eq_some_iff_append.1 hv
  refine ⟨v, before, after, hsplit, fun u hu hdecl => ?_, isDeclarator_iff.1 hname, rfl⟩
  have hnot := hbefore u hu
  rw [isDeclarator_iff.2 hdecl] at hnot
  cases hnot

/-- A node declares a name, or the search goes on behind it. -/
theorem localKindIn?_cons (t : Tree) (name : String) (n : Node) (ns : List Node) :
    Declares t name n (localKindIn? t name (n :: ns)) ∨
      (∀ k, ¬ Declares t name n k) ∧ localKindIn? t name (n :: ns) = localKindIn? t name ns := by
  rw [localKindIn?, ← declaration?]
  cases hd : declaration? n with
  | none =>
    refine .inr ⟨fun k hk => ?_, rfl⟩
    cases hk with
    | named d h => rw [hd] at h; cases h
    | bound d v before after h => rw [hd] at h; cases h
  | some d =>
    dsimp only
    by_cases hkind : d.kind ∈ variableKinds
    · rw [if_pos (List.contains_iff_mem.2 hkind)]
      cases hk : declaratorKind? t name d with
      | some k =>
        obtain ⟨v, before, after, hsplit, hbefore, hname, rfl⟩ := declaratorKind?_eq_some hk
        exact .inl (.bound d v before after hd hkind hsplit hbefore hname)
      | none =>
        refine .inr ⟨fun k hk' => ?_, rfl⟩
        cases hk' with
        | named d' h hnot => cases hd.symm.trans h; exact hnot hkind
        | bound d' v before after h _ hsplit _ hname =>
          cases hd.symm.trans h
          exact declaratorKind?_eq_none hk v (by rw [hsplit]; simp) hname
    · rw [if_neg (by rwa [List.contains_iff_mem])]
      have hiff : ((d.child? "name").any fun m => t.text m == name) = true ↔
          t.textAt? d "name" = some name := by
        rw [Tree.textAt?]
        cases d.child? "name" <;> simp
      by_cases hname : t.textAt? d "name" = some name
      · rw [if_pos (hiff.2 hname)]
        exact .inl (.named d hd hkind hname)
      · rw [if_neg (by rwa [hiff])]
        refine .inr ⟨fun k hk => ?_, rfl⟩
        cases hk with
        | named d' h _ hname' => cases hd.symm.trans h; exact hname hname'
        | bound d' v before after h hkind' => cases hd.symm.trans h; exact hkind hkind'

/-- **The kind of a name is that of its first declaration.** -/
theorem firstDeclared_localKindIn? (t : Tree) (name : String) (ns : List Node) :
    FirstDeclared t name ns (localKindIn? t name ns) := by
  induction ns with
  | nil => exact .nowhere
  | cons n ns ih =>
    rcases localKindIn?_cons t name n ns with hn | ⟨hnot, heq⟩
    · exact .here ns hn
    · rw [heq]
      exact .later hnot ih

/-! ## The statement -/

/-- A statement that exports something as the default. -/
structure DefaultStatement (n target : Node) : Prop where
  kind : n.kind = "export_statement"
  isDefault : n.hasChildOf "default" = true
  target : (declared? n).or (n.child? "value") = some target

/-- The first rule takes the statement. -/
theorem DefaultStatement.find?_eq (h : DefaultStatement n target) :
    exportSteps.find? (fun step => step.accepts t n) = exportSteps.head? := by
  simp [exportSteps, h.kind, h.isDefault]

theorem DefaultStatement.exportsAt_eq (h : DefaultStatement n target) :
    exportsAt exportSteps t n = defaultExports t n := by
  rw [exportsAt, h.find?_eq]
  rfl

theorem parentClass_of_memberExport? {className : String} {m : Export}
    (h : memberExport? t className n = some m) : m.parentClass = some className := by
  unfold memberExport? at h
  simp only [Option.bind_eq_bind, Option.bind_eq_some_iff] at h
  obtain ⟨⟨kind, field⟩, -, child, -, h⟩ := h
  split at h
  · cases h
    rfl
  · cases h
    rfl

/-- What the export of a class gives: the class, then its members. -/
theorem exists_exportClass (t : Tree) (n : Node) (name : String) (isDefault : Bool) :
    ∃ e members, exportClass t n name isDefault = e :: members ∧ e.name = name ∧ e.kind = .classType ∧
      e.parentClass = none ∧ e.isDefault = isDefault ∧ ∀ m ∈ members, m.parentClass = some e.name := by
  refine ⟨_, _, rfl, rfl, rfl, rfl, rfl, ?_⟩
  intro m hm
  cases hbody : n.child? "body" with
  | none =>
    rw [hbody] at hm
    cases hm
  | some body =>
    rw [hbody] at hm
    obtain ⟨member, -, hmember⟩ := List.mem_filterMap.1 hm
    exact parentClass_of_memberExport? hmember

/-- What is exported as the default is a class. -/
def IsClass (target : Node) : Prop := target.kind ∈ "class" :: classKinds

/-- What is exported as the default is a function. -/
def IsFunction (target : Node) : Prop := target.kind ∈ functionKinds ++ functionValueKinds

/-- The name and the kind of a default export. Classes and functions have their own name, if they have
one. A name has the kind that its first declaration gives it. -/
structure Describes (t : Tree) (target : Node) (e : Export) : Prop where
  ofClass : IsClass target → e.name = nameOrDefault t target ∧ e.kind = .classType
  ofFunction : IsFunction target → e.name = nameOrDefault t target ∧ e.kind = .function
  ofName : target.kind = "identifier" → e.name = t.text target ∧
    ∃ k, FirstDeclared t (t.text target) t.topLevel k ∧ e.kind = k.getD .variable
  ofOther : ¬ IsClass target → ¬ IsFunction target → target.kind ≠ "identifier" →
    e.name = "default" ∧ e.kind = .variable

theorem not_isFunction_of_isClass (h : IsClass target) : ¬ IsFunction target := by
  have hdisjoint : ∀ k ∈ "class" :: classKinds, k ∉ functionKinds ++ functionValueKinds := by decide
  exact hdisjoint _ h

theorem not_identifier (h : IsClass target ∨ IsFunction target) : target.kind ≠ "identifier" := by
  intro hkind
  rw [IsClass, IsFunction, hkind] at h
  revert h
  decide

/-- **What a default export gives**: one export with the flag, and members of its name. -/
theorem DefaultStatement.exists_exports (h : DefaultStatement n target) (t : Tree) :
    ∃ e members, defaultExports t n = e :: members ∧ Describes t target e ∧ e.parentClass = none ∧
      e.isDefault = true ∧ ∀ m ∈ members, m.parentClass = some e.name := by
  have hclass : (classKinds.contains target.kind || target.kind == "class") = true ↔ IsClass target := by
    simp [IsClass, or_comm]
  have hfunction : (functionKinds.contains target.kind || isFunctionValue target) = true ↔
      IsFunction target := by
    simp [IsFunction, isFunctionValue]
  unfold defaultExports
  rw [h.target]
  dsimp only
  by_cases hc : IsClass target
  · rw [if_pos (hclass.2 hc)]
    obtain ⟨e, members, heq, hname, hkind, hrest⟩ :=
      exists_exportClass t target (nameOrDefault t target) true
    exact ⟨e, members, heq, ⟨fun _ => ⟨hname, hkind⟩, fun hf => absurd hf (not_isFunction_of_isClass hc),
      fun hi => absurd hi (not_identifier (.inl hc)), fun hnot => absurd hc hnot⟩, hrest⟩
  rw [if_neg (by rwa [hclass])]
  by_cases hf : IsFunction target
  · rw [if_pos (hfunction.2 hf)]
    exact ⟨_, [], rfl, ⟨fun hc' => absurd hc' hc, fun _ => ⟨rfl, rfl⟩,
      fun hi => absurd hi (not_identifier (.inr hf)), fun _ hnot => absurd hf hnot⟩, rfl, rfl, by simp⟩
  rw [if_neg (by rwa [hfunction])]
  by_cases hi : target.kind = "identifier"
  · rw [if_pos (beq_iff_eq.2 hi)]
    exact ⟨_, [], rfl, ⟨fun hc' => absurd hc' hc, fun hf' => absurd hf' hf,
      fun _ => ⟨rfl, _, firstDeclared_localKindIn? t _ _, rfl⟩, fun _ _ hnot => absurd hi hnot⟩,
      rfl, rfl, by simp⟩
  · rw [if_neg (by rwa [beq_iff_eq])]
    exact ⟨_, [], rfl, ⟨fun hc' => absurd hc' hc, fun hf' => absurd hf' hf, fun hi' => absurd hi' hi,
      fun _ _ _ => ⟨rfl, rfl⟩⟩, rfl, rfl, by simp⟩

/-- The facts of a file are gathered from the exports of its tree and the re-exports of its text. -/
theorem exists_exportFacts (t : Tree) (language : String) :
    ∃ more, Extractor.exportFacts (surveyor language) t language = Export.gather (exports t ++ more) := by
  unfold Extractor.exportFacts
  cases (Language.find? language).filter (·.reexports) with
  | none => exact ⟨[], by rw [List.append_nil]; rfl⟩
  | some l => exact ⟨_, congrArg Export.gather (Export.addReexports_eq ..)⟩

/-- **Default exports count once**: the first rule takes the statement, so that no other one adds to it.
Of what it gives, one export belongs to no class and has the default flag, with the name and the kind of
what is exported, and all others are members of its name. Among the gathered exports of the tree, and of
the file with its re-exports, one entry has its key, and this one has the flag. -/
theorem default_counted_once (t : Tree) (n target : Node) (before after : List Node)
    (htop : t.topLevel = before ++ n :: after) (h : DefaultStatement n target) :
    exportSteps.find? (fun step => step.accepts t n) = exportSteps.head? ∧
    ∃ e members,
      exportsAt exportSteps t n = e :: members ∧
      exports t = before.flatMap (exportsAt exportSteps t) ++
        (e :: members ++ after.flatMap (exportsAt exportSteps t)) ∧
      Describes t target e ∧ e.parentClass = none ∧ e.isDefault = true ∧
      (∀ m ∈ members, m.parentClass = some e.name) ∧
      Export.CountedOnce (Export.gather (exports t)) e ∧
      ∀ language, Export.CountedOnce (Extractor.exportFacts (surveyor language) t language) e := by
  obtain ⟨e, members, hexports, hdescribes, hparent, hdefault, hmembers⟩ := h.exists_exports t
  have hat : exportsAt exportSteps t n = e :: members := h.exportsAt_eq.trans hexports
  have hall : exports t = before.flatMap (exportsAt exportSteps t) ++
      (e :: members ++ after.flatMap (exportsAt exportSteps t)) := by
    rw [exports, topLevelExports, htop, List.flatMap_append, List.flatMap_cons, hat]
  have hmem : e ∈ exports t := by
    rw [hall]
    simp
  refine ⟨h.find?_eq, e, members, hat, hall, hdescribes, hparent, hdefault, hmembers,
    Export.countedOnce_gather hmem hdefault, fun language => ?_⟩
  obtain ⟨more, hfacts⟩ := exists_exportFacts t language
  rw [hfacts]
  exact Export.countedOnce_gather (List.mem_append_left more hmem) hdefault

/-- A class that is exported by its declaration and again as the default is left once, as a class and with
the flag. -/
theorem declared_class_counted_once :
    let name : Node := .mk "type_identifier" true "name" 13 16 []
    let body : Node := .mk "class_body" true "body" 17 19
      [.mk "\x7b" false "" 17 18 [], .mk "\x7d" false "" 18 19 []]
    let declaration : Node := .mk "class_declaration" true "declaration" 7 19
      [.mk "class" false "" 7 12 [], name, body]
    let first : Node := .mk "export_statement" true "" 0 19
      [.mk "export" false "" 0 6 [], declaration]
    let target : Node := .mk "identifier" true "value" 35 38 []
    let second : Node := .mk "export_statement" true "" 20 39
      [.mk "export" false "" 20 26 [], .mk "default" false "" 27 34 [], target,
        .mk ";" false "" 38 39 []]
    let t : Tree := .ofConcrete "export class Foo \x7b\x7d\nexport default Foo;\n".toList
      ⟨.mk "program" true "" 0 40 [first, second], false⟩
    let facts := Extractor.exportFacts (surveyor "typescript") t "typescript"
    DefaultStatement second target ∧ (exports t).map (·.name) = ["Foo", "Foo"] ∧
      facts.exports.map (fun x => (x.name, x.kind, x.isDefault)) = [("Foo", .classType, true)] ∧
      ∃ e, exportsAt exportSteps t second = [e] ∧ Describes t target e ∧ e.kind = .classType ∧
        Export.CountedOnce facts e := by
  intro name body declaration first target second t facts
  have hstatement : DefaultStatement second target := ⟨by decide, by decide, rfl⟩
  obtain ⟨-, e, members, hat, -, hdescribes, -, -, -, -, hcounted⟩ :=
    default_counted_once t second target [first] [] rfl hstatement
  have hkinds : (exportsAt exportSteps t second).map (·.kind) = [.classType] := by decide +kernel
  rw [hat, List.map_cons, List.cons.injEq, List.map_eq_nil_iff] at hkinds
  obtain ⟨hkind, rfl⟩ := hkinds
  exact ⟨hstatement, by decide +kernel, by decide +kernel, e, hat, hdescribes, hkind,
    hcounted "typescript"⟩

end Surveyor.Script

end CodeSurvey
