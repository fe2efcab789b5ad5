import CodeSurvey.Proofs.Statements
import CodeSurvey.Surveyor.Python
/-!
# Names that a module lists

A Python module declares names by definitions and assignments, and its classes have members. If a
list `__all__` is assigned at its top level, the exports are cut down to the listed names, and
listed names that nothing declares are added. A listed name is taken as declared even where only a
member of a listed class has it. So the module's own exports are the listed names without those that
only such members have (`FirstList.exported_iff`).
-/
namespace CodeSurvey.Surveyor.Python

open Syntax Text

variable {t : Tree} {n : Node} {name : String}

/-! ## What a node declares -/

/-- A target of an assignment: its left side if that is a name, or a name among several. -/
def IsTarget (left target : Node) : Prop :=
  target.kind = "identifier" ∧
    (target = left ∨ left.kind ≠ "identifier" ∧ target ∈ left.namedChildren)

/-- A top-level node declares a public name: a function or class, perhaps below decorators, or a
target of an assignment. -/
inductive Declares (t : Tree) (n : Node) : String → Prop
  | definition {name : String}
      (hkind : (undecorated n).kind = "function_definition" ∨
        (undecorated n).kind = "class_definition")
      (hname : t.textAt? (undecorated n) "name" = some name) (hpublic : isPublic name = true) :
      Declares t n name
  | target {assignment left target : Node} (hassigned : assigned? n = some assignment)
      (hleft : assignment.child? "left" = some left) (htarget : IsTarget left target)
      (hpublic : isPublic (t.text target) = true) : Declares t n (t.text target)

/-- The name of a member of a class: a method, perhaps below decorators, or an assigned name. -/
inductive MemberName (t : Tree) (member : Node) : String → Prop
  | method {name : String} (hkind : (undecorated member).kind = "function_definition")
      (hname : t.textAt? (undecorated member) "name" = some name) : MemberName t member name
  | assigned {assignment left : Node} (hassigned : assigned? member = some assignment)
      (hleft : assignment.child? "left" = some left) (hkind : left.kind = "identifier") :
      MemberName t member (t.text left)

/-- A top-level node defines a public class that has a member of a name. -/
structure HasMember (t : Tree) (n : Node) (className name : String) : Prop where
  kind : (undecorated n).kind = "class_definition"
  named : t.textAt? (undecorated n) "name" = some className
  isPublic : isPublic className = true
  member : ∃ body, (undecorated n).child? "body" = some body ∧
    ∃ m ∈ body.namedChildren, MemberName t m name

/-- A statement that is an assignment has no decorators. -/
theorem kind_undecorated_of_assigned {assignment : Node} (h : assigned? n = some assignment) :
    (undecorated n).kind = "expression_statement" := by
  by_cases hkind : n.kind = "expression_statement"
  · simp [undecorated, hkind]
  · simp [assigned?, hkind] at h

/-! ## Exports of a node -/

theorem definesPublic_iff {kind : String} : definesPublic kind t n = true ↔
    (undecorated n).kind = kind ∧
      ∃ name, t.textAt? (undecorated n) "name" = some name ∧ isPublic name = true := by
  simp [definesPublic, Option.any_eq_true]

/-- The rules by what they accept. -/
theorem exportsAt_eq (t : Tree) (n : Node) : exportsAt exportSteps t n =
    if definesPublic "function_definition" t n then
      ((t.textAt? (undecorated n) "name").map (exportFunction t n (undecorated n))).toList
    else if definesPublic "class_definition" t n then exportClass t n
    else if (assigned? n).isSome then assignmentExports t n else [] := by
  simp only [exportsAt, exportSteps, List.find?_cons]
  cases definesPublic "function_definition" t n with
  | true => rfl
  | false =>
    cases definesPublic "class_definition" t n with
    | true => rfl
    | false => cases (assigned? n).isSome <;> rfl

/-- What is exported of a member belongs to the class and has the name of the member. -/
theorem of_memberExport? {className : String} {m : Node} {e : Export}
    (h : memberExport? t className m = some e) :
    e.parentClass = some className ∧ MemberName t m e.name := by
  by_cases hkind : (undecorated m).kind = "function_definition"
  · simp only [memberExport?, hkind, beq_self_eq_true, if_true] at h
    obtain ⟨name, hname, rfl⟩ := Option.map_eq_some_iff.1 h
    exact ⟨rfl, .method hkind hname⟩
  · simp only [memberExport?, beq_eq_false_iff_ne.2 hkind, Bool.false_eq_true, if_false] at h
    obtain ⟨assignment, hassigned, h⟩ := Option.bind_eq_some_iff.1 h
    obtain ⟨left, hleft, h⟩ := Option.bind_eq_some_iff.1 h
    by_cases hname : left.kind = "identifier"
    · rw [if_pos (by simpa using hname)] at h
      cases h
      exact ⟨rfl, .assigned hassigned hleft hname⟩
    · rw [if_neg (by simpa using hname)] at h
      cases h

/-- Every member with a name is exported. -/
theorem MemberName.exported {m : Node} (h : MemberName t m name) (className : String) :
    ∃ e, memberExport? t className m = some e ∧ e.name = name := by
  cases h with
  | method hkind hname => simp [memberExport?, hkind, hname, exportFunction]
  | assigned hassigned hleft hname =>
    simp [memberExport?, kind_undecorated_of_assigned hassigned, hassigned, hleft, hname]

theorem mem_targets {left target : Node} :
    target ∈ (if left.kind == "identifier" then [left]
      else left.namedChildren.filter fun c => c.kind == "identifier") ↔ IsTarget left target := by
  by_cases hkind : left.kind = "identifier"
  · simp only [hkind, IsTarget, beq_self_eq_true, if_true, List.mem_singleton]
    constructor
    · rintro rfl
      exact ⟨hkind, .inl rfl⟩
    · rintro ⟨-, rfl | ⟨hne, -⟩⟩
      · rfl
      · exact absurd rfl hne
  · rw [if_neg (by simpa using hkind), List.mem_filter, beq_iff_eq, IsTarget, and_comm]
    constructor
    · rintro ⟨htarget, hmem⟩
      exact ⟨htarget, .inr ⟨hkind, hmem⟩⟩
    · rintro ⟨htarget, rfl | ⟨-, hmem⟩⟩
      · exact absurd htarget hkind
      · exact ⟨htarget, hmem⟩

/-- An assignment exports its targets that are public, as variables of the module. -/
theorem mem_assignmentExports {e : Export} : e ∈ assignmentExports t n ↔
    ∃ assignment left target, assigned? n = some assignment ∧
      assignment.child? "left" = some left ∧ IsTarget left target ∧
      isPublic (t.text target) = true ∧
      e = { name := t.text target, kind := .variable, declaration := "assignment",
            location := t.location n } := by
  cases hassigned : assigned? n with
  | none => simp [assignmentExports, hassigned]
  | some assignment =>
    cases hleft : assignment.child? "left" with
    | none => simp [assignmentExports, hassigned, hleft]
    | some left =>
      simp only [assignmentExports, hassigned, hleft, Option.bind_some, List.mem_map,
        List.mem_filter, mem_targets]
      constructor
      · rintro ⟨name, ⟨⟨target, htarget, rfl⟩, hpublic⟩, rfl⟩
        exact ⟨assignment, left, target, rfl, hleft, htarget, hpublic, rfl⟩
      · rintro ⟨_, _, target, ⟨⟩, hleft', htarget, hpublic, rfl⟩
        rw [hleft, Option.some.injEq] at hleft'
        exact ⟨_, ⟨⟨target, hleft' ▸ htarget, rfl⟩, hpublic⟩, rfl⟩

/-- A class is exported with its members. -/
theorem mem_exportClass (hname : t.textAt? (undecorated n) "name" = some name) {e : Export} :
    e ∈ exportClass t n ↔
      e = { name := name, kind := .classType, declaration := (undecorated n).kind,
            location := t.location n } ∨
      ∃ body, (undecorated n).child? "body" = some body ∧
        ∃ m ∈ body.namedChildren, memberExport? t name m = some e := by
  simp only [exportClass, hname, List.mem_cons]
  cases (undecorated n).child? "body" with
  | none => simp
  | some body => simp [List.mem_filterMap]

/-- A node declares a name: for the module itself, or as a member of a class. -/
def DeclaresIn (t : Tree) (n : Node) (className? : Option String) (name : String) : Prop :=
  match className? with
  | none => Declares t n name
  | some className => HasMember t n className name

/-- Exports are declared by their node. -/
theorem declaresIn_of_mem {e : Export} (h : e ∈ exportsAt exportSteps t n) :
    DeclaresIn t n e.parentClass e.name := by
  rw [exportsAt_eq] at h
  split at h
  case isTrue hfunction =>
    obtain ⟨hkind, name, hname, hpublic⟩ := definesPublic_iff.1 hfunction
    rw [hname, Option.map_some, Option.toList_some, List.mem_singleton] at h
    rw [h]
    exact .definition (.inl hkind) hname hpublic
  split at h
  case isTrue hclass =>
    obtain ⟨hkind, name, hname, hpublic⟩ := definesPublic_iff.1 hclass
    rcases (mem_exportClass hname).1 h with rfl | ⟨body, hbody, m, hm, he⟩
    · exact .definition (.inr hkind) hname hpublic
    · obtain ⟨hparent, hmember⟩ := of_memberExport? he
      rw [hparent]
      exact ⟨hkind, hname, hpublic, body, hbody, m, hm, hmember⟩
  split at h
  case isTrue =>
    obtain ⟨assignment, left, target, hassigned, hleft, htarget, hpublic, rfl⟩ :=
      mem_assignmentExports.1 h
    exact .target hassigned hleft htarget hpublic
  case isFalse => cases h

theorem definesPublic_of_ne {kind : String} (h : (undecorated n).kind ≠ kind) :
    definesPublic kind t n = false := by
  simp [definesPublic, h]

theorem exportsAt_class (hkind : (undecorated n).kind = "class_definition")
    (hname : t.textAt? (undecorated n) "name" = some name) (hpublic : isPublic name = true) :
    exportsAt exportSteps t n = exportClass t n := by
  have hfunction : definesPublic "function_definition" t n = false :=
    definesPublic_of_ne (by simp [hkind])
  rw [exportsAt_eq, if_neg (by simp [hfunction]),
    if_pos (definesPublic_iff.2 ⟨hkind, name, hname, hpublic⟩)]

theorem exportsAt_assigned {assignment : Node} (hassigned : assigned? n = some assignment) :
    exportsAt exportSteps t n = assignmentExports t n := by
  have hkind := kind_undecorated_of_assigned hassigned
  have hfunction : definesPublic "function_definition" t n = false :=
    definesPublic_of_ne (by simp [hkind])
  have hclass : definesPublic "class_definition" t n = false :=
    definesPublic_of_ne (by simp [hkind])
  rw [exportsAt_eq, if_neg (by simp [hfunction]), if_neg (by simp [hclass]),
    if_pos (by simp [hassigned])]

/-- A declared name is exported by the module itself. -/
theorem Declares.exported (h : Declares t n name) :
    ∃ e ∈ exportsAt exportSteps t n, e.name = name ∧ e.parentClass = none := by
  cases h with
  | definition hkind hname hpublic =>
    rcases hkind with hkind | hkind
    · rw [exportsAt_eq, if_pos (definesPublic_iff.2 ⟨hkind, name, hname, hpublic⟩), hname]
      exact ⟨_, List.mem_singleton_self _, rfl, rfl⟩
    · rw [exportsAt_class hkind hname hpublic]
      exact ⟨_, (mem_exportClass hname).2 (.inl rfl), rfl, rfl⟩
  | target hassigned hleft htarget hpublic =>
    rw [exportsAt_assigned hassigned]
    have hmem := mem_assignmentExports.2 ⟨_, _, _, hassigned, hleft, htarget, hpublic, rfl⟩
    exact ⟨_, hmem, rfl, rfl⟩

/-- A member of a class is exported under the class. -/
theorem HasMember.exported {className : String} (h : HasMember t n className name) :
    ∃ e ∈ exportsAt exportSteps t n, e.name = name ∧ e.parentClass = some className := by
  obtain ⟨body, hbody, m, hm, hmember⟩ := h.member
  obtain ⟨e, he, hname⟩ := hmember.exported className
  refine ⟨e, ?_, hname, (of_memberExport? he).1⟩
  rw [exportsAt_class h.kind h.named h.isPublic]
  exact (mem_exportClass h.named).2 (.inr ⟨body, hbody, m, hm, he⟩)

theorem DeclaresIn.exported {className? : Option String} (h : DeclaresIn t n className? name) :
    ∃ e ∈ exportsAt exportSteps t n, e.name = name ∧ e.parentClass = className? := by
  cases className? with
  | none => exact Declares.exported h
  | some className => exact HasMember.exported h

/-- A node at the top level declares a name. -/
def Declared (t : Tree) (className? : Option String) (name : String) : Prop :=
  ∃ n ∈ t.topLevel, DeclaresIn t n className? name

/-- The rules find what is declared. -/
theorem exists_topLevelExport_iff {className? : Option String} :
    (∃ e ∈ topLevelExports exportSteps t, e.name = name ∧ e.parentClass = className?) ↔
      Declared t className? name := by
  constructor
  · rintro ⟨e, he, rfl, rfl⟩
    obtain ⟨n, hn, he⟩ := List.mem_flatMap.1 he
    exact ⟨n, hn, declaresIn_of_mem he⟩
  · rintro ⟨n, hn, hdeclares⟩
    obtain ⟨e, he, hexported⟩ := hdeclares.exported
    exact ⟨e, List.mem_flatMap.2 ⟨n, hn, he⟩, hexported⟩

/-! ## The list -/

/-- A statement assigns a list or tuple to `__all__`; the strings in it are `items`. -/
inductive Lists (t : Tree) (statement : Node) : List Node → Prop
  | mk {assignment left right : Node} (hassigned : assigned? statement = some assignment)
      (hleft : assignment.child? "left" = some left) (hname : t.text left = "__all__")
      (hright : assignment.child? "right" = some right)
      (hkind : right.kind = "list" ∨ right.kind = "tuple") :
      Lists t statement (right.namedChildren.filter fun c => c.kind == "string")

theorem Lists.names_eq {statement : Node} {items : List Node} (h : Lists t statement items) :
    listedNames? t statement = some (items.map t.unquoted) := by
  cases h with
  | mk hassigned hleft hname hright hkind =>
    simp [listedNames?, hassigned, hleft, hname, hright, hkind]

theorem listedNames?_eq_none {statement : Node} (h : ∀ items, ¬ Lists t statement items) :
    listedNames? t statement = none := by
  cases hnames : listedNames? t statement with
  | none => rfl
  | some names =>
    simp only [listedNames?] at hnames
    obtain ⟨assignment, hassigned, hnames⟩ := Option.bind_eq_some_iff.1 hnames
    obtain ⟨left, hleft, hnames⟩ := Option.bind_eq_some_iff.1 hnames
    by_cases hname : t.text left = "__all__"
    · simp only [hname, bne_self_eq_false, Bool.false_eq_true, if_false] at hnames
      obtain ⟨right, hright, hnames⟩ := Option.bind_eq_some_iff.1 hnames
      by_cases hkind : right.kind = "list" ∨ right.kind = "tuple"
      · exact absurd (.mk hassigned hleft hname hright hkind) (h _)
      · rw [if_neg (by simpa using hkind)] at hnames
        cases hnames
    · rw [if_pos (by simpa using hname)] at hnames
      cases hnames

/-- A node is a text between quotes. -/
def Quoted (t : Tree) (n : Node) (w : String) : Prop :=
  ∃ opening closing, t.chars n = opening ++ (w.toList ++ closing) ∧ opening ≠ [] ∧ closing ≠ [] ∧
    (∀ c ∈ opening ++ closing, Comment.isQuote c = true) ∧ Bare Comment.isQuote w.toList

theorem not_isBlank_of_isQuote {c : Char} (h : Comment.isQuote c = true) : isBlank c = false := by
  simp only [Comment.isQuote, Bool.or_eq_true, beq_iff_eq] at h
  rcases h with (rfl | rfl) | rfl <;> decide

theorem unquoted_of_quoted {w : String} (h : Quoted t n w) : t.unquoted n = w := by
  obtain ⟨opening, closing, hchars, hopening, hclosing, hquotes, hbare⟩ := h
  have htrimmed : Trimmed (t.chars n) := by
    rw [hchars]
    constructor
    · intro c hc
      rw [List.head?_append_of_ne_nil _ hopening] at hc
      exact not_isBlank_of_isQuote (hquotes c (by simp [List.mem_of_head? hc]))
    · intro c hc
      rw [← List.append_assoc, List.getLast?_append_of_ne_nil _ hclosing] at hc
      exact not_isBlank_of_isQuote (hquotes c (by simp [List.mem_of_getLast? hc]))
  have hopens : ∀ c ∈ opening, Comment.isQuote c = true := fun c hc => hquotes c (by simp [hc])
  have hcloses : ∀ c ∈ closing, Comment.isQuote c = true := fun c hc => hquotes c (by simp [hc])
  have hbetween := dropEndWhile_dropWhile hopens hcloses hbare
  rw [← hchars] at hbetween
  simp only [Tree.unquoted, Tree.unquote, trim_of_trimmed htrimmed, hbetween, String.ofList_toList]

/-- The first list at the top level counts. -/
structure FirstList (t : Tree) (statement : Node) (items : List Node) : Prop where
  lists : Lists t statement items
  first : ∃ before after, t.topLevel = before ++ statement :: after ∧
    ∀ n ∈ before, ∀ others, ¬ Lists t n others

/-- A module with lists has a first one. -/
theorem exists_firstList (h : ∃ n ∈ t.topLevel, ∃ items, Lists t n items) :
    ∃ statement items, FirstList t statement items := by
  obtain ⟨n, hn, items, hlists⟩ := h
  have hsome : (t.topLevel.findSome? fun n => (listedNames? t n).map (·, n)).isSome = true := by
    rw [List.findSome?_isSome_iff]
    exact ⟨n, hn, by rw [hlists.names_eq]; rfl⟩
  obtain ⟨found, hfound⟩ := Option.isSome_iff_exists.1 hsome
  obtain ⟨before, statement, after, htop, hstatement, hbefore⟩ :=
    List.findSome?_eq_some_iff.1 hfound
  by_cases hfirst : ∃ items, Lists t statement items
  · obtain ⟨items, hitems⟩ := hfirst
    refine ⟨statement, items, hitems, before, after, htop, ?_⟩
    intro m hm others hothers
    simpa [hothers.names_eq] using hbefore m hm
  · rw [listedNames?_eq_none (not_exists.1 hfirst)] at hstatement
    cases hstatement

theorem FirstList.exports_eq {statement : Node} {items : List Node}
    (h : FirstList t statement items) :
    exports t = narrow t (items.map t.unquoted) statement (topLevelExports exportSteps t) := by
  obtain ⟨before, after, htop, hfirst⟩ := h.first
  have hbefore : before.findSome? (fun n => (listedNames? t n).map (·, n)) = none := by
    rw [List.findSome?_eq_none_iff]
    intro n hn
    rw [listedNames?_eq_none (hfirst n hn), Option.map_none]
  have hlist : publicList? t = some (items.map t.unquoted, statement) := by
    rw [publicList?, htop, List.findSome?_append, hbefore, List.findSome?_cons, h.lists.names_eq]
    rfl
  rw [exports, hlist]

/-- The export of a listed name that nothing declares. -/
def listedExport (t : Tree) (statement : Node) (name : String) : Export :=
  { name := name, kind := .variable, declaration := "__all__", location := t.location statement }

theorem mem_narrow {names : List String} {statement : Node} {found : List Export} {e : Export} :
    e ∈ narrow t names statement found ↔ e ∈ found ∧ e.parentClass.getD e.name ∈ names ∨
      ∃ name ∈ names, (∀ k ∈ found, k.parentClass.getD k.name ∈ names → k.name ≠ name) ∧
        e = listedExport t statement name := by
  have hnew (name : String) :
      (!((found.filter (isListed names)).map (·.name)).contains name) = true ↔
        ∀ k ∈ found, k.parentClass.getD k.name ∈ names → k.name ≠ name := by
    rw [Bool.not_eq_true', ← Bool.not_eq_true, List.contains_iff_mem, List.mem_map]
    simp only [List.mem_filter, isListed, List.contains_iff_mem, not_exists, not_and, and_imp,
      ne_eq]
  simp only [narrow, List.mem_append, List.mem_filter, List.mem_map, hnew, isListed,
    List.contains_iff_mem]
  apply or_congr_right
  constructor
  · rintro ⟨name, ⟨hname, hfresh⟩, rfl⟩
    exact ⟨name, hname, hfresh, rfl⟩
  · rintro ⟨name, hname, hfresh, rfl⟩
    exact ⟨name, ⟨hname, hfresh⟩, rfl⟩

/-- The names of the exports that a module makes itself: those of the list, except names that
nothing declares and that a member of a listed class has. -/
theorem FirstList.exported_iff {statement : Node} {items : List Node}
    (h : FirstList t statement items) :
    (∃ e ∈ exports t, e.name = name ∧ e.parentClass = none) ↔ name ∈ items.map t.unquoted ∧
      (Declared t none name ∨
        ¬ ∃ className ∈ items.map t.unquoted, Declared t (some className) name) := by
  rw [h.exports_eq]
  constructor
  · rintro ⟨e, he, rfl, hparent⟩
    rcases mem_narrow.1 he with ⟨hfound, hlisted⟩ | ⟨name, hname, hnew, rfl⟩
    · rw [hparent] at hlisted
      exact ⟨hlisted, .inl (exists_topLevelExport_iff.1 ⟨e, hfound, rfl, hparent⟩)⟩
    · refine ⟨hname, .inr ?_⟩
      rintro ⟨className, hclass, hmember⟩
      obtain ⟨k, hk, hkname, hkparent⟩ := exists_topLevelExport_iff.2 hmember
      exact hnew k hk (by rwa [hkparent]) hkname
  · rintro ⟨hname, hdeclared⟩
    by_cases hown : Declared t none name
    · obtain ⟨e, he, rfl, hparent⟩ := exists_topLevelExport_iff.2 hown
      exact ⟨e, mem_narrow.2 (.inl ⟨he, by rwa [hparent]⟩), rfl, hparent⟩
    · have hmembers := hdeclared.resolve_left hown
      refine ⟨_, mem_narrow.2 (.inr ⟨name, hname, ?_, rfl⟩), rfl, rfl⟩
      -- what has the name and is kept would be declared, by the module or by a listed class
      rintro k hk hlisted rfl
      cases hparent : k.parentClass with
      | none => exact hown (exists_topLevelExport_iff.1 ⟨k, hk, rfl, hparent⟩)
      | some className =>
        rw [hparent] at hlisted
        exact hmembers ⟨className, hlisted, exists_topLevelExport_iff.1 ⟨k, hk, rfl, hparent⟩⟩

/-- The members that are exported are those of listed classes. -/
theorem FirstList.member_exported_iff {statement : Node} {items : List Node}
    (h : FirstList t statement items) {className : String} :
    (∃ e ∈ exports t, e.name = name ∧ e.parentClass = some className) ↔
      className ∈ items.map t.unquoted ∧ Declared t (some className) name := by
  rw [h.exports_eq]
  constructor
  · rintro ⟨e, he, rfl, hparent⟩
    rcases mem_narrow.1 he with ⟨hfound, hlisted⟩ | ⟨name, -, -, rfl⟩
    · rw [hparent] at hlisted
      exact ⟨hlisted, exists_topLevelExport_iff.1 ⟨e, hfound, rfl, hparent⟩⟩
    · cases hparent
  · rintro ⟨hclass, hmember⟩
    obtain ⟨e, he, rfl, hparent⟩ := exists_topLevelExport_iff.2 hmember
    exact ⟨e, mem_narrow.2 (.inl ⟨he, by rwa [hparent]⟩), rfl, hparent⟩

/-- **The list decides what is exported**: of a module with lists the first counts, and a string in
it that is a text between quotes lists this text. The module itself exports the listed names, except
those that nothing declares and that a member of a listed class has. The members of the listed
classes are exported, and no others. -/
theorem exports_decided_by_list (t : Tree) :
    ((∃ n ∈ t.topLevel, ∃ items, Lists t n items) →
      ∃ statement items, FirstList t statement items) ∧
    ∀ statement items, FirstList t statement items →
      (∀ item ∈ items, ∀ w, Quoted t item w → t.unquoted item = w) ∧
      (∀ name, (∃ e ∈ exports t, e.name = name ∧ e.parentClass = none) ↔
        name ∈ items.map t.unquoted ∧ (Declared t none name ∨
          ¬ ∃ className ∈ items.map t.unquoted, Declared t (some className) name)) ∧
      ∀ className name, (∃ e ∈ exports t, e.name = name ∧ e.parentClass = some className) ↔
        className ∈ items.map t.unquoted ∧ Declared t (some className) name := by
  refine ⟨exists_firstList, ?_⟩
  intro statement items hlist
  refine ⟨?_, ?_, ?_⟩
  · intro item _ w hquoted
    exact unquoted_of_quoted hquoted
  · intro name
    exact hlist.exported_iff
  · intro className name
    exact hlist.member_exported_iff

/-- A string of one character. -/
def stringNode (start : Nat) : Node :=
  .mk "string" true "" start (start + 3)
    [.mk "string_start" true "" start (start + 1) [],
      .mk "string_content" true "" (start + 1) (start + 2) [],
      .mk "string_end" true "" (start + 2) (start + 3) []]

/-- A statement that assigns a value to a name. -/
def assignmentNode (left right : Node) : Node :=
  .mk "expression_statement" true "" left.start right.stop
    [.mk "assignment" true "" left.start right.stop
      [left, .mk "=" false "" (left.stop + 1) (left.stop + 2) [], right]]

/-- The list `["C", "f"]`. -/
def listNode : Node :=
  .mk "list" true "right" 10 20
    [.mk "[" false "" 10 11 [], stringNode 11, .mk "," false "" 14 15 [], stringNode 16,
      .mk "]" false "" 19 20 []]

/-- A module that lists a class and a name that it imports; the class has a member of this name. -/
def listingTree : Tree :=
  let imported : Node := .mk "import_from_statement" true "" 21 36
    [.mk "from" false "" 21 25 [],
      .mk "dotted_name" true "module_name" 26 27 [.mk "identifier" true "" 26 27 []],
      .mk "import" false "" 28 34 [],
      .mk "dotted_name" true "name" 35 36 [.mk "identifier" true "" 35 36 []]]
  let body : Node := .mk "block" true "body" 50 55
    [assignmentNode (.mk "identifier" true "left" 50 51 []) (.mk "integer" true "right" 54 55 [])]
  let classNode : Node := .mk "class_definition" true "" 37 55
    [.mk "class" false "" 37 42 [], .mk "identifier" true "name" 43 44 [],
      .mk ":" false "" 44 45 [], body]
  .ofConcrete "__all__ = [\"C\", \"f\"]\nfrom m import f\nclass C:\n    f = 1\n".toList
    ⟨.mk "module" true "" 0 56
      [assignmentNode (.mk "identifier" true "left" 0 7 []) listNode, imported, classNode], false⟩

theorem firstList_listingTree : FirstList listingTree
    (assignmentNode (.mk "identifier" true "left" 0 7 []) listNode)
    [stringNode 11, stringNode 16] := by
  refine ⟨@Lists.mk _ _ _ _ listNode rfl rfl ?_ rfl (.inl rfl), [], _, rfl, ?_⟩
  · decide +kernel
  · intro n hn
    cases hn

/-- The class that is listed is exported, with its member. -/
theorem listed_class_exported :
    (∃ e ∈ exports listingTree, e.name = "C" ∧ e.parentClass = none) ∧
      ∃ e ∈ exports listingTree, e.name = "f" ∧ e.parentClass = some "C" := by
  have hclass : Declared listingTree none "C" := exists_topLevelExport_iff.1 (by decide +kernel)
  have hmember : Declared listingTree (some "C") "f" :=
    exists_topLevelExport_iff.1 (by decide +kernel)
  have hlisted : "C" ∈ [stringNode 11, stringNode 16].map listingTree.unquoted := by decide +kernel
  obtain ⟨-, hown, hmembers⟩ := (exports_decided_by_list listingTree).2 _ _ firstList_listingTree
  exact ⟨(hown "C").2 ⟨hlisted, .inl hclass⟩, (hmembers "C" "f").2 ⟨hlisted, hmember⟩⟩

/-- A listed name is missing if a member of a listed class has it. -/
theorem member_hides_listed :
    (∃ statement items, FirstList listingTree statement items ∧
      "f" ∈ items.map listingTree.unquoted) ∧
    ¬ ∃ e ∈ exports listingTree, e.name = "f" ∧ e.parentClass = none := by
  constructor
  · exact ⟨_, _, firstList_listingTree, by decide +kernel⟩
  · decide +kernel

end CodeSurvey.Surveyor.Python
