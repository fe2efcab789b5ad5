import CodeSurvey.Surveyor.Script
import Mathlib.Data.List.Basic
/-!
# Names bound by patterns

`Binds` is the grammar of patterns in declarations: names, objects, arrays, pairs, rests, and
patterns with default values, nested in each other. It gives what stands in a pattern from left to
right: the names that it binds and the default values. The names found in a pattern are those it
binds, in this order, and between them the names that its default values mention
(`flatMap_namesBound`). So the exports of a declaration are the names that it binds exactly if no
default value mentions a name.
-/
namespace CodeSurvey.Surveyor.Script

open Syntax

variable {t : Tree} {n : Node}

/-! ## Names at and below a node -/

/-- Kinds of nodes that are names. -/
def nameKinds : List String := ["shorthand_property_identifier_pattern", "identifier"]

theorem boundInAll_eq (t : Tree) (cs : List Node) :
    boundInAll t cs = cs.flatMap (namesBound t) := by
  induction cs with
  | nil => rw [boundInAll, List.flatMap_nil]
  | cons c cs ih => rw [boundInAll, List.flatMap_cons, ih]

theorem boundInValue_eq (t : Tree) (cs : List Node) :
    boundInValue t cs = (cs.find? fun c => c.field == "value").elim [] (namesBound t) := by
  induction cs with
  | nil => rw [boundInValue, List.find?_nil, Option.elim_none]
  | cons c cs ih =>
    rw [boundInValue, List.find?_cons]
    cases c.field == "value" with
    | true => rfl
    | false => exact ih

theorem namesBound_name (h : n.kind ∈ nameKinds) : namesBound t n = [t.text n] := by
  cases n with
  | mk kind named field start stop cs =>
    rw [namesBound, if_pos]
    simpa [nameKinds, Node.kind] using h

theorem namesBound_pair (h : n.kind = "pair_pattern") :
    namesBound t n = (n.child? "value").elim [] (namesBound t) := by
  cases n with
  | mk kind named field start stop cs =>
    obtain rfl : kind = "pair_pattern" := h
    rw [namesBound, if_neg (by decide), if_pos (by decide), boundInValue_eq]
    rfl

theorem namesBound_other (hname : n.kind ∉ nameKinds) (hpair : n.kind ≠ "pair_pattern") :
    namesBound t n = n.children.flatMap (namesBound t) := by
  cases n with
  | mk kind named field start stop cs =>
    have hname : kind ∉ nameKinds := hname
    have hpair : kind ≠ "pair_pattern" := hpair
    rw [namesBound, if_neg (by simpa [nameKinds] using hname), if_neg (by simpa using hpair),
      boundInAll_eq]
    rfl

/-- A name is mentioned at or below a node; of a pair only the value counts. -/
inductive Mentions (t : Tree) : Node → String → Prop
  | name {n : Node} (hname : n.kind ∈ nameKinds) : Mentions t n (t.text n)
  | value {n v : Node} {x : String} (hpair : n.kind = "pair_pattern")
      (hvalue : n.child? "value" = some v) (h : Mentions t v x) : Mentions t n x
  | child {n c : Node} {x : String} (hname : n.kind ∉ nameKinds) (hpair : n.kind ≠ "pair_pattern")
      (hchild : c ∈ n.children) (h : Mentions t c x) : Mentions t n x

theorem Mentions.mem {x : String} (h : Mentions t n x) : x ∈ namesBound t n := by
  induction h with
  | name hname => simp [namesBound_name hname]
  | value hpair hvalue _ ih =>
    rw [namesBound_pair hpair, hvalue]
    exact ih
  | child hname hpair hchild _ ih =>
    rw [namesBound_other hname hpair]
    exact List.mem_flatMap.2 ⟨_, hchild, ih⟩

-- follows the recursion of the search: a node, then the first of its children in a field, or all
mutual

theorem mentions_of_mem {x : String} :
    ∀ n : Node, x ∈ namesBound t n → Mentions t n x
  | .mk kind named field start stop cs, h => by
    by_cases hname : (Node.mk kind named field start stop cs).kind ∈ nameKinds
    · rw [namesBound_name hname, List.mem_singleton] at h
      rw [h]
      exact .name hname
    · by_cases hpair : (Node.mk kind named field start stop cs).kind = "pair_pattern"
      · rw [namesBound_pair hpair, Node.child?] at h
        obtain ⟨v, hv, hx⟩ := mentions_of_mem_value cs h
        exact .value hpair hv hx
      · rw [namesBound_other hname hpair] at h
        obtain ⟨c, hc, hx⟩ := mentions_of_mem_all cs h
        exact .child hname hpair hc hx

theorem mentions_of_mem_value {x : String} :
    ∀ cs : List Node, x ∈ (cs.find? fun c => c.field == "value").elim [] (namesBound t) →
      ∃ v, (cs.find? fun c => c.field == "value") = some v ∧ Mentions t v x
  | [], h => by cases h
  | c :: cs, h => by
    rw [List.find?_cons] at h ⊢
    cases hfield : c.field == "value" with
    | true =>
      rw [hfield] at h
      exact ⟨c, rfl, mentions_of_mem c h⟩
    | false =>
      rw [hfield] at h
      exact mentions_of_mem_value cs h

theorem mentions_of_mem_all {x : String} :
    ∀ cs : List Node, x ∈ cs.flatMap (namesBound t) → ∃ c ∈ cs, Mentions t c x
  | [], h => by cases h
  | c :: cs, h => by
    rw [List.flatMap_cons, List.mem_append] at h
    rcases h with h | h
    · exact ⟨c, List.mem_cons_self, mentions_of_mem c h⟩
    · obtain ⟨y, hy, hx⟩ := mentions_of_mem_all cs h
      exact ⟨y, List.mem_cons_of_mem _ hy, hx⟩

end

theorem mem_namesBound_iff {x : String} : x ∈ namesBound t n ↔ Mentions t n x :=
  ⟨mentions_of_mem n, Mentions.mem⟩

/-! ## Patterns -/

/-- What stands in a pattern: a name that it binds, or a default value. -/
inductive Slot where
  | bound (name : String)
  | default (value : Node)

namespace Slot

/-- The name that is bound. -/
def name? : Slot → Option String
  | bound name => some name
  | default _ => none

/-- The default value. -/
def value? : Slot → Option Node
  | bound _ => none
  | default value => some value

/-- The names that are found in a slot. -/
def found (t : Tree) : Slot → List String
  | bound name => [name]
  | default value => namesBound t value

end Slot

/-- Tokens between the parts of patterns, and comments. -/
def tokenKinds : List String :=
  ["\x7b", "\x7d", "[", "]", ",", ":", "...", "=", "comment"]

/-- A token has nothing below it. -/
def IsToken (n : Node) : Prop := n.kind ∈ tokenKinds ∧ n.children = []

/-- Patterns that bind what the patterns in them bind. -/
def groupKinds : List String := ["object_pattern", "array_pattern", "rest_pattern"]

/-- Patterns with a default value. -/
def defaultKinds : List String := ["assignment_pattern", "object_assignment_pattern"]

/-- Patterns one after the other, and what stands in them from left to right. Of a pair only the
value is a pattern. A pattern with a default value is its left side, and the value on its right
side. -/
inductive Binds (t : Tree) : List Node → List Slot → Prop
  | nil : Binds t [] []
  | token {n : Node} {ns : List Node} {slots : List Slot} (htoken : IsToken n)
      (hrest : Binds t ns slots) : Binds t (n :: ns) slots
  | name {n : Node} {ns : List Node} {slots : List Slot} (hname : n.kind ∈ nameKinds)
      (hrest : Binds t ns slots) : Binds t (n :: ns) (.bound (t.text n) :: slots)
  | group {n : Node} {ns : List Node} {inner slots : List Slot} (hgroup : n.kind ∈ groupKinds)
      (hinner : Binds t n.children inner) (hrest : Binds t ns slots) :
      Binds t (n :: ns) (inner ++ slots)
  | pair {n v : Node} {ns : List Node} {inner slots : List Slot} (hpair : n.kind = "pair_pattern")
      (hvalue : n.child? "value" = some v) (hinner : Binds t [v] inner) (hrest : Binds t ns slots) :
      Binds t (n :: ns) (inner ++ slots)
  | default {n l r : Node} {ns before between after : List Node} {inner slots : List Slot}
      (hkind : n.kind ∈ defaultKinds)
      (hchildren : n.children = before ++ l :: (between ++ r :: after))
      (hleft : l.field = "left") (hright : r.field = "right")
      (htokens : ∀ c ∈ before ++ between ++ after, IsToken c)
      (hinner : Binds t [l] inner) (hrest : Binds t ns slots) :
      Binds t (n :: ns) (inner ++ .default r :: slots)

/-- Tokens, groups and patterns with default values are searched through all their children. -/
theorem namesBound_children (h : n.kind ∈ tokenKinds ++ groupKinds ++ defaultKinds) :
    namesBound t n = n.children.flatMap (namesBound t) := by
  have hkinds : ∀ k ∈ tokenKinds ++ groupKinds ++ defaultKinds,
      k ∉ nameKinds ∧ k ≠ "pair_pattern" := by decide
  obtain ⟨hname, hpair⟩ := hkinds _ h
  exact namesBound_other hname hpair

theorem namesBound_token (h : IsToken n) : namesBound t n = [] := by
  rw [namesBound_children (by simp [h.1]), h.2, List.flatMap_nil]

theorem flatMap_tokens {cs : List Node} (h : ∀ c ∈ cs, IsToken c) :
    cs.flatMap (namesBound t) = [] := by
  rw [List.flatMap_eq_nil_iff]
  exact fun c hc => namesBound_token (h c hc)

/-- **What is found in patterns** is what their slots hold, in the order of the text. -/
theorem flatMap_namesBound {ns : List Node} {slots : List Slot} (h : Binds t ns slots) :
    ns.flatMap (namesBound t) = slots.flatMap (Slot.found t) := by
  induction h with
  | nil => rfl
  | token htoken _ ih => rw [List.flatMap_cons, namesBound_token htoken, List.nil_append, ih]
  | name hname _ ih =>
    rw [List.flatMap_cons, namesBound_name hname, List.flatMap_cons, ih, Slot.found]
  | group hgroup _ _ ihinner ih =>
    rw [List.flatMap_cons, namesBound_children (by simp [hgroup]), ihinner, ih,
      List.flatMap_append]
  | pair hpair hvalue _ _ ihinner ih =>
    rw [List.flatMap_singleton] at ihinner
    rw [List.flatMap_cons, namesBound_pair hpair, hvalue, Option.elim_some, ihinner, ih,
      List.flatMap_append]
  | @default n l r ns before between after inner slots hkind hchildren _ _ htokens _ _ ihinner ih =>
    have hbefore : before.flatMap (namesBound t) = [] :=
      flatMap_tokens fun c hc => htokens c (by simp [hc])
    have hbetween : between.flatMap (namesBound t) = [] :=
      flatMap_tokens fun c hc => htokens c (by simp [hc])
    have hafter : after.flatMap (namesBound t) = [] :=
      flatMap_tokens fun c hc => htokens c (by simp [hc])
    rw [List.flatMap_singleton] at ihinner
    rw [List.flatMap_cons, namesBound_children (by simp [hkind]), hchildren]
    simp only [List.flatMap_append, List.flatMap_cons, hbefore, hbetween, hafter, ihinner, ih,
      List.nil_append, List.append_nil, List.append_assoc, Slot.found]

/-- How names report what stands in a pattern: no name that is bound is missing, all stand in their
order, and what else there is comes from default values. -/
structure Reports (t : Tree) (slots : List Slot) (names : List String) : Prop where
  bound : (slots.filterMap Slot.name?).Sublist names
  mem_iff : ∀ x, x ∈ names ↔
    x ∈ slots.filterMap Slot.name? ∨ ∃ d ∈ slots.filterMap Slot.value?, Mentions t d x
  exact_iff : names = slots.filterMap Slot.name? ↔
    ∀ d ∈ slots.filterMap Slot.value?, ∀ x, ¬ Mentions t d x

theorem names_sublist (slots : List Slot) :
    (slots.filterMap Slot.name?).Sublist (slots.flatMap (Slot.found t)) := by
  induction slots with
  | nil => exact .slnil
  | cons slot slots ih =>
    rw [List.flatMap_cons]
    cases slot with
    | bound name => exact ih.cons_cons name
    | default value => exact ih.trans (List.sublist_append_right _ _)

theorem mem_flatMap_found {slots : List Slot} {x : String} : x ∈ slots.flatMap (Slot.found t) ↔
    x ∈ slots.filterMap Slot.name? ∨ ∃ d ∈ slots.filterMap Slot.value?, Mentions t d x := by
  induction slots with
  | nil => simp
  | cons slot slots ih =>
    rw [List.flatMap_cons, List.mem_append, ih]
    cases slot with
    | bound name => simp [Slot.found, Slot.name?, Slot.value?, or_assoc]
    | default value =>
      simp [Slot.found, Slot.name?, Slot.value?, mem_namesBound_iff, or_left_comm]

theorem not_mentions_iff {d : Node} : (∀ x, ¬ Mentions t d x) ↔ namesBound t d = [] := by
  simp only [← mem_namesBound_iff, List.eq_nil_iff_forall_not_mem]

theorem flatMap_found_eq_iff {slots : List Slot} :
    slots.flatMap (Slot.found t) = slots.filterMap Slot.name? ↔
      ∀ d ∈ slots.filterMap Slot.value?, ∀ x, ¬ Mentions t d x := by
  induction slots with
  | nil => simp
  | cons slot slots ih =>
    cases slot with
    | bound name => simpa [Slot.found, Slot.name?, Slot.value?] using ih
    | default value =>
      change namesBound t value ++ slots.flatMap (Slot.found t) = slots.filterMap Slot.name? ↔
        ∀ d ∈ value :: slots.filterMap Slot.value?, ∀ x, ¬ Mentions t d x
      rw [List.forall_mem_cons, not_mentions_iff]
      constructor
      · intro h
        -- the names of the other slots fit into what is found in them, so the value adds none
        have hfits := (@names_sublist t slots).length_le
        have hlength := congrArg List.length h
        rw [List.length_append] at hlength
        have hnil : namesBound t value = [] := List.length_eq_zero_iff.1 (by omega)
        rw [hnil, List.nil_append] at h
        exact ⟨hnil, ih.1 h⟩
      · rintro ⟨hnil, hothers⟩
        rw [hnil, List.nil_append]
        exact ih.2 hothers

theorem reports_of_binds {ns : List Node} {slots : List Slot} (h : Binds t ns slots) :
    Reports t slots (ns.flatMap (namesBound t)) := by
  rw [flatMap_namesBound h]
  exact ⟨names_sublist slots, fun x => mem_flatMap_found, flatMap_found_eq_iff⟩

/-! ## Exported declarations -/

/-- A statement exports a declaration of variables. -/
structure ExportsVariables (n d : Node) : Prop where
  kind : n.kind = "export_statement"
  isNotDefault : n.hasChildOf "default" = false
  declared : declared? n = some d
  declaredKind : d.kind ∈ variableKinds

/-- The patterns of the declarators of a declaration. -/
def patterns (d : Node) : List Node :=
  (d.namedChildren.filter fun c => c.kind == "variable_declarator").filterMap (·.child? "name")

theorem ExportsVariables.exportsDeclaration_eq {d : Node} (h : ExportsVariables n d)
    (kinds : List String) : exportsDeclaration kinds n = kinds.contains d.kind := by
  simp [exportsDeclaration, h.kind, h.declared]

/-- The rule for variables is the first that accepts such a statement. -/
theorem ExportsVariables.exportsAt_eq {d : Node} (h : ExportsVariables n d) :
    exportsAt exportSteps t n = declarationExports t n := by
  have hkinds : ∀ k ∈ variableKinds, functionKinds.contains k = false ∧
      classKinds.contains k = false ∧ (variableKinds ++ typeKinds).contains k = true := by decide
  obtain ⟨hfunction, hclass, hvariable⟩ := hkinds _ h.declaredKind
  simp only [exportsAt, exportSteps, List.find?_cons, h.isNotDefault, Bool.and_false,
    h.exportsDeclaration_eq, hfunction, hclass, hvariable]

theorem map_name_declaratorExports (keyword : String) (c : Node) :
    (declaratorExports t keyword c).map (·.name) =
      (c.child? "name").toList.flatMap (namesBound t) := by
  rw [declaratorExports]
  cases c.child? "name" with
  | none => rfl
  | some pattern =>
    rw [List.map_map, Option.toList_some, List.flatMap_singleton]
    refine List.map_id'' (fun name => ?_) _
    dsimp only [Function.comp]
    cases (c.child? "value").filter isFunctionValue with
    | none => rfl
    | some function =>
      by_cases hkind : pattern.kind == "identifier"
      · simp only [hkind, if_true, exportFunction]
      · simp only [hkind]
        rfl

theorem ExportsVariables.map_name {d : Node} (h : ExportsVariables n d) :
    (exportsAt exportSteps t n).map (·.name) = (patterns d).flatMap (namesBound t) := by
  have hkinds : ∀ k ∈ variableKinds, typeKinds.contains k = false := by decide
  rw [h.exportsAt_eq, declarationExports, h.declared]
  simp only [hkinds _ h.declaredKind, Bool.false_eq_true, if_false, List.map_flatMap,
    map_name_declaratorExports, patterns, List.filterMap_eq_flatMap_toList, List.flatMap_assoc]

/-- **The names of patterns are found, with those that default values mention**: in every pattern,
and in the exports of every declaration of variables, all names that are bound are found in the
order of the text. Any other name is mentioned by a default value, and exactly the bound names are
found if and only if no default value mentions a name. -/
theorem bound_names_reported (t : Tree) :
    (∀ (p : Node) (slots : List Slot), Binds t [p] slots → Reports t slots (namesBound t p)) ∧
    ∀ (n d : Node) (slots : List Slot), ExportsVariables n d → Binds t (patterns d) slots →
      Reports t slots ((exportsAt exportSteps t n).map (·.name)) := by
  constructor
  · intro p slots hbinds
    have hreports := reports_of_binds hbinds
    rwa [List.flatMap_singleton] at hreports
  · intro n d slots hexports hbinds
    rw [hexports.map_name]
    exact reports_of_binds hbinds

/-- A token of one character. -/
def tokenNode (kind : String) (start : Nat) : Node := .mk kind false "" start (start + 1) []

/-- A node of one character in a field. -/
def letterNode (kind field : String) (start : Nat) : Node :=
  .mk kind true field start (start + 1) []

/-- A declaration of constants by a pattern in the field `name`. -/
def constants (pattern : Node) : Node :=
  .mk "lexical_declaration" true "declaration" 7 pattern.stop
    [.mk "const" false "kind" 7 12 [], .mk "variable_declarator" true "" 13 pattern.stop [pattern]]

/-- A statement that exports constants. -/
def constantsExport (pattern : Node) : Node :=
  .mk "export_statement" true "" 0 pattern.stop [.mk "export" false "" 0 6 [], constants pattern]

theorem exportsVariables_constants (pattern : Node) :
    ExportsVariables (constantsExport pattern) (constants pattern) := by
  refine ⟨rfl, ?_, rfl, ?_⟩
  · simp [Node.hasChildOf, constantsExport, constants, Node.children, Node.kind]
  · simp [variableKinds, constants, Node.kind]

/-- The tree of a module that exports constants. -/
def constantsTree (source : List Char) (pattern : Node) : Tree :=
  .ofConcrete source ⟨.mk "program" true "" 0 (Text.size source) [constantsExport pattern], false⟩

/-- A pattern with a shorthand name and a default value, in an object. -/
def defaulted (start : Nat) (valueKind : String) : Node :=
  .mk "object_assignment_pattern" true "" start (start + 5)
    [letterNode "shorthand_property_identifier_pattern" "left" start, tokenNode "=" (start + 2),
      letterNode valueKind "right" (start + 4)]

theorem binds_defaulted (t : Tree) (start : Nat) (valueKind : String) {ns : List Node}
    {slots : List Slot} (h : Binds t ns slots) : Binds t (defaulted start valueKind :: ns)
      (.bound (t.text (letterNode "shorthand_property_identifier_pattern" "left" start)) ::
        .default (letterNode valueKind "right" (start + 4)) :: slots) := by
  have htokens : ∀ c ∈ [] ++ [tokenNode "=" (start + 2)] ++ [], IsToken c := by
    intro c hc
    rw [List.mem_singleton.1 hc]
    exact ⟨(by decide : "=" ∈ tokenKinds), rfl⟩
  have hdefault : "object_assignment_pattern" ∈ defaultKinds := by decide
  have hname : "shorthand_property_identifier_pattern" ∈ nameKinds := by decide
  have hinner : Binds t [letterNode "shorthand_property_identifier_pattern" "left" start] _ :=
    .name hname .nil
  exact @Binds.default t (defaulted start valueKind) _ _ ns [] _ [] _ slots hdefault rfl rfl rfl
    htokens hinner h

/-- Nested patterns, with a key and with a default value that mentions nothing. -/
theorem nested_names_exported :
    let rest : Node := .mk "rest_pattern" true "" 22 26
      [.mk "..." false "" 22 25 [], letterNode "identifier" "" 25]
    let elements : Node := .mk "array_pattern" true "value" 18 27
      [tokenNode "[" 18, letterNode "identifier" "" 19, tokenNode "," 20, rest, tokenNode "]" 26]
    let pair : Node := .mk "pair_pattern" true "" 15 27
      [letterNode "property_identifier" "key" 15, tokenNode ":" 16, elements]
    let pattern : Node := .mk "object_pattern" true "name" 13 36
      [tokenNode "\x7b" 13, pair, tokenNode "," 27, defaulted 29 "number", tokenNode "\x7d" 35]
    let t := constantsTree "export const \x7b k: [x, ...y], z = 1 \x7d = c".toList pattern
    (exportsAt exportSteps t (constantsExport pattern)).map (·.name) = ["x", "y", "z"] := by
  intro rest elements pair pattern t
  have hrest : Binds t [rest, tokenNode "]" 26] _ :=
    .group (by decide) (.token ⟨by decide, rfl⟩ (.name (by decide) .nil))
      (.token ⟨by decide, rfl⟩ .nil)
  have helements : Binds t [elements] _ :=
    .group (by decide) (.token ⟨by decide, rfl⟩ (.name (by decide) (.token ⟨by decide, rfl⟩ hrest)))
      .nil
  have hdefaulted : Binds t [defaulted 29 "number", tokenNode "\x7d" 35] _ :=
    binds_defaulted t 29 "number" (.token ⟨by decide, rfl⟩ .nil)
  have hpattern : Binds t [pattern] _ :=
    .group (by decide) (.token ⟨by decide, rfl⟩ (.pair rfl rfl helements
      (.token ⟨by decide, rfl⟩ hdefaulted))) .nil
  have hreports := (bound_names_reported t).2 _ _ _ (exportsVariables_constants pattern) hpattern
  refine (hreports.exact_iff.2 ?_).trans (by decide +kernel)
  intro d hd
  rw [List.mem_singleton.1 hd]
  exact not_mentions_iff.2 (by decide +kernel)

/-- A name that only a default value mentions is exported. -/
theorem default_value_exported :
    let pattern : Node := .mk "object_pattern" true "name" 13 22
      [tokenNode "\x7b" 13, defaulted 15 "identifier", tokenNode "\x7d" 21]
    let t := constantsTree "export const \x7b a = b \x7d = c".toList pattern
    (∃ slots, Binds t [pattern] slots ∧ slots.filterMap Slot.name? = ["a"]) ∧
      namesBound t pattern = ["a", "b"] ∧ (exports t).map (·.name) = ["a", "b"] := by
  intro pattern t
  have hpattern : Binds t [pattern] _ :=
    .group (by decide) (.token ⟨by decide, rfl⟩
      (binds_defaulted t 15 "identifier" (.token ⟨by decide, rfl⟩ .nil))) .nil
  exact ⟨⟨_, hpattern, by decide +kernel⟩, by decide +kernel, by decide +kernel⟩

end CodeSurvey.Surveyor.Script
