import CodeSurvey.Surveyor.Rust
import Mathlib.Data.List.Forall2
/-!
# Names brought in by use declarations

`UseTree` is the grammar of use declarations: names, paths, aliases, wildcards and `self` in lists that
are nested in each other and may have paths of their own. It gives the leaves from left to right, each
with the paths of the lists around it; `Entry.binding` says what a leaf brings in. Every leaf is found,
in this order, except `self`, which no rule reads (`names_of_useTree`). So a declaration brings in what
its leaves bring in exactly if `self` is none of them.
-/
namespace CodeSurvey.Surveyor.Rust

open Syntax Text

variable {t : Tree} {n : Node} {outer : String}

/-! ## Module paths -/

/-- The path that some paths make, one below the other; empty ones are left out. -/
def modulePath (paths : List String) : String :=
  "::".intercalate (paths.filter fun p => !p.isEmpty)

theorem isEmpty_modulePath (paths : List String) :
    (modulePath paths).isEmpty = (paths.filter fun p => !p.isEmpty).isEmpty := by
  have hparts : ∀ p ∈ paths.filter fun p => !p.isEmpty, p ≠ "" := by
    intro p hp
    simpa using (List.mem_filter.1 hp).2
  unfold modulePath
  generalize paths.filter (fun p => !p.isEmpty) = parts at *
  cases parts with
  | nil => rfl
  | cons p parts =>
    have hp := hparts p List.mem_cons_self
    cases parts with
    | nil => simpa using hp
    | cons q parts => simp

/-- A path below others. -/
theorem joinPath_modulePath (paths : List String) (p : String) :
    joinPath (modulePath paths) p = modulePath (paths ++ [p]) := by
  unfold joinPath
  rw [isEmpty_modulePath]
  unfold modulePath
  rw [List.filter_append]
  generalize paths.filter (fun p => !p.isEmpty) = parts
  by_cases hp : p = ""
  · subst hp
    cases parts with
    | nil => rfl
    | cons q parts => simp
  · have hkeep : [p].filter (fun p => !p.isEmpty) = [p] := by simp [hp]
    rw [hkeep]
    cases parts with
    | nil => simp
    | cons q parts =>
      rw [String.intercalate_append_of_ne_nil (List.cons_ne_nil q parts) (List.cons_ne_nil p [])]
      simp [hp]

theorem modulePath_concat_empty (paths : List String) :
    modulePath (paths ++ [""]) = modulePath paths := by
  simp [modulePath]

/-! ## The names of a node -/

/-- Kinds of nodes that are read in use declarations. -/
def useKinds : List String :=
  ["identifier", "scoped_identifier", "use_as_clause", "use_wildcard", "scoped_use_list", "use_list"]

theorem importedNames_identifier (h : n.kind = "identifier") :
    importedNames t outer n = [(t.text n, outer)] := by
  cases n with
  | mk kind named field start stop cs =>
    obtain rfl : kind = "identifier" := h
    rw [importedNames]

theorem importedNames_scoped (h : n.kind = "scoped_identifier") : importedNames t outer n =
    [((t.textAt? n "name").getD "", joinPath outer ((t.textAt? n "path").getD ""))] := by
  cases n with
  | mk kind named field start stop cs =>
    obtain rfl : kind = "scoped_identifier" := h
    rw [importedNames]

theorem importedNames_alias (h : n.kind = "use_as_clause") : importedNames t outer n =
    [((t.textAt? n "alias").getD "", joinPath outer (aliasedPath t n))] := by
  cases n with
  | mk kind named field start stop cs =>
    obtain rfl : kind = "use_as_clause" := h
    rw [importedNames]

/-- The path that is read in the text of a wildcard. -/
def starless (written : List Char) : List Char :=
  dropEndWhile (· == '*') (dropAll "::*" written)

theorem beforeEnd?_star {path : List Char} (h : path.getLast? ≠ some '*') :
    beforeEnd? "::*".toList path = none := by
  have hhead : path.reverse.head? ≠ some '*' := by rwa [List.head?_reverse]
  rw [beforeEnd?, Option.map_eq_none_iff]
  cases hpath : path.reverse with
  | nil => rfl
  | cons c r =>
    rw [hpath] at hhead
    have hc : '*' ≠ c := fun hc => hhead (by rw [hc]; rfl)
    exact if_neg hc

theorem starless_path {path : List Char} (h : path.getLast? ≠ some '*') :
    starless (path ++ "::*".toList) = path := by
  have hend : beforeEnd? "::*".toList (path ++ "::*".toList) = some path := by
    simp [beforeEnd?, afterStart?]
  have hdrop : dropAll "::*" (path ++ "::*".toList) = path := by
    have hlength : (path ++ "::*".toList).length = path.length + 2 + 1 := by simp
    rw [dropAll, hlength, dropEndings, hend]
    dsimp only
    rw [dropEndings, beforeEnd?_star h]
  rw [starless, hdrop, dropEndWhile]
  cases hpath : path.reverse with
  | nil => simpa using hpath.symm
  | cons c r =>
    have hc : c ≠ '*' := by
      rintro rfl
      rw [← List.head?_reverse, hpath] at h
      exact h rfl
    rw [List.dropWhile_cons_of_neg (by simpa using hc), ← hpath, List.reverse_reverse]

example : starless "a:: *".toList = "a:: ".toList := by decide

theorem importedNames_wildcard (h : n.kind = "use_wildcard") : importedNames t outer n =
    [("* from " ++ joinPath outer (String.ofList (starless (t.chars n))),
      joinPath outer (String.ofList (starless (t.chars n))))] := by
  cases n with
  | mk kind named field start stop cs =>
    obtain rfl : kind = "use_wildcard" := h
    rw [importedNames]
    rfl

theorem importedInList_eq (t : Tree) (outer : String) (cs : List Node) :
    importedInList t outer cs =
      (cs.find? fun c => c.field == "list").elim [] fun l => importedAll t outer l.children := by
  induction cs with
  | nil => rw [importedInList, List.find?_nil, Option.elim_none]
  | cons c cs ih =>
    obtain ⟨kind, named, field, start, stop, items⟩ := c
    rw [importedInList, List.find?_cons]
    have hfield : (Node.mk kind named field start stop items).field = field := rfl
    rw [hfield]
    cases field == "list" with
    | true => rfl
    | false => exact ih

theorem importedNames_scopedList (h : n.kind = "scoped_use_list") : importedNames t outer n =
    (n.child? "list").elim [] fun l =>
      importedAll t (joinPath outer ((t.textAt? n "path").getD "")) l.children := by
  cases n with
  | mk kind named field start stop cs =>
    obtain rfl : kind = "scoped_use_list" := h
    rw [importedNames, importedInList_eq]
    rfl

theorem importedNames_list (h : n.kind = "use_list") :
    importedNames t outer n = importedAll t outer n.children := by
  cases n with
  | mk kind named field start stop cs =>
    obtain rfl : kind = "use_list" := h
    rw [importedNames]
    rfl

theorem importedNames_other (h : n.kind ∉ useKinds) : importedNames t outer n = [] := by
  cases n with
  | mk kind named field start stop cs =>
    have hkind : kind ∉ useKinds := h
    simp only [useKinds, List.mem_cons, List.not_mem_nil, or_false, not_or] at hkind
    rw [importedNames]
    · exact hkind.1
    · exact hkind.2.1
    · exact hkind.2.2.1
    · exact hkind.2.2.2.1
    · exact hkind.2.2.2.2.1
    · exact hkind.2.2.2.2.2

/-! ## Use trees -/

/-- A leaf of a use declaration. -/
inductive Leaf where
  /-- A name below a path of its own, under this name or under an alias. -/
  | item (path name : String)
  /-- All names below a path of its own, and how this is written. -/
  | everything (path : String) (written : List Char)
  /-- What the paths around it name. -/
  | self

/-- A leaf with the paths of the lists around it, the outermost first. -/
structure Entry where
  outer : List String
  leaf : Leaf

namespace Entry

/-- The name that a leaf brings in, and the module path from which it comes. -/
def binding (e : Entry) : String × String :=
  match e.leaf with
  | .item path name => (name, modulePath (e.outer ++ [path]))
  | .everything path _ =>
    ("* from " ++ modulePath (e.outer ++ [path]), modulePath (e.outer ++ [path]))
  | .self => (String.ofList (afterLast ':' (modulePath e.outer).toList), modulePath e.outer)

/-- Whether the leaf is `self`. -/
def isSelf (e : Entry) : Bool :=
  match e.leaf with
  | .self => true
  | _ => false

/-- A wildcard is written without blanks and comments. -/
def IsTight (e : Entry) : Prop :=
  match e.leaf with
  | .everything path written => path.toList.getLast? ≠ some '*' ∧
    (written = path.toList ++ "::*".toList ∨ path = "" ∧ written = ['*'])
  | _ => True

/-- What is found at a leaf. -/
def found (e : Entry) : List (String × String) :=
  match e.leaf with
  | .item path name => [(name, modulePath (e.outer ++ [path]))]
  | .everything _ written =>
    let path := modulePath (e.outer ++ [String.ofList (starless written)])
    [("* from " ++ path, path)]
  | .self => []

end Entry

/-- Comments. -/
def commentKinds : List String := ["line_comment", "block_comment"]

/-- What stands between the parts of a list. -/
def separatorKinds : List String := ["\x7b", "\x7d", ","] ++ commentKinds

/-- The text of the path of a wildcard. -/
def wildcardPath (t : Tree) (n : Node) : String :=
  ((n.namedChildren.find? fun c => !commentKinds.contains c.kind).map t.text).getD ""

/-- Use trees one after the other, below some paths, and their leaves from left to right. A leaf has a
path of its own in front of its last segment; an alias has that of what it renames. -/
inductive UseTree (t : Tree) : List String → List Node → List Entry → Prop
  | nil {outer : List String} : UseTree t outer [] []
  | separator {outer : List String} {n : Node} {ns : List Node} {es : List Entry}
      (hkind : n.kind ∈ separatorKinds) (hrest : UseTree t outer ns es) : UseTree t outer (n :: ns) es
  | identifier {outer : List String} {n : Node} {ns : List Node} {es : List Entry}
      (hkind : n.kind = "identifier") (hnamed : n.named = true) (hrest : UseTree t outer ns es) :
      UseTree t outer (n :: ns) (⟨outer, .item "" (t.text n)⟩ :: es)
  | path {outer : List String} {n : Node} {name : String} {ns : List Node} {es : List Entry}
      (hkind : n.kind = "scoped_identifier") (hnamed : n.named = true)
      (hname : t.textAt? n "name" = some name) (hrest : UseTree t outer ns es) :
      UseTree t outer (n :: ns) (⟨outer, .item ((t.textAt? n "path").getD "") name⟩ :: es)
  | renamed {outer : List String} {n p : Node} {name : String} {ns : List Node} {es : List Entry}
      (hkind : n.kind = "use_as_clause") (hnamed : n.named = true)
      (halias : t.textAt? n "alias" = some name) (hpath : n.child? "path" = some p)
      (hplain : p.kind ≠ "scoped_identifier") (hrest : UseTree t outer ns es) :
      UseTree t outer (n :: ns) (⟨outer, .item "" name⟩ :: es)
  | renamedPath {outer : List String} {n p : Node} {name : String} {ns : List Node}
      {es : List Entry} (hkind : n.kind = "use_as_clause") (hnamed : n.named = true)
      (halias : t.textAt? n "alias" = some name) (hpath : n.child? "path" = some p)
      (hscoped : p.kind = "scoped_identifier") (hrest : UseTree t outer ns es) :
      UseTree t outer (n :: ns) (⟨outer, .item ((t.textAt? p "path").getD "") name⟩ :: es)
  | wildcard {outer : List String} {n : Node} {ns : List Node} {es : List Entry}
      (hkind : n.kind = "use_wildcard") (hnamed : n.named = true) (hrest : UseTree t outer ns es) :
      UseTree t outer (n :: ns) (⟨outer, .everything (wildcardPath t n) (t.chars n)⟩ :: es)
  | self {outer : List String} {n : Node} {ns : List Node} {es : List Entry}
      (hkind : n.kind = "self") (hrest : UseTree t outer ns es) :
      UseTree t outer (n :: ns) (⟨outer, .self⟩ :: es)
  | list {outer : List String} {n : Node} {ns : List Node} {inner es : List Entry}
      (hkind : n.kind = "use_list") (hnamed : n.named = true)
      (hinner : UseTree t outer n.children inner) (hrest : UseTree t outer ns es) :
      UseTree t outer (n :: ns) (inner ++ es)
  | scopedList {outer : List String} {n l : Node} {ns : List Node} {inner es : List Entry}
      (hkind : n.kind = "scoped_use_list") (hnamed : n.named = true)
      (hlist : n.child? "list" = some l)
      (hinner : UseTree t (outer ++ [(t.textAt? n "path").getD ""]) l.children inner)
      (hrest : UseTree t outer ns es) : UseTree t outer (n :: ns) (inner ++ es)

theorem importedAll_cons_named {c : Node} (cs : List Node) (h : c.named = true) :
    importedAll t outer (c :: cs) = importedNames t outer c ++ importedAll t outer cs := by
  rw [importedAll, if_pos h]

theorem importedAll_cons_other {c : Node} (cs : List Node) (h : c.kind ∉ useKinds) :
    importedAll t outer (c :: cs) = importedAll t outer cs := by
  rw [importedAll, importedNames_other h, ite_self, List.nil_append]

/-- **What is found in use trees** is what is found at their leaves, in the order of the text. -/
theorem names_of_useTree {paths : List String} {ns : List Node} {es : List Entry}
    (h : UseTree t paths ns es) : importedAll t (modulePath paths) ns = es.flatMap Entry.found := by
  induction h with
  | nil => rw [importedAll, List.flatMap_nil]
  | separator hkind _ ih =>
    have hother : ∀ k ∈ separatorKinds, k ∉ useKinds := by decide
    rw [importedAll_cons_other _ (hother _ hkind), ih]
  | identifier hkind hnamed _ ih =>
    rw [importedAll_cons_named _ hnamed, importedNames_identifier hkind, ih, List.flatMap_cons,
      ← modulePath_concat_empty]
    rfl
  | path hkind hnamed hname _ ih =>
    rw [importedAll_cons_named _ hnamed, importedNames_scoped hkind, ih, List.flatMap_cons,
      joinPath_modulePath, hname]
    rfl
  | @renamed outer n p name ns es hkind hnamed halias hpath hplain _ ih =>
    have haliased : aliasedPath t n = "" := by
      simp [aliasedPath, hpath, hplain]
    rw [importedAll_cons_named _ hnamed, importedNames_alias hkind, ih, List.flatMap_cons,
      joinPath_modulePath, halias, haliased]
    rfl
  | @renamedPath outer n p name ns es hkind hnamed halias hpath hscoped _ ih =>
    have haliased : aliasedPath t n = (t.textAt? p "path").getD "" := by
      simp [aliasedPath, hpath, hscoped]
    rw [importedAll_cons_named _ hnamed, importedNames_alias hkind, ih, List.flatMap_cons,
      joinPath_modulePath, halias, haliased]
    rfl
  | wildcard hkind hnamed _ ih =>
    rw [importedAll_cons_named _ hnamed, importedNames_wildcard hkind, ih, List.flatMap_cons,
      joinPath_modulePath]
    rfl
  | self hkind _ ih =>
    rw [importedAll_cons_other _ (hkind ▸ by decide), ih]
    rfl
  | list hkind hnamed _ _ ihinner ih =>
    rw [importedAll_cons_named _ hnamed, importedNames_list hkind, ihinner, ih, List.flatMap_append]
  | scopedList hkind hnamed hlist _ _ ihinner ih =>
    rw [importedAll_cons_named _ hnamed, importedNames_scopedList hkind, hlist, Option.elim_some,
      joinPath_modulePath, ihinner, ih, List.flatMap_append]

/-! ## What is reported -/

theorem Entry.found_of_isSelf {e : Entry} (h : e.isSelf = true) : e.found = [] := by
  obtain ⟨outer, leaf⟩ := e
  cases leaf with
  | item _ _ => cases h
  | everything _ _ => cases h
  | self => rfl

/-- One pair is found at every other leaf, and it is what the leaf brings in. -/
theorem Entry.exists_found {e : Entry} (h : e.isSelf = false) :
    ∃ b, e.found = [b] ∧ (e.IsTight → b = e.binding) := by
  obtain ⟨outer, leaf⟩ := e
  cases leaf with
  | item path name => exact ⟨_, rfl, fun _ => rfl⟩
  | everything path written =>
    refine ⟨_, rfl, ?_⟩
    rintro ⟨hstar, hwritten⟩
    have hpath : String.ofList (starless written) = path := by
      rcases hwritten with rfl | ⟨rfl, rfl⟩
      · rw [starless_path hstar, String.ofList_toList]
      · rfl
    rw [hpath]
    rfl
  | self => cases h

/-- How pairs of names and module paths report the leaves of a use tree: each leaf but `self` has its
pair, in the order of the text, and exactly what the leaves bring in is reported if and only if none of
them is `self`. -/
structure Reports (es : List Entry) (pairs : List (String × String)) : Prop where
  each : List.Forall₂ (fun e b => e.IsTight → b = e.binding) (es.filter fun e => !e.isSelf) pairs
  exact_iff : (∀ e ∈ es, e.IsTight) →
    (pairs = es.map Entry.binding ↔ ∀ e ∈ es, e.isSelf = false)

theorem forall₂_found (es : List Entry) :
    List.Forall₂ (fun e b => e.IsTight → b = e.binding) (es.filter fun e => !e.isSelf)
      (es.flatMap Entry.found) := by
  induction es with
  | nil => exact .nil
  | cons e es ih =>
    rw [List.flatMap_cons]
    cases hself : e.isSelf with
    | true =>
      rw [List.filter_cons_of_neg (by simp [hself]), Entry.found_of_isSelf hself, List.nil_append]
      exact ih
    | false =>
      obtain ⟨b, hfound, hb⟩ := Entry.exists_found hself
      rw [List.filter_cons_of_pos (by simp [hself]), hfound]
      exact .cons hb ih

theorem eq_map_of_forall₂ {es : List Entry} {pairs : List (String × String)}
    (h : List.Forall₂ (fun e b => e.IsTight → b = e.binding) es pairs) (htight : ∀ e ∈ es, e.IsTight) :
    pairs = es.map Entry.binding := by
  induction h with
  | nil => rfl
  | cons hb _ ih =>
    rw [List.forall_mem_cons] at htight
    rw [List.map_cons, hb htight.1, ih htight.2]

theorem reports_found (es : List Entry) : Reports es (es.flatMap Entry.found) := by
  refine ⟨forall₂_found es, fun htight => ?_⟩
  have hpairs := eq_map_of_forall₂ (forall₂_found es) fun e he => htight e (List.mem_filter.1 he).1
  rw [hpairs]
  constructor
  · intro h
    -- as many leaves as there are, so none was left out
    have hlength := congrArg List.length h
    rw [List.length_map, List.length_map, List.length_filter_eq_length_iff] at hlength
    simpa using hlength
  · intro h
    rw [List.filter_eq_self.2 fun e he => by simp [h e he]]

/-- A public use declaration and what it declares. -/
structure PublicUse (t : Tree) (n argument : Node) : Prop where
  kind : n.kind = "use_declaration"
  isPublic : isPublic t n = true
  argument : n.child? "argument" = some argument

theorem PublicUse.exportsAt_eq {argument : Node} (h : PublicUse t n argument) :
    exportsAt exportSteps t n = (importedNames t "" argument).map fun b =>
      { name := b.1, kind := .reExport, declaration := "pub_use", location := t.location n,
        source := some b.2 } := by
  have hitem : itemKinds.contains "use_declaration" = false := by decide
  simp only [exportsAt, exportSteps, List.find?_cons, h.kind, hitem, Bool.false_and, beq_self_eq_true,
    h.isPublic, Bool.and_self, useExports, h.argument, Option.elim_some]

/-- **Use declarations bring in what their leaves bring in, except `self`**: in every use tree, and in the
exports of every public use declaration, each leaf but `self` gives one pair of name and module path, in
the order of the text: the paths of the lists around it, then its own, and its last segment, its alias, or
all of the module. That holds where wildcards are written without blanks and comments; then exactly what
the leaves bring in is found if and only if none of them is `self`. -/
theorem use_names_reported (t : Tree) (argument : Node) (es : List Entry)
    (hnamed : argument.named = true) (h : UseTree t [] [argument] es) :
    Reports es (importedNames t "" argument) ∧
    ∀ n, PublicUse t n argument → ∃ pairs, Reports es pairs ∧
      exportsAt exportSteps t n = pairs.map fun b =>
        { name := b.1, kind := .reExport, declaration := "pub_use", location := t.location n,
          source := some b.2 } := by
  have hfound : importedNames t "" argument = es.flatMap Entry.found := by
    have hall := names_of_useTree h
    rw [importedAll_cons_named [] hnamed, importedAll, List.append_nil] at hall
    exact hall
  have hreports : Reports es (importedNames t "" argument) := hfound ▸ reports_found es
  exact ⟨hreports, fun n hn => ⟨_, hreports, hn.exportsAt_eq⟩⟩

/-- A token. -/
def token (kind : String) (start : Nat) : Node :=
  .mk kind false "" start (start + kind.length) []

/-- A name of one letter in a field. -/
def letter (field : String) (start : Nat) : Node := .mk "identifier" true field start (start + 1) []

/-- A list in braces. -/
def listOf (field : String) (start stop : Nat) (items : List Node) : Node :=
  .mk "use_list" true field start stop (token "\x7b" start :: (items ++ [token "\x7d" (stop - 1)]))

/-- A list behind a path of one letter. -/
def listBelow (field : String) (start stop : Nat) (items : List Node) : Node :=
  .mk "scoped_use_list" true field start stop
    [letter "path" start, token "::" (start + 1), listOf "list" (start + 3) stop items]

/-- A public use declaration of an argument. -/
def publicUse (argument : Node) : Node :=
  .mk "use_declaration" true "" 0 (argument.stop + 1)
    [.mk "visibility_modifier" true "" 0 3 [token "pub" 0], token "use" 4, argument,
      token ";" argument.stop]

/-- The tree of a file with one declaration. -/
def fileOf (source : String) (declaration : Node) : Tree :=
  .ofConcrete source.toList
    ⟨.mk "source_file" true "" 0 (size source.toList) [declaration], false⟩

/-- Names, an alias and a wildcard in lists that are nested in each other. -/
theorem nested_names_reported :
    let clause : Node := .mk "use_as_clause" true "" 19 25
      [letter "path" 19, token "as" 21, letter "alias" 24]
    let star : Node := .mk "use_wildcard" true "" 33 37 [letter "" 33, token "::" 34, token "*" 36]
    let inner := listBelow "" 15 31 [clause, token "," 25, listOf "" 27 30 [letter "" 28]]
    let argument := listBelow "argument" 8 38 [letter "" 12, token "," 13, inner, token "," 31, star]
    let t := fileOf "pub use a::\x7bb, c::\x7bd as e, \x7bf\x7d\x7d, g::*\x7d;" (publicUse argument)
    (exportsAt exportSteps t (publicUse argument)).map (fun e => (e.name, e.source)) =
      [("b", some "a"), ("e", some "a::c"), ("f", some "a::c"), ("* from a::g", some "a::g")] := by
  intro clause star inner argument t
  have hstar (outer : List String) : UseTree t outer [star, token "\x7d" 37] _ :=
    .wildcard rfl rfl (.separator (by decide) .nil)
  have hlist (outer : List String) :
      UseTree t outer [listOf "" 27 30 [letter "" 28], token "\x7d" 30] _ :=
    .list rfl rfl (.separator (by decide) (.identifier rfl rfl
      (.separator (by decide) .nil))) (.separator (by decide) .nil)
  have hclause (outer : List String) : UseTree t outer
      (listOf "list" 18 31 [clause, token "," 25, listOf "" 27 30 [letter "" 28]]).children _ :=
    .separator (by decide) (.renamed rfl rfl rfl rfl (by decide) (.separator (by decide) (hlist outer)))
  have hinner (outer : List String) :
      UseTree t outer [inner, token "," 31, star, token "\x7d" 37] _ :=
    .scopedList rfl rfl rfl (hclause _) (.separator (by decide) (hstar outer))
  have hargument : UseTree t [] [argument] _ :=
    .scopedList rfl rfl rfl (.separator (by decide) (.identifier rfl rfl
      (.separator (by decide) (hinner _)))) .nil
  have hpublic : PublicUse t (publicUse argument) argument := ⟨rfl, by decide +kernel, rfl⟩
  obtain ⟨pairs, hreports, hexports⟩ :=
    (use_names_reported t argument _ rfl hargument).2 (publicUse argument) hpublic
  have hpairs := (hreports.exact_iff ?_).2 ?_
  · rw [hexports, hpairs]
    decide +kernel
  · intro e he
    simp only [List.cons_append, List.nil_append, List.append_nil, List.mem_cons, List.not_mem_nil,
      or_false] at he
    rcases he with rfl | rfl | rfl | rfl
    · trivial
    · trivial
    · trivial
    · exact ⟨by decide +kernel, .inl (by decide +kernel)⟩
  · decide +kernel

/-- The module itself, though listed, is not reported. -/
theorem self_not_reported :
    let argument := listBelow "argument" 8 20
      [.mk "self" true "" 12 16 [], token "," 16, letter "" 18]
    let t := fileOf "pub use a::\x7bself, b\x7d;" (publicUse argument)
    (∃ es, UseTree t [] [argument] es ∧ es.map Entry.binding = [("a", "a"), ("b", "a")]) ∧
      importedNames t "" argument = [("b", "a")] ∧ (exports t).map (·.name) = ["b"] := by
  intro argument t
  have hargument : UseTree t [] [argument] _ :=
    .scopedList rfl rfl rfl (.separator (by decide) (.self rfl (.separator (by decide)
      (.identifier rfl rfl (.separator (by decide) .nil))))) .nil
  exact ⟨⟨_, hargument, by decide +kernel⟩, by decide +kernel, by decide +kernel⟩

end CodeSurvey.Surveyor.Rust
