import CodeSurvey.Proofs.CommentSearch
import CodeSurvey.Proofs.Directory
import CodeSurvey.Proofs.Gathering
import CodeSurvey.Proofs.Masking
import Mathlib.Data.List.TakeWhile
/-!
# Names come from the source

What a scan reports is cut out of the masked text: trimming, splitting and looking for words take
pieces of a piece, and every one of them is followed to its offset (`occurs_of_mem_sourcesIn`,
`infix_of_specifierName?`). A piece of the masked text is read in the source itself, outside the
comments (`Scan.readsAt_of_occurs`). So it is for every dependency, export, class and function of a
scan.
-/
namespace CodeSurvey

open Text Pattern

/-! ## Pieces of texts -/

namespace Text

theorem Occurs.of_isPrefix {s t : List Char} (h : t <+: s) : Occurs s 0 t := by
  obtain ⟨b, rfl⟩ := h
  exact ⟨[], b, rfl, rfl⟩

theorem Occurs.of_isInfix {s t : List Char} (h : t <:+: s) : ∃ n, Occurs s n t := by
  obtain ⟨a, b, rfl⟩ := h
  exact ⟨size a, a, b, List.append_assoc .., rfl⟩

theorem Occurs.cons {s t : List Char} {n : Nat} (c : Char) (h : Occurs s n t) :
    Occurs (c :: s) (c.utf8Size + n) t := by
  obtain ⟨a, b, rfl, rfl⟩ := h
  exact ⟨c :: a, b, rfl, rfl⟩

theorem Occurs.size_le {s t : List Char} {n : Nat} (h : Occurs s n t) : n + size t ≤ size s := by
  obtain ⟨a, b, rfl, rfl⟩ := h
  simp only [size_append]
  omega

theorem prefix_dropEndWhile (p : Char → Bool) (s : List Char) : dropEndWhile p s <+: s := by
  have h : s.reverse.dropWhile p <:+ s.reverse := List.dropWhile_suffix _
  simpa [dropEndWhile] using List.reverse_prefix.2 h

theorem prefix_trimEnd (s : List Char) : trimEnd s <+: s := prefix_dropEndWhile isBlank s

theorem infix_trim (s : List Char) : trim s <:+: s :=
  (prefix_trimEnd _).isInfix.trans (List.dropWhile_suffix _).isInfix

/-- A text starts with its leading blanks and what is left after trimming. -/
theorem prefix_takeWhile_append_trim (s : List Char) : s.takeWhile isBlank ++ trim s <+: s := by
  obtain ⟨b, hb⟩ := prefix_trimEnd (trimStart s)
  refine ⟨b, ?_⟩
  rw [List.append_assoc, trim, hb]
  exact List.takeWhile_append_dropWhile

theorem prefix_of_splitBy {p : Char → Bool} {s w : List Char} {ws : List (List Char)}
    (h : splitBy p s = w :: ws) : w <+: s := by
  induction s generalizing w ws with
  | nil =>
    obtain ⟨rfl, -⟩ := List.cons.inj h
    exact List.nil_prefix
  | cons c r ih =>
    rw [splitBy] at h
    split at h
    · obtain ⟨rfl, -⟩ := List.cons.inj h
      exact List.nil_prefix
    · obtain ⟨v, vs, hv⟩ := List.exists_cons_of_ne_nil (FileSystem.splitBy_ne_nil p r)
      rw [hv] at h
      obtain ⟨rfl, -⟩ := List.cons.inj h
      exact (List.prefix_cons_inj _).2 (ih hv)

theorem infix_of_mem_splitBy {p : Char → Bool} {s w : List Char} (h : w ∈ splitBy p s) : w <:+: s := by
  induction s generalizing w with
  | nil =>
    obtain rfl := List.mem_singleton.1 h
    exact List.infix_rfl
  | cons c r ih =>
    have hlater : w ∈ splitBy p r → w <:+: c :: r := fun h => (ih h).trans (List.suffix_cons c r).isInfix
    obtain ⟨v, vs, hv⟩ := List.exists_cons_of_ne_nil (FileSystem.splitBy_ne_nil p r)
    rw [splitBy] at h
    split at h
    · rcases List.mem_cons.1 h with rfl | h
      · exact List.nil_infix
      · exact hlater h
    · rw [hv] at h
      rcases List.mem_cons.1 h with rfl | h
      · exact ((List.prefix_cons_inj _).2 (prefix_of_splitBy hv)).isInfix
      · exact hlater (hv ▸ List.mem_cons_of_mem _ h)

/-- The first piece ends at the first separator. -/
theorem splitAt_eq_cons {sep : Char} {s w : List Char} {ws : List (List Char)}
    (h : splitAt sep s = w :: ws) :
    ws = [] ∧ s = w ∨ ∃ rest, s = w ++ sep :: rest ∧ splitAt sep rest = ws := by
  unfold splitAt at h ⊢
  induction s generalizing w ws with
  | nil =>
    obtain ⟨rfl, rfl⟩ := List.cons.inj h
    exact .inl ⟨rfl, rfl⟩
  | cons c r ih =>
    rw [splitBy] at h
    split at h
    · rename_i hc
      obtain ⟨rfl, rfl⟩ := List.cons.inj h
      exact .inr ⟨r, by rw [eq_of_beq hc]; rfl, rfl⟩
    · obtain ⟨v, vs, hv⟩ := List.exists_cons_of_ne_nil (FileSystem.splitBy_ne_nil (· == sep) r)
      rw [hv] at h
      obtain ⟨rfl, rfl⟩ := List.cons.inj h
      rcases ih hv with ⟨hnil, rfl⟩ | ⟨rest, rfl, hrest⟩
      · exact .inl ⟨hnil, rfl⟩
      · exact .inr ⟨rest, rfl, hrest⟩

/-- The first word stands behind the leading blanks. -/
theorem occurs_of_words {s w : List Char} {ws : List (List Char)} (h : words s = w :: ws) :
    Occurs s (size (s.takeWhile isBlank)) w := by
  unfold words at h
  induction s with
  | nil => cases h
  | cons c r ih =>
    rw [splitBy] at h
    split at h
    · rename_i hc
      rw [List.takeWhile_cons_of_pos hc, size]
      exact (ih h).cons c
    · rename_i hc
      obtain ⟨v, vs, hv⟩ := List.exists_cons_of_ne_nil (FileSystem.splitBy_ne_nil isBlank r)
      rw [hv, List.filter_cons_of_pos rfl] at h
      obtain ⟨rfl, -⟩ := List.cons.inj h
      rw [List.takeWhile_cons_of_neg hc]
      exact .of_isPrefix ((List.prefix_cons_inj _).2 (prefix_of_splitBy hv))

theorem suffix_of_afterStart? {start s rest : List Char} (h : afterStart? start s = some rest) :
    rest <:+ s := by
  induction start generalizing s with
  | nil =>
    obtain rfl := Option.some.inj h
    exact List.suffix_rfl
  | cons a r ih =>
    cases s with
    | nil => cases h
    | cons c s =>
      rw [afterStart?] at h
      split at h
      · exact (ih h).trans (List.suffix_cons c s)
      · cases h

end Text

theorem Export.suffix_of_splitOnce? {sep s : List Char} {x : List Char × List Char}
    (h : splitOnce? sep s = some x) : x.2 <:+ s := by
  induction s generalizing x with
  | nil => cases h
  | cons c r ih =>
    rw [splitOnce?] at h
    split at h
    · rename_i rest hrest
      obtain rfl := Option.some.inj h
      exact suffix_of_afterStart? hrest
    · obtain ⟨y, hy, rfl⟩ := Option.map_eq_some_iff.1 h
      exact (ih hy).trans (List.suffix_cons c r)

/-- The exported name is a piece of its entry. -/
theorem Export.infix_of_specifierName? {entry name : List Char}
    (h : specifierName? entry = some name) : name <:+: entry := by
  have hbare : trim ((afterStart? "type ".toList (trim entry)).getD (trim entry)) <:+: entry := by
    cases hafter : afterStart? "type ".toList (trim entry) with
    | none => exact (infix_trim _).trans (infix_trim entry)
    | some rest =>
      exact (infix_trim _).trans ((suffix_of_afterStart? hafter).isInfix.trans (infix_trim entry))
  simp only [specifierName?] at h
  split at h
  · cases h
  · split at h
    · rename_i before renamed hsplit
      obtain rfl := Option.some.inj h
      exact (infix_trim renamed).trans ((suffix_of_splitOnce? hsplit).isInfix.trans hbare)
    · obtain rfl := Option.some.inj h
      exact hbare

namespace Scan

theorem occurs_of_mem_commaSources {parts : List (List Char)} {s w : List Char} {offset o : Nat}
    (hparts : splitAt ',' s = parts) (h : (w, o) ∈ commaSources offset parts) :
    ∃ k, o = offset + k ∧ Occurs s k w := by
  induction parts generalizing s offset with
  | nil => cases h
  | cons part parts ih =>
    -- a later part stands behind this one and a comma
    have hlater (h : (w, o) ∈ commaSources (offset + size part + 1) parts) :
        ∃ k, o = offset + k ∧ Occurs s k w := by
      rcases splitAt_eq_cons hparts with ⟨rfl, -⟩ | ⟨rest, rfl, hrest⟩
      · cases h
      · obtain ⟨k, rfl, hk⟩ := ih hrest h
        have hwidth : Char.utf8Size ',' = 1 := rfl
        refine ⟨size part + (1 + k), by omega, ?_⟩
        have hcomma := hk.cons ','
        rw [hwidth] at hcomma
        exact Occurs.trans ⟨part, [], by simp, rfl⟩ hcomma
    rw [commaSources] at h
    split at h
    · exact hlater h
    · rename_i v vs hwords
      rcases List.mem_cons.1 h with heq | h
      · cases heq
        have hpart : Occurs s 0 part := by
          rcases splitAt_eq_cons hparts with ⟨-, rfl⟩ | ⟨rest, rfl, -⟩
          · exact .of_isPrefix (List.prefix_refl _)
          · exact .of_isPrefix (List.prefix_append _ _)
        exact ⟨_, rfl, by simpa using hpart.trans (occurs_of_words hwords)⟩
      · exact hlater h

/-- **Sources stand where they are said to**, blanks apart. -/
theorem occurs_of_mem_sourcesIn {split : SourceForm} {s w : List Char} {offset o : Nat}
    (h : (w, o) ∈ sourcesIn split s offset) :
    ∃ k blanks, o = offset + k ∧ (∀ c ∈ blanks, isBlank c = true) ∧ Occurs s k (blanks ++ w) := by
  cases split with
  | whole =>
    cases List.mem_singleton.1 h
    refine ⟨0, s.takeWhile isBlank, rfl, fun c hc => ?_, .of_isPrefix (prefix_takeWhile_append_trim s)⟩
    exact List.mem_takeWhile_imp hc
  | commas =>
    obtain ⟨k, hk, hocc⟩ := occurs_of_mem_commaSources rfl h
    exact ⟨k, [], hk, fun c hc => absurd hc List.not_mem_nil, hocc⟩
  | quoted =>
    obtain ⟨m, hm, h⟩ := List.mem_filterMap.1 h
    obtain ⟨sp, hsp, heq⟩ := Option.map_eq_some_iff.1 h
    cases heq
    exact ⟨sp.start, [], rfl, fun c hc => absurd hc List.not_mem_nil,
      ((cuts_of_mem_findAll hm).group hsp).1.occurs⟩

/-! ## Reading outside comments -/

/-- A text is read in the source at an offset: each of its characters, blanks apart, stands there, with
all its bytes outside the comments. -/
def ReadsAt (sc : Scan) (n : Nat) (text : List Char) : Prop :=
  ∀ a c b, text = a ++ c :: b → isBlank c = false →
    Occurs sc.source (n + size a) [c] ∧
      ∀ i < c.utf8Size, Comment.covered sc.comments (n + size a + i) = false

theorem cuts_comments (l : Language) (source : List Char) :
    ∀ sp ∈ (ofSource l source).comments, Cuts source sp (slice sp.start sp.stop source) :=
  fun _ hsp => (Comment.cuts_of_mem_spans hsp).1

/-- **A piece of the masked text is read in the source.** -/
theorem readsAt_of_occurs {l : Language} {source text : List Char} {n : Nat}
    (h : Occurs (ofSource l source).masked n text) : (ofSource l source).ReadsAt n text := by
  rintro a c b rfl hc
  have hchar : Occurs (ofSource l source).masked (n + size a) [c] := h.trans ⟨a, b, rfl, rfl⟩
  exact Comment.occurs_of_occurs_mask (cuts_comments l source) hchar hc

/-! ## Facts -/

variable {sc : Scan}

theorem cuts_text {p : TextPattern} {m : Match} {label : String} {sp : Span}
    (hm : m ∈ p.findAll sc.masked) (hsp : m.group? label = some sp) :
    Cuts sc.masked sp (sc.text sp) ∧ m.start ≤ sp.start ∧ sp.stop ≤ m.stop :=
  (cuts_of_mem_findAll hm).group hsp

/-- The source of a dependency stands behind blanks at the offset whose line is reported. -/
theorem occurs_dependency {fs : FileSystem} {file : OsString} {d : Dependency}
    (h : d ∈ sc.dependencies fs file) :
    ∃ n blanks, d.line = sc.lines.line n ∧ (∀ c ∈ blanks, isBlank c = true) ∧
      Occurs sc.masked n (blanks ++ d.source.toList) := by
  obtain ⟨offset, h⟩ := mem_byOffset.1 h
  obtain ⟨rule, -, h⟩ := List.mem_flatMap.1 h
  obtain ⟨m, hm, h⟩ := List.mem_flatMap.1 h
  split at h
  · cases h
  · rename_i sp hsp
    obtain ⟨⟨cs, o⟩, hcs, h⟩ := List.mem_map.1 h
    obtain ⟨rfl, rfl⟩ := Prod.mk.inj h
    obtain ⟨k, blanks, rfl, hblanks, hocc⟩ := occurs_of_mem_sourcesIn hcs
    refine ⟨sp.start + k, blanks, rfl, hblanks, ?_⟩
    rw [String.toList_ofList]
    exact (cuts_text hm hsp).1.occurs.trans hocc

/-- The text of a group stands inside its match; a group that took no part is empty. -/
theorem occurs_groupText {s : List Char} {m : Match} (h : MatchCuts s m) (label : String) :
    ∃ k, m.start ≤ k ∧ k + size (Comment.groupText s m label) ≤ m.stop ∧
      Occurs s k (Comment.groupText s m label) := by
  unfold Comment.groupText
  split
  · rename_i sp hsp
    obtain ⟨hcuts, hstart, hstop⟩ := h.group hsp
    exact ⟨sp.start, hstart, hcuts.stop ▸ hstop, hcuts.occurs⟩
  · have hwhole := h.whole.occurs.trans (.of_isPrefix List.nil_prefix)
    have hle : m.start ≤ m.stop := by
      rw [Match.stop, h.whole.stop]
      exact Nat.le_add_right _ _
    exact ⟨m.start, Nat.le_refl _, by simpa [size] using hle, hwhole⟩

end Scan

/-! ## Exports -/

namespace Export

variable {reads : Nat → List Char → Prop} {ix : LineIndex} {s : List Char}

/-- An export of a name that is read in the range of its location. -/
def OwnName (reads : Nat → List Char → Prop) (ix : LineIndex) (e : Export) : Prop :=
  e.source = none ∧ ∃ n, e.location = .ofOffsets ix n (n + size e.name.toList) ∧ reads n e.name.toList

/-- A re-export: the module is read in the range of its location and so is the name, unless it is made
up from the module. -/
def FromModule (reads : Nat → List Char → Prop) (ix : LineIndex) (e : Export) : Prop :=
  ∃ start stop, e.location = .ofOffsets ix start stop ∧
    ∃ module k, e.source = some module ∧ start ≤ k ∧ k + size module.toList ≤ stop ∧
      reads k module.toList ∧ (e.name = "* from " ++ module ∨
        ∃ j, start ≤ j ∧ j + size e.name.toList ≤ stop ∧ reads j e.name.toList)

theorem OwnName.imp {reads' : Nat → List Char → Prop} (h : ∀ n t, reads n t → reads' n t) {e : Export}
    (he : OwnName reads ix e) : OwnName reads' ix e := by
  obtain ⟨hsource, n, hlocation, hname⟩ := he
  exact ⟨hsource, n, hlocation, h _ _ hname⟩

theorem FromModule.imp {reads' : Nat → List Char → Prop} (h : ∀ n t, reads n t → reads' n t)
    {e : Export} (he : FromModule reads ix e) : FromModule reads' ix e := by
  obtain ⟨start, stop, hlocation, module, k, hsource, hk, hk', hmodule, hname⟩ := he
  refine ⟨start, stop, hlocation, module, k, hsource, hk, hk', h _ _ hmodule, ?_⟩
  rcases hname with hname | ⟨j, hj, hj', hname⟩
  · exact .inl hname
  · exact .inr ⟨j, hj, hj', h _ _ hname⟩

/-- A statement whose name is found, or made up from its module. -/
theorem fromModule_reexportOf {m : Match} (hm : MatchCuts s m) (declaration : String)
    {name : List Char}
    (hname : name = "* from ".toList ++ Comment.groupText s m "source" ∨
      ∃ j, m.start ≤ j ∧ j + size name ≤ m.stop ∧ Occurs s j name) :
    FromModule (Occurs s) ix (reexportOf ix s m declaration name).value := by
  obtain ⟨k, hk, hk', hocc⟩ := Scan.occurs_groupText hm "source"
  refine ⟨m.start, m.stop, rfl, String.ofList (Comment.groupText s m "source"), k, rfl, hk,
    by rwa [String.toList_ofList], by rwa [String.toList_ofList], ?_⟩
  rcases hname with rfl | hname
  · refine .inl ?_
    rw [← String.ofList_toList (s := "* from "), ← String.ofList_append]
    rfl
  · exact .inr (by simpa [reexportOf] using hname)

theorem fromModule_namedReexports {r : Reexport} (h : r ∈ namedReexports ix s) :
    FromModule (Occurs s) ix r.value := by
  obtain ⟨m, hm, h⟩ := List.mem_flatMap.1 h
  obtain ⟨name, hname, rfl⟩ := List.mem_map.1 h
  obtain ⟨entry, hentry, hspec⟩ := List.mem_filterMap.1 hname
  have hcuts := cuts_of_mem_findAll hm
  obtain ⟨k, hk, hk', hocc⟩ := Scan.occurs_groupText hcuts "names"
  obtain ⟨j, hj⟩ := Occurs.of_isInfix
    ((infix_of_specifierName? hspec).trans (infix_of_mem_splitBy hentry))
  have hsize := hj.size_le
  exact fromModule_reexportOf hcuts _ (.inr ⟨k + j, by omega, by omega, hocc.trans hj⟩)

theorem fromModule_wildcardReexports {r : Reexport} (h : r ∈ wildcardReexports ix s) :
    FromModule (Occurs s) ix r.value := by
  obtain ⟨m, hm, rfl⟩ := List.mem_map.1 h
  have hcuts := cuts_of_mem_findAll hm
  dsimp only
  split
  · rename_i sp hsp
    obtain ⟨hgroup, hstart, hstop⟩ := hcuts.group hsp
    exact fromModule_reexportOf hcuts _ (.inr ⟨sp.start, hstart, hgroup.stop ▸ hstop, hgroup.occurs⟩)
  · exact fromModule_reexportOf hcuts _ (.inl rfl)

theorem mem_of_mem_takeNew {known : List String} {rs : List Reexport} {r : Reexport}
    (h : r ∈ takeNew known rs) : r ∈ rs := by
  induction rs generalizing known with
  | nil => cases h
  | cons x xs ih =>
    rw [takeNew] at h
    split at h
    · exact List.mem_cons_of_mem _ (ih h)
    · rcases List.mem_cons.1 h with rfl | h
      · exact List.mem_cons_self
      · exact List.mem_cons_of_mem _ (ih h)

/-- What the text adds to exports are re-exports that stand in it. -/
theorem fromModule_of_mem_addReexports {anchors : Option (List Nat)} {found : List Export} {e : Export}
    (h : e ∈ addReexports s ix anchors found) : e ∈ found ∨ FromModule (Occurs s) ix e := by
  rcases List.mem_append.1 h with h | h
  · exact .inl h
  · obtain ⟨r, hr, rfl⟩ := List.mem_map.1 h
    have hfound := (List.mem_filter.1 (mem_of_mem_takeNew (List.mem_mergeSort.1 hr))).1
    rcases List.mem_append.1 hfound with hr | hr
    · exact .inr (fromModule_namedReexports hr)
    · exact .inr (fromModule_wildcardReexports hr)

end Export

namespace Scan

variable {sc : Scan}

theorem ownName_exportsBy {rule : ExportRule} {offset : Nat} {e : Export}
    (h : (offset, e) ∈ sc.exportsBy rule) : Export.OwnName (Occurs sc.masked) sc.lines e := by
  obtain ⟨m, hm, h⟩ := List.mem_filterMap.1 h
  split at h
  · cases h
  · rename_i sp hsp
    dsimp only at h
    split at h
    · obtain ⟨rfl, rfl⟩ := Prod.mk.inj (Option.some.inj h)
      obtain ⟨hcuts, -⟩ := cuts_text hm hsp
      refine ⟨rfl, sp.start, ?_, ?_⟩
      · rw [String.toList_ofList, ← hcuts.stop]
        rfl
      · rw [String.toList_ofList]
        exact hcuts.occurs
    · cases h

/-- Exports are of names in the text, or of modules that it names. -/
theorem read_exports {e : Export} (h : e ∈ sc.exports.exports) :
    Export.OwnName (Occurs sc.masked) sc.lines e ∨ Export.FromModule (Occurs sc.masked) sc.lines e := by
  obtain ⟨x, hx, rfl⟩ := Export.exists_of_mem_dedup h
  have hfound : x ∈ byOffset (sc.language.exports.flatMap sc.exportsBy) →
      Export.OwnName (Occurs sc.masked) sc.lines x := by
    intro hx
    obtain ⟨offset, hx⟩ := mem_byOffset.1 hx
    obtain ⟨rule, -, hx⟩ := List.mem_flatMap.1 hx
    exact ownName_exportsBy hx
  -- gathering leaves names, locations and modules alone
  change Export.OwnName (Occurs sc.masked) sc.lines x ∨ Export.FromModule (Occurs sc.masked) sc.lines x
  split at hx
  · exact (Export.fromModule_of_mem_addReexports hx).imp hfound id
  · exact .inl (hfound hx)

/-! ## Classes and functions -/

/-- A declaration whose location starts at or before the place where its name is read. -/
def Declares (reads : Nat → List Char → Prop) (ix : LineIndex) (name : String) (location : Location) :
    Prop :=
  ∃ start stop n, location = .ofOffsets ix start stop ∧ start ≤ n ∧ reads n name.toList

theorem Declares.imp {reads reads' : Nat → List Char → Prop} (h : ∀ n t, reads n t → reads' n t)
    {ix : LineIndex} {name : String} {location : Location} (hd : Declares reads ix name location) :
    Declares reads' ix name location := by
  obtain ⟨start, stop, n, hlocation, hn, hname⟩ := hd
  exact ⟨start, stop, n, hlocation, hn, h _ _ hname⟩

theorem declares_of_group {p : TextPattern} {m : Match} {sp : Span} (hm : m ∈ p.findAll sc.masked)
    (hsp : m.group? "name" = some sp) (stop : Nat) :
    Declares (Occurs sc.masked) sc.lines (String.ofList (sc.text sp)) (sc.location m.start stop) := by
  obtain ⟨hcuts, hstart, -⟩ := cuts_text hm hsp
  exact ⟨m.start, stop, sp.start, rfl, hstart, by rw [String.toList_ofList]; exact hcuts.occurs⟩

theorem declares_classes {exported : List String} {c : ClassSite} (h : c ∈ sc.classes exported) :
    Declares (Occurs sc.masked) sc.lines c.value.name c.value.location := by
  obtain ⟨m, hm, h⟩ := List.mem_filterMap.1 h
  obtain ⟨sp, hsp, rfl⟩ := Option.map_eq_some_iff.1 h
  exact declares_of_group hm hsp _

theorem mem_functionsBy {seen : List Nat} {ms : List Match} {x : Match × Span}
    (h : x ∈ sc.functionsBy seen ms) : x.1 ∈ ms ∧ x.1.group? "name" = some x.2 := by
  induction ms generalizing seen with
  | nil => cases h
  | cons m ms ih =>
    have hlater {seen : List Nat} (h : x ∈ sc.functionsBy seen ms) :
        x.1 ∈ m :: ms ∧ x.1.group? "name" = some x.2 :=
      ⟨List.mem_cons_of_mem _ (ih h).1, (ih h).2⟩
    rw [functionsBy] at h
    split at h
    · exact hlater h
    · rename_i sp hsp
      split at h
      · exact hlater h
      · rcases List.mem_cons.1 h with rfl | h
        · exact ⟨List.mem_cons_self, hsp⟩
        · exact hlater h

theorem declares_functions {exported : List String} {classes : List ClassSite} {f : FunctionFact}
    (h : f ∈ sc.functions exported classes) :
    Declares (Occurs sc.masked) sc.lines f.name f.location := by
  obtain ⟨offset, h⟩ := mem_byOffset.1 h
  obtain ⟨⟨m, sp⟩, hx, h⟩ := List.mem_map.1 h
  obtain ⟨rfl, rfl⟩ := Prod.mk.inj h
  obtain ⟨hmem, hsp⟩ := mem_functionsBy hx
  obtain ⟨p, -, hm⟩ := List.mem_flatMap.1 hmem
  exact declares_of_group hm hsp _

end Scan

/-! ## All facts of a scan -/

/-- The names that export facts report: those of exports, of classes and their members, and of the
default export. -/
def ExportFacts.reported (f : ExportFacts) : List String :=
  f.exports.map (·.name) ++
    f.classes.flatMap (fun c => c.name :: (c.methods ++ c.properties).map (·.name)) ++
      f.defaultExport.toList

/-- Grouping exports under classes adds no name. -/
theorem Export.mem_reported_gather {all : List Export} {name : String} (h : name ∈ (gather all).reported) :
    ∃ e ∈ (gather all).exports, e.name = name := by
  have hmember {className : String} {kind : ExportKind} {m : Export}
      (h : m ∈ membersOf (dedup all) className kind) : ∃ e ∈ dedup all, e.name = m.name := by
    obtain ⟨e, he, rfl⟩ := List.mem_map.1 h
    exact ⟨e, (List.mem_filter.1 he).1, rfl⟩
  rcases List.mem_append.1 h with h | h
  · rcases List.mem_append.1 h with h | h
    · obtain ⟨e, he, rfl⟩ := List.mem_map.1 h
      exact ⟨e, he, rfl⟩
    · obtain ⟨c, hc, h⟩ := List.mem_flatMap.1 h
      obtain ⟨e, he, rfl⟩ := List.mem_map.1 hc
      rcases List.mem_cons.1 h with rfl | h
      · exact ⟨e, (List.mem_filter.1 he).1, rfl⟩
      · obtain ⟨m, hm, rfl⟩ := List.mem_map.1 h
        rcases List.mem_append.1 hm with hm | hm
        · exact hmember hm
        · exact hmember hm
  · obtain ⟨e, he, rfl⟩ := Option.map_eq_some_iff.1 (Option.mem_toList.1 h)
    exact ⟨e, List.mem_of_find?_eq_some he, rfl⟩

namespace Scan

/-- **No fact comes out of a comment, and masking keeps every position**, for every table and source.
The masked text is the source with the bytes of its comments blanked, newlines apart, so that both
have the same lines; each offset has the same line and column in both. Sources of dependencies, names
and modules of exports, and names of classes and functions are read in the source, outside its
comments, at offsets that their lines and locations are looked up for. -/
theorem facts_outside_comments (l : Language) (source : List Char) :
    let sc := ofSource l source
    Comment.Masks source sc.comments sc.masked ∧
    (∀ offset, sc.lines.position offset = (LineIndex.ofText source).position offset ∧
      sc.lines.position offset = (LineIndex.ofText sc.masked).position offset) ∧
    (∀ fs file, ∀ d ∈ sc.dependencies fs file, ∃ n blanks, d.line = sc.lines.line n ∧
      (∀ c ∈ blanks, isBlank c = true) ∧ sc.ReadsAt n (blanks ++ d.source.toList)) ∧
    (∀ name ∈ sc.exports.reported, ∃ e ∈ sc.exports.exports, e.name = name) ∧
    (∀ e ∈ sc.exports.exports,
      Export.OwnName sc.ReadsAt sc.lines e ∨ Export.FromModule sc.ReadsAt sc.lines e) ∧
    (∀ exported, ∀ c ∈ sc.classes exported,
      Declares sc.ReadsAt sc.lines c.value.name c.value.location) ∧
    ∀ exported classes, ∀ f ∈ sc.functions exported classes,
      Declares sc.ReadsAt sc.lines f.name f.location := by
  intro sc
  have hmasks : Comment.Masks source sc.comments sc.masked :=
    Comment.masks_of_cuts (cuts_comments l source)
  have hreads : ∀ n t, Occurs sc.masked n t → sc.ReadsAt n t := fun _ _ => readsAt_of_occurs
  refine ⟨hmasks, fun offset => ⟨rfl, ?_⟩, ?_, fun name => Export.mem_reported_gather, ?_, ?_, ?_⟩
  · rw [hmasks.lines]
    rfl
  · intro fs file d hd
    obtain ⟨n, blanks, hline, hblanks, hocc⟩ := occurs_dependency hd
    exact ⟨n, blanks, hline, hblanks, hreads n _ hocc⟩
  · intro e he
    exact (read_exports he).imp (.imp hreads) (.imp hreads)
  · intro exported c hc
    exact (declares_classes hc).imp hreads
  · intro exported classes f hf
    exact (declares_functions hf).imp hreads

/-- An import between two comments. -/
theorem facts_outside_comments_import :
    let sc := ofSource Language.Python.table "#é\nimport a # b".toList
    let d : Dependency := ⟨"a", .imports, false, 2, none⟩
    d ∈ sc.dependencies .empty "m.py" ∧ ∃ n blanks, d.line = sc.lines.line n ∧
      (∀ c ∈ blanks, isBlank c = true) ∧ sc.ReadsAt n (blanks ++ d.source.toList) := by
  intro sc d
  have hd : d ∈ sc.dependencies .empty "m.py" := by decide +kernel
  exact ⟨hd, (facts_outside_comments Language.Python.table _).2.2.1 .empty "m.py" d hd⟩

end Scan

end CodeSurvey
