import CodeSurvey.Proofs.Braces
import CodeSurvey.Proofs.Indentation
import CodeSurvey.Proofs.ScannedNames
/-!
# Where scanned facts are placed

The locations of a scan are made from pairs of offsets. Positions grow with offsets, so a pair in
ascending order makes a location that runs forward inside the source (`within_ofOffsets`), and the pairs
are in ascending order: a name is a piece of the text, a re-export is a match, and a body ends behind
the capture at which the search for its end starts (`bodyEnd_bounds`), whichever way it is found. The
functions are those of the name occurrences, each taken once, sorted by the starts of their headers
(`exists_functionSites`).
-/
namespace CodeSurvey

open Text Pattern

/-! ## Locations -/

/-- A location in a text of so many lines, which does not run backward. -/
structure Location.Within (lines : Nat) (l : Location) : Prop where
  one_le_line : 1 ≤ l.line
  line_le : l.line ≤ l.endLine
  endLine_le : l.endLine ≤ lines
  forward : toLex (l.line, l.column) ≤ toLex (l.endLine, l.endColumn)

theorem Text.LineIndex.line_le (s : List Char) (offset : Nat) :
    (ofText s).line offset ≤ s.count '\n' + 1 := by
  have hlen : (ofText s).starts.length = s.count '\n' + 1 := by
    rw [ofText, List.length_cons, length_startsFrom]
  rw [← hlen]
  exact (List.takeWhile_prefix _).length_le

theorem Location.within_ofOffsets {start stop : Nat} (h : start ≤ stop) (s : List Char) :
    (ofOffsets (LineIndex.ofText s) start stop).Within (s.count '\n' + 1) := by
  have hle := (LineIndex.strictMono_position s).monotone h
  refine ⟨LineIndex.line_pos s start, ?_, LineIndex.line_le s stop, hle⟩
  rcases Prod.Lex.le_iff.1 hle with hlt | ⟨heq, -⟩
  · exact Nat.le_of_lt hlt
  · exact Nat.le_of_eq heq

namespace Scan

variable {sc : Scan}

/-! ## Bodies -/

/-- A body ends behind the capture from which its end is looked for, and within the text. -/
theorem bodyEnd_bounds {sp : Span} {t : List Char} (h : Cuts sc.masked sp t) (indent : Nat) :
    sp.stop ≤ sc.bodyEnd sp.stop indent ∧ sc.bodyEnd sp.stop indent ≤ size sc.masked := by
  obtain ⟨⟨a, b, hmasked, hstart⟩, hstop⟩ := h
  have hsplit : sc.masked = (a ++ t) ++ b := by rw [hmasked, List.append_assoc]
  have hend : sp.stop = size (a ++ t) := by rw [hstop, size_append, hstart]
  have hle : size (a ++ t) ≤ size sc.masked := by
    rw [hsplit, size_append (a ++ t)]
    exact Nat.le_add_right _ _
  rw [hend]
  unfold bodyEnd
  split
  · have hbounds := braceEnd_bounds sc.masked (size (a ++ t))
    rwa [Nat.min_eq_left hle] at hbounds
  · have hbounds := indentEnd_bounds (a ++ t) b indent
    rwa [← hsplit] at hbounds

/-- A declaration starts in front of the end of its body, from whichever of its captures the end is
looked for. -/
theorem start_le_bodyEnd {p : TextPattern} {m : Match} {label : String} {sp : Span}
    (hm : m ∈ p.findAll sc.masked) (hsp : m.group? label = some sp) (indent : Nat) :
    m.start ≤ sc.bodyEnd sp.stop indent := by
  obtain ⟨hcuts, hstart, -⟩ := cuts_text hm hsp
  have hle : sp.start ≤ sp.stop := by
    rw [hcuts.stop]
    exact Nat.le_add_right _ _
  exact hstart.trans (hle.trans (bodyEnd_bounds hcuts indent).1)

/-! ## Exports and classes -/

section

variable {l : Language} {source : List Char}

theorem within_export {e : Export} (h : e ∈ (ofSource l source).exports.exports) :
    e.location.Within (source.count '\n' + 1) := by
  rcases read_exports h with ⟨-, n, hlocation, -⟩ |
    ⟨start, stop, hlocation, module, k, -, hk, hk', -⟩
  · rw [hlocation]
    exact Location.within_ofOffsets (Nat.le_add_right _ _) source
  · rw [hlocation]
    exact Location.within_ofOffsets (by omega) source

/-- Grouping exports under classes makes no location. -/
theorem within_classExport {c : ClassExport} (h : c ∈ (ofSource l source).exports.classes) :
    c.location.Within (source.count '\n' + 1) ∧
      ∀ m ∈ c.methods ++ c.properties, m.location.Within (source.count '\n' + 1) := by
  have hmember {className : String} {kind : ExportKind} {m : Export}
      (h : m ∈ Export.membersOf (ofSource l source).exports.exports className kind) :
      m.location.Within (source.count '\n' + 1) := by
    obtain ⟨e, he, rfl⟩ := List.mem_map.1 h
    have hlocation := within_export (List.mem_filter.1 he).1
    exact hlocation
  obtain ⟨e, he, rfl⟩ := List.mem_map.1 h
  refine ⟨within_export (List.mem_filter.1 he).1, fun m hm => ?_⟩
  rcases List.mem_append.1 hm with hm | hm
  · exact hmember hm
  · exact hmember hm

theorem within_class {exported : List String} {c : ClassSite}
    (h : c ∈ (ofSource l source).classes exported) :
    c.value.location.Within (source.count '\n' + 1) := by
  obtain ⟨m, hm, h⟩ := List.mem_filterMap.1 h
  obtain ⟨sp, hsp, rfl⟩ := Option.map_eq_some_iff.1 h
  exact Location.within_ofOffsets (start_le_bodyEnd hm hsp _) source

end

/-! ## The class around a name -/

/-- The body of a class holds an offset. -/
def ClassSite.Holds (c : ClassSite) (offset : Nat) : Prop := c.start < offset ∧ offset < c.stop

/-- How far the body of a class reaches. It is negative where the body ends inside the header. -/
def ClassSite.extent (c : ClassSite) : Int := c.stop - c.start

/-- Where the body holds an offset, subtracting its ends is exact. -/
theorem ClassSite.Holds.extent_eq {c : ClassSite} {offset : Nat} (h : c.Holds offset) :
    c.extent = (c.stop - c.start : Nat) := by
  obtain ⟨hstart, hstop⟩ := h
  rw [extent]
  omega

theorem exists_narrowest {cs : List ClassSite} (h : cs ≠ []) :
    ∃ c ∈ cs, narrowest cs = some c ∧ ∀ d ∈ cs, c.stop - c.start ≤ d.stop - d.start := by
  induction cs with
  | nil => exact absurd rfl h
  | cons x cs ih =>
    rcases eq_or_ne cs [] with rfl | hne
    · exact ⟨x, List.mem_cons_self, rfl, fun d hd => by rw [List.mem_singleton.1 hd]⟩
    · obtain ⟨c, hc, hnarrowest, hleast⟩ := ih hne
      rw [narrowest, hnarrowest]
      dsimp only
      split
      · rename_i hlt
        exact ⟨c, List.mem_cons_of_mem _ hc, rfl,
          List.forall_mem_cons.2 ⟨Nat.le_of_lt hlt, hleast⟩⟩
      · rename_i hge
        refine ⟨x, List.mem_cons_self, rfl,
          List.forall_mem_cons.2 ⟨Nat.le_refl _, fun d hd => ?_⟩⟩
        exact (Nat.le_of_not_lt hge).trans (hleast d hd)

/-- Of the classes whose bodies hold an offset, one with the least extent is taken. -/
theorem exists_innermostClass {classes : List ClassSite} {offset : Nat}
    (h : ∃ c ∈ classes, c.Holds offset) :
    ∃ c ∈ classes, c.Holds offset ∧ innermostClass classes offset = some c.value.name ∧
      ∀ d ∈ classes, d.Holds offset → c.extent ≤ d.extent := by
  have hmem (c : ClassSite) :
      c ∈ (classes.filter fun c => c.start < offset && offset < c.stop) ↔
        c ∈ classes ∧ c.Holds offset := by
    rw [List.mem_filter, Bool.and_eq_true, decide_eq_true_eq, decide_eq_true_eq]
    rfl
  obtain ⟨c, hc⟩ := h
  obtain ⟨d, hd, hnarrowest, hleast⟩ := exists_narrowest (List.ne_nil_of_mem ((hmem c).2 hc))
  obtain ⟨hd, hholds⟩ := (hmem d).1 hd
  refine ⟨d, hd, hholds, by rw [innermostClass, hnarrowest]; rfl, fun e he hholds' => ?_⟩
  rw [hholds.extent_eq, hholds'.extent_eq]
  exact Int.ofNat_le.2 (hleast e ((hmem e).2 ⟨he, hholds'⟩))

/-! ## Functions -/

/-- The functions of a scan stem from name occurrences, each in a match of a pattern for functions.
They stand in the order in which their matches start. No occurrence is taken twice, and none is left
out unless it is a control word. -/
structure FunctionSites (sc : Scan) (exported : List String) (classes : List ClassSite)
    (sites : List (Match × Span)) : Prop where
  facts : sc.functions exported classes =
    sites.map fun x => (sc.functionOf exported classes x.1 x.2).2
  named : ∀ x ∈ sites, (∃ p ∈ sc.language.functions, x.1 ∈ p.findAll sc.masked) ∧
    x.1.group? "name" = some x.2
  complete : ∀ p ∈ sc.language.functions, ∀ m ∈ p.findAll sc.masked, ∀ sp,
    m.group? "name" = some sp → String.ofList (sc.text sp) ∉ controlWords →
      ∃ x ∈ sites, x.2.start = sp.start
  ordered : sites.Pairwise fun a b => a.1.start ≤ b.1.start
  distinct : sites.Pairwise fun a b => a.2.start ≠ b.2.start

/-- No name occurrence is taken twice, and none that was seen before. -/
theorem distinct_functionsBy (seen : List Nat) (ms : List Match) :
    (∀ x ∈ sc.functionsBy seen ms, x.2.start ∉ seen) ∧
      (sc.functionsBy seen ms).Pairwise fun a b => a.2.start ≠ b.2.start := by
  induction ms generalizing seen with
  | nil => exact ⟨fun _ h => absurd h List.not_mem_nil, List.Pairwise.nil⟩
  | cons m ms ih =>
    rw [functionsBy]
    split
    · exact ih seen
    · rename_i sp _
      split
      · exact ih seen
      · rename_i hnew
        have hseen : sp.start ∉ seen := by
          intro hmem
          exact hnew (by simp [hmem])
        obtain ⟨hlater, hdistinct⟩ := ih (sp.start :: seen)
        constructor
        · refine List.forall_mem_cons.2 ⟨hseen, fun x hx hmem => ?_⟩
          exact hlater x hx (List.mem_cons_of_mem _ hmem)
        · refine List.pairwise_cons.2 ⟨fun x hx heq => ?_, hdistinct⟩
          exact hlater x hx (heq ▸ List.mem_cons_self)

/-- A name occurrence that is no control word was seen before or is taken. -/
theorem complete_functionsBy {seen : List Nat} {ms : List Match} {m : Match} {sp : Span}
    (hm : m ∈ ms) (hname : m.group? "name" = some sp)
    (hword : String.ofList (sc.text sp) ∉ controlWords) :
    sp.start ∈ seen ∨ ∃ x ∈ sc.functionsBy seen ms, x.2.start = sp.start := by
  induction ms generalizing seen with
  | nil => cases hm
  | cons m' ms ih =>
    rw [functionsBy]
    rcases List.mem_cons.1 hm with rfl | hm
    · rw [hname]
      dsimp only
      split
      · rename_i hskip
        simp only [Bool.or_eq_true, List.contains_iff_mem, hword, false_or] at hskip
        exact .inl hskip
      · exact .inr ⟨(m, sp), List.mem_cons_self, rfl⟩
    · split
      · exact ih hm
      · rename_i sp' _
        split
        · exact ih hm
        · have hlater : sp.start ∈ sp'.start :: seen ∨
              ∃ x ∈ sc.functionsBy (sp'.start :: seen) ms, x.2.start = sp.start := ih hm
          rcases hlater with hseen | ⟨x, hx, hstart⟩
          · rcases List.mem_cons.1 hseen with heq | hseen
            · exact .inr ⟨_, List.mem_cons_self, heq.symm⟩
            · exact .inl hseen
          · exact .inr ⟨x, List.mem_cons_of_mem _ hx, hstart⟩

theorem exists_functionSites (sc : Scan) (exported : List String) (classes : List ClassSite) :
    ∃ sites, FunctionSites sc exported classes sites := by
  let found := sc.functionsBy [] (sc.language.functions.flatMap fun p => p.findAll sc.masked)
  let sites := found.mergeSort fun a b => a.1.start ≤ b.1.start
  have hperm : sites.Perm found := List.mergeSort_perm _ _
  refine ⟨sites, ?_, fun x hx => ?_, fun p hp m hm sp hname hword => ?_, ?_, ?_⟩
  · -- Sorting the facts by their offsets is sorting the occurrences first.
    have hsort : sites.map (fun x => sc.functionOf exported classes x.1 x.2) =
        (found.map fun x => sc.functionOf exported classes x.1 x.2).mergeSort fun a b => a.1 ≤ b.1 :=
      List.map_mergeSort fun _ _ _ _ => rfl
    have hfunctions : sc.functions exported classes =
        ((found.map fun x => sc.functionOf exported classes x.1 x.2).mergeSort
          fun a b => a.1 ≤ b.1).map (·.2) := rfl
    rw [hfunctions, ← hsort, List.map_map]
    rfl
  · obtain ⟨hmem, hname⟩ := mem_functionsBy (hperm.mem_iff.1 hx)
    obtain ⟨p, hp, hm⟩ := List.mem_flatMap.1 hmem
    exact ⟨⟨p, hp, hm⟩, hname⟩
  · have hmem : m ∈ sc.language.functions.flatMap fun p => p.findAll sc.masked :=
      List.mem_flatMap.2 ⟨p, hp, hm⟩
    rcases complete_functionsBy hmem hname hword with hseen | ⟨x, hx, hstart⟩
    · exact absurd hseen List.not_mem_nil
    · exact ⟨x, hperm.mem_iff.2 hx, hstart⟩
  · refine (List.pairwise_mergeSort ?_ ?_ found).imp fun {a b} h => by simpa using h
    · intro a b c hab hbc
      simp only [decide_eq_true_eq] at hab hbc ⊢
      exact hab.trans hbc
    · intro a b
      simp only [Bool.or_eq_true, decide_eq_true_eq]
      exact Nat.le_total _ _
  · exact (hperm.pairwise_iff fun h => h.symm).2 (distinct_functionsBy [] _).2

/-- The body of a function is looked for behind its parameters, or behind its name where it has no
list of parameters. -/
theorem within_functionOf {l : Language} {source : List Char} {p : TextPattern} {m : Match} {sp : Span}
    (hm : m ∈ p.findAll (ofSource l source).masked) (hname : m.group? "name" = some sp)
    (exported : List String) (classes : List ClassSite) :
    ((ofSource l source).functionOf exported classes m sp).2.location.Within
      (source.count '\n' + 1) := by
  refine Location.within_ofOffsets ?_ source
  cases hparams : m.group? "params" with
  | none => exact start_le_bodyEnd hm hname _
  | some params => exact start_le_bodyEnd hm hparams _

/-- Whatever the table of the language and the source, the facts of a scan are well placed. Exports,
classes and functions lie on the lines of the source and do not run backward. A function has as many
lines as its location says, at least one. The functions are sorted by the starts of their headers and
stem from different name occurrences. Classes are compared only where their bodies hold a name, and
there no extent is negative. -/
theorem facts_well_placed (l : Language) (source : List Char) (exported : List String)
    (classes : List ClassSite) :
    let sc := ofSource l source
    let lines := source.count '\n' + 1
    (∀ e ∈ sc.exports.exports, e.location.Within lines) ∧
    (∀ c ∈ sc.exports.classes, c.location.Within lines ∧
      ∀ m ∈ c.methods ++ c.properties, m.location.Within lines) ∧
    (∀ c ∈ sc.classes exported, c.value.location.Within lines) ∧
    (∀ f ∈ sc.functions exported classes, f.location.Within lines ∧
      (f.lineCount : Int) = f.location.endLine - f.location.line + 1 ∧ 1 ≤ f.lineCount) ∧
    (sc.functions exported classes).Pairwise (fun f g =>
      toLex (f.location.line, f.location.column) ≤ toLex (g.location.line, g.location.column)) ∧
    ∃ sites, FunctionSites sc exported classes sites ∧ ∀ x ∈ sites,
      (∀ c ∈ classes, c.Holds x.2.start →
        c.extent = (c.stop - c.start : Nat) ∧ 0 ≤ c.extent) ∧
      ((∃ c ∈ classes, c.Holds x.2.start) → ∃ c ∈ classes, c.Holds x.2.start ∧
        innermostClass classes x.2.start = some c.value.name ∧
        ∀ d ∈ classes, d.Holds x.2.start → c.extent ≤ d.extent) := by
  intro sc lines
  obtain ⟨sites, hsites⟩ := exists_functionSites sc exported classes
  refine ⟨fun e he => within_export he, fun c hc => within_classExport hc,
    fun c hc => within_class hc, fun f hf => ?_, ?_, sites, hsites, fun x _ => ⟨?_, ?_⟩⟩
  · rw [hsites.facts] at hf
    obtain ⟨x, hx, rfl⟩ := List.mem_map.1 hf
    obtain ⟨⟨p, -, hm⟩, hname⟩ := hsites.named x hx
    have hwithin := within_functionOf hm hname exported classes
    have hcount : (sc.functionOf exported classes x.1 x.2).2.lineCount =
        (sc.functionOf exported classes x.1 x.2).2.location.endLine -
          (sc.functionOf exported classes x.1 x.2).2.location.line + 1 := rfl
    have hle := hwithin.line_le
    refine ⟨hwithin, ?_, ?_⟩
    · rw [hcount, Nat.cast_add, Nat.cast_sub hle, Nat.cast_one]
    · rw [hcount]
      exact Nat.le_add_left 1 _
  · rw [hsites.facts, List.pairwise_map]
    exact hsites.ordered.imp fun {a b} h => (LineIndex.strictMono_position source).monotone h
  · intro c _ hholds
    exact ⟨hholds.extent_eq, hholds.extent_eq ▸ Int.natCast_nonneg _⟩
  · exact exists_innermostClass

/-- A class whose body ends inside its header, behind a class with a method. -/
theorem facts_well_placed_inverted :
    let source := "class A\n def é\n end\nend\nclass B < A".toList
    let sc := ofSource Language.Ruby.table source
    let classes := sc.classes []
    (∃ c ∈ classes, c.extent = -1 ∧ c.value.location.Within (source.count '\n' + 1)) ∧
      ∃ f ∈ sc.functions [] classes, f.parent = some "A" ∧
        f.location.Within (source.count '\n' + 1) ∧
        (f.lineCount : Int) = f.location.endLine - f.location.line + 1 ∧ 1 ≤ f.lineCount := by
  intro source sc classes
  have hclass : ∃ c ∈ classes, c.extent = -1 := by decide +kernel
  have hmethod : ∃ f ∈ sc.functions [] classes, f.parent = some "A" := by decide +kernel
  obtain ⟨-, -, hclasses, hfunctions, -⟩ :=
    facts_well_placed Language.Ruby.table source [] classes
  obtain ⟨c, hc, hextent⟩ := hclass
  obtain ⟨f, hf, hparent⟩ := hmethod
  exact ⟨⟨c, hc, hextent, hclasses c hc⟩, f, hf, hparent, hfunctions f hf⟩

end Scan

end CodeSurvey
