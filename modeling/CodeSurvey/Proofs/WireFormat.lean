import CodeSurvey.Engine.Survey
import Mathlib.Algebra.Group.Nat.Defs
import Mathlib.Data.List.Induction
/-!
# The wire format of surveys loses nothing

Every type of the wire format has a range (`InRange`): its natural numbers fit the words in which
they are read, and its doubles are numbers. A value in its range is read back as it was written
(`ofJson?_toJson`), so that two surveys in range with one JSON form are equal
(`FileSurvey.toJson_faithful`). Values of a plugin's own are any JSON.
-/
namespace CodeSurvey

/-! ## Dictionaries -/

namespace Dict

variable {β : Type}

theorem insertEntry_last {k : String} {v : β} {l : List (String × β)} (h : ∀ e ∈ l, e.1 < k) :
    insertEntry k v l = l ++ [(k, v)] := by
  induction l with
  | nil => rfl
  | cons e l ih =>
    have he : e.1 < k := h e List.mem_cons_self
    have hlt : ¬ k < e.1 := fun hk => String.lt_irrefl k (String.lt_trans hk he)
    have hne : k ≠ e.1 := fun hk => String.lt_irrefl k (hk ▸ he)
    rw [insertEntry, if_neg hlt, if_neg hne, ih fun a ha => h a (List.mem_cons_of_mem e ha)]
    rfl

theorem entries_ofList {l : List (String × β)} (h : l.Pairwise fun a b => a.1 < b.1) :
    (ofList l).entries = l := by
  induction l using List.reverseRecOn with
  | nil => rfl
  | append_singleton l e ih =>
    obtain ⟨hl, -, hlast⟩ := List.pairwise_append.1 h
    rw [ofList_concat]
    change insertEntry e.1 e.2 (ofList l).entries = l ++ [e]
    rw [ih hl, insertEntry_last fun a ha => hlast a ha e (List.mem_singleton_self e)]

/-- A dictionary is what its entries give. -/
theorem ofList_entries (d : Dict β) : ofList d.entries = d := by
  have h := entries_ofList d.ascending
  obtain ⟨es, hes⟩ := d
  cases hd : ofList es with
  | mk fs hfs =>
    rw [hd] at h
    subst h
    rfl

end Dict

namespace Json

/-! ## Values -/

theorem nat64?_ofNat {n : Nat} (h : n < 2 ^ 64) : nat64? (ofNat n) = some n := natBelow?_ofNat h

theorem nat32?_ofNat {n : Nat} (h : n < 2 ^ 32) : nat32? (ofNat n) = some n := natBelow?_ofNat h

theorem double?_ofDouble {x : Double} (h : x.isFinite = true) : double? (ofDouble x) = some x := by
  rw [ofDouble, dif_pos h, double?]

@[simp] theorem text?_str (s : String) : text? (.str s) = some s := rfl

@[simp] theorem bool?_bool (b : Bool) : bool? (.bool b) = some b := rfl

@[simp] theorem tag?_str (s : String) : tag? (.str s) = some s := rfl

section Combinators

variable {α : Type} {write : α → Json} {read : Json → Option α}

theorem readAll_map {xs : List α} (h : ∀ a ∈ xs, read (write a) = some a) :
    readAll read (xs.map write) = some xs := by
  induction xs with
  | nil => rfl
  | cons a xs ih =>
    rw [List.map_cons, readAll, h a List.mem_cons_self]
    simp only [ih fun b hb => h b (List.mem_cons_of_mem a hb), Option.map_some]

theorem list?_list {xs : List α} (h : ∀ a ∈ xs, read (write a) = some a) :
    list? read (list write xs) = some xs := readAll_map h

@[simp] theorem texts?_texts (xs : List String) : texts? (texts xs) = some xs :=
  list?_list fun _ _ => rfl

theorem dict?_dict {d : Dict α} (h : ∀ e ∈ d.entries, read (write e.2) = some e.2) :
    dict? read (dict write d) = some d := by
  have hvalues : readAll read (d.entries.map fun e => write e.2) = some (d.entries.map (·.2)) := by
    have hall : readAll read ((d.entries.map (·.2)).map write) = some (d.entries.map (·.2)) :=
      readAll_map (List.forall_mem_map.2 h)
    rwa [List.map_map] at hall
  have hzip : (d.entries.map (·.1)).zip (d.entries.map (·.2)) = d.entries := by
    rw [List.zip_map']
    exact List.map_id d.entries
  simp only [dict?, dict, fields?, Option.bind_some, List.map_map, Function.comp_def, hvalues,
    Option.map_some, hzip, Dict.ofList_entries]

theorem nullable_eq_some {v : Json} {a : α} (hnull : v ≠ .null) (h : read v = some a) :
    nullable read v = some (some a) := by
  unfold nullable
  split
  · contradiction
  · rw [h, Option.map_some]

/-- Absence is kept apart from every value, as none of them is written as null. -/
theorem nullable_orNull {o : Option α} (hnull : ∀ a, write a ≠ .null)
    (h : ∀ a ∈ o, read (write a) = some a) : nullable read (orNull write o) = some o := by
  cases o with
  | none => rfl
  | some a => exact nullable_eq_some (hnull a) (h a rfl)

end Combinators

/-! ## Fields -/

/-- A field that was read is passed on. The records with many fields are read back by this step, since
rewriting under `Option.bind` goes through the later fields twice for each field. -/
theorem some_bind {α β : Type} (a : α) (f : α → Option β) : (some a >>= f) = f a := rfl

section Fields

variable {α : Type} (fs : List (String × Json)) (name x : String)

@[simp] theorem record?_obj (names : List String) : record? names (.obj fs) = some (.obj fs) := rfl

@[simp] theorem field?_obj : (obj fs).field? name = fs.lookup name := rfl

@[simp] theorem lookup_always (v : Json) :
    (always name v).lookup x = if x = name then some v else none := Dict.lookup_entry name x v []

@[simp] theorem lookup_whenSome (write : α → Json) (o : Option α) :
    (whenSome name write o).lookup x = if x = name then o.map write else none := by
  cases o with
  | none => simp [whenSome]
  | some a => exact Dict.lookup_entry name x (write a) []

@[simp] theorem need_obj (read : Json → Option α) :
    (obj fs).need name read = (fs.lookup name).bind read := rfl

@[simp] theorem maybe_obj (read : Json → Option α) :
    (obj fs).maybe name read = (fs.lookup name).elim (some none) (nullable read) := by
  rw [maybe, field?_obj]
  cases fs.lookup name <;> rfl

@[simp] theorem orElse_obj (read : Json → Option α) (absent : α) :
    (obj fs).orElse name read absent = (fs.lookup name).elim (some absent) read := by
  rw [orElse, field?_obj]
  cases fs.lookup name <;> rfl

/-- An optional field reads back. -/
theorem elim_nullable {write : α → Json} {read : Json → Option α} {o : Option α}
    (h : ∀ a ∈ o, nullable read (write a) = some (some a)) :
    o.elim (some none) (nullable read ∘ write) = some o := by
  cases o with
  | none => rfl
  | some a => exact h a rfl

@[simp] theorem elim_str (o : Option String) :
    o.elim (some none) (nullable text? ∘ str) = some o := elim_nullable fun _ _ => rfl

@[simp] theorem elim_bool (o : Option Bool) :
    o.elim (some none) (nullable bool? ∘ bool) = some o := elim_nullable fun _ _ => rfl

@[simp] theorem elim_texts (o : Option (List String)) :
    o.elim (some none) (nullable texts? ∘ texts) = some o :=
  elim_nullable fun xs _ => nullable_eq_some nofun (texts?_texts xs)

theorem elim_ofNat {o : Option Nat} (h : ∀ n ∈ o, n < 2 ^ 64) :
    o.elim (some none) (nullable nat64? ∘ ofNat) = some o :=
  elim_nullable fun n hn => nullable_eq_some nofun (nat64?_ofNat (h n hn))

end Fields

end Json

open Json

/-! ## Facts -/

structure Location.InRange (l : Location) : Prop where
  line : l.line < 2 ^ 64
  column : l.column < 2 ^ 64
  endLine : l.endLine < 2 ^ 64
  endColumn : l.endColumn < 2 ^ 64

-- here and below the steps are written out: left to conversion, they unfold the bounds of the words
theorem Location.ofJson?_toJson {l : Location} (h : l.InRange) : ofJson? l.toJson = some l := by
  simp -implicitDefEqProofs [ofJson?, toJson, List.lookup_cons, nat64?_ofNat h.line,
    nat64?_ofNat h.column, nat64?_ofNat h.endLine, nat64?_ofNat h.endColumn]

def Dependency.InRange (d : Dependency) : Prop := d.line < 2 ^ 64

theorem DependencyKind.ofJson?_word (k : DependencyKind) : ofJson? (.str k.word) = some k := by
  cases k <;> rfl

theorem Dependency.ofJson?_toJson {d : Dependency} (h : d.InRange) :
    ofJson? d.toJson = some d := by
  simp -implicitDefEqProofs [ofJson?, toJson, List.lookup_append, DependencyKind.ofJson?_word,
    nat64?_ofNat h]

def Export.InRange (e : Export) : Prop := e.location.InRange

theorem ExportKind.word?_word (k : ExportKind) : word? all word (.str k.word) = some k := by
  cases k <;> rfl

theorem Export.ofJson?_toJson {e : Export} (h : e.InRange) : ofJson? e.toJson = some e := by
  simp -implicitDefEqProofs [-Option.bind_eq_bind, some_bind, ofJson?, toJson, List.lookup_append,
    ExportKind.word?_word, Location.ofJson?_toJson h]

structure ClassExport.InRange (c : ClassExport) : Prop where
  location : c.location.InRange
  methods : ∀ e ∈ c.methods, e.InRange
  properties : ∀ e ∈ c.properties, e.InRange

theorem ClassExport.ofJson?_toJson {c : ClassExport} (h : c.InRange) :
    ofJson? c.toJson = some c := by
  simp -implicitDefEqProofs [ofJson?, toJson, List.lookup_cons, Location.ofJson?_toJson h.location,
    list?_list fun e he => Export.ofJson?_toJson (h.methods e he),
    list?_list fun e he => Export.ofJson?_toJson (h.properties e he)]

structure ExportFacts.InRange (f : ExportFacts) : Prop where
  exports : ∀ e ∈ f.exports, e.InRange
  classes : ∀ c ∈ f.classes, c.InRange

theorem ExportFacts.ofJson?_toJson {f : ExportFacts} (h : f.InRange) :
    ofJson? f.toJson = some f := by
  simp -implicitDefEqProofs [ofJson?, toJson, List.lookup_append,
    list?_list fun e he => Export.ofJson?_toJson (h.exports e he),
    list?_list fun c hc => ClassExport.ofJson?_toJson (h.classes c hc)]

structure FunctionFact.InRange (f : FunctionFact) : Prop where
  location : f.location.InRange
  lineCount : f.lineCount < 2 ^ 64
  complexity : f.complexity < 2 ^ 32

theorem FunctionFact.ofJson?_toJson {f : FunctionFact} (h : f.InRange) :
    ofJson? f.toJson = some f := by
  simp -implicitDefEqProofs [ofJson?, toJson, List.lookup_append,
    Location.ofJson?_toJson h.location, nat64?_ofNat h.lineCount, nat32?_ofNat h.complexity]

def ClassFact.InRange (c : ClassFact) : Prop := c.location.InRange

theorem ClassKind.word?_word (k : ClassKind) : word? all word (.str k.word) = some k := by
  cases k <;> rfl

theorem ClassFact.ofJson?_toJson {c : ClassFact} (h : c.InRange) : ofJson? c.toJson = some c := by
  simp -implicitDefEqProofs [ofJson?, toJson, List.lookup_cons, ClassKind.word?_word,
    Location.ofJson?_toJson h]

structure IdentifierCount.InRange (i : IdentifierCount) : Prop where
  count : i.count < 2 ^ 64
  firstLine : i.firstLine < 2 ^ 64

theorem IdentifierCount.ofJson?_toJson {i : IdentifierCount} (h : i.InRange) :
    ofJson? i.toJson = some i := by
  simp -implicitDefEqProofs [ofJson?, toJson, List.lookup_cons, nat64?_ofNat h.count,
    nat64?_ofNat h.firstLine]

def Comment.InRange (c : Comment) : Prop := c.line < 2 ^ 64

theorem CommentKind.word?_word (k : CommentKind) : word? all word (.str k.word) = some k := by
  cases k <;> rfl

theorem Comment.ofJson?_toJson {c : Comment} (h : c.InRange) : ofJson? c.toJson = some c := by
  simp -implicitDefEqProofs [ofJson?, toJson, List.lookup_cons, CommentKind.word?_word,
    nat64?_ofNat h]

def Todo.InRange (t : Todo) : Prop := t.line < 2 ^ 64

theorem Todo.ofJson?_toJson {t : Todo} (h : t.InRange) : ofJson? t.toJson = some t := by
  simp -implicitDefEqProofs [ofJson?, toJson, List.lookup_cons, nat64?_ofNat h]

def Annotation.InRange (a : Annotation) : Prop := a.line < 2 ^ 64

theorem Annotation.ofJson?_toJson {a : Annotation} (h : a.InRange) :
    ofJson? a.toJson = some a := by
  simp -implicitDefEqProofs [ofJson?, toJson, List.lookup_cons, nat64?_ofNat h]

structure CommentFacts.InRange (f : CommentFacts) : Prop where
  comments : ∀ c ∈ f.comments, c.InRange
  todos : ∀ t ∈ f.todos, t.InRange
  annotations : ∀ a ∈ f.annotations, a.InRange

theorem CommentFacts.ofJson?_toJson {f : CommentFacts} (h : f.InRange) :
    ofJson? f.toJson = some f := by
  simp -implicitDefEqProofs [ofJson?, toJson, List.lookup_cons,
    list?_list fun c hc => Comment.ofJson?_toJson (h.comments c hc),
    list?_list fun t ht => Todo.ofJson?_toJson (h.todos t ht),
    list?_list fun a ha => Annotation.ofJson?_toJson (h.annotations a ha)]

namespace FactSet

/-- A value of an extractor's own is in range whatever it is. -/
def InRange : FactSet → Prop
  | dependencies fs => ∀ d ∈ fs, d.InRange
  | exports f => f.InRange
  | functions fs => ∀ f ∈ fs, f.InRange
  | classes fs => ∀ c ∈ fs, c.InRange
  | identifiers fs => ∀ i ∈ fs, i.InRange
  | comments f => f.InRange
  | custom _ => True

theorem ofData?_data {f : FactSet} (h : f.InRange) : ofData? f.kind f.data = some f := by
  cases f with
  | dependencies fs =>
    have hfs := list?_list fun d hd => Dependency.ofJson?_toJson (h d hd)
    simp only [ofData?, kind, data, hfs, Option.map_some]
  | exports f => simp only [ofData?, kind, data, ExportFacts.ofJson?_toJson h, Option.map_some]
  | functions fs =>
    have hfs := list?_list fun f hf => FunctionFact.ofJson?_toJson (h f hf)
    simp only [ofData?, kind, data, hfs, Option.map_some]
  | classes fs =>
    have hfs := list?_list fun c hc => ClassFact.ofJson?_toJson (h c hc)
    simp only [ofData?, kind, data, hfs, Option.map_some]
  | identifiers fs =>
    have hfs := list?_list fun i hi => IdentifierCount.ofJson?_toJson (h i hi)
    simp only [ofData?, kind, data, hfs, Option.map_some]
  | comments f => simp only [ofData?, kind, data, CommentFacts.ofJson?_toJson h, Option.map_some]
  | custom v => rfl

theorem ofJson?_toJson {f : FactSet} (h : f.InRange) : ofJson? f.toJson = some f := by
  simp -implicitDefEqProofs [ofJson?, toJson, List.lookup_cons, ofData?_data h]

end FactSet

def Extracts.InRange (d : Extracts) : Prop := ∀ e ∈ d.entries, ∀ f ∈ e.2, f.InRange

theorem Extracts.ofJson?_toJson {d : Extracts} (h : d.InRange) : ofJson? d.toJson = some d :=
  dict?_dict fun e he => nullable_orNull nofun fun f hf => FactSet.ofJson?_toJson (h e he f hf)

/-! ## Interpretations -/

structure DependencySummary.InRange (s : DependencySummary) : Prop where
  total : s.total < 2 ^ 64
  byKind : ∀ e ∈ s.byKind.entries, e.2 < 2 ^ 64
  localCount : s.localCount < 2 ^ 64
  external : s.external < 2 ^ 64
  resolved : s.resolved < 2 ^ 64
  unresolvedLocal : s.unresolvedLocal < 2 ^ 64

theorem DependencySummary.ofJson?_toJson {s : DependencySummary} (h : s.InRange) :
    ofJson? s.toJson = some s := by
  simp -implicitDefEqProofs [ofJson?, toJson, List.lookup_cons, nat64?_ofNat h.total,
    dict?_dict fun e he => nat64?_ofNat (h.byKind e he), nat64?_ofNat h.localCount,
    nat64?_ofNat h.external, nat64?_ofNat h.resolved, nat64?_ofNat h.unresolvedLocal]

structure ClassSummary.InRange (s : ClassSummary) : Prop where
  methodCount : s.methodCount < 2 ^ 64
  propertyCount : s.propertyCount < 2 ^ 64

theorem ClassSummary.ofJson?_toJson {s : ClassSummary} (h : s.InRange) :
    ofJson? s.toJson = some s := by
  simp -implicitDefEqProofs [ofJson?, toJson, List.lookup_cons, nat64?_ofNat h.methodCount,
    nat64?_ofNat h.propertyCount]

structure ApiSurface.InRange (s : ApiSurface) : Prop where
  total : s.total < 2 ^ 64
  byType : ∀ e ∈ s.byType.entries, e.2 < 2 ^ 64
  classes : ∀ c ∈ s.classes, c.InRange

theorem ApiSurface.ofJson?_toJson {s : ApiSurface} (h : s.InRange) :
    ofJson? s.toJson = some s := by
  simp -implicitDefEqProofs [ofJson?, toJson, List.lookup_append, nat64?_ofNat h.total,
    dict?_dict fun e he => nat64?_ofNat (h.byType e he),
    list?_list fun c hc => ClassSummary.ofJson?_toJson (h.classes c hc)]

structure ComplexFunction.InRange (f : ComplexFunction) : Prop where
  complexity : f.complexity < 2 ^ 32
  line : f.line < 2 ^ 64

theorem ComplexFunction.ofJson?_toJson {f : ComplexFunction} (h : f.InRange) :
    ofJson? f.toJson = some f := by
  simp -implicitDefEqProofs [ofJson?, toJson, List.lookup_cons, nat32?_ofNat h.complexity,
    nat64?_ofNat h.line]

structure CodeMetrics.InRange (m : CodeMetrics) : Prop where
  functionCount : m.functionCount < 2 ^ 64
  methodCount : m.methodCount < 2 ^ 64
  averageComplexity : m.averageComplexity.isFinite = true
  maxComplexity : m.maxComplexity < 2 ^ 32
  averageFunctionLength : m.averageFunctionLength.isFinite = true
  complexityThreshold : m.complexityThreshold < 2 ^ 32
  complexFunctions : ∀ f ∈ m.complexFunctions, f.InRange
  commentCount : ∀ n ∈ m.commentCount, n < 2 ^ 64
  todoCount : ∀ n ∈ m.todoCount, n < 2 ^ 64
  todosByMarker : ∀ e ∈ m.todosByMarker.entries, e.2 < 2 ^ 64
  vocabularySize : ∀ n ∈ m.vocabularySize, n < 2 ^ 64

theorem CodeMetrics.ofJson?_toJson {m : CodeMetrics} (h : m.InRange) :
    ofJson? m.toJson = some m := by
  simp -implicitDefEqProofs [-Option.bind_eq_bind, some_bind, ofJson?, toJson, List.lookup_append,
    nat64?_ofNat h.functionCount, nat64?_ofNat h.methodCount, double?_ofDouble h.averageComplexity,
    nat32?_ofNat h.maxComplexity, double?_ofDouble h.averageFunctionLength,
    nat32?_ofNat h.complexityThreshold,
    list?_list fun f hf => ComplexFunction.ofJson?_toJson (h.complexFunctions f hf),
    elim_ofNat h.commentCount, elim_ofNat h.todoCount,
    dict?_dict fun e he => nat64?_ofNat (h.todosByMarker e he), elim_ofNat h.vocabularySize]

namespace Interpretation

/-- A value of an interpreter's own is in range whatever it is. -/
def InRange : Interpretation → Prop
  | dependencySummary s => s.InRange
  | apiSurface s => s.InRange
  | codeMetrics m => m.InRange
  | custom _ => True

theorem ofData?_data {i : Interpretation} (h : i.InRange) : ofData? i.kind i.data = some i := by
  cases i with
  | dependencySummary s =>
    simp only [ofData?, kind, data, DependencySummary.ofJson?_toJson h, Option.map_some]
  | apiSurface s => simp only [ofData?, kind, data, ApiSurface.ofJson?_toJson h, Option.map_some]
  | codeMetrics m => simp only [ofData?, kind, data, CodeMetrics.ofJson?_toJson h, Option.map_some]
  | custom v => rfl

theorem ofJson?_toJson {i : Interpretation} (h : i.InRange) : ofJson? i.toJson = some i := by
  simp -implicitDefEqProofs [ofJson?, toJson, List.lookup_cons, ofData?_data h]

end Interpretation

def Interpretations.InRange (d : Interpretations) : Prop := ∀ e ∈ d.entries, ∀ i ∈ e.2, i.InRange

theorem Interpretations.ofJson?_toJson {d : Interpretations} (h : d.InRange) :
    ofJson? d.toJson = some d :=
  dict?_dict fun e he => nullable_orNull nofun fun i hi =>
    Interpretation.ofJson?_toJson (h e he i hi)

/-! ## Surveys -/

theorem ErrorKind.ofJson?_word (k : ErrorKind) : ofJson? (.str k.word) = some k := by
  cases k <;> rfl

theorem ErrorRecord.ofJson?_toJson (r : ErrorRecord) : ofJson? r.toJson = some r := by
  simp [ofJson?, toJson, List.lookup_cons, ErrorKind.ofJson?_word]

structure Footprint.InRange (m : Footprint) : Prop where
  sourceBytes : m.sourceBytes < 2 ^ 64
  extractedBytes : m.extractedBytes < 2 ^ 64
  interpretedBytes : m.interpretedBytes < 2 ^ 64

theorem Footprint.ofJson?_toJson {m : Footprint} (h : m.InRange) : ofJson? m.toJson = some m := by
  simp -implicitDefEqProofs [ofJson?, toJson, List.lookup_cons, nat64?_ofNat h.sourceBytes,
    nat64?_ofNat h.extractedBytes, nat64?_ofNat h.interpretedBytes]

structure Performance.InRange (p : Performance) : Prop where
  parse : p.parse.isFinite = true
  extraction : p.extraction.isFinite = true
  interpretation : p.interpretation.isFinite = true
  lookup : p.lookup.isFinite = true
  total : p.total.isFinite = true
  extractorTimings : ∀ e ∈ p.extractorTimings.entries, e.2.isFinite = true
  interpreterTimings : ∀ e ∈ p.interpreterTimings.entries, e.2.isFinite = true
  memory : p.memory.InRange

theorem Performance.ofJson?_toJson {p : Performance} (h : p.InRange) :
    ofJson? p.toJson = some p := by
  simp -implicitDefEqProofs [ofJson?, toJson, fieldNames, List.lookup_cons,
    double?_ofDouble h.parse, double?_ofDouble h.extraction, double?_ofDouble h.interpretation,
    double?_ofDouble h.lookup, double?_ofDouble h.total,
    dict?_dict fun e he => double?_ofDouble (h.extractorTimings e he),
    dict?_dict fun e he => double?_ofDouble (h.interpreterTimings e he),
    Footprint.ofJson?_toJson h.memory]

def Provenance.InRange (p : Provenance) : Prop := p.timestamp < 2 ^ 64

theorem Provenance.ofJson?_toJson {p : Provenance} (h : p.InRange) :
    ofJson? p.toJson = some p := by
  simp -implicitDefEqProofs [ofJson?, toJson, List.lookup_cons, nat64?_ofNat h]

namespace FileSurvey

structure InRange (s : FileSurvey) : Prop where
  extracted : s.extracted.InRange
  interpreted : s.interpreted.InRange
  performance : s.performance.InRange
  provenance : s.provenance.InRange

theorem ofJson?_toJson {s : FileSurvey} (h : s.InRange) : ofJson? s.toJson = some s := by
  simp -implicitDefEqProofs [ofJson?, toJson, fieldNames, List.lookup_cons,
    Extracts.ofJson?_toJson h.extracted, Interpretations.ofJson?_toJson h.interpreted,
    list?_list fun r _ => ErrorRecord.ofJson?_toJson r,
    Performance.ofJson?_toJson h.performance, Provenance.ofJson?_toJson h.provenance]

/-- **The wire format of surveys loses nothing.** A survey in range is read back as it was written,
with the plugins that failed, the optional parts that are absent and the values of a plugin's own;
and no other survey in range has its JSON form. -/
theorem toJson_faithful {s : FileSurvey} (h : s.InRange) :
    ofJson? s.toJson = some s ∧ ∀ t : FileSurvey, t.InRange → t.toJson = s.toJson → t = s := by
  refine ⟨ofJson?_toJson h, fun t ht heq => ?_⟩
  have hread := ofJson?_toJson ht
  rw [heq, ofJson?_toJson h] at hread
  exact (Option.some.inj hread).symm

/-- A survey with null as a plugin's own value, a plugin that failed, and an empty list beside
absent parts. -/
def assorted : FileSurvey where
  path := "a.rb"
  language := "ruby"
  extracted := ⟨[("broken", none),
    ("exports", some (.exports ⟨[⟨"run", .function, "function", ⟨1, 1, 2, 2 ^ 64 - 1⟩, none,
      some false, none, none, some [], none, false, none⟩], [], none⟩)),
    ("mine", some (.custom .null))], by decide⟩
  interpreted := ⟨[("metrics", some (.codeMetrics ⟨1, 0, ⟨0⟩, 2 ^ 32 - 1, none, ⟨0⟩, 10,
    [⟨"run", 2 ^ 32 - 1, 1⟩], none, some 0, ⟨[("TODO", 2)], by decide⟩, none⟩)),
    ("mine", some (.custom (.arr [.obj []])))], by decide⟩
  errors := [⟨.extractorFailure, "no luck"⟩]

theorem toJson_faithful_assorted :
    assorted.InRange ∧ ofJson? assorted.toJson = some assorted ∧
      ∀ t : FileSurvey, t.InRange → t.toJson = assorted.toJson → t = assorted := by
  have hrange : assorted.InRange := by
    refine ⟨?_, ?_, ⟨rfl, rfl, rfl, rfl, rfl, List.forall_mem_nil _, List.forall_mem_nil _, ?_⟩, ?_⟩
    · simp only [Extracts.InRange, assorted, List.forall_mem_cons]
      refine ⟨?_, ?_, ?_, List.forall_mem_nil _⟩
      · rintro _ ⟨⟩
      · rintro _ ⟨⟩
        refine ⟨List.forall_mem_singleton.2 ?_, List.forall_mem_nil _⟩
        constructor <;> decide
      · rintro _ ⟨⟩
        trivial
    · simp only [Interpretations.InRange, assorted, List.forall_mem_cons]
      refine ⟨?_, ?_, List.forall_mem_nil _⟩
      · rintro _ ⟨⟩
        have hfunction : ComplexFunction.InRange ⟨"run", 2 ^ 32 - 1, 1⟩ := by constructor <;> decide
        constructor <;> first | decide | exact List.forall_mem_singleton.2 hfunction
      · rintro _ ⟨⟩
        trivial
    · constructor <;> decide
    · exact Nat.two_pow_pos 64
  exact ⟨hrange, toJson_faithful hrange⟩

end FileSurvey

end CodeSurvey
