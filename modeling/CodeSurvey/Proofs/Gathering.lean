import CodeSurvey.Proofs.Extraction
import Mathlib.Data.List.Forall2
import Mathlib.Data.List.Induction
/-!
# What gathering exports gives

Exports are gathered one at a time; a later one with a known key leaves nothing but its default flag, on
an entry that may lie far back. What comes out does not depend on that order of work: it is the list of
the exports that come first under their keys (`firsts`), each the default export if any export with its
key is (`dedup_eq`). Classes, their members and the name of the default export are read off that list.

`gather_meets_spec` puts this together and adds that gathering once is enough.
-/
namespace CodeSurvey.Export

/-! ## The exports that stay -/

/-- The exports that come first under their keys, in order. -/
def firsts (all : List Export) : List Export :=
  (all.zipIdx.filter fun p => p.1.key ∉ (all.take p.2).map key).map (·.1)

/-- An export that is the default export if any with its key is. -/
def merged (all : List Export) (e : Export) : Export :=
  { e with isDefault := all.any fun x => x.key = e.key && x.isDefault }

@[simp] theorem key_merged (all : List Export) (e : Export) : (merged all e).key = e.key := rfl

theorem keys_map_merged (all es : List Export) : (es.map (merged all)).map key = es.map key := by
  rw [List.map_map]
  rfl

/-- One more export passes its flag on to those with its key. -/
theorem merged_concat (all : List Export) (e x : Export) :
    merged (all ++ [e]) x =
      if (merged all x).key = e.key then
        { merged all x with isDefault := (merged all x).isDefault || e.isDefault }
      else merged all x := by
  rw [key_merged]
  by_cases h : x.key = e.key
  · simp [merged, h]
  · simp [merged, h, Ne.symm h]

/-- One more export comes first if its key is new. -/
theorem firsts_concat (all : List Export) (e : Export) :
    firsts (all ++ [e]) = firsts all ++ if e.key ∈ all.map key then [] else [e] := by
  have hearlier : all.zipIdx.filter (fun p => p.1.key ∉ ((all ++ [e]).take p.2).map key) =
      all.zipIdx.filter fun p => p.1.key ∉ (all.take p.2).map key := by
    apply List.filter_congr
    intro p hp
    have hlt : p.2 < all.length := by
      have := List.snd_lt_of_mem_zipIdx hp
      omega
    rw [List.take_append_of_le_length (Nat.le_of_lt hlt)]
  unfold firsts
  rw [List.zipIdx_append, List.filter_append, hearlier, List.map_append]
  congr 1
  by_cases h : e.key ∈ all.map key
  · simp [h]
  · simp [h]

theorem mem_keys_firsts {all : List Export} {k : String × ExportKind × Option String} :
    k ∈ (firsts all).map key ↔ k ∈ all.map key := by
  induction all using List.reverseRecOn with
  | nil => simp [firsts]
  | append_singleton all e ih =>
    rw [firsts_concat, List.map_append, List.mem_append, ih, List.map_append, List.mem_append]
    by_cases h : e.key ∈ all.map key
    · simp only [h, if_true, List.map_nil, List.not_mem_nil, or_false, List.map_cons,
        List.mem_singleton]
      constructor
      · exact Or.inl
      · rintro (hk | rfl)
        · exact hk
        · exact h
    · simp [h]

/-! ## Keeping one more -/

section

variable {kept : List Export} {e : Export}

/-- An export with a new key is added at the end. -/
theorem keep_of_new (h : e.key ∉ kept.map key) : keep kept e = kept ++ [e] := by
  induction kept with
  | nil => rfl
  | cons k ks ih =>
    rw [List.map_cons, List.mem_cons, not_or] at h
    rw [keep, if_neg (Ne.symm h.1), ih h.2, List.cons_append]

/-- An export with a known key passes its default flag on to the one entry with that key. -/
theorem keep_of_known (hnodup : (kept.map key).Nodup) (h : e.key ∈ kept.map key) :
    keep kept e = kept.map fun k =>
      if k.key = e.key then { k with isDefault := k.isDefault || e.isDefault } else k := by
  induction kept with
  | nil => simp at h
  | cons k ks ih =>
    rw [List.map_cons, List.nodup_cons] at hnodup
    by_cases hk : k.key = e.key
    · have hothers : ks.map (fun k =>
          if k.key = e.key then { k with isDefault := k.isDefault || e.isDefault } else k) = ks := by
        refine (List.map_congr_left fun x hx => ?_).trans (List.map_id ks)
        have hne : x.key ≠ e.key := by
          intro hxe
          exact hnodup.1 (hk ▸ hxe ▸ List.mem_map_of_mem hx)
        exact if_neg hne
      rw [keep, if_pos hk, List.map_cons, if_pos hk, hothers]
    · have hrest : e.key ∈ ks.map key := by
        rw [List.map_cons, List.mem_cons] at h
        exact h.resolve_left fun heq => hk heq.symm
      rw [keep, if_neg hk, List.map_cons, if_neg hk, ih hnodup.2 hrest]

end

theorem dedup_concat (all : List Export) (e : Export) : dedup (all ++ [e]) = keep (dedup all) e := by
  simp [dedup, List.foldl_append]

theorem nodup_dedup (all : List Export) : ((dedup all).map key).Nodup := nodup_foldl_keep List.nodup_nil

/-- **What stays is what comes first, with the flags of all.** The induction adds the exports at the end,
as the fold takes them. -/
theorem dedup_eq (all : List Export) : dedup all = (firsts all).map (merged all) := by
  induction all using List.reverseRecOn with
  | nil => rfl
  | append_singleton all e ih =>
    have hkeys : (dedup all).map key = (firsts all).map key := by rw [ih, keys_map_merged]
    rw [dedup_concat, firsts_concat]
    by_cases h : e.key ∈ all.map key
    · -- the flag goes to the entry with the key, wherever it stands
      have hknown : e.key ∈ (dedup all).map key := by rw [hkeys, mem_keys_firsts]; exact h
      rw [keep_of_known (nodup_dedup all) hknown, if_pos h, List.append_nil, ih, List.map_map]
      apply List.map_congr_left
      intro x _
      exact (merged_concat all e x).symm
    · have hnew : e.key ∉ (dedup all).map key := by rw [hkeys, mem_keys_firsts]; exact h
      rw [keep_of_new hnew, if_neg h, List.map_append, ih]
      congr 1
      · apply List.map_congr_left
        intro x hx
        have hne : x.key ≠ e.key := by
          intro hxe
          exact h (mem_keys_firsts.1 (hxe ▸ List.mem_map_of_mem hx))
        rw [merged_concat, key_merged, if_neg hne]
      · -- no other export has the key, so the flag is its own
        have hnone : (all.any fun x => x.key = e.key && x.isDefault) = false := by
          apply List.any_eq_false.2
          intro x hx
          have hne : x.key ≠ e.key := fun hxe => h (hxe ▸ List.mem_map_of_mem hx)
          simp [hne]
        simp [merged, hnone]

/-- Exports with different keys all stay as they are. -/
theorem dedup_of_nodup {all : List Export} (h : (all.map key).Nodup) : dedup all = all := by
  induction all using List.reverseRecOn with
  | nil => rfl
  | append_singleton all e ih =>
    rw [List.map_append, List.nodup_append] at h
    have hnew : e.key ∉ all.map key := fun hmem => h.2.2 _ hmem e.key (by simp) rfl
    rw [dedup_concat, ih h.1, keep_of_new hnew]

/-- What stays was there before, its flag apart. -/
theorem exists_of_mem_dedup {all : List Export} {e : Export} (h : e ∈ dedup all) :
    ∃ x ∈ all, e = merged all x := by
  rw [dedup_eq] at h
  obtain ⟨x, hx, rfl⟩ := List.mem_map.1 h
  obtain ⟨p, hp, rfl⟩ := List.mem_map.1 hx
  exact ⟨p.1, List.fst_mem_of_mem_zipIdx (List.mem_filter.1 hp).1, rfl⟩

/-- Every key stays. -/
theorem mem_keys_dedup {all : List Export} {k : String × ExportKind × Option String} :
    k ∈ (dedup all).map key ↔ k ∈ all.map key := by
  rw [dedup_eq, keys_map_merged, mem_keys_firsts]

/-- A default export stays the default export, perhaps through an earlier one with its key. -/
theorem exists_default {all : List Export} :
    (∃ e ∈ dedup all, e.isDefault = true) ↔ ∃ e ∈ all, e.isDefault = true := by
  constructor
  · rintro ⟨e, he, hdefault⟩
    obtain ⟨x, -, rfl⟩ := exists_of_mem_dedup he
    obtain ⟨y, hy, hboth⟩ := List.any_eq_true.1 hdefault
    exact ⟨y, hy, (Bool.and_eq_true_iff.1 hboth).2⟩
  · rintro ⟨y, hy, hdefault⟩
    obtain ⟨e, he, hkey⟩ := List.mem_map.1 (mem_keys_dedup.2 (List.mem_map_of_mem hy))
    refine ⟨e, he, ?_⟩
    obtain ⟨x, -, rfl⟩ := exists_of_mem_dedup he
    refine List.any_eq_true.2 ⟨y, hy, ?_⟩
    rw [key_merged] at hkey
    simp [hkey, hdefault]

/-! ## The whole -/

/-- A member of a class as its class reports it: public where it does not say. -/
structure ReportedAs (m shown : Export) : Prop where
  silent : m.visibility = none → shown = { m with visibility := some "public" }
  outspoken : ∀ v, m.visibility = some v → shown = m

/-- A class as it is reported for its export, with its members among some exports. -/
structure ClassOf (exports : List Export) (e : Export) (c : ClassExport) : Prop where
  name : c.name = e.name
  location : c.location = e.location
  isDefault : c.isDefault = e.isDefault
  methods : List.Forall₂ ReportedAs
    (exports.filter fun m => m.kind = .classMethod ∧ m.parentClass = some e.name) c.methods
  properties : List.Forall₂ ReportedAs
    (exports.filter fun m => m.kind = .classProperty ∧ m.parentClass = some e.name) c.properties

/-- What gathering some exports has to give. -/
structure Gathered (all : List Export) (facts : ExportFacts) : Prop where
  /-- The exports that come first under their keys, each with the flags of all with its key. -/
  exports : facts.exports = (firsts all).map (merged all)
  distinct : facts.exports.Pairwise fun a b =>
    ¬ (a.name = b.name ∧ a.kind = b.kind ∧ a.parentClass = b.parentClass)
  /-- No key is lost. -/
  complete : ∀ e ∈ all, ∃ k ∈ facts.exports, k.key = e.key
  classes : List.Forall₂ (ClassOf facts.exports) (facts.exports.filter (·.kind = .classType))
    facts.classes
  default : ∀ name, facts.defaultExport = some name ↔ ∃ before e after,
    facts.exports = before ++ e :: after ∧ e.isDefault = true ∧ e.name = name ∧
      ∀ x ∈ before, x.isDefault = false
  noDefault : facts.defaultExport = none ↔ ∀ e ∈ all, e.isDefault = false

theorem reportedAs_members (exports : List Export) (name : String) (kind : ExportKind) :
    List.Forall₂ ReportedAs
      (exports.filter fun m => m.kind = kind ∧ m.parentClass = some name)
      (membersOf exports name kind) := by
  unfold membersOf
  rw [List.forall₂_map_right_iff]
  have hsame : exports.filter (fun m => m.kind = kind && m.parentClass = some name) =
      exports.filter fun m => m.kind = kind ∧ m.parentClass = some name := by
    apply List.filter_congr
    intro m _
    simp
  rw [hsame, List.forall₂_same]
  intro m _
  constructor
  · intro hsilent
    simp [hsilent]
  · intro v hv
    obtain ⟨⟩ := m
    simp_all

/-- **Gathering meets its specification, and once is enough.** For every list of exports: what stays is
the first export of each name, kind and class, in order and unchanged but for its default flag, which is
set if any export with its key has it; each export of a class is reported with the members that stay for
it, public where they do not say; the default export is the first that stays with the flag; and gathering
what stays changes nothing. -/
theorem gather_meets_spec (all : List Export) :
    Gathered all (gather all) ∧ gather (gather all).exports = gather all := by
  refine ⟨⟨dedup_eq all, ?_, ?_, ?_, ?_, ?_⟩, ?_⟩
  · refine (List.pairwise_map.1 (nodup_dedup all)).imp fun {a b} hne hsame => hne ?_
    simp only [key, hsame.1, hsame.2.1, hsame.2.2]
  · intro e he
    exact List.mem_map.1 (mem_keys_dedup.2 (List.mem_map_of_mem he))
  · rw [gather, List.forall₂_map_right_iff, List.forall₂_same]
    intro e _
    exact ⟨rfl, rfl, rfl, reportedAs_members _ _ _, reportedAs_members _ _ _⟩
  · intro name
    simp only [gather, Option.map_eq_some_iff, List.find?_eq_some_iff_append]
    constructor
    · rintro ⟨e, ⟨hdefault, before, after, hsplit, hbefore⟩, rfl⟩
      exact ⟨before, e, after, hsplit, hdefault, rfl, by simpa using hbefore⟩
    · rintro ⟨before, e, after, hsplit, hdefault, rfl, hbefore⟩
      exact ⟨e, ⟨hdefault, before, after, hsplit, by simpa using hbefore⟩, rfl⟩
  · simp only [gather, Option.map_eq_none_iff, List.find?_eq_none]
    constructor
    · intro hnone e he
      by_contra hdefault
      obtain ⟨k, hk, hflag⟩ := exists_default.2 ⟨e, he, by simpa using hdefault⟩
      exact hnone k hk hflag
    · intro hnone k hk hflag
      obtain ⟨e, he, hdefault⟩ := exists_default.1 ⟨k, hk, hflag⟩
      rw [hnone e he] at hdefault
      cases hdefault
  · have hagain : dedup (dedup all) = dedup all := dedup_of_nodup (nodup_dedup all)
    simp only [gather, hagain]

end CodeSurvey.Export
