import CodeSurvey.Interpretation.Derive
import Mathlib.Algebra.GroupWithZero.Nat
/-!
# Surfaces are consistent

A tally counts every word once (`sum_tallyWords`) under its own name (`get?_tallyWords`). So the surface
of exports with no more classes than exports of classes passes its own check
(`ApiSurface.isConsistent_ofExports`).
-/
namespace CodeSurvey

/-! ## Tallies -/

/-- Binding a name replaces what its old value adds to the sum. -/
theorem Dict.sum_insertEntry {k : String} {v : Nat} {l : List (String × Nat)}
    (h : l.Pairwise fun a b => a.1 < b.1) :
    ((insertEntry k v l).map (·.2)).sum + (l.lookup k).getD 0 = (l.map (·.2)).sum + v := by
  induction l with
  | nil => simp [insertEntry]
  | cons e r ih =>
    obtain ⟨i, w⟩ := e
    obtain ⟨hfirst, hrest⟩ := List.pairwise_cons.1 h
    simp only [insertEntry]
    split
    · rename_i hk
      have hnone : ((i, w) :: r).lookup k = none := by
        refine List.lookup_eq_none_iff.2 fun e he => ?_
        rcases List.mem_cons.1 he with rfl | he
        · simpa using String.ne_of_lt hk
        · simpa using String.ne_of_lt (String.lt_trans hk (hfirst e he))
      rw [hnone]
      simp
      omega
    · split
      · rename_i hk
        simp [hk]
        omega
      · rename_i hk
        have hnext := ih hrest
        rw [lookup_entry, if_neg hk]
        simp only [List.map_cons, List.sum_cons]
        omega

theorem sum_foldl_tally (ws : List String) (d : Dict Nat) :
    ((ws.foldl countWord d).entries.map (·.2)).sum =
      (d.entries.map (·.2)).sum + ws.length := by
  induction ws generalizing d with
  | nil => rfl
  | cons w ws ih =>
    have hadd := Dict.sum_insertEntry (k := w) (v := (d.get? w).getD 0 + 1) d.ascending
    rw [List.foldl_cons, ih, List.length_cons]
    change ((Dict.insertEntry w _ d.entries).map (·.2)).sum + _ = _
    unfold Dict.get? at hadd ⊢
    omega

/-- **A tally counts every word once.** -/
theorem sum_tallyWords (ws : List String) :
    ((tallyWords ws).entries.map (·.2)).sum = ws.length :=
  (sum_foldl_tally ws .empty).trans (Nat.zero_add _)

theorem get?_foldl_tally (ws : List String) (d : Dict Nat) (x : String) :
    ((ws.foldl countWord d).get? x).getD 0 =
      (d.get? x).getD 0 + ws.count x := by
  induction ws generalizing d with
  | nil => rfl
  | cons w ws ih =>
    rw [List.foldl_cons, ih, countWord, Dict.get?_insert, List.count_cons]
    by_cases h : x = w
    · subst h
      simp
      omega
    · simp [h, Ne.symm h]

theorem get?_tallyWords (ws : List String) (x : String) :
    ((tallyWords ws).get? x).getD 0 = ws.count x :=
  (get?_foldl_tally ws .empty x).trans (Nat.zero_add _)

/-! ## Surfaces -/

/-- No other kind of export has the word of a class. -/
theorem ExportKind.word_eq_class {k : ExportKind} : k.word = classType.word ↔ k = classType := by
  cases k <;> decide

/-- **Surfaces are consistent**, if there is an export for every class. -/
theorem ApiSurface.isConsistent_ofExports {f : ExportFacts}
    (h : f.classes.length ≤ (f.exports.filter (·.kind = .classType)).length) :
    (ApiSurface.ofExports f).isConsistent = true := by
  have hcount : (f.exports.map (·.kind.word)).count ExportKind.classType.word =
      (f.exports.filter (·.kind = .classType)).length := by
    rw [List.count_eq_length_filter, List.filter_map, List.length_map]
    congr 2
    funext e
    exact decide_eq_decide.2 ExportKind.word_eq_class
  simp only [isConsistent, ofExports, sum_tallyWords, get?_tallyWords, hcount, List.length_map, h,
    beq_self_eq_true, decide_true, Bool.and_self]

end CodeSurvey
