import CodeSurvey.Comment.Span
import Mathlib.Data.List.Induction
import Mathlib.Data.List.TakeWhile
/-!
# String literals on a line

A grammar of the literals of a line: `Closed` if all of them are closed, `EndsInLiteral` if the line
breaks off inside one. The state that is kept along a text says which it is of its last line
(`endsQuoted_iff`, `foldl_eq_start_iff`).
-/
namespace CodeSurvey.Comment

open Text

/-! ## Grammar -/

/-- What can stand between two quotes: other characters than the quote, and any character behind a
backslash. -/
inductive Inside (q : Char) : List Char → Prop
  | nil : Inside q []
  | plain {c : Char} {r : List Char} (hquote : c ≠ q) (hescape : c ≠ '\\') (hrest : Inside q r) :
      Inside q (c :: r)
  | escaped {c : Char} {r : List Char} (hrest : Inside q r) : Inside q ('\\' :: c :: r)

/-- A part of a line in which all literals are closed. A backslash takes the next character with it,
also outside literals. -/
inductive Closed : List Char → Prop
  | nil : Closed []
  | plain {c : Char} {r : List Char} (hquote : isQuote c = false) (hescape : c ≠ '\\')
      (hrest : Closed r) : Closed (c :: r)
  | escaped {c : Char} {r : List Char} (hrest : Closed r) : Closed ('\\' :: c :: r)
  | literal {q : Char} {t r : List Char} (hquote : isQuote q = true) (hinside : Inside q t)
      (hrest : Closed r) : Closed (q :: (t ++ q :: r))

/-- A line breaks off inside a literal, perhaps right behind a backslash. -/
def EndsInLiteral (line : List Char) : Prop :=
  ∃ before q t, Closed before ∧ isQuote q = true ∧ Inside q t ∧
    (line = before ++ q :: t ∨ line = before ++ q :: (t ++ ['\\']))

theorem Inside.append {q : Char} {s t : List Char} (hs : Inside q s) (ht : Inside q t) :
    Inside q (s ++ t) := by
  induction hs with
  | nil => exact ht
  | plain hquote hescape _ ih => exact .plain hquote hescape ih
  | escaped _ ih => exact .escaped ih

theorem Closed.append {s t : List Char} (hs : Closed s) (ht : Closed t) : Closed (s ++ t) := by
  induction hs with
  | nil => exact ht
  | plain hquote hescape _ ih => exact .plain hquote hescape ih
  | escaped _ ih => exact .escaped ih
  | literal hquote hinside _ ih =>
    rw [List.cons_append, List.append_assoc]
    exact .literal hquote hinside ih

/-- The state behind a part of a line. -/
def Quoting.Follows (line : List Char) : Quoting → Prop
  | ⟨none, false⟩ => Closed line
  | ⟨none, true⟩ => ∃ before, line = before ++ ['\\'] ∧ Closed before
  | ⟨some q, false⟩ => ∃ before t, line = before ++ q :: t ∧ Closed before ∧ isQuote q = true ∧
      Inside q t
  | ⟨some q, true⟩ => ∃ before t, line = before ++ q :: (t ++ ['\\']) ∧ Closed before ∧
      isQuote q = true ∧ Inside q t

theorem Quoting.Follows.next {line : List Char} {q : Quoting} {c : Char} (h : q.Follows line)
    (hc : c ≠ '\n') : (q.next c).Follows (line ++ [c]) := by
  obtain ⟨quote, escaped⟩ := q
  unfold Quoting.next
  rw [if_neg hc]
  cases escaped with
  | true =>
    cases quote with
    | none =>
      obtain ⟨before, rfl, hbefore⟩ := h
      show Closed (before ++ ['\\'] ++ [c])
      rw [List.append_assoc]
      exact hbefore.append (.escaped .nil)
    | some q =>
      obtain ⟨before, t, rfl, hbefore, hq, ht⟩ := h
      exact ⟨before, t ++ ['\\', c], by simp, hbefore, hq, ht.append (.escaped .nil)⟩
  | false =>
    by_cases hescape : c = '\\'
    · subst hescape
      cases quote with
      | none => exact ⟨line, rfl, h⟩
      | some q =>
        obtain ⟨before, t, rfl, hbefore, hq, ht⟩ := h
        exact ⟨before, t, by simp, hbefore, hq, ht⟩
    · simp only [hescape, Bool.false_eq_true, if_false]
      cases quote with
      | none =>
        cases hquote : isQuote c with
        | true => exact ⟨line, [], rfl, h, hquote, .nil⟩
        | false => exact h.append (.plain hquote hescape .nil)
      | some q =>
        obtain ⟨before, t, rfl, hbefore, hq, ht⟩ := h
        by_cases hclose : c = q
        · subst hclose
          simp only [if_true]
          show Closed (before ++ c :: t ++ [c])
          rw [List.append_assoc]
          exact hbefore.append (.literal hq ht .nil)
        · simp only [hclose, if_false]
          exact ⟨before, t ++ [c], by simp, hbefore, hq, ht.append (.plain hclose hescape .nil)⟩

theorem follows_of_line {line : List Char} (h : '\n' ∉ line) :
    (line.foldl Quoting.next .start).Follows line := by
  induction line using List.reverseRecOn with
  | nil => exact Closed.nil
  | append_singleton line c ih =>
    rw [List.mem_append, not_or] at h
    rw [List.foldl_append]
    exact (ih h.1).next (fun hc => h.2 (by simp [hc]))

theorem Inside.foldl {q : Char} {t : List Char} (h : Inside q t) (hline : '\n' ∉ t) :
    t.foldl Quoting.next ⟨some q, false⟩ = ⟨some q, false⟩ := by
  induction h with
  | nil => rfl
  | @plain c r hquote hescape _ ih =>
    rw [List.mem_cons, not_or] at hline
    have hnext : Quoting.next ⟨some q, false⟩ c = ⟨some q, false⟩ := by
      simp [Quoting.next, hquote, hescape, Ne.symm hline.1]
    rw [List.foldl_cons, hnext, ih hline.2]
  | @escaped c r _ ih =>
    rw [List.mem_cons, List.mem_cons, not_or, not_or] at hline
    have hnext : Quoting.next (Quoting.next ⟨some q, false⟩ '\\') c = ⟨some q, false⟩ := by
      simp [Quoting.next, Ne.symm hline.2.1]
    rw [List.foldl_cons, List.foldl_cons, hnext, ih hline.2.2]

theorem Quoting.next_quote {q : Char} (hquote : isQuote q = true) :
    Quoting.start.next q = ⟨some q, false⟩ := by
  have hline : q ≠ '\n' := by rintro rfl; cases hquote
  have hescape : q ≠ '\\' := by rintro rfl; cases hquote
  simp [Quoting.next, Quoting.start, hline, hescape, hquote]

theorem Closed.foldl {line : List Char} (h : Closed line) (hline : '\n' ∉ line) :
    line.foldl Quoting.next .start = .start := by
  induction h with
  | nil => rfl
  | @plain c r hquote hescape _ ih =>
    rw [List.mem_cons, not_or] at hline
    have hnext : Quoting.start.next c = .start := by
      simp [Quoting.next, Quoting.start, hquote, hescape]
    rw [List.foldl_cons, hnext, ih hline.2]
  | @escaped c r _ ih =>
    rw [List.mem_cons, List.mem_cons, not_or, not_or] at hline
    have hnext : (Quoting.start.next '\\').next c = .start := by
      simp [Quoting.next, Quoting.start]
    rw [List.foldl_cons, List.foldl_cons, hnext, ih hline.2.2]
  | @literal q t r hquote hinside _ ih =>
    simp only [List.mem_cons, List.mem_append, not_or] at hline
    have hclose : Quoting.next ⟨some q, false⟩ q = .start := by
      have hescape : q ≠ '\\' := by rintro rfl; cases hquote
      simp [Quoting.next, Quoting.start, hescape]
    rw [List.foldl_cons, Quoting.next_quote hquote, List.foldl_append, hinside.foldl hline.2.1,
      List.foldl_cons, hclose, ih hline.2.2.2]

/-- **The state behind a line is that of its literals.** -/
theorem isSome_quote_iff {line : List Char} (hline : '\n' ∉ line) :
    (line.foldl Quoting.next .start).quote.isSome = true ↔ EndsInLiteral line := by
  constructor
  · intro h
    have hfollows := follows_of_line hline
    generalize line.foldl Quoting.next .start = q at h hfollows
    obtain ⟨_ | q, escaped⟩ := q
    · cases h
    · cases escaped with
      | false =>
        obtain ⟨before, t, heq, hbefore, hq, ht⟩ := hfollows
        exact ⟨before, q, t, hbefore, hq, ht, .inl heq⟩
      | true =>
        obtain ⟨before, t, heq, hbefore, hq, ht⟩ := hfollows
        exact ⟨before, q, t, hbefore, hq, ht, .inr heq⟩
  · rintro ⟨before, q, t, hbefore, hq, ht, hend⟩
    have hopen {u : List Char} (hu : line = before ++ q :: u) (htu : t <+: u) :
        line.foldl Quoting.next .start = (u.drop t.length).foldl Quoting.next ⟨some q, false⟩ := by
      obtain ⟨v, rfl⟩ := htu
      rw [hu] at hline
      simp only [List.mem_cons, List.mem_append, not_or] at hline
      rw [hu, List.foldl_append, hbefore.foldl hline.1, List.foldl_cons, Quoting.next_quote hq,
        List.foldl_append, ht.foldl hline.2.2.1, List.drop_left]
    rcases hend with hend | hend
    · rw [hopen hend (List.prefix_refl t), List.drop_length]
      rfl
    · rw [hopen hend (List.prefix_append t _), List.drop_left]
      rfl

theorem afterLast_concat (sep c : Char) (s : List Char) :
    afterLast sep (s ++ [c]) = if c = sep then [] else afterLast sep s ++ [c] := by
  by_cases h : c = sep
  · simp [afterLast, h]
  · simp [afterLast, h]

theorem not_mem_afterLast (sep : Char) (s : List Char) : sep ∉ afterLast sep s := by
  intro h
  have := List.mem_takeWhile_imp (List.mem_reverse.1 h)
  simp at this

/-- Only the last line counts. -/
theorem foldl_afterLast (s : List Char) :
    (afterLast '\n' s).foldl Quoting.next .start = s.foldl Quoting.next .start := by
  induction s using List.reverseRecOn with
  | nil => rfl
  | append_singleton s c ih =>
    rw [afterLast_concat, List.foldl_append]
    by_cases hc : c = '\n'
    · rw [if_pos hc, hc]
      rfl
    · rw [if_neg hc, List.foldl_append, ih]

theorem endsQuoted_iff (s : List Char) : endsQuoted s = true ↔ EndsInLiteral (afterLast '\n' s) := by
  rw [endsQuoted, ← foldl_afterLast]
  exact isSome_quote_iff (not_mem_afterLast _ s)

theorem foldl_eq_start_iff (s : List Char) :
    s.foldl Quoting.next .start = .start ↔ Closed (afterLast '\n' s) := by
  have hline := not_mem_afterLast '\n' s
  rw [← foldl_afterLast]
  constructor
  · intro h
    have hfollows := follows_of_line hline
    rwa [h] at hfollows
  · exact fun h => h.foldl hline

end CodeSurvey.Comment
