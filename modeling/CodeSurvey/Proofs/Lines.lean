import CodeSurvey.Proofs.Directory
import CodeSurvey.Text.LineIndex
/-!
# Lines of a text

`lines` splits at the newlines, drops the carriage returns in front of them and leaves out an empty
last piece, so a text is either free of newlines or a first line in front of a shorter text
(`line_induction`). The line with index `k` is the piece of the text behind `k` newlines:
`exists_of_getElem?_lines` reads a line in the text, `getElem?_lines_append` finds a piece of the text
in its line, `LineIndex.line_size` is the number of that line, and `lines_join` puts lines together.
-/
namespace CodeSurvey.Text

/-! ## Carriage returns -/

/-- At most one carriage return is dropped, and it stands last. -/
theorem dropReturn_cases (l : List Char) :
    dropReturn l = l ∧ l.getLast? ≠ some '\r' ∨ l = dropReturn l ++ ['\r'] := by
  rcases List.eq_nil_or_concat l with rfl | ⟨r, c, rfl⟩
  · exact .inl ⟨rfl, nofun⟩
  · by_cases hc : c = '\r'
    · subst hc
      right
      simp [dropReturn, beforeEnd?, afterStart?]
    · left
      have hne : ¬ '\r' = c := fun h => hc h.symm
      simp [dropReturn, beforeEnd?, afterStart?, hne, hc]

theorem prefix_dropReturn (l : List Char) : dropReturn l <+: l := by
  rcases dropReturn_cases l with ⟨h, -⟩ | h
  · exact ⟨[], by rw [h, List.append_nil]⟩
  · exact ⟨['\r'], h.symm⟩

/-- A piece of a line that does not end in a carriage return is not cut. -/
theorem infix_dropReturn {l a t b : List Char} (hl : l = a ++ t ++ b)
    (ht : t.getLast? ≠ some '\r') : t <:+: dropReturn l := by
  rcases dropReturn_cases l with ⟨h, -⟩ | h
  · rw [h, hl]
    exact ⟨a, b, rfl⟩
  · rcases List.eq_nil_or_concat b with rfl | ⟨b, c, rfl⟩
    · -- the carriage return would be the end of the piece
      rcases List.eq_nil_or_concat t with rfl | ⟨t, c, rfl⟩
      · exact List.nil_infix
      · have hlast := congrArg List.getLast? (h.symm.trans hl)
        simp at hlast
        exact absurd (by simp [← hlast]) ht
    · have hsplit : dropReturn l ++ ['\r'] = (a ++ t ++ b) ++ [c] := by
        rw [← h, hl, List.concat_eq_append, ← List.append_assoc]
      rw [(List.append_inj' hsplit rfl).1]
      exact ⟨a, b, rfl⟩

/-! ## First and later lines -/

theorem lines_of_not_mem {s : List Char} (h : '\n' ∉ s) (hne : s ≠ []) : lines s = [s] := by
  unfold lines
  rw [FileSystem.splitAt_of_not_mem h]
  cases s with
  | nil => exact absurd rfl hne
  | cons c r => rfl

theorem lines_append {l : List Char} (h : '\n' ∉ l) (r : List Char) :
    lines (l ++ '\n' :: r) = dropReturn l :: lines r := by
  obtain ⟨w, ws, hw⟩ := List.exists_cons_of_ne_nil (FileSystem.splitBy_ne_nil (· == '\n') r)
  have hsplit : splitAt '\n' (l ++ '\n' :: r) = l :: splitAt '\n' r := by
    rw [FileSystem.splitAt_append, FileSystem.splitAt_of_not_mem h]
    rfl
  have hr : splitAt '\n' r = w :: ws := hw
  simp only [lines, hsplit, hr, List.dropLast_cons_cons, List.map_cons, List.getLast?_cons_cons]
  split <;> rfl

/-- Texts are built line by line. -/
@[elab_as_elim]
theorem line_induction {motive : List Char → Prop} (last : ∀ s, '\n' ∉ s → motive s)
    (line : ∀ l r, '\n' ∉ l → motive r → motive (l ++ '\n' :: r)) (s : List Char) : motive s := by
  by_cases h : '\n' ∈ s
  · obtain ⟨l, r, hs, hl⟩ := List.eq_append_cons_of_mem h
    rw [hs]
    exact line l r hl (line_induction last line r)
  · exact last s h
termination_by s.length
decreasing_by simp [hs]; omega

/-- A line stands in the text behind as many newlines as its index says. -/
theorem exists_of_getElem?_lines {s l : List Char} {k : Nat} (h : (lines s)[k]? = some l) :
    ∃ a b, s = a ++ (l ++ b) ∧ a.count '\n' = k ∧ '\n' ∉ l := by
  induction s using line_induction generalizing k with
  | last s hs =>
    rcases eq_or_ne s [] with rfl | hne
    · cases h
    · rw [lines_of_not_mem hs hne] at h
      obtain ⟨rfl, rfl⟩ : k = 0 ∧ s = l := by
        cases k with
        | zero => exact ⟨rfl, by simpa using h⟩
        | succ k => cases h
      exact ⟨[], [], by simp, rfl, hs⟩
  | line first r hfirst ih =>
    rw [lines_append hfirst] at h
    cases k with
    | zero =>
      obtain rfl : dropReturn first = l := by simpa using h
      obtain ⟨b, hb⟩ := prefix_dropReturn first
      refine ⟨[], b ++ '\n' :: r, ?_, rfl, fun hn => hfirst ((prefix_dropReturn first).subset hn)⟩
      rw [List.nil_append, ← List.append_assoc, hb]
    | succ k =>
      obtain ⟨a, b, rfl, rfl, hl⟩ := ih (by simpa using h)
      refine ⟨first ++ '\n' :: a, b, by simp, ?_, hl⟩
      rw [List.count_append, List.count_eq_zero_of_not_mem hfirst, List.count_cons_self, Nat.zero_add]

/-- A text that is one line by itself. -/
structure IsLine (t : List Char) : Prop where
  ne_nil : t ≠ []
  noNewline : '\n' ∉ t
  noReturn : t.getLast? ≠ some '\r'

/-- A piece of the text is a piece of the line behind as many newlines as stand in front of it. -/
theorem getElem?_lines_append {t : List Char} (ht : IsLine t) (a b : List Char) :
    ∃ l, (lines (a ++ (t ++ b)))[a.count '\n']? = some l ∧ t <:+: l := by
  induction a using line_induction with
  | last a ha =>
    rw [List.count_eq_zero_of_not_mem ha]
    by_cases hb : '\n' ∈ b
    · obtain ⟨c, r, rfl, hc⟩ := List.eq_append_cons_of_mem hb
      have hfirst : '\n' ∉ a ++ t ++ c := by simp [ha, ht.noNewline, hc]
      refine ⟨dropReturn (a ++ t ++ c), ?_, infix_dropReturn rfl ht.noReturn⟩
      have hs : a ++ (t ++ (c ++ '\n' :: r)) = (a ++ t ++ c) ++ '\n' :: r := by simp
      rw [hs, lines_append hfirst]
      rfl
    · refine ⟨a ++ (t ++ b), ?_, a, b, by simp⟩
      rw [lines_of_not_mem (by simp [ha, ht.noNewline, hb]) (by simp [ht.ne_nil])]
      rfl
  | line first r hfirst ih =>
    obtain ⟨l, hl, hinfix⟩ := ih
    refine ⟨l, ?_, hinfix⟩
    rw [List.append_assoc, List.cons_append, lines_append hfirst, List.count_append,
      List.count_eq_zero_of_not_mem hfirst, List.count_cons_self, Nat.zero_add,
      List.getElem?_cons_succ, hl]

/-- Joined lines are read back. -/
theorem lines_join {ts : List (List Char)} (h : ∀ t ∈ ts, IsLine t) : lines (join ['\n'] ts) = ts := by
  induction ts with
  | nil => rfl
  | cons t ts ih =>
    have ht := h t List.mem_cons_self
    have hrest := ih fun u hu => h u (List.mem_cons_of_mem t hu)
    cases ts with
    | nil =>
      have hjoin : join ['\n'] [t] = t := by simp [join, List.intercalate]
      rw [hjoin, lines_of_not_mem ht.noNewline ht.ne_nil]
    | cons u us =>
      have hjoin : join ['\n'] (t :: u :: us) = t ++ '\n' :: join ['\n'] (u :: us) := by
        simp [join, List.intercalate, List.intersperse]
      rcases dropReturn_cases t with ⟨hkept, -⟩ | hreturn
      · rw [hjoin, lines_append ht.noNewline, hkept, hrest]
      · refine absurd ?_ ht.noReturn
        rw [hreturn, List.getLast?_concat]

/-! ## Line numbers -/

namespace LineIndex

theorem startsFrom_append (offset : Nat) (s t : List Char) :
    startsFrom offset (s ++ t) = startsFrom offset s ++ startsFrom (offset + size s) t := by
  induction s generalizing offset with
  | nil => rfl
  | cons c r ih =>
    have hsize : offset + size (c :: r) = offset + c.utf8Size + size r := by rw [size]; omega
    rw [List.cons_append, startsFrom, startsFrom, ih, hsize]
    split <;> rfl

theorem length_startsFrom (offset : Nat) (s : List Char) :
    (startsFrom offset s).length = s.count '\n' := by
  induction s generalizing offset with
  | nil => rfl
  | cons c r ih =>
    rw [startsFrom, List.count_cons]
    by_cases hc : c = '\n' <;> simp [hc, ih]

/-- The starts behind an offset lie behind it and within the text. -/
theorem bounds_of_mem_startsFrom {offset n : Nat} {s : List Char} (h : n ∈ startsFrom offset s) :
    offset < n ∧ n ≤ offset + size s := by
  induction s generalizing offset with
  | nil => cases h
  | cons c r ih =>
    have hpos : 0 < c.utf8Size := Char.utf8Size_pos c
    rw [startsFrom] at h
    rw [size]
    split at h
    · rcases List.mem_cons.1 h with rfl | h
      · omega
      · have := ih h
        omega
    · have := ih h
      omega

/-- No line starts behind an offset and up to it. -/
theorem takeWhile_startsFrom {offset n : Nat} (h : n ≤ offset) (s : List Char) :
    (startsFrom offset s).takeWhile (· ≤ n) = [] := by
  cases hstarts : startsFrom offset s with
  | nil => rfl
  | cons k rest =>
    have hk := bounds_of_mem_startsFrom (hstarts ▸ List.mem_cons_self : k ∈ startsFrom offset s)
    exact List.takeWhile_cons_of_neg (by simp; omega)

/-- What is behind an offset has no part in its position. -/
theorem position_append {a : List Char} {n : Nat} (hn : n ≤ size a) (b : List Char) :
    (ofText (a ++ b)).position n = (ofText a).position n := by
  have htake : (ofText (a ++ b)).starts.takeWhile (· ≤ n) = (ofText a).starts.takeWhile (· ≤ n) := by
    rw [ofText, startsFrom_append, ← List.cons_append, List.takeWhile_append,
      takeWhile_startsFrom (by omega), List.append_nil]
    split
    · rename_i hall
      exact ((List.takeWhile_prefix _).eq_of_length hall).symm
    · rfl
  rw [position, position, line, line, lineStart, lineStart, htake]

/-- The line of an offset is one more than the newlines in front of it. -/
theorem line_size (a b : List Char) : (ofText (a ++ b)).line (size a) = a.count '\n' + 1 := by
  have hfront : ∀ n ∈ 0 :: startsFrom 0 a, decide (n ≤ size a) = true := by
    intro n hn
    rcases List.mem_cons.1 hn with rfl | hn
    · simp
    · have := bounds_of_mem_startsFrom hn
      simp
      omega
  rw [line, ofText, startsFrom_append, ← List.cons_append, List.takeWhile_append_of_pos hfront,
    takeWhile_startsFrom (by omega), List.append_nil, List.length_cons, length_startsFrom]

end LineIndex

end CodeSurvey.Text
