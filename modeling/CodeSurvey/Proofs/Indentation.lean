import CodeSurvey.Fact.Location
import CodeSurvey.Proofs.Lines
import CodeSurvey.Proofs.Masking
import CodeSurvey.Proofs.Positions
import CodeSurvey.Proofs.Statements
import CodeSurvey.Scan.Block
/-!
# Indented blocks

An indented block is followed line by line, with the end of the last line that counts carried along.
One line either leaves it as it is, moves it or ends the search (`indentedLines_line`), and so the
search finds the end of the last line in front of the first one that leaves the block
(`blockEnd_indentedLines`). A newline at the end of the text matters on the header's line only: without
it the end is one byte short there (`indentEnd_of_not_mem`).
-/
namespace CodeSurvey

open Text

namespace Text

/-! ## Lines with their newlines -/

theorem linesKept_append {l : List Char} (h : '\n' ∉ l) (r : List Char) :
    linesKept (l ++ '\n' :: r) = (l ++ ['\n']) :: linesKept r := by
  induction l with
  | nil => simp [linesKept]
  | cons c l ih =>
    rw [List.mem_cons, not_or] at h
    rw [List.cons_append, linesKept, if_neg (Ne.symm h.1), ih h.2]
    rfl

theorem linesKept_of_not_mem {s : List Char} (h : '\n' ∉ s) (hne : s ≠ []) : linesKept s = [s] := by
  induction s with
  | nil => exact absurd rfl hne
  | cons c r ih =>
    rw [List.mem_cons, not_or] at h
    rw [linesKept, if_neg (Ne.symm h.1)]
    cases r with
    | nil => rfl
    | cons d r => rw [ih h.2 (by simp)]

theorem size_append_newline (s : List Char) : size (s ++ ['\n']) = size s + 1 := size_append s ['\n']

theorem dropEndWhile_concat {p : Char → Bool} {c : Char} (hc : p c = true) (s : List Char) :
    dropEndWhile p (s ++ [c]) = dropEndWhile p s := by
  simp [dropEndWhile, hc]

theorem dropEndWhile_of_forall {p : Char → Bool} {s : List Char} (h : ∀ c ∈ s, p c = false) :
    dropEndWhile p s = s := by
  have hkeep : s.reverse.dropWhile p = s.reverse := by
    cases hs : s.reverse with
    | nil => rfl
    | cons c r =>
      have hc : c ∈ s := List.mem_reverse.1 (hs ▸ List.mem_cons_self)
      exact List.dropWhile_cons_of_neg (by simp [h c hc])
  rw [dropEndWhile, hkeep, List.reverse_reverse]

end Text

namespace Scan

/-! ## Lines of a block -/

/-- A line of a text, without its newline, and the offset at which it starts. -/
structure PlacedLine where
  start : Nat
  text : List Char

namespace PlacedLine

/-- Where the text of a line ends. -/
def stop (l : PlacedLine) : Nat := l.start + size l.text

/-- Whether there are only spaces and tabs on a line. -/
def isBlank (l : PlacedLine) : Bool := l.text.all isPad

/-- The width of the spaces and tabs in front of a line. -/
def width (l : PlacedLine) : Nat := size (l.text.takeWhile isPad)

/-- Whether a line is not blank and not indented deeper than a block's header. -/
def leaves (indent : Nat) (l : PlacedLine) : Bool := !l.isBlank && l.width ≤ indent

/-- A line that closes a block: indented like the header, it is the word `end`, alone or with a space
or a dot behind it. -/
def Closes (indent : Nat) (l : PlacedLine) : Prop :=
  l.width = indent ∧ (l.text.dropWhile isPad = "end".toList ∨
    "end ".toList <+: l.text.dropWhile isPad ∨ "end.".toList <+: l.text.dropWhile isPad)

instance (indent : Nat) (l : PlacedLine) : Decidable (l.Closes indent) :=
  inferInstanceAs (Decidable (_ ∧ _))

end PlacedLine

/-- Lines one behind the other, the first at an offset. -/
def placed (offset : Nat) : List (List Char) → List PlacedLine
  | [] => []
  | l :: ls => ⟨offset, l⟩ :: placed (offset + size l + 1) ls

/-- The lines of a text that starts at an offset. -/
def linesAt (offset : Nat) (s : List Char) : List PlacedLine := placed offset (splitAt '\n' s)

theorem linesAt_append {l : List Char} (h : '\n' ∉ l) (offset : Nat) (r : List Char) :
    linesAt offset (l ++ '\n' :: r) = ⟨offset, l⟩ :: linesAt (offset + size l + 1) r := by
  rw [linesAt, FileSystem.splitAt_append, FileSystem.splitAt_of_not_mem h]
  rfl

theorem linesAt_of_not_mem {s : List Char} (h : '\n' ∉ s) (offset : Nat) :
    linesAt offset s = [⟨offset, s⟩] := by
  rw [linesAt, FileSystem.splitAt_of_not_mem h]
  rfl

/-- Each line stands in the text where it says. -/
theorem occurs_of_mem_linesAt {a s : List Char} {l : PlacedLine} (h : l ∈ linesAt (size a) s) :
    Occurs (a ++ s) l.start l.text ∧ '\n' ∉ l.text := by
  induction s using line_induction generalizing a with
  | last s hs =>
    rw [linesAt_of_not_mem hs, List.mem_singleton] at h
    subst h
    exact ⟨⟨a, [], by simp, rfl⟩, hs⟩
  | line t r ht ih =>
    rw [linesAt_append ht] at h
    rcases List.mem_cons.1 h with rfl | h
    · exact ⟨⟨a, '\n' :: r, rfl, rfl⟩, ht⟩
    · have hsize : size a + size t + 1 = size (a ++ (t ++ ['\n'])) := by
        rw [size_append, size_append_newline, Nat.add_assoc]
      rw [hsize] at h
      have hs : a ++ (t ++ '\n' :: r) = a ++ (t ++ ['\n']) ++ r := by simp
      rw [hs]
      exact ih h

theorem le_start_of_mem_placed {offset : Nat} {ls : List (List Char)} {l : PlacedLine}
    (h : l ∈ placed offset ls) : offset ≤ l.start := by
  induction ls generalizing offset with
  | nil => cases h
  | cons t ls ih =>
    rcases List.mem_cons.1 h with rfl | h
    · exact Nat.le_refl _
    · have := ih h
      omega

theorem pairwise_placed (offset : Nat) (ls : List (List Char)) :
    (placed offset ls).Pairwise fun a b => a.stop < b.start := by
  induction ls generalizing offset with
  | nil => exact List.Pairwise.nil
  | cons t ls ih =>
    refine List.pairwise_cons.2 ⟨fun l hl => ?_, ih _⟩
    have := le_start_of_mem_placed hl
    simp only [PlacedLine.stop]
    omega

/-! ## The end of a block -/

/-- The lines of a block that are not blank. -/
def blockLines (indent : Nat) (ls : List PlacedLine) : List PlacedLine :=
  (ls.takeWhile fun l => !l.leaves indent).filter fun l => !l.isBlank

/-- Where a block ends whose header's line ends at `header` and is followed by some lines. -/
structure BlockEnd (indent header : Nat) (ls : List PlacedLine) (stop : Nat) : Prop where
  /-- If the first line that leaves the block closes it, the block ends with that line. -/
  closed : ∀ l, ls.find? (·.leaves indent) = some l → l.Closes indent → stop = l.stop
  /-- Otherwise it ends with the last line in front of it that is not blank, or with the header. -/
  last : (∀ l, ls.find? (·.leaves indent) = some l → ¬ l.Closes indent) →
    stop = (blockLines indent ls).getLast?.elim header PlacedLine.stop

namespace BlockEnd

variable {indent header stop : Nat} {l : PlacedLine} {ls : List PlacedLine}

theorem nil : BlockEnd indent header [] header := ⟨nofun, fun _ => rfl⟩

theorem find?_of_stays (hl : l.leaves indent = false) (ls : List PlacedLine) :
    (l :: ls).find? (·.leaves indent) = ls.find? (·.leaves indent) :=
  List.find?_cons_of_neg (by simp [hl])

theorem find?_of_leaves (hl : l.leaves indent = true) (ls : List PlacedLine) :
    (l :: ls).find? (·.leaves indent) = some l := List.find?_cons_of_pos hl

/-- A blank line is passed over. -/
theorem blank (hl : l.isBlank = true) (h : BlockEnd indent header ls stop) :
    BlockEnd indent header (l :: ls) stop := by
  have hstays : l.leaves indent = false := by simp [PlacedLine.leaves, hl]
  have hfind := find?_of_stays hstays ls
  have hlines : blockLines indent (l :: ls) = blockLines indent ls := by
    simp [blockLines, hstays, hl]
  exact ⟨hfind ▸ h.closed, hfind ▸ hlines ▸ h.last⟩

/-- A line that is indented deeper moves the end. -/
theorem deeper (hl : l.isBlank = false) (hwidth : indent < l.width)
    (h : BlockEnd indent l.stop ls stop) : BlockEnd indent header (l :: ls) stop := by
  have hstays : l.leaves indent = false := by simp [PlacedLine.leaves, hwidth]
  have hfind := find?_of_stays hstays ls
  have hlines : blockLines indent (l :: ls) = l :: blockLines indent ls := by
    simp [blockLines, hstays, hl]
  refine ⟨hfind ▸ h.closed, fun hopen => ?_⟩
  rw [hfind] at hopen
  rw [h.last hopen, hlines, List.getLast?_cons]
  cases (blockLines indent ls).getLast? <;> rfl

/-- A closing line is the end. -/
theorem close (hl : l.leaves indent = true) (hclose : l.Closes indent) :
    BlockEnd indent header (l :: ls) l.stop := by
  refine ⟨fun x hx _ => ?_, fun hopen => absurd hclose (hopen l (find?_of_leaves hl ls))⟩
  rw [find?_of_leaves hl, Option.some_inj] at hx
  rw [hx]

/-- Any other line that leaves the block stands behind the end. -/
theorem leave (hl : l.leaves indent = true) (hopen : ¬ l.Closes indent) :
    BlockEnd indent header (l :: ls) header := by
  refine ⟨fun x hx hclose => ?_, fun _ => by simp [blockLines, hl]⟩
  rw [find?_of_leaves hl, Option.some_inj] at hx
  exact absurd (hx ▸ hclose) hopen

/-- A block ends with its closing line, or else with its last line. -/
theorem closed_or_last (h : BlockEnd indent header ls stop) :
    (∃ l, ls.find? (·.leaves indent) = some l ∧ stop = l.stop) ∨
      stop = (blockLines indent ls).getLast?.elim header PlacedLine.stop := by
  by_cases hclosed : ∃ l, ls.find? (·.leaves indent) = some l ∧ l.Closes indent
  · obtain ⟨l, hl, hclose⟩ := hclosed
    exact .inl ⟨l, hl, h.closed l hl hclose⟩
  · exact .inr (h.last fun l hl hclose => hclosed ⟨l, hl, hclose⟩)

/-- A block ends with a line that is not blank. -/
theorem eq_header_or_stop (h : BlockEnd indent header ls stop) :
    stop = header ∨ ∃ l ∈ ls, l.isBlank = false ∧ stop = l.stop := by
  rcases h.closed_or_last with ⟨l, hl, hstop⟩ | hstop
  · have hleaves := List.find?_some hl
    rw [PlacedLine.leaves, Bool.and_eq_true, Bool.not_eq_true'] at hleaves
    exact .inr ⟨l, List.mem_of_find?_eq_some hl, hleaves.1, hstop⟩
  · cases hend : (blockLines indent ls).getLast? with
    | none => exact .inl (by rw [hstop, hend]; rfl)
    | some l =>
      obtain ⟨hmem, hblank⟩ := List.mem_filter.1 (List.mem_of_getLast? hend)
      refine .inr ⟨l, (List.takeWhile_sublist _).mem hmem, by simpa using hblank, ?_⟩
      rw [hstop, hend]
      rfl

/-- A block ends behind each of its lines. -/
theorem stop_le (h : BlockEnd indent header ls stop)
    (hls : ls.Pairwise fun a b => a.stop < b.start) : ∀ l ∈ blockLines indent ls, l.stop ≤ stop := by
  have hle {a b : PlacedLine} (hab : a.stop < b.start) : a.stop ≤ b.stop :=
    Nat.le_of_lt (Nat.lt_of_lt_of_le hab (Nat.le_add_right _ _))
  intro l hl
  rcases h.closed_or_last with ⟨m, hm, hstop⟩ | hstop
  · obtain ⟨hleaves, front, back, rfl, hfront⟩ := List.find?_eq_some_iff_append.1 hm
    have htake : (front ++ m :: back).takeWhile (fun l => !l.leaves indent) = front := by
      rw [List.takeWhile_append_of_pos (by simpa using hfront),
        List.takeWhile_cons_of_neg (by simp [hleaves]), List.append_nil]
    have hmem := (List.mem_filter.1 hl).1
    rw [htake] at hmem
    rw [hstop]
    exact hle ((List.pairwise_append.1 hls).2.2 l hmem m List.mem_cons_self)
  · have hordered : (blockLines indent ls).Pairwise fun a b => a.stop < b.start :=
      hls.sublist (List.filter_sublist.trans (List.takeWhile_sublist _))
    rcases List.eq_nil_or_concat' (blockLines indent ls) with hnil | ⟨front, m, hfront⟩
    · rw [hnil] at hl
      cases hl
    · rw [hfront, List.getLast?_concat, Option.elim] at hstop
      rw [hfront] at hl hordered
      rw [hstop]
      rcases List.mem_append.1 hl with hl | hl
      · exact hle ((List.pairwise_append.1 hordered).2.2 l hl m List.mem_cons_self)
      · rw [List.mem_singleton.1 hl]

end BlockEnd

theorem closesBlock_iff {body : List Char} : closesBlock body = true ↔ body = "end".toList ∨
    "end ".toList <+: body ∨ "end.".toList <+: body := by
  simp only [closesBlock, Bool.or_eq_true, beq_iff_eq, startsWith_iff, or_assoc]

/-- **One line of a block**, with or without its newline. -/
theorem indentedLines_line {l line : List Char} (hl : '\n' ∉ l) (hr : '\r' ∉ l)
    (hline : line = l ∨ line = l ++ ['\n']) {indent offset header : Nat} {ls : List (List Char)}
    {later : List PlacedLine}
    (hlater : ∀ stop, BlockEnd indent stop later (indentedLines indent (offset + size line) stop ls)) :
    BlockEnd indent header (⟨offset, l⟩ :: later) (indentedLines indent offset header (line :: ls)) := by
  have hcontent : dropEndWhile (fun c => c == '\n' || c == '\r') line = l := by
    have hkeep : dropEndWhile (fun c => c == '\n' || c == '\r') l = l := by
      refine dropEndWhile_of_forall fun c hc => ?_
      have hn : c ≠ '\n' := fun h => hl (h ▸ hc)
      have hr : c ≠ '\r' := fun h => hr (h ▸ hc)
      simp [hn, hr]
    rcases hline with rfl | rfl
    · exact hkeep
    · rw [dropEndWhile_concat (by simp), hkeep]
  have hsize : size l = size (l.takeWhile isPad) + size (l.dropWhile isPad) := by
    rw [← size_append, List.takeWhile_append_dropWhile]
  have hwidth : size l - size (l.dropWhile isPad) = PlacedLine.width ⟨offset, l⟩ := by
    show _ = size (l.takeWhile isPad)
    omega
  have hblank : (l.dropWhile isPad).isEmpty = PlacedLine.isBlank ⟨offset, l⟩ := by
    rw [Bool.eq_iff_iff, List.isEmpty_iff, List.dropWhile_eq_nil_iff]
    exact List.all_eq_true.symm
  rw [indentedLines]
  simp only [hcontent, hwidth, hblank]
  split
  · rename_i hb
    exact (hlater header).blank hb
  · rename_i hb
    replace hb : PlacedLine.isBlank ⟨offset, l⟩ = false := by simpa using hb
    split
    · rename_i hle
      have hleaves : PlacedLine.leaves indent ⟨offset, l⟩ = true := by
        simp [PlacedLine.leaves, hb, hle]
      split
      · rename_i hclose
        rw [Bool.and_eq_true, decide_eq_true_eq, closesBlock_iff] at hclose
        exact .close hleaves hclose
      · rename_i hclose
        rw [Bool.and_eq_true, decide_eq_true_eq, closesBlock_iff] at hclose
        exact .leave hleaves hclose
    · rename_i hgt
      exact (hlater _).deeper hb (Nat.lt_of_not_le hgt)

/-- **The search for the end of a block** finds it. -/
theorem blockEnd_indentedLines {s : List Char} (hs : '\r' ∉ s) (indent offset header : Nat) :
    BlockEnd indent header (linesAt offset s) (indentedLines indent offset header (linesKept s)) := by
  induction s using line_induction generalizing offset header with
  | last s hn =>
    rw [linesAt_of_not_mem hn]
    rcases eq_or_ne s [] with rfl | hne
    · exact BlockEnd.nil.blank rfl
    · rw [linesKept_of_not_mem hn hne]
      exact indentedLines_line hn hs (.inl rfl) fun stop => .nil
  | line l r hn ih =>
    have hl : '\r' ∉ l := fun h => hs (List.mem_append_left _ h)
    have hr : '\r' ∉ r := fun h => hs (List.mem_append_right _ (List.mem_cons_of_mem _ h))
    rw [linesAt_append hn, linesKept_append hn]
    refine indentedLines_line hn hl (.inr rfl) fun stop => ?_
    rw [size_append_newline, ← Nat.add_assoc]
    exact ih hr _ _

/-- The search in a text starts with the line below the header's. -/
theorem indentEnd_append {line : List Char} (hline : '\n' ∉ line) (before below : List Char)
    (indent : Nat) :
    indentEnd (before ++ (line ++ '\n' :: below)) (size before) indent =
      indentedLines indent (size before + size line + 1) (size before + size line) (linesKept below) := by
  have hne : ∀ c ∈ line, (c != '\n') = true := by
    intro c hc
    simpa using fun h : c = '\n' => hline (h ▸ hc)
  have htake : (line ++ '\n' :: below).takeWhile (· != '\n') = line := by
    rw [List.takeWhile_append_of_pos hne, List.takeWhile_cons_of_neg (by simp), List.append_nil]
  have hdrop : (line ++ '\n' :: below).drop (line.length + 1) = below := by
    rw [← List.drop_drop, List.drop_left]
    rfl
  have hlen : ¬ line.length = (line ++ '\n' :: below).length := by simp
  unfold indentEnd
  simp only [dropBytes_size_append, htake, hdrop, if_neg hlen, Nat.add_sub_cancel]
  rw [Nat.max_eq_left (Nat.le_add_right _ _)]

/-- **An indented block ends with its last line.** For every text and every place in it with a newline
somewhere behind, let a block's header end there. Of the lines below the header's that are not blank,
the first that is not indented deeper leaves the block. If it is a closing line the block ends with it,
and otherwise with the last line in front of it that is not blank, which is the header's own when there
is none. So all lines of the block are covered, whatever blank lines stand between them, and no blank
line is the last one. -/
theorem indentEnd_covers_block {line below : List Char} (hline : '\n' ∉ line) (hbelow : '\r' ∉ below)
    (before : List Char) (indent : Nat) :
    let s := before ++ (line ++ '\n' :: below)
    let header := size before + size line
    let lines := linesAt (header + 1) below
    let stop := indentEnd s (size before) indent
    (∀ l ∈ lines, Occurs s l.start l.text ∧ '\n' ∉ l.text) ∧
    BlockEnd indent header lines stop ∧
    (∀ l ∈ blockLines indent lines, l.stop ≤ stop) ∧
    (stop = header ∨ ∃ l ∈ lines, l.isBlank = false ∧ stop = l.stop) := by
  intro s header lines stop
  have hblock : BlockEnd indent header lines stop := by
    have hstop : stop = _ := indentEnd_append hline before below indent
    rw [hstop]
    exact blockEnd_indentedLines hbelow indent (header + 1) header
  refine ⟨fun l hl => ?_, hblock, hblock.stop_le (pairwise_placed _ _), hblock.eq_header_or_stop⟩
  have hfront : header + 1 = size (before ++ (line ++ ['\n'])) := by
    rw [size_append, size_append_newline, ← Nat.add_assoc]
  have hs : s = before ++ (line ++ ['\n']) ++ below := by simp [s]
  rw [hs]
  exact occurs_of_mem_linesAt (hfront ▸ hl)

/-- A closed block with a blank line in it. -/
theorem indentEnd_covers_closed :
    let below := "  a\n\n  b\nend\n".toList
    '\n' ∉ ([] : List Char) ∧ '\r' ∉ below ∧
      indentEnd ("def f".toList ++ ([] ++ '\n' :: below)) 5 0 = 18 := by
  intro below
  have hline : '\n' ∉ ([] : List Char) := by decide
  have hbelow : '\r' ∉ below := by decide
  obtain ⟨-, hblock, -⟩ := indentEnd_covers_block hline hbelow "def f".toList 0
  have hfind : (linesAt 6 below).find? (·.leaves 0) = some ⟨15, "end".toList⟩ := rfl
  exact ⟨hline, hbelow, hblock.closed ⟨15, "end".toList⟩ hfind (by decide)⟩

-- a block that another line leaves, with a blank line behind it
example : indentEnd "def f():\n  a\n\nb\n".toList 8 0 = 12 := by decide

/-! ## Bounds -/

/-- A header's line without a newline ends the text, and the answer is one short of it. -/
theorem indentEnd_of_not_mem {rest : List Char} (hrest : '\n' ∉ rest) (before : List Char)
    (indent : Nat) :
    indentEnd (before ++ rest) (size before) indent = max (size (before ++ rest) - 1) (size before) := by
  have htake : rest.takeWhile (· != '\n') = rest :=
    List.takeWhile_eq_self_iff.2 fun c hc => by simpa using fun h : c = '\n' => hrest (h ▸ hc)
  have hdrop : rest.drop (rest.length + 1) = [] := List.drop_eq_nil_of_le (Nat.le_succ _)
  unfold indentEnd
  simp only [dropBytes_size_append, htake, hdrop, if_true]
  rfl

theorem indentedLines_bounds {offset stop : Nat} (h : stop ≤ offset) (indent : Nat)
    (ls : List (List Char)) :
    stop ≤ indentedLines indent offset stop ls ∧
      indentedLines indent offset stop ls ≤ offset + size ls.flatten := by
  induction ls generalizing offset stop with
  | nil => exact ⟨Nat.le_refl _, by simpa [indentedLines, size] using h⟩
  | cons line ls ih =>
    rw [indentedLines, List.flatten_cons, size_append]
    dsimp only
    have hcontent := (Occurs.of_isPrefix
      (prefix_dropEndWhile (fun c => c == '\n' || c == '\r') line)).size_le
    split
    · have := ih (Nat.le_trans h (Nat.le_add_right offset (size line)))
      omega
    · split
      · split <;> omega
      · have hle : offset + size (dropEndWhile (fun c => c == '\n' || c == '\r') line) ≤
            offset + size line := by omega
        have := ih hle
        omega

theorem indentEnd_bounds (before rest : List Char) (indent : Nat) :
    size before ≤ indentEnd (before ++ rest) (size before) indent ∧
      indentEnd (before ++ rest) (size before) indent ≤ size (before ++ rest) := by
  by_cases hmem : '\n' ∈ rest
  · obtain ⟨line, below, rfl, hline⟩ := List.eq_append_cons_of_mem hmem
    have hbounds := indentedLines_bounds (Nat.le_succ (size before + size line)) indent (linesKept below)
    rw [flatten_linesKept] at hbounds
    have hsize : size (before ++ (line ++ '\n' :: below)) = size before + size line + 1 + size below := by
      have hnewline : size ('\n' :: below) = 1 + size below := rfl
      rw [size_append, size_append, hnewline]
      omega
    rw [indentEnd_append hline, hsize]
    exact ⟨Nat.le_trans (Nat.le_add_right _ _) hbounds.1, hbounds.2⟩
  · rw [indentEnd_of_not_mem hmem, size_append]
    omega

/-! ## The last newline -/

/-- The newline of the last line changes nothing below the header's line. -/
theorem indentedLines_newline {s : List Char} (hne : s ≠ []) (hlast : s.getLast? ≠ some '\n')
    (indent offset stop : Nat) :
    indentedLines indent offset stop (linesKept (s ++ ['\n'])) =
      indentedLines indent offset stop (linesKept s) := by
  induction s using line_induction generalizing offset stop with
  | last s hs =>
    rw [linesKept_append hs, linesKept_of_not_mem hs hne]
    simp [linesKept, indentedLines, dropEndWhile_concat]
  | line l r hl ih =>
    have hr : r ≠ [] := by
      rintro rfl
      exact hlast (by simp)
    have hrlast : r.getLast? ≠ some '\n' := by
      rwa [List.getLast?_append_of_ne_nil _ (by simp), List.getLast?_cons_of_ne_nil hr] at hlast
    rw [List.append_assoc, List.cons_append, linesKept_append hl, linesKept_append hl, indentedLines,
      indentedLines]
    simp only [ih hr hrlast]

/-- The last byte of a text whose last character is no newline is none either. -/
theorem getElem?_encode_ne_newline {s : List Char} (hlast : s.getLast? ≠ some '\n') :
    (Utf8.encode s)[size s - 1]? ≠ some 10 := by
  rcases List.eq_nil_or_concat' s with rfl | ⟨front, c, rfl⟩
  · exact nofun
  · intro hbyte
    have hbytes : Utf8.encode (front ++ [c]) = Utf8.encode front ++ Utf8.encodeChar c := by
      rw [Utf8.encode, List.flatMap_append, List.flatMap_singleton]
      rfl
    have hne : Utf8.encodeChar c ≠ [] :=
      List.ne_nil_of_length_pos (Utf8.length_encodeChar c ▸ Char.utf8Size_pos c)
    rw [← Utf8.length_encode, ← List.getLast?_eq_getElem?, hbytes,
      List.getLast?_append_of_ne_nil _ hne] at hbyte
    rw [Utf8.eq_newline_of_mem (List.mem_of_getLast? hbyte), List.getLast?_concat] at hlast
    exact hlast rfl

/-- A newline behind the header: the last one does not matter. -/
theorem indentEnd_newline_of_mem {before rest : List Char} (hmem : '\n' ∈ rest)
    (hlast : (before ++ rest).getLast? ≠ some '\n') (indent : Nat) :
    indentEnd (before ++ (rest ++ ['\n'])) (size before) indent =
      indentEnd (before ++ rest) (size before) indent := by
  obtain ⟨line, below, rfl, hline⟩ := List.eq_append_cons_of_mem hmem
  have hne : below ≠ [] := by
    rintro rfl
    exact hlast (by simp)
  have hbelow : below.getLast? ≠ some '\n' := by
    rwa [List.getLast?_append_of_ne_nil _ (by simp), List.getLast?_append_of_ne_nil _ (by simp),
      List.getLast?_cons_of_ne_nil hne] at hlast
  rw [List.append_assoc, List.cons_append, indentEnd_append hline, indentEnd_append hline,
    indentedLines_newline hne hbelow]

theorem indentEnd_newline_of_not_mem {rest : List Char} (hrest : '\n' ∉ rest) (before : List Char)
    (indent : Nat) :
    indentEnd (before ++ (rest ++ ['\n'])) (size before) indent = size (before ++ rest) := by
  rw [indentEnd_append hrest, size_append]
  rfl

/-- How many bytes the end of a block is short without a newline at the end of the text: one if the
header's line is the last one and goes on behind the header. -/
def shortfall (rest : List Char) : Nat := if rest = [] ∨ '\n' ∈ rest then 0 else 1

/-- Where the end moves, it moves from the last byte to the end of the text. -/
theorem indentEnd_newline {before rest : List Char} (hlast : (before ++ rest).getLast? ≠ some '\n')
    (indent : Nat) :
    let stop := indentEnd (before ++ rest) (size before) indent
    indentEnd (before ++ (rest ++ ['\n'])) (size before) indent = stop + shortfall rest ∧
      (shortfall rest = 0 ∨
        shortfall rest = 1 ∧ stop = size (before ++ rest) - 1 ∧ 0 < size (before ++ rest)) := by
  intro stop
  by_cases hmem : '\n' ∈ rest
  · have hzero : shortfall rest = 0 := if_pos (.inr hmem)
    rw [hzero]
    exact ⟨indentEnd_newline_of_mem hmem hlast indent, .inl rfl⟩
  · have hstop : stop = max (size (before ++ rest) - 1) (size before) :=
      indentEnd_of_not_mem hmem before indent
    rw [indentEnd_newline_of_not_mem hmem]
    rw [size_append] at hstop ⊢
    by_cases hrest : rest = []
    · have hzero : shortfall rest = 0 := if_pos (.inl hrest)
      have hnone : size rest = 0 := by
        rw [hrest]
        rfl
      exact ⟨by omega, .inl hzero⟩
    · have hone : shortfall rest = 1 := if_neg (by simp [hrest, hmem])
      have hpos : 0 < size rest := Nat.pos_of_ne_zero fun h => hrest (Comment.size_eq_zero h)
      exact ⟨by omega, .inr ⟨hone, by omega, by omega⟩⟩

/-- **A last newline moves the end of a block only on the header's own line.** A text without a newline
at its end and the same text with one give the same end, unless the header's line is the last one and
goes on behind the header: then the end is one byte short without the newline. The lines of a
declaration that starts anywhere in front of the end of its header are the same in any case, and only
its last column moves. -/
theorem indentEnd_final_newline {before rest : List Char}
    (hlast : (before ++ rest).getLast? ≠ some '\n') (indent : Nat) :
    indentEnd (before ++ rest ++ ['\n']) (size before) indent =
      indentEnd (before ++ rest) (size before) indent + shortfall rest ∧
    ∀ start ≤ size before,
      let locate (s : List Char) : Location :=
        .ofOffsets (LineIndex.ofText s) start (indentEnd s (size before) indent)
      locate (before ++ rest ++ ['\n']) =
        { locate (before ++ rest) with
          endColumn := (locate (before ++ rest)).endColumn + shortfall rest } := by
  obtain ⟨hmoves, hshort⟩ := indentEnd_newline hlast indent
  rw [← List.append_assoc] at hmoves
  refine ⟨hmoves, fun start hstart => ?_⟩
  intro locate
  have hle := (indentEnd_bounds before rest indent).2
  have hstart' : start ≤ size (before ++ rest) := by
    rw [size_append]
    omega
  have hend : (LineIndex.ofText (before ++ rest ++ ['\n'])).position
        (indentEnd (before ++ rest ++ ['\n']) (size before) indent) =
      ((locate (before ++ rest)).endLine, (locate (before ++ rest)).endColumn + shortfall rest) := by
    rcases hshort with hzero | ⟨hone, hstop, hpos⟩
    · rw [hmoves, hzero, Nat.add_zero, Nat.add_zero, LineIndex.position_append hle]
      rfl
    · rw [hmoves, hone, LineIndex.position_append (by omega)]
      exact LineIndex.position_succ (hstop ▸ getElem?_encode_ne_newline hlast)
  show Location.ofOffsets _ _ _ = _
  rw [Location.ofOffsets, LineIndex.position_append hstart', hend]
  rfl

/-- A block below its header's line, in a text that ends with the block. -/
theorem indentEnd_final_newline_below :
    let s := "def f()".toList ++ ":\n  é".toList
    s.getLast? ≠ some '\n' ∧ indentEnd (s ++ ['\n']) 7 0 = indentEnd s 7 0 := by
  intro s
  have hlast : s.getLast? ≠ some '\n' := by decide
  obtain ⟨hsame, -⟩ := indentEnd_final_newline hlast 0
  exact ⟨hlast, hsame⟩

/-- A function on the last line: its end is one byte short when there is no newline behind it. -/
theorem missing_newline_shortens :
    let s := "def f(a):".toList
    let ends (source : List Char) := ((ofSource Language.Python.table source).functions [] []).map
      fun f => (f.location.endLine, f.location.endColumn)
    indentEnd s 7 0 = 8 ∧ indentEnd (s ++ ['\n']) 7 0 = 9 ∧
      ends s = [(1, 9)] ∧ ends (s ++ ['\n']) = [(1, 10)] := by
  decide +kernel

end Scan

end CodeSurvey
