import CodeSurvey.Proofs.Utf8
import CodeSurvey.Text.LineIndex
import Mathlib.Data.List.Basic
import Mathlib.Data.Prod.Lex
import Mathlib.Order.Bounds.Basic
/-!
# Positions and offsets

A line index is made from characters and asked for bytes. The two meet in `breaks`, the offsets just
behind the newline bytes: they are the line starts (`startsFrom_eq_breaks`), and those up to an offset
are the breaks of the bytes before it (`takeWhile_breaks`). So the line of an offset counts newline bytes
and its start is the last break, whichever way a search among the starts ends (`exists_unique_fits`), and a
position is as good as its offset (`position_inverts`).
-/
namespace CodeSurvey

namespace Text

/-! ## Line starts among bytes -/

/-- The offsets just behind the newlines of bytes that begin at `offset`. -/
def breaks (offset : Nat) : List UInt8 → List Nat
  | [] => []
  | b :: r => if b = 10 then (offset + 1) :: breaks (offset + 1) r else breaks (offset + 1) r

theorem breaks_append (offset : Nat) (bs cs : List UInt8) :
    breaks offset (bs ++ cs) = breaks offset bs ++ breaks (offset + bs.length) cs := by
  induction bs generalizing offset with
  | nil => rfl
  | cons b r ih =>
    rw [List.cons_append, breaks, breaks, ih, List.length_cons, Nat.add_right_comm, Nat.add_assoc]
    split <;> rfl

theorem breaks_of_not_mem {bs : List UInt8} (h : 10 ∉ bs) (offset : Nat) : breaks offset bs = [] := by
  induction bs generalizing offset with
  | nil => rfl
  | cons b r ih =>
    rw [List.mem_cons, not_or] at h
    rw [breaks, if_neg (Ne.symm h.1), ih h.2]

theorem length_breaks (offset : Nat) (bs : List UInt8) :
    (breaks offset bs).length = bs.count 10 := by
  induction bs generalizing offset with
  | nil => rfl
  | cons b r ih =>
    rw [breaks, List.count_cons]
    by_cases hb : b = 10 <;> simp [hb, ih]

theorem mem_breaks {offset n : Nat} {bs : List UInt8} :
    n ∈ breaks offset bs ↔ ∃ i, bs[i]? = some 10 ∧ n = offset + i + 1 := by
  induction bs generalizing offset with
  | nil => simp [breaks]
  | cons b r ih =>
    -- a break is behind the first byte, or behind one of the others
    have hsplit : (∃ i, (b :: r)[i]? = some 10 ∧ n = offset + i + 1) ↔
        (b = 10 ∧ n = offset + 1) ∨ n ∈ breaks (offset + 1) r := by
      rw [ih]
      constructor
      · rintro ⟨i, hi, rfl⟩
        cases i with
        | zero => exact .inl ⟨by simpa using hi, rfl⟩
        | succ i => exact .inr ⟨i, by simpa using hi, by omega⟩
      · rintro (⟨rfl, rfl⟩ | ⟨i, hi, rfl⟩)
        · exact ⟨0, rfl, rfl⟩
        · exact ⟨i + 1, by simpa using hi, by omega⟩
    rw [hsplit, breaks]
    by_cases hb : b = 10 <;> simp [hb]

theorem pairwise_breaks (offset : Nat) (bs : List UInt8) :
    (breaks offset bs).Pairwise (· < ·) := by
  induction bs generalizing offset with
  | nil => exact List.Pairwise.nil
  | cons b r ih =>
    rw [breaks]
    split
    · refine List.pairwise_cons.2 ⟨fun n hn => ?_, ih _⟩
      obtain ⟨i, -, rfl⟩ := mem_breaks.1 hn
      omega
    · exact ih _

/-- **The breaks up to an offset** are those of the bytes before it. -/
theorem takeWhile_breaks (start offset : Nat) (bs : List UInt8) :
    (breaks start bs).takeWhile (· ≤ offset) = breaks start (bs.take (offset - start)) := by
  induction bs generalizing start with
  | nil => simp [breaks]
  | cons b r ih =>
    rcases Nat.lt_or_ge start offset with hlt | hge
    · obtain ⟨k, hk⟩ : ∃ k, offset - start = k + 1 := ⟨offset - start - 1, by omega⟩
      have hrest : offset - (start + 1) = k := by omega
      rw [hk, List.take_succ_cons, breaks, breaks, ← hrest, ← ih]
      split
      · exact List.takeWhile_cons_of_pos (by simp; omega)
      · rfl
    · -- all breaks lie behind the offset
      rw [Nat.sub_eq_zero_of_le hge, List.take_zero]
      cases hbreaks : breaks start (b :: r) with
      | nil => rfl
      | cons n ns =>
        obtain ⟨i, -, rfl⟩ := mem_breaks.1 (hbreaks ▸ List.mem_cons_self : n ∈ breaks start (b :: r))
        exact List.takeWhile_cons_of_neg (by simp; omega)

/-- Whether a line starts at an offset: the first byte of all, or one behind a newline. -/
def StartsLine (bytes : List UInt8) (n : Nat) : Prop := n = 0 ∨ ∃ i, bytes[i]? = some 10 ∧ n = i + 1

namespace LineIndex

/-- **The line starts of a text** are the breaks of its bytes. -/
theorem startsFrom_eq_breaks (offset : Nat) (s : List Char) :
    startsFrom offset s = breaks offset (Utf8.encode s) := by
  induction s generalizing offset with
  | nil => rfl
  | cons c r ih =>
    have hbytes : Utf8.encode (c :: r) = Utf8.encodeChar c ++ Utf8.encode r := rfl
    have hlen : (Utf8.encodeChar c).length = c.utf8Size := String.length_utf8EncodeChar c
    rw [startsFrom, hbytes, breaks_append, hlen, ← ih]
    by_cases hc : c = '\n'
    · subst hc
      rfl
    · have hnot : 10 ∉ Utf8.encodeChar c := fun hmem => hc (Utf8.eq_newline_of_mem hmem)
      rw [if_neg hc, breaks_of_not_mem hnot, List.nil_append]

theorem mem_starts {s : List Char} {n : Nat} :
    n ∈ (ofText s).starts ↔ StartsLine (Utf8.encode s) n := by
  rw [ofText, List.mem_cons, startsFrom_eq_breaks, mem_breaks, StartsLine]
  simp only [Nat.zero_add]

theorem pairwise_starts (s : List Char) : (ofText s).starts.Pairwise (· < ·) := by
  refine List.pairwise_cons.2 ⟨fun n hn => ?_, ?_⟩
  · rw [startsFrom_eq_breaks] at hn
    obtain ⟨i, -, rfl⟩ := mem_breaks.1 hn
    omega
  · rw [startsFrom_eq_breaks]
    exact pairwise_breaks 0 _

theorem line_eq_count (s : List Char) (offset : Nat) :
    (ofText s).line offset = ((Utf8.encode s).take offset).count 10 + 1 := by
  rw [line, ofText, List.takeWhile_cons_of_pos (by simp), startsFrom_eq_breaks, takeWhile_breaks,
    List.length_cons, length_breaks, Nat.sub_zero]

end LineIndex

/-! ## Searching among ascending numbers -/

/-- How a search ends: with the index of what was looked for, or with the one where it would have to
stand. -/
inductive Outcome where
  | found (i : Nat)
  | gap (i : Nat)

namespace Outcome

variable {l : List Nat} {x i : Nat}

/-- What a search promises about its end. -/
def Fits (l : List Nat) (x : Nat) : Outcome → Prop
  | .found i => l[i]? = some x
  | .gap i => x ∉ l ∧ i ≤ l.length ∧ (l.take i ++ x :: l.drop i).Pairwise (· ≤ ·)

/-- The index of the last number that is not greater, if there is one. -/
def floor? : Outcome → Option Nat
  | .found i => some i
  | .gap 0 => none
  | .gap (i + 1) => some i

theorem takeWhile_of_split {a b : List Nat} (ha : ∀ n ∈ a, n ≤ x) (hb : ∀ n ∈ b, x < n) :
    (a ++ b).takeWhile (· ≤ x) = a := by
  have hnone : b.takeWhile (· ≤ x) = [] := by
    cases b with
    | nil => rfl
    | cons n ns =>
      have hn := hb n List.mem_cons_self
      exact List.takeWhile_cons_of_neg (by simpa using hn)
  rw [List.takeWhile_append_of_pos (by simpa using ha), hnone, List.append_nil]

/-- Ascending numbers split at any number. -/
theorem exists_split (hl : l.Pairwise (· < ·)) (x : Nat) :
    ∃ a b, l = a ++ b ∧ (∀ n ∈ a, n ≤ x) ∧ ∀ n ∈ b, x < n := by
  induction l with
  | nil => exact ⟨[], [], rfl, by simp, by simp⟩
  | cons m l ih =>
    obtain ⟨hm, hl⟩ := List.pairwise_cons.1 hl
    rcases Nat.lt_or_ge x m with hlt | hge
    · refine ⟨[], m :: l, rfl, by simp, List.forall_mem_cons.2 ⟨hlt, fun n hn => ?_⟩⟩
      exact Nat.lt_trans hlt (hm n hn)
    · obtain ⟨a, b, rfl, ha, hb⟩ := ih hl
      exact ⟨m :: a, b, rfl, List.forall_mem_cons.2 ⟨hge, ha⟩, hb⟩

theorem takeWhile_of_found (hl : l.Pairwise (· < ·)) (h : l[i]? = some x) :
    l.takeWhile (· ≤ x) = l.take i ++ [x] := by
  obtain ⟨hi, hx⟩ := List.getElem?_eq_some_iff.1 h
  have hsplit : l = (l.take i ++ [x]) ++ l.drop (i + 1) := by
    rw [← hx, List.append_assoc, List.singleton_append, ← List.drop_eq_getElem_cons hi,
      List.take_append_drop]
  rw [hsplit, List.pairwise_append, List.pairwise_append] at hl
  obtain ⟨⟨-, -, hbefore⟩, -, hafter⟩ := hl
  conv_lhs => rw [hsplit]
  refine takeWhile_of_split (fun n hn => ?_) fun n hn => hafter x (by simp) n hn
  rcases List.mem_append.1 hn with hn | hn
  · exact Nat.le_of_lt (hbefore n hn x (by simp))
  · exact Nat.le_of_eq (List.mem_singleton.1 hn)

theorem takeWhile_of_gap (h : Fits l x (.gap i)) : l.takeWhile (· ≤ x) = l.take i := by
  obtain ⟨hx, -, hsorted⟩ := h
  rw [List.pairwise_append, List.pairwise_cons] at hsorted
  obtain ⟨-, ⟨hafter, -⟩, hbefore⟩ := hsorted
  conv_lhs => rw [← List.take_append_drop i l]
  refine takeWhile_of_split (fun n hn => hbefore n hn x List.mem_cons_self) fun n hn => ?_
  have hne : x ≠ n := fun heq => hx (heq ▸ List.mem_of_mem_drop hn)
  exact Nat.lt_of_le_of_ne (hafter n hn) hne

/-- A number that is not there has a gap to stand in. -/
theorem fits_gap (hl : l.Pairwise (· < ·)) (hx : x ∉ l) :
    Fits l x (.gap (l.takeWhile (· ≤ x)).length) := by
  obtain ⟨a, b, rfl, ha, hb⟩ := exists_split hl x
  have hle : (a ++ b).Pairwise (· ≤ ·) := hl.imp Nat.le_of_lt
  rw [takeWhile_of_split ha hb]
  refine ⟨hx, by simp, ?_⟩
  rw [List.take_left, List.drop_left, List.pairwise_append, List.pairwise_cons]
  rw [List.pairwise_append] at hle
  refine ⟨hle.1, ⟨fun n hn => Nat.le_of_lt (hb n hn), hle.2.1⟩, fun n hn => ?_⟩
  exact List.forall_mem_cons.2 ⟨ha n hn, hle.2.2 n hn⟩

/-- **A search has one end**, and behind it as many numbers as are not greater. -/
theorem exists_unique_fits (hl : l.Pairwise (· < ·)) (hsome : l.takeWhile (· ≤ x) ≠ []) :
    ∃ o k, (∀ o' : Outcome, o'.Fits l x ↔ o' = o) ∧ o.floor? = some k ∧
      (l.takeWhile (· ≤ x)).length = k + 1 := by
  have hfound {i : Nat} (h : Fits l x (.found i)) : (l.takeWhile (· ≤ x)).length = i + 1 := by
    obtain ⟨hi, -⟩ := List.getElem?_eq_some_iff.1 (show l[i]? = some x from h)
    rw [takeWhile_of_found hl h, List.length_append, List.length_take, List.length_singleton]
    omega
  have hgap {i : Nat} (h : Fits l x (.gap i)) : (l.takeWhile (· ≤ x)).length = i := by
    have hi := h.2.1
    rw [takeWhile_of_gap h, List.length_take]
    omega
  by_cases hx : x ∈ l
  · obtain ⟨i, hi⟩ := List.getElem?_of_mem hx
    refine ⟨.found i, i, fun o => ?_, rfl, hfound hi⟩
    constructor
    · intro ho
      cases o with
      | found j =>
        have heq := (hfound ho).symm.trans (hfound hi)
        rw [Nat.succ.inj heq]
      | gap j => exact absurd hx ho.1
    · rintro rfl
      exact hi
  · obtain ⟨k, hk⟩ : ∃ k, (l.takeWhile (· ≤ x)).length = k + 1 :=
      Nat.exists_eq_succ_of_ne_zero (by simpa using hsome)
    have hfits := fits_gap hl hx
    rw [hk] at hfits
    refine ⟨.gap (k + 1), k, fun o => ?_, rfl, hk⟩
    constructor
    · intro ho
      cases o with
      | found j => exact absurd (List.mem_of_getElem? ho) hx
      | gap j => rw [← hk, hgap ho]
    · rintro rfl
      exact hfits

end Outcome

/-! ## Positions -/

namespace LineIndex

/-- The line starts around an offset: the start of its line is the last that is not behind it. -/
theorem exists_lineStart (s : List Char) (offset : Nat) :
    ∃ before after, (ofText s).starts = before ++ (ofText s).lineStart offset :: after ∧
      (ofText s).line offset = before.length + 1 ∧
      (∀ n ∈ before, n ≤ (ofText s).lineStart offset) ∧ (ofText s).lineStart offset ≤ offset ∧
      ∀ n ∈ after, offset < n := by
  have hascending := pairwise_starts s
  obtain ⟨upTo, after, hsplit, hupTo, hafter⟩ := Outcome.exists_split hascending offset
  have htake : (ofText s).starts.takeWhile (· ≤ offset) = upTo := by
    rw [hsplit, Outcome.takeWhile_of_split hupTo hafter]
  have hne : upTo ≠ [] := by
    rw [← htake, ofText, List.takeWhile_cons_of_pos (by simp)]
    exact List.cons_ne_nil _ _
  obtain ⟨before, start, rfl⟩ := (List.eq_nil_or_concat' upTo).resolve_left hne
  have hstart : (ofText s).lineStart offset = start := by
    rw [lineStart, htake, List.getLast?_concat, Option.getD_some]
  rw [hsplit, List.pairwise_append, List.pairwise_append] at hascending
  obtain ⟨⟨-, -, hbefore⟩, -⟩ := hascending
  rw [hstart]
  refine ⟨before, after, by rw [hsplit, List.append_assoc, List.singleton_append], ?_,
    fun n hn => Nat.le_of_lt (hbefore n hn start (by simp)), hupTo start (by simp), hafter⟩
  rw [line, htake, List.length_append, List.length_singleton]

theorem getElem?_starts (s : List Char) (offset : Nat) :
    (ofText s).starts[(ofText s).line offset - 1]? = some ((ofText s).lineStart offset) := by
  obtain ⟨before, after, hsplit, hline, -⟩ := exists_lineStart s offset
  rw [hline, hsplit, Nat.add_sub_cancel, List.getElem?_append_right (Nat.le_refl _), Nat.sub_self]
  rfl

theorem isGreatest_lineStart (s : List Char) (offset : Nat) :
    IsGreatest {n | n ≤ offset ∧ StartsLine (Utf8.encode s) n} ((ofText s).lineStart offset) := by
  obtain ⟨before, after, hsplit, -, hbefore, hle, hafter⟩ := exists_lineStart s offset
  refine ⟨⟨hle, mem_starts.1 (by simp [hsplit])⟩, fun n hn => ?_⟩
  have hmem := mem_starts.2 hn.2
  rw [hsplit, List.mem_append, List.mem_cons] at hmem
  rcases hmem with hmem | rfl | hmem
  · exact hbefore n hmem
  · exact Nat.le_refl _
  · exact absurd hn.1 (Nat.not_le.2 (hafter n hmem))

/-- One line has one start. -/
theorem lineStart_congr {s : List Char} {a b : Nat} (h : (ofText s).line a = (ofText s).line b) :
    (ofText s).lineStart a = (ofText s).lineStart b := by
  have ha := getElem?_starts s a
  rw [h, getElem?_starts s b] at ha
  exact (Option.some.inj ha).symm

/-- A byte that is no newline is one column. -/
theorem position_succ {s : List Char} {n : Nat} (h : (Utf8.encode s)[n]? ≠ some 10) :
    (ofText s).position (n + 1) = (((ofText s).position n).1, ((ofText s).position n).2 + 1) := by
  have hline : (ofText s).line (n + 1) = (ofText s).line n := by
    have hcount : (Utf8.encode s)[n]?.toList.count 10 = 0 :=
      List.count_eq_zero.2 fun hmem => h (Option.mem_toList.1 hmem)
    rw [line_eq_count, line_eq_count, List.take_add_one, List.count_append, hcount, Nat.add_zero]
  have hstart := (isGreatest_lineStart s n).1.1
  rw [position, position, hline, lineStart_congr hline]
  exact Prod.ext rfl (by simp only; omega)

/-- Later offsets have later positions: on a later line, or on the same line in a later column. -/
theorem strictMono_position (s : List Char) :
    StrictMono fun offset => toLex ((ofText s).position offset) := by
  intro a b hab
  rw [Prod.Lex.toLex_lt_toLex]
  show (ofText s).line a < (ofText s).line b ∨ (ofText s).line a = (ofText s).line b ∧
    a - (ofText s).lineStart a + 1 < b - (ofText s).lineStart b + 1
  have hle : (ofText s).line a ≤ (ofText s).line b := by
    rw [line_eq_count, line_eq_count]
    have hfront : (Utf8.encode s).take a <+: (Utf8.encode s).take b :=
      List.take_prefix_take_left (Nat.le_of_lt hab)
    exact Nat.succ_le_succ (hfront.sublist.count_le 10)
  rcases Nat.lt_or_eq_of_le hle with hlt | heq
  · exact .inl hlt
  · have hsame := lineStart_congr heq
    have hstart := (isGreatest_lineStart s a).1.1
    exact .inr ⟨heq, by omega⟩

/-- **Positions are the exact inverse of line starts.** For every offset, also one behind the end, the
line counts the newline bytes before it, and the column counts from the last line start that is not behind
it, so that start and column give the offset back. Whatever a search for the offset among the starts
ends with, the start or the gap behind it, it leads there, and there is always a start in front of the gap.
Positions grow with their offsets. -/
theorem position_inverts (s : List Char) :
    (∀ offset, ∃ start,
      IsGreatest {n | n ≤ offset ∧ StartsLine (Utf8.encode s) n} start ∧
      (ofText s).position offset =
        (1 + ((Utf8.encode s).take offset).count 10, 1 + (offset - start)) ∧
      (ofText s).starts[((ofText s).position offset).1 - 1]? = some start ∧
      start + ((ofText s).position offset).2 - 1 = offset ∧
      ∃ o k, (∀ o' : Outcome, o'.Fits (ofText s).starts offset ↔ o' = o) ∧ o.floor? = some k ∧
        (ofText s).starts[k]? = some start ∧
        (ofText s).position offset = (k + 1, offset - start + 1)) ∧
    StrictMono fun offset => toLex ((ofText s).position offset) := by
  refine ⟨fun offset => ?_, strictMono_position s⟩
  have hstart := isGreatest_lineStart s offset
  have helem := getElem?_starts s offset
  have hle := hstart.1.1
  have hposition : (ofText s).position offset =
      ((ofText s).line offset, offset - (ofText s).lineStart offset + 1) := rfl
  have hsome : (ofText s).starts.takeWhile (· ≤ offset) ≠ [] := by
    rw [ofText, List.takeWhile_cons_of_pos (by simp)]
    exact List.cons_ne_nil _ _
  obtain ⟨o, k, ho, hk, hline⟩ := Outcome.exists_unique_fits (pairwise_starts s) hsome
  replace hline : (ofText s).line offset = k + 1 := hline
  refine ⟨_, hstart, ?_, helem, ?_, o, k, ho, hk, ?_, ?_⟩
  · rw [hposition, line_eq_count, Nat.add_comm, Nat.add_comm (offset - _)]
  · rw [hposition]
    omega
  · rwa [hline, Nat.add_sub_cancel] at helem
  · rw [hposition, hline]

-- an empty line, the two bytes of one character, and an offset behind the end
example : [6, 7, 8, 10].map (ofText "ab\ncd\n\né".toList).position =
    [(3, 1), (4, 1), (4, 2), (4, 4)] := by decide

end LineIndex

end Text

end CodeSurvey
