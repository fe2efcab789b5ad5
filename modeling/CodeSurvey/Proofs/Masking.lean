import CodeSurvey.Comment.Span
import CodeSurvey.Proofs.Matching
import CodeSurvey.Proofs.Utf8
import CodeSurvey.Text.LineIndex
import Mathlib.Data.List.Basic
/-!
# Masked texts

Masking replaces characters, and byte by byte it replaces bytes: blanking the bytes of the ranges,
newlines apart, gives the bytes of the masked text (`encode_mask`), since ranges that cut a text hold
whole characters (`aligned_of_cuts`). So lengths, newlines and lines stay what they were (`masks_of_cuts`).
A character of the masked text that is not blank stands in the text itself at the same offset, and no
range holds any of its bytes (`occurs_of_occurs_mask`).
-/
namespace CodeSurvey

open Text Pattern Utf8

/-! ## Bytes of characters -/

theorem Utf8.length_encodeChar (c : Char) : (encodeChar c).length = c.utf8Size :=
  String.length_utf8EncodeChar c

theorem Utf8.encode_cons (c : Char) (r : List Char) : encode (c :: r) = encodeChar c ++ encode r := rfl

theorem Utf8.encode_spaces (n : Nat) : encode (List.replicate n ' ') = List.replicate n 32 := by
  induction n with
  | zero => rfl
  | succ n ih => rw [List.replicate_succ, List.replicate_succ, encode_cons, ih]; rfl

theorem Utf8.length_encode (s : List Char) : (encode s).length = size s := by
  induction s with
  | nil => rfl
  | cons c r ih => rw [encode_cons, List.length_append, length_encodeChar, ih, size]

namespace Comment

/-! ## Whole characters -/

/-- Ranges hold the characters of a text that starts at an offset as a whole or not at all. -/
def Aligned (spans : List Span) (offset : Nat) (s : List Char) : Prop :=
  ∀ a c b, s = a ++ c :: b → ∀ i < c.utf8Size,
    covered spans (offset + size a + i) = covered spans (offset + size a)

theorem Aligned.tail {spans : List Span} {offset : Nat} {c : Char} {r : List Char}
    (h : Aligned spans offset (c :: r)) : Aligned spans (offset + c.utf8Size) r := by
  intro a d b hr i hi
  have hsplit := h (c :: a) d b (by rw [hr]; rfl) i hi
  simpa [size, Nat.add_assoc] using hsplit

/-- A place between characters is not inside one. -/
theorem apart_of_append {a b x z : List Char} {c : Char} (h : a ++ c :: b = x ++ z) :
    size x ≤ size a ∨ size a + c.utf8Size ≤ size x := by
  rcases List.append_eq_append_iff.1 h with ⟨y, rfl, hy⟩ | ⟨y, rfl, -⟩
  · cases y with
    | nil => exact .inl (by simp)
    | cons d ds =>
      cases hy
      refine .inr ?_
      rw [size_append, size]
      omega
  · exact .inl (by simp)

/-- Ranges that cut a text hold whole characters. -/
theorem aligned_of_cuts {spans : List Span} {s : List Char}
    (h : ∀ sp ∈ spans, Cuts s sp (slice sp.start sp.stop s)) : Aligned spans 0 s := by
  intro a c b hs i hi
  have hsame : ∀ sp ∈ spans, (decide (sp.start ≤ 0 + size a + i) && decide (0 + size a + i < sp.stop)) =
      (decide (sp.start ≤ 0 + size a) && decide (0 + size a < sp.stop)) := by
    intro sp hsp
    obtain ⟨⟨x, y, hxy, hstart⟩, hstop⟩ := h sp hsp
    have hleft := apart_of_append (hs.symm.trans hxy)
    have hright := apart_of_append (hs.symm.trans (hxy.trans (List.append_assoc ..).symm))
    rw [size_append] at hright
    rw [Bool.eq_iff_iff]
    simp only [Bool.and_eq_true, decide_eq_true_eq]
    omega
  rw [covered, covered, Bool.eq_iff_iff, List.any_eq_true, List.any_eq_true]
  exact ⟨fun ⟨sp, hsp, hin⟩ => ⟨sp, hsp, hsame sp hsp ▸ hin⟩,
    fun ⟨sp, hsp, hin⟩ => ⟨sp, hsp, (hsame sp hsp).symm ▸ hin⟩⟩

/-! ## Masking byte by byte -/

/-- What becomes of a byte at an offset: a space in the ranges, unless it is a newline. -/
def maskByte (spans : List Span) (offset : Nat) (b : UInt8) : UInt8 :=
  if covered spans offset && b != 10 then 32 else b

/-- The bytes of a text with ranges blanked. -/
def maskBytes (spans : List Span) (bytes : List UInt8) : List UInt8 :=
  bytes.mapIdx (maskByte spans)

theorem mapIdx_encodeChar {spans : List Span} {offset : Nat} {c : Char}
    (h : ∀ i < c.utf8Size, covered spans (offset + i) = covered spans offset) :
    (encodeChar c).mapIdx (fun i => maskByte spans (offset + i)) =
      if covered spans offset && c != '\n' then List.replicate c.utf8Size 32 else encodeChar c := by
  apply List.ext_getElem
  · rw [List.length_mapIdx]
    split
    · rw [List.length_replicate, length_encodeChar]
    · rfl
  · intro i hi hi'
    rw [List.length_mapIdx] at hi
    have hcovered := h i (by rwa [length_encodeChar] at hi)
    rw [List.getElem_mapIdx, maskByte, hcovered]
    by_cases hin : covered spans offset = true
    · by_cases hc : c = '\n'
      · subst hc
        have hzero : i = 0 := by
          have : (encodeChar '\n').length = 1 := rfl
          omega
        subst hzero
        simp only [hin, Bool.true_and, bne_self_eq_false]
        rfl
      · have hbyte : (encodeChar c)[i] ≠ 10 := fun heq =>
          hc (eq_newline_of_mem (heq ▸ List.getElem_mem hi))
        simp [hin, hc, hbyte]
    · simp [hin]

theorem encode_maskFrom {spans : List Span} {offset : Nat} {s : List Char}
    (h : Aligned spans offset s) :
    encode (maskFrom spans offset s) =
      (encode s).mapIdx fun i => maskByte spans (offset + i) := by
  induction s generalizing offset with
  | nil => rfl
  | cons c r ih =>
    have hchar : ∀ i < c.utf8Size, covered spans (offset + i) = covered spans offset := by
      simpa [size] using h [] c r rfl
    have hrest : (encode r).mapIdx (fun i => maskByte spans (offset + (i + c.utf8Size))) =
        encode (maskFrom spans (offset + c.utf8Size) r) := by
      rw [ih h.tail]
      congr 1
      funext i
      congr 1
      omega
    rw [encode_cons, List.mapIdx_append, length_encodeChar, hrest, mapIdx_encodeChar hchar, maskFrom]
    split
    · rw [encode, List.flatMap_append]
      congr 1
      exact encode_spaces _
    · rfl

/-- **Masking blanks bytes.** -/
theorem encode_mask {spans : List Span} {s : List Char} (h : Aligned spans 0 s) :
    encode (mask spans s) = maskBytes spans (encode s) := by
  rw [mask, encode_maskFrom h, maskBytes]
  simp

/-! ## Lines -/

theorem startsFrom_spaces (offset n : Nat) (s : List Char) :
    LineIndex.startsFrom offset (List.replicate n ' ' ++ s) = LineIndex.startsFrom (offset + n) s := by
  induction n generalizing offset with
  | zero => rfl
  | succ n ih =>
    have hwidth : Char.utf8Size ' ' = 1 := rfl
    rw [List.replicate_succ, List.cons_append, LineIndex.startsFrom, if_neg (by decide), ih, hwidth]
    congr 1
    omega

/-- Masking keeps the lines where they are. -/
theorem ofText_mask (spans : List Span) (s : List Char) :
    LineIndex.ofText (mask spans s) = LineIndex.ofText s := by
  have hfrom (offset : Nat) : LineIndex.startsFrom offset (maskFrom spans offset s) =
      LineIndex.startsFrom offset s := by
    induction s generalizing offset with
    | nil => rfl
    | cons c r ih =>
      rw [maskFrom, LineIndex.startsFrom]
      split
      · rename_i hblank
        have hc : c ≠ '\n' := by simpa using (Bool.and_eq_true_iff.1 hblank).2
        rw [startsFrom_spaces, ih, if_neg hc]
      · rw [LineIndex.startsFrom, ih]
  rw [LineIndex.ofText, mask, hfrom, LineIndex.ofText]

/-! ## What masking keeps -/

/-- A text and what is left of it after blanking ranges. -/
structure Masks (s : List Char) (spans : List Span) (masked : List Char) : Prop where
  /-- The ranges cut the text between characters. -/
  ranges : ∀ sp ∈ spans, Cuts s sp (slice sp.start sp.stop s)
  /-- The blanked bytes are UTF-8, and the masked text is what they say. -/
  valid : decode? (maskBytes spans (encode s)) = some masked
  length : (encode masked).length = (encode s).length
  newline : ∀ i : Nat, (encode masked)[i]? = some 10 ↔ (encode s)[i]? = some 10
  lines : LineIndex.ofText masked = LineIndex.ofText s
  outside : ∀ i : Nat, covered spans i = false → (encode masked)[i]? = (encode s)[i]?
  inside : ∀ (i : Nat) (b : UInt8), covered spans i = true → (encode masked)[i]? = some b → b = 32 ∨ b = 10

theorem maskByte_eq_newline {spans : List Span} {offset : Nat} {b : UInt8} :
    maskByte spans offset b = 10 ↔ b = 10 := by
  unfold maskByte
  split
  · rename_i h
    have hb : b ≠ 10 := by simpa using (Bool.and_eq_true_iff.1 h).2
    simp [hb]
  · rfl

/-- **Masking keeps positions**, for all ranges that cut the text. -/
theorem masks_of_cuts {spans : List Span} {s : List Char}
    (h : ∀ sp ∈ spans, Cuts s sp (slice sp.start sp.stop s)) : Masks s spans (mask spans s) := by
  have hbytes := encode_mask (aligned_of_cuts h)
  have hget (i : Nat) : (encode (mask spans s))[i]? = (encode s)[i]?.map (maskByte spans i) := by
    rw [hbytes, maskBytes, List.getElem?_mapIdx]
  refine ⟨h, by rw [← hbytes, decode?_encode], by rw [hbytes, maskBytes, List.length_mapIdx], ?_,
    ofText_mask spans s, ?_, ?_⟩
  · intro i
    rw [hget]
    cases (encode s)[i]? with
    | none => simp
    | some b => simpa using maskByte_eq_newline
  · intro i hi
    rw [hget]
    cases (encode s)[i]? with
    | none => rfl
    | some b => simp [maskByte, hi]
  · intro i b hi hb
    rw [hget] at hb
    obtain ⟨b', -, rfl⟩ := Option.map_eq_some_iff.1 hb
    by_cases hnew : b' = 10
    · exact .inr (maskByte_eq_newline.2 hnew)
    · exact .inl (by simp [maskByte, hi, hnew])

/-! ## What can be read in a masked text -/

/-- A character of a masked text that is no space stands in the text behind what the characters
before it were, and outside the ranges unless it is a newline. -/
theorem exists_of_maskFrom {spans : List Span} {offset : Nat} {s a b : List Char} {c : Char}
    (h : maskFrom spans offset s = a ++ c :: b) (hc : c ≠ ' ') :
    ∃ a' b', s = a' ++ c :: b' ∧ maskFrom spans offset a' = a ∧
      maskFrom spans (offset + size a + c.utf8Size) b' = b ∧
      (c ≠ '\n' → covered spans (offset + size a) = false) := by
  induction s generalizing offset a with
  | nil =>
    rw [maskFrom] at h
    exact absurd h (by simp)
  | cons d r ih =>
    rw [maskFrom] at h
    split at h
    · rename_i hblank
      -- the character is behind the blanks
      obtain ⟨a₂, rfl, hrest⟩ : ∃ a₂, a = List.replicate d.utf8Size ' ' ++ a₂ ∧
          maskFrom spans (offset + d.utf8Size) r = a₂ ++ c :: b := by
        rcases List.append_eq_append_iff.1 h with ⟨y, hy, hrest⟩ | ⟨y, hy, hrest⟩
        · exact ⟨y, hy, hrest⟩
        · cases y with
          | nil => exact ⟨[], by simpa using hy.symm, by simpa using hrest.symm⟩
          | cons e es =>
            cases hrest
            have : c ∈ List.replicate d.utf8Size ' ' := by rw [hy]; simp
            exact absurd (List.eq_of_mem_replicate this) hc
      obtain ⟨a', b', rfl, rfl, hb, hout⟩ := ih hrest
      refine ⟨d :: a', b', rfl, by rw [maskFrom, if_pos hblank], ?_⟩
      rw [size_append, size_replicate_space, ← Nat.add_assoc]
      exact ⟨hb, hout⟩
    · rename_i hkeep
      cases a with
      | nil =>
        cases h
        refine ⟨[], r, rfl, rfl, rfl, fun hnewline => ?_⟩
        simpa [size, hnewline] using hkeep
      | cons e a₂ =>
        obtain ⟨rfl, hrest⟩ := List.cons.inj h
        obtain ⟨a', b', rfl, rfl, hb, hout⟩ := ih hrest
        refine ⟨d :: a', b', rfl, by rw [maskFrom, if_neg hkeep], ?_⟩
        rw [size, ← Nat.add_assoc]
        exact ⟨hb, hout⟩

/-- **Nothing is read in a range**: where a masked text has a character that is not blank, the text
has the same one, and all its bytes are outside the ranges. -/
theorem occurs_of_occurs_mask {spans : List Span} {s : List Char}
    (h : ∀ sp ∈ spans, Cuts s sp (slice sp.start sp.stop s)) {n : Nat} {c : Char}
    (hocc : Occurs (mask spans s) n [c]) (hc : isBlank c = false) :
    Occurs s n [c] ∧ ∀ i < c.utf8Size, covered spans (n + i) = false := by
  obtain ⟨a, b, hs, rfl⟩ := hocc
  have hspace : c ≠ ' ' := by rintro rfl; cases hc
  have hnewline : c ≠ '\n' := by rintro rfl; cases hc
  obtain ⟨a', b', rfl, rfl, -, hout⟩ := exists_of_maskFrom hs hspace
  have hsize := size_maskFrom spans 0 a'
  refine ⟨⟨a', b', rfl, hsize.symm⟩, fun i hi => ?_⟩
  have hwhole := aligned_of_cuts h a' c b' rfl i hi
  rw [Nat.zero_add] at hwhole
  rw [hsize, Nat.zero_add] at hout
  rw [hsize, hwhole]
  exact hout hnewline

end Comment

end CodeSurvey
