import CodeSurvey.Text.Utf8
import Mathlib.Tactic.IntervalCases
/-!
# UTF-8 reads back

The bytes of a text determine the text: `decode?_encode` says that strict reading undoes writing,
for every text. It is shown one character at a time (`decodeFrom_encodeChar`), by the number of
bytes that the character takes. Conversely what is read strictly was written (`encode_of_decode?`).
An ASCII character is one byte, and no other character has that byte (`eq_of_toUInt8_mem`), so what is
looked for among bytes is found among characters.
-/
namespace CodeSurvey.Utf8

/-! ## Lead bytes -/

theorem leadShape_two {n : Nat} (h : 0xC2 ≤ n) (h' : n ≤ 0xDF) :
    leadShape (UInt8.ofNat n) = some (1, 0x80, 0xBF) := by
  interval_cases n <;> rfl

theorem leadShape_three {n : Nat} (h : 0xE0 ≤ n) (h' : n ≤ 0xEF) :
    leadShape (UInt8.ofNat n) =
      some (2, if n = 0xE0 then 0xA0 else 0x80, if n = 0xED then 0x9F else 0xBF) := by
  interval_cases n <;> rfl

theorem leadShape_four {n : Nat} (h : 0xF0 ≤ n) (h' : n ≤ 0xF4) :
    leadShape (UInt8.ofNat n) =
      some (3, if n = 0xF0 then 0x90 else 0x80, if n = 0xF4 then 0x8F else 0xBF) := by
  interval_cases n <;> rfl

theorem leadShape_none {n : Nat} (h : n < 0xC2 ∨ 0xF4 < n) (h' : n < 256) :
    leadShape (UInt8.ofNat n) = none := by
  have hn : (UInt8.ofNat n).toNat = n := by rw [UInt8.toNat_ofNat']; omega
  have hout {lo hi : UInt8} (hlo : 0xC2 ≤ lo.toNat) (hhi : hi.toNat ≤ 0xF4) :
      ¬ (decide (lo ≤ UInt8.ofNat n) && decide (UInt8.ofNat n ≤ hi)) = true := by
    rw [Bool.and_eq_true, decide_eq_true_eq, decide_eq_true_eq, UInt8.le_iff_toNat_le,
      UInt8.le_iff_toNat_le, hn]
    omega
  have hne {k : UInt8} (hlo : 0xC2 ≤ k.toNat) (hhi : k.toNat ≤ 0xF4) :
      ¬ (UInt8.ofNat n == k) = true := by
    rw [beq_iff_eq, ← UInt8.toNat_inj, hn]
    omega
  rw [leadShape, if_neg (hout (by decide) (by decide)), if_neg (hne (by decide) (by decide)),
    if_neg (hne (by decide) (by decide)), if_neg (hout (by decide) (by decide)),
    if_neg (hne (by decide) (by decide)), if_neg (hne (by decide) (by decide)),
    if_neg (hout (by decide) (by decide))]

theorem not_ascii {n : Nat} (h : 0x80 ≤ n) (h' : n < 256) : ¬ UInt8.ofNat n < 0x80 := by
  simp [UInt8.lt_iff_toNat_lt, UInt8.toNat_ofNat']
  omega

/-! ## Bytes of ASCII and of other characters -/

/-- An ASCII character is one byte. -/
theorem encodeChar_of_ascii {c : Char} (h : c.toNat < 0x80) : encodeChar c = [c.toUInt8] := by
  have hle : c.val.toNat ≤ 127 := Nat.le_of_lt_succ h
  have hbyte : UInt8.ofNat c.val.toNat = c.toUInt8 := rfl
  rw [encodeChar, String.utf8EncodeChar, if_pos hle, hbyte]

theorem ne_of_ascii {c d : Char} (hc : 0x80 ≤ c.toNat) (hd : d.toNat < 0x80) : c ≠ d := by
  rintro rfl
  exact Nat.not_lt.2 hc hd

/-- The bytes of every other character are no ASCII bytes. -/
theorem le_of_mem_encodeChar {c : Char} (h : 0x80 ≤ c.toNat) {b : UInt8} (hb : b ∈ encodeChar c) :
    0x80 ≤ b := by
  have hbig {n : Nat} (hlow : 0x80 ≤ n) (hhigh : n < 256) : 0x80 ≤ UInt8.ofNat n := by
    have hlt := not_ascii hlow hhigh
    rwa [UInt8.not_lt] at hlt
  have hlong : ¬ c.val.toNat ≤ 127 := Nat.not_le.2 h
  unfold encodeChar String.utf8EncodeChar at hb
  dsimp only at hb
  rw [if_neg hlong] at hb
  split at hb
  · simp only [List.mem_cons, List.not_mem_nil, or_false] at hb
    rcases hb with rfl | rfl <;> exact hbig (by omega) (by omega)
  · split at hb
    · simp only [List.mem_cons, List.not_mem_nil, or_false] at hb
      rcases hb with rfl | rfl | rfl <;> exact hbig (by omega) (by omega)
    · simp only [List.mem_cons, List.not_mem_nil, or_false] at hb
      rcases hb with rfl | rfl | rfl | rfl <;> exact hbig (by omega) (by omega)

theorem toNat_toUInt8 {c : Char} (h : c.toNat < 0x80) : c.toUInt8.toNat = c.toNat := by
  have hmod : c.toUInt8.toNat = c.toNat % 256 := UInt8.toNat_ofNat'
  rw [hmod]
  omega

theorem toUInt8_inj {c d : Char} (hc : c.toNat < 0x80) (hd : d.toNat < 0x80) :
    c.toUInt8 = d.toUInt8 ↔ c = d := by
  rw [← UInt8.toNat_inj, toNat_toUInt8 hc, toNat_toUInt8 hd, Char.toNat_inj]

theorem ne_toUInt8 {b : UInt8} (hb : 0x80 ≤ b) {d : Char} (hd : d.toNat < 0x80) : b ≠ d.toUInt8 := by
  rintro rfl
  rw [UInt8.le_iff_toNat_le, toNat_toUInt8 hd] at hb
  exact absurd hb (Nat.not_le.2 hd)

/-- Only an ASCII character has its byte. -/
theorem eq_of_toUInt8_mem {c d : Char} (hd : d.toNat < 0x80) (h : d.toUInt8 ∈ encodeChar c) : c = d := by
  rcases Nat.lt_or_ge c.toNat 0x80 with hc | hc
  · rw [encodeChar_of_ascii hc, List.mem_singleton, toUInt8_inj hd hc] at h
    exact h.symm
  · exact absurd rfl (ne_toUInt8 (le_of_mem_encodeChar hc h) hd)

theorem eq_newline_of_mem {c : Char} (h : 10 ∈ encodeChar c) : c = '\n' :=
  eq_of_toUInt8_mem (d := '\n') (by decide) h

/-! ## Continuation bytes -/

/-- A continuation byte within the range adds its six bits. -/
theorem continuation_cons {lo hi : UInt8} {n code used x : Nat} {r : List UInt8} (hx : x < 64)
    (hlo : lo.toNat ≤ x + 0x80) (hhi : x + 0x80 ≤ hi.toNat) :
    continuation lo hi (n + 1) code used (UInt8.ofNat (x + 0x80) :: r) =
      continuation 0x80 0xBF n (code * 64 + x) (used + 1) r := by
  have hb : (UInt8.ofNat (x + 0x80)).toNat = x + 0x80 := by
    rw [UInt8.toNat_ofNat']; omega
  have hin : (decide (lo ≤ UInt8.ofNat (x + 0x80)) && decide (UInt8.ofNat (x + 0x80) ≤ hi)) = true := by
    simp only [UInt8.le_iff_toNat_le, hb, Bool.and_eq_true, decide_eq_true_eq]
    exact ⟨hlo, hhi⟩
  rw [continuation, if_pos hin, hb, Nat.add_sub_cancel]

/-- A continuation byte that is taken adds its six bits. -/
theorem continuation_eq_ok {lo hi : UInt8} (hlo : 0x80 ≤ lo.toNat) (hhi : hi.toNat ≤ 0xBF)
    {n code used : Nat} {bs : List UInt8} {out : Nat × Nat}
    (h : continuation lo hi (n + 1) code used bs = .ok out) :
    ∃ x r, x < 64 ∧ lo.toNat ≤ x + 0x80 ∧ x + 0x80 ≤ hi.toNat ∧
      bs = UInt8.ofNat (x + 0x80) :: r ∧
      continuation 0x80 0xBF n (code * 64 + x) (used + 1) r = .ok out := by
  cases bs with
  | nil => cases h
  | cons b r =>
    rw [continuation] at h
    split at h
    · rename_i hin
      simp only [Bool.and_eq_true, decide_eq_true_eq, UInt8.le_iff_toNat_le] at hin
      have hb : b.toNat - 0x80 + 0x80 = b.toNat := by omega
      refine ⟨b.toNat - 0x80, r, by omega, by omega, by omega, ?_, h⟩
      rw [hb, UInt8.ofNat_toNat]
    · cases h

/-! ## Characters and texts -/

theorem decodeOne_encodeChar (c : Char) (r : List UInt8) :
    ∃ b bs, encodeChar c = b :: bs ∧ decodeOne b (bs ++ r) = .ok (c, bs.length + 1) := by
  have hv : c.val.toNat < 0xD800 ∨ 0xDFFF < c.val.toNat ∧ c.val.toNat < 0x110000 := c.valid
  have hc : Char.ofNat c.val.toNat = c := Char.ofNat_toNat c
  generalize hn : c.val.toNat = v at hv hc
  unfold encodeChar String.utf8EncodeChar
  simp only [hn]
  by_cases h1 : v ≤ 0x7F
  · refine ⟨_, _, if_pos h1, ?_⟩
    have hb : (UInt8.ofNat v).toNat = v := by rw [UInt8.toNat_ofNat']; omega
    have hlt : UInt8.ofNat v < 0x80 := by rw [UInt8.lt_iff_toNat_lt, hb]; simp; omega
    rw [decodeOne, if_pos hlt, hb, hc, List.length_nil]
  rw [if_neg h1]
  by_cases h2 : v ≤ 0x7FF
  · refine ⟨_, _, if_pos h2, ?_⟩
    rw [decodeOne, if_neg (not_ascii (by omega) (by omega)), leadShape_two (by omega) (by omega)]
    have hlead : (UInt8.ofNat (v / 64 % 0x20 + 0xC0)).toNat % 2 ^ (6 - 1) = v / 64 := by
      rw [UInt8.toNat_ofNat']; omega
    simp only [hlead, List.cons_append, List.nil_append]
    rw [continuation_cons (by omega) (by simp) (by simp; omega), continuation,
      show v / 64 * 64 + v % 64 = v by omega]
    simp [Except.map, hc]
  rw [if_neg h2]
  by_cases h3 : v ≤ 0xFFFF
  · refine ⟨_, _, if_pos h3, ?_⟩
    rw [decodeOne, if_neg (not_ascii (by omega) (by omega)), leadShape_three (by omega) (by omega)]
    have hlead : (UInt8.ofNat (v / 4096 % 0x10 + 0xE0)).toNat % 2 ^ (6 - 2) = v / 4096 := by
      rw [UInt8.toNat_ofNat']; omega
    simp only [hlead, List.cons_append, List.nil_append]
    rw [continuation_cons (by omega) (by split <;> simp; omega) (by split <;> simp <;> omega),
      continuation_cons (by omega) (by simp) (by simp; omega), continuation,
      show (v / 4096 * 64 + v / 64 % 64) * 64 + v % 64 = v by omega]
    simp [Except.map, hc]
  · refine ⟨_, _, if_neg h3, ?_⟩
    rw [decodeOne, if_neg (not_ascii (by omega) (by omega)), leadShape_four (by omega) (by omega)]
    have hlead : (UInt8.ofNat (v / 262144 % 0x08 + 0xF0)).toNat % 2 ^ (6 - 3) = v / 262144 := by
      rw [UInt8.toNat_ofNat']; omega
    simp only [hlead, List.cons_append, List.nil_append]
    rw [continuation_cons (by omega) (by split <;> simp; omega) (by split <;> simp <;> omega),
      continuation_cons (by omega) (by simp) (by simp; omega),
      continuation_cons (by omega) (by simp) (by simp; omega), continuation,
      show ((v / 262144 * 64 + v / 4096 % 64) * 64 + v / 64 % 64) * 64 + v % 64 = v by omega]
    simp [Except.map, hc]

/-- Bytes that are still to be skipped do not matter. -/
theorem decodeFrom_skip (lossy : Bool) (bs r : List UInt8) :
    decodeFrom lossy bs.length (bs ++ r) = decodeFrom lossy 0 r := by
  induction bs with
  | nil => rfl
  | cons b bs ih => simpa [decodeFrom] using ih

theorem decodeFrom_encodeChar (lossy : Bool) (c : Char) (r : List UInt8) :
    decodeFrom lossy 0 (encodeChar c ++ r) = (decodeFrom lossy 0 r).map (c :: ·) := by
  obtain ⟨b, bs, he, hd⟩ := decodeOne_encodeChar c r
  rw [he, List.cons_append, decodeFrom, hd]
  simp only [Nat.add_sub_cancel, decodeFrom_skip]

theorem decodeFrom_encode (lossy : Bool) (s : List Char) : decodeFrom lossy 0 (encode s) = some s := by
  induction s with
  | nil => rfl
  | cons c s ih =>
    rw [show encode (c :: s) = encodeChar c ++ encode s from rfl, decodeFrom_encodeChar, ih]
    rfl

/-- **Reading undoes writing**: the bytes of a text read back as the text. -/
theorem decode?_encode (s : List Char) : decode? (encode s) = some s := decodeFrom_encode false s

/-- Reading with replacements undoes writing, too. -/
theorem decodeLossy_encode (s : List Char) : decodeLossy (encode s) = s := by
  rw [decodeLossy, decodeFrom_encode, Option.getD_some]

theorem encode_append (s t : List Char) : encode (s ++ t) = encode s ++ encode t :=
  List.flatMap_append

/-- ASCII characters are their bytes. -/
theorem encode_of_ascii {s : List Char} (h : ∀ c ∈ s, c.toNat < 0x80) :
    encode s = s.map Char.toUInt8 := by
  induction s with
  | nil => rfl
  | cons c s ih =>
    rw [List.forall_mem_cons] at h
    rw [encode, List.flatMap_cons, encodeChar_of_ascii h.1, ← encode, ih h.2]
    rfl

theorem encode_injective {s t : List Char} (h : encode s = encode t) : s = t :=
  Option.some.inj (by rw [← decode?_encode s, h, decode?_encode t])

/-! ## Only texts can be read -/

theorem encodeChar_ofNat {v : Nat} (h : v.isValidChar) :
    encodeChar (Char.ofNat v) =
      if v ≤ 0x7F then [UInt8.ofNat v]
      else if v ≤ 0x7FF then [UInt8.ofNat (v / 64 % 0x20 + 0xC0), UInt8.ofNat (v % 64 + 0x80)]
      else if v ≤ 0xFFFF then
        [UInt8.ofNat (v / 4096 % 0x10 + 0xE0), UInt8.ofNat (v / 64 % 64 + 0x80),
          UInt8.ofNat (v % 64 + 0x80)]
      else [UInt8.ofNat (v / 262144 % 0x08 + 0xF0), UInt8.ofNat (v / 4096 % 64 + 0x80),
        UInt8.ofNat (v / 64 % 64 + 0x80), UInt8.ofNat (v % 64 + 0x80)] := by
  have hv : (Char.ofNat v).val.toNat = v := by
    rw [Char.ofNat, dif_pos h]
    rfl
  rw [encodeChar, String.utf8EncodeChar]
  simp only [hv]

theorem continuation_map_ok {x : Except Nat (Nat × Nat)} {c : Char} {used : Nat}
    (h : x.map (fun (code, used) => (Char.ofNat code, used)) = .ok (c, used)) :
    ∃ code, x = .ok (code, used) ∧ c = Char.ofNat code := by
  cases x with
  | error n => cases h
  | ok out =>
    cases h
    exact ⟨out.1, rfl, rfl⟩

/-- Behind a lead byte stand the other bytes of a character, as many as were used up. -/
def Spells (b : UInt8) (r : List UInt8) (used : Nat) (c : Char) : Prop :=
  ∃ bs r', r = bs ++ r' ∧ used = bs.length + 1 ∧ encodeChar c = b :: bs

section Widths

variable {n code used : Nat} {r : List UInt8}

theorem spells_two (h : 0xC2 ≤ n) (h' : n < 0xE0)
    (hread : continuation 0x80 0xBF 1 (n % 2 ^ 5) 1 r = .ok (code, used)) :
    Spells (UInt8.ofNat n) r used (Char.ofNat code) := by
  obtain ⟨x, r₁, hx, -, -, rfl, h₁⟩ := continuation_eq_ok (by decide) (by decide) hread
  rw [continuation] at h₁
  cases h₁
  refine ⟨[UInt8.ofNat (x + 0x80)], r₁, rfl, rfl, ?_⟩
  generalize hv : n % 2 ^ 5 * 64 + x = v
  rw [encodeChar_ofNat (.inl (by omega)), if_neg (by omega), if_pos (by omega),
    show v / 64 % 0x20 + 0xC0 = n by omega, show v % 64 = x by omega]

theorem spells_three (h : 0xE0 ≤ n) (h' : n < 0xF0)
    (hread : continuation (if n = 0xE0 then 0xA0 else 0x80) (if n = 0xED then 0x9F else 0xBF) 2
      (n % 2 ^ 4) 1 r = .ok (code, used)) :
    Spells (UInt8.ofNat n) r used (Char.ofNat code) := by
  obtain ⟨x, r₁, hx, hlo, hhi, rfl, h₁⟩ :=
    continuation_eq_ok (by split <;> simp) (by split <;> simp) hread
  obtain ⟨y, r₂, hy, -, -, rfl, h₂⟩ := continuation_eq_ok (by decide) (by decide) h₁
  rw [continuation] at h₂
  cases h₂
  refine ⟨[UInt8.ofNat (x + 0x80), UInt8.ofNat (y + 0x80)], r₂, rfl, rfl, ?_⟩
  -- The first continuation byte keeps the code above two bytes and out of the surrogates.
  have hfirst : n = 0xE0 → 0x20 ≤ x := by
    rintro rfl
    exact Nat.le_of_add_le_add_right (b := 0x80) hlo
  have hlast : n = 0xED → x < 0x20 := by
    rintro rfl
    exact Nat.lt_of_add_lt_add_right (n := 0x80) (Nat.lt_succ_of_le hhi)
  clear hlo hhi hread h₁
  generalize hv : (n % 2 ^ 4 * 64 + x) * 64 + y = v
  rw [encodeChar_ofNat, if_neg (by omega), if_neg (by omega), if_pos (by omega),
    show v / 4096 % 0x10 + 0xE0 = n by omega, show v / 64 % 64 = x by omega,
    show v % 64 = y by omega]
  rcases Nat.lt_or_ge n 0xEE with h3 | h3
  · exact .inl (by omega)
  · exact .inr ⟨by omega, by omega⟩

theorem spells_four (h : 0xF0 ≤ n) (h' : n < 0xF5)
    (hread : continuation (if n = 0xF0 then 0x90 else 0x80) (if n = 0xF4 then 0x8F else 0xBF) 3
      (n % 2 ^ 3) 1 r = .ok (code, used)) :
    Spells (UInt8.ofNat n) r used (Char.ofNat code) := by
  obtain ⟨x, r₁, hx, hlo, hhi, rfl, h₁⟩ :=
    continuation_eq_ok (by split <;> simp) (by split <;> simp) hread
  obtain ⟨y, r₂, hy, -, -, rfl, h₂⟩ := continuation_eq_ok (by decide) (by decide) h₁
  obtain ⟨z, r₃, hz, -, -, rfl, h₃⟩ := continuation_eq_ok (by decide) (by decide) h₂
  rw [continuation] at h₃
  cases h₃
  refine ⟨[UInt8.ofNat (x + 0x80), UInt8.ofNat (y + 0x80), UInt8.ofNat (z + 0x80)], r₃, rfl, rfl, ?_⟩
  -- The first continuation byte keeps the code above three bytes and below the end of the codes.
  have hfirst : n = 0xF0 → 0x10 ≤ x := by
    rintro rfl
    exact Nat.le_of_add_le_add_right (b := 0x80) hlo
  have hlast : n = 0xF4 → x < 0x10 := by
    rintro rfl
    exact Nat.lt_of_add_lt_add_right (n := 0x80) (Nat.lt_succ_of_le hhi)
  clear hlo hhi hread h₁ h₂
  generalize hv : ((n % 2 ^ 3 * 64 + x) * 64 + y) * 64 + z = v
  rw [encodeChar_ofNat (.inr ⟨by omega, by omega⟩), if_neg (by omega), if_neg (by omega),
    if_neg (by omega), show v / 262144 % 0x08 + 0xF0 = n by omega,
    show v / 4096 % 64 = x by omega, show v / 64 % 64 = y by omega, show v % 64 = z by omega]

end Widths

/-- A character that is read stands there with its bytes. -/
theorem decodeOne_eq_ok {b : UInt8} {r : List UInt8} {c : Char} {used : Nat}
    (h : decodeOne b r = .ok (c, used)) : Spells b r used c := by
  have hb := b.toNat_lt
  have hback : UInt8.ofNat b.toNat = b := UInt8.ofNat_toNat
  generalize b.toNat = n at hb hback
  subst hback
  have hn : (UInt8.ofNat n).toNat = n := by rw [UInt8.toNat_ofNat']; omega
  unfold decodeOne at h
  rw [hn] at h
  split at h
  · rename_i hascii
    rw [UInt8.lt_iff_toNat_lt, hn] at hascii
    have hlow : n < 0x80 := hascii
    cases h
    refine ⟨[], r, rfl, rfl, ?_⟩
    rw [encodeChar_ofNat (.inl (by omega)), if_pos (by omega)]
  rcases Nat.lt_or_ge n 0xC2 with h0 | h0
  · rw [leadShape_none (.inl h0) hb] at h
    cases h
  rcases Nat.lt_or_ge n 0xE0 with h1 | h1
  · rw [leadShape_two h0 (by omega)] at h
    obtain ⟨code, hread, rfl⟩ := continuation_map_ok h
    exact spells_two h0 h1 hread
  rcases Nat.lt_or_ge n 0xF0 with h2 | h2
  · rw [leadShape_three h1 (by omega)] at h
    obtain ⟨code, hread, rfl⟩ := continuation_map_ok h
    exact spells_three h1 h2 hread
  rcases Nat.lt_or_ge n 0xF5 with h3 | h3
  · rw [leadShape_four h2 (by omega)] at h
    obtain ⟨code, hread, rfl⟩ := continuation_map_ok h
    exact spells_four h2 h3 hread
  · rw [leadShape_none (.inr h3) hb] at h
    cases h

/-- **Only texts can be read**: bytes that are read strictly are those of the text. -/
theorem encode_of_decode? {bytes : List UInt8} {s : List Char} (h : decode? bytes = some s) :
    encode s = bytes := by
  unfold decode? at h
  induction hlen : bytes.length using Nat.strong_induction_on generalizing bytes s with
  | _ len ih =>
    cases bytes with
    | nil =>
      cases h
      rfl
    | cons b r =>
      rw [decodeFrom] at h
      split at h
      · rename_i c used hone
        obtain ⟨bs, r', rfl, rfl, hc⟩ := decodeOne_eq_ok hone
        rw [Nat.add_sub_cancel, decodeFrom_skip] at h
        obtain ⟨rest, hrest, rfl⟩ := Option.map_eq_some_iff.1 h
        have hshort : r'.length < len := by
          rw [← hlen, List.length_cons, List.length_append]
          omega
        rw [encode, List.flatMap_cons, ← encode, ih _ hshort hrest rfl, hc]
        rfl
      · cases h
end CodeSurvey.Utf8
