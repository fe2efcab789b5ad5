import CodeSurvey.Json.Printer
import CodeSurvey.Proofs.Decimal.Rounding
import Mathlib.Data.List.TakeWhile
/-!
# The decimal text of a double

`textValue` says which number a decimal text denotes. Both formats denote the digits that they write
(`textValue_write`), the digits denote a number that rounds to the double (`shortest_spec`), and a
number rounds to one double only; hence the text of a double determines it
(`writeDouble_injective`).
-/
namespace CodeSurvey.Decimal

/-! ## What a decimal text denotes -/

/-- The whole number that digits after a sign denote. -/
def signedValue : List Char → Int
  | '-' :: ds => -(Nat.ofDigitChars 10 ds 0 : Nat)
  | '+' :: ds => Nat.ofDigitChars 10 ds 0
  | _ => 0

/-- The number that a text denotes: digits, perhaps with a point, perhaps with a power of ten. -/
def textValue (s : List Char) : ℚ :=
  let mantissa := s.takeWhile (· != 'e')
  let whole := mantissa.takeWhile (· != '.')
  let fraction := (mantissa.dropWhile (· != '.')).tail
  Nat.ofDigitChars 10 (whole ++ fraction) 0 *
    10 ^ (signedValue (s.dropWhile (· != 'e')).tail - fraction.length)

/-- The number that digits denote, given the power of ten of the first of them. -/
def Digits.value (d : Digits) : ℚ :=
  Nat.ofDigitChars 10 d.digits 0 * 10 ^ (d.exponent - d.digits.length + 1)

theorem ne_of_isDigit {c t : Char} (hc : c.isDigit = true) (ht : t.isDigit = false) : c ≠ t := by
  rintro rfl
  simp [hc] at ht

section

variable {w f x : List Char} (hw : ∀ c ∈ w, c.isDigit = true)
include hw

theorem takeWhile_digits {t : Char} (ht : t.isDigit = false) (r : List Char) :
    (w ++ r).takeWhile (· != t) = w ++ r.takeWhile (· != t) :=
  List.takeWhile_append_of_pos fun c hc => bne_iff_ne.2 (ne_of_isDigit (hw c hc) ht)

theorem dropWhile_digits {t : Char} (ht : t.isDigit = false) (r : List Char) :
    (w ++ r).dropWhile (· != t) = r.dropWhile (· != t) :=
  List.dropWhile_append_of_pos fun c hc => bne_iff_ne.2 (ne_of_isDigit (hw c hc) ht)

theorem textValue_point (hf : ∀ c ∈ f, c.isDigit = true) (hx : x = [] ∨ ∃ y, x = 'e' :: y) :
    textValue (w ++ '.' :: (f ++ x)) =
      Nat.ofDigitChars 10 (w ++ f) 0 * 10 ^ (signedValue x.tail - f.length) := by
  have hx' : x.takeWhile (· != 'e') = [] ∧ x.dropWhile (· != 'e') = x := by
    rcases hx with rfl | ⟨y, rfl⟩ <;> simp
  have hm : (w ++ '.' :: (f ++ x)).takeWhile (· != 'e') = w ++ '.' :: f := by
    rw [takeWhile_digits hw (by decide), List.takeWhile_cons_of_pos (by decide),
      takeWhile_digits hf (by decide), hx'.1, List.append_nil]
  have he : (w ++ '.' :: (f ++ x)).dropWhile (· != 'e') = x := by
    rw [dropWhile_digits hw (by decide), List.dropWhile_cons_of_pos (by decide),
      dropWhile_digits hf (by decide), hx'.2]
  simp only [textValue, hm, he, takeWhile_digits hw (t := '.') (by decide),
    dropWhile_digits hw (t := '.') (by decide)]
  simp

theorem textValue_plain (y : List Char) :
    textValue (w ++ 'e' :: y) = Nat.ofDigitChars 10 w 0 * 10 ^ signedValue y := by
  have hm : (w ++ 'e' :: y).takeWhile (· != 'e') = w := by
    rw [takeWhile_digits hw (by decide)]; simp
  have he : (w ++ 'e' :: y).dropWhile (· != 'e') = 'e' :: y := by
    rw [dropWhile_digits hw (by decide)]; simp
  have hw1 : w.takeWhile (· != '.') = w := by
    have := takeWhile_digits hw (t := '.') (by decide) []
    rwa [List.append_nil, List.takeWhile_nil, List.append_nil] at this
  have hw2 : w.dropWhile (· != '.') = [] := by
    have := dropWhile_digits hw (t := '.') (by decide) []
    rwa [List.append_nil, List.dropWhile_nil] at this
  simp only [textValue, hm, he, hw1, hw2]
  simp

end

theorem isDigit_replicate {n : Nat} : ∀ c ∈ List.replicate n '0', c.isDigit = true := by
  intro c hc
  rw [List.eq_of_mem_replicate hc]
  decide

theorem ofDigitChars_zeros (n : Nat) (ds : List Char) :
    Nat.ofDigitChars 10 (List.replicate n '0' ++ ds) 0 = Nat.ofDigitChars 10 ds 0 := by
  rw [Nat.ofDigitChars_append, Nat.ofDigitChars_replicate_zero, Nat.mul_zero]

open Json

/-- The digits of an exponent, filled with zeros, denote it. -/
theorem signedValue_exponent (e : Int) (n : Nat) :
    signedValue ((if e < 0 then '-' else '+') ::
      (List.replicate n '0' ++ Nat.toDigits 10 e.natAbs)) = e := by
  have hz : Nat.ofDigitChars 10 (List.replicate n '0' ++ Nat.toDigits 10 e.natAbs) 0 = e.natAbs := by
    rw [ofDigitChars_zeros, Nat.ofDigitChars_ten_toDigits]
  split <;> simp only [signedValue, hz] <;> omega

theorem textValue_placePoint {ds : List Char} (hd : ∀ c ∈ ds, c.isDigit = true) (n : Nat) :
    textValue (placePoint ds n) = Nat.ofDigitChars 10 ds 0 * 10 ^ ((n : Int) - ds.length) := by
  have hwhole : ∀ c ∈ ds.take n ++ List.replicate (n - ds.length) '0', c.isDigit = true := by
    intro c hc
    rcases List.mem_append.1 hc with hc | hc
    · exact hd c (List.mem_of_mem_take hc)
    · exact isDigit_replicate c hc
  unfold placePoint
  dsimp only
  split <;> rename_i hrest
  · -- all digits stand before the point
    have hlen : ds.length ≤ n := by simpa using hrest
    have := textValue_point (x := []) hwhole (f := ['0']) (isDigit_replicate (n := 1)) (.inl rfl)
    rw [List.append_nil] at this
    rw [this, List.take_of_length_le hlen, List.append_assoc, Nat.ofDigitChars_append,
      ← List.replicate_one, List.replicate_append_replicate, Nat.ofDigitChars_replicate_zero]
    push_cast
    rw [mul_comm ((10 : ℚ) ^ _), mul_assoc, ← zpow_natCast, ← zpow_add₀ (by norm_num)]
    congr 2
    simp [signedValue]
    omega
  · have hlen : n < ds.length := by simpa using hrest
    have := textValue_point (x := []) hwhole (f := ds.drop n)
      (fun c hc => hd c (List.mem_of_mem_drop hc)) (.inl rfl)
    rw [List.append_nil] at this
    rw [this, show n - ds.length = 0 by omega, List.replicate_zero, List.append_nil,
      List.take_append_drop]
    congr 2
    simp [signedValue]
    omega

theorem textValue_leadingZeros {ds : List Char} (hd : ∀ c ∈ ds, c.isDigit = true) (n : Nat) :
    textValue (['0', '.'] ++ List.replicate n '0' ++ ds) =
      Nat.ofDigitChars 10 ds 0 * 10 ^ (-(n + ds.length : Int)) := by
  have hf : ∀ c ∈ List.replicate n '0' ++ ds, c.isDigit = true := by
    intro c hc
    rcases List.mem_append.1 hc with hc | hc
    · exact isDigit_replicate c hc
    · exact hd c hc
  have := textValue_point (x := []) (isDigit_replicate (n := 1)) hf (.inl rfl)
  rw [List.append_nil] at this
  rw [List.append_assoc]
  refine this.trans ?_
  rw [← List.append_assoc, List.replicate_append_replicate, ofDigitChars_zeros]
  congr 2
  simp [signedValue]

theorem textValue_exponential {c : Char} {ds : List Char} (hd : ∀ x ∈ c :: ds, x.isDigit = true)
    (y : List Char) :
    textValue ((match c :: ds with
      | [] => []
      | [c] => [c]
      | c :: rest => c :: '.' :: rest) ++ 'e' :: y) =
      Nat.ofDigitChars 10 (c :: ds) 0 * 10 ^ (signedValue y - ds.length) := by
  cases ds with
  | nil => simpa using textValue_plain hd y
  | cons e ds =>
    have hc : ∀ x ∈ [c], x.isDigit = true := fun x hx => hd x (by simp_all)
    have hf : ∀ x ∈ e :: ds, x.isDigit = true := fun x hx => hd x (List.mem_cons_of_mem c hx)
    exact textValue_point hc hf (.inr ⟨y, rfl⟩)

/-- Either format denotes the digits at their power of ten. -/
theorem textValue_write {d : Digits} (hd : ∀ c ∈ d.digits, c.isDigit = true) (hne : d.digits ≠ []) :
    textValue (doubleFormat.write d) = d.value := by
  obtain ⟨digits, e⟩ := d
  obtain ⟨c, ds, rfl⟩ := List.exists_cons_of_ne_nil hne
  unfold DoubleFormat.write
  split <;> rename_i hrange
  · split <;> rename_i hneg
    · rw [textValue_leadingZeros hd, Digits.value]
      congr 2
      dsimp only at *
      omega
    · rw [textValue_placePoint hd, Digits.value]
      congr 2
      dsimp only at *
      omega
  · have := textValue_exponential hd ((if e < 0 then '-' else '+') :: (List.replicate
      (doubleFormat.exponentDigits - (Nat.toDigits 10 e.natAbs).length) '0' ++
        Nat.toDigits 10 e.natAbs))
    rw [signedValue_exponent] at this
    rw [Digits.value]
    simp only [List.append_assoc, List.cons_append, List.nil_append]
    refine this.trans ?_
    congr 2
    simp only [List.length_cons]
    omega

/-! ## The shortest decimal -/

theorem dropZeros_append (ds : List Char) : ∃ n, ds = dropZeros ds ++ List.replicate n '0' := by
  have hzeros : ds.reverse.takeWhile (· == '0') =
      List.replicate (ds.reverse.takeWhile (· == '0')).length '0' := by
    refine List.eq_replicate_of_mem fun c hc => ?_
    simpa using List.mem_takeWhile_imp hc
  refine ⟨(ds.reverse.takeWhile (· == '0')).length, ?_⟩
  have := congrArg List.reverse (List.takeWhile_append_dropWhile (p := (· == '0')) (l := ds.reverse))
  rw [List.reverse_append, List.reverse_reverse, hzeros, List.reverse_replicate] at this
  exact this.symm

/-- The digits of the shortest decimal denote a number that rounds to the double. -/
theorem shortest_spec {p : Parts} (hp : p.Proper) (hm : 1 ≤ p.m) :
    (∀ c ∈ (shortest p).digits, c.isDigit = true) ∧ (shortest p).digits ≠ [] ∧
      p.Rounds (shortest p).value := by
  have hr := rounds_search hp hm
  unfold shortest
  dsimp only
  generalize (interval p).search (interval p).magnitude 18 0 = ke at hr
  obtain ⟨k, e⟩ := ke
  dsimp only at hr ⊢
  obtain ⟨n, hn⟩ := dropZeros_append (Nat.toDigits 10 k)
  have hlen : (Nat.toDigits 10 k).length = (dropZeros (Nat.toDigits 10 k)).length + n := by
    conv_lhs => rw [hn, List.length_append, List.length_replicate]
  have hk : k = 10 ^ n * Nat.ofDigitChars 10 (dropZeros (Nat.toDigits 10 k)) 0 := by
    conv_lhs => rw [← Nat.ofDigitChars_ten_toDigits (n := k), hn, Nat.ofDigitChars_append,
      Nat.ofDigitChars_replicate_zero]
  refine ⟨fun c hc => ?_, fun hnil => ?_, ?_⟩
  · refine Nat.isDigit_of_mem_toDigits (b := 10) (n := k) (by omega) (by omega) ?_
    rw [hn]
    exact List.mem_append_left _ hc
  · have := hr.pos hm
    rw [hnil] at hk
    simp [hk] at this
  · have : (Digits.value ⟨dropZeros (Nat.toDigits 10 k), e + (Nat.toDigits 10 k).length - 1⟩ : ℚ) =
        k * 10 ^ e := by
      rw [Digits.value]
      conv_rhs => rw [hk]
      push_cast
      rw [mul_comm ((10 : ℚ) ^ n), mul_assoc, ← zpow_natCast, ← zpow_add₀ (by norm_num)]
      congr 2
      omega
    rw [this]
    exact hr

/-! ## The text of a double -/

/-- The text of a double without its sign. -/
def magnitudeText (p : Parts) : List Char :=
  if p.m = 0 then "0.0".toList else doubleFormat.write (shortest p)

theorem writeDouble_eq {bits : UInt64} {p : Parts} (h : parts? bits = some p) :
    writeDouble bits = (if p.negative then ['-'] else []) ++ magnitudeText p := by
  unfold writeDouble
  rw [h]
  rfl

theorem textValue_magnitudeText {p : Parts} (hp : p.Proper) :
    if p.m = 0 then textValue (magnitudeText p) = 0 else p.Rounds (textValue (magnitudeText p)) := by
  unfold magnitudeText
  split <;> rename_i hm
  · have := textValue_placePoint (isDigit_replicate (n := 1)) 1
    rw [show placePoint (List.replicate 1 '0') 1 = "0.0".toList from rfl] at this
    rw [this]
    simp [Nat.ofDigitChars_cons]
  · obtain ⟨hd, hne, hr⟩ := shortest_spec hp (by omega)
    rwa [textValue_write hd hne]

theorem magnitudeText_injective {p r : Parts} (hp : p.Proper) (hr : r.Proper)
    (h : magnitudeText p = magnitudeText r) : p.m = r.m ∧ p.q = r.q := by
  have vp := textValue_magnitudeText hp
  have vr := textValue_magnitudeText hr
  rw [← h] at vr
  split at vp <;> split at vr
  · have := hp.normal
    have := hr.normal
    omega
  · have := vr.pos (by omega)
    linarith
  · have := vp.pos (by omega)
    linarith
  · -- one number rounds to both, so neither is the smaller one
    have h1 : ¬ (p.q < r.q ∨ p.q = r.q ∧ p.m < r.m) := fun hlt => vp.not_both hp hr hlt vr
    have h2 : ¬ (r.q < p.q ∨ r.q = p.q ∧ r.m < p.m) := fun hlt => vr.not_both hr hp hlt vp
    omega

theorem write_head {d : Digits} (hd : ∀ c ∈ d.digits, c.isDigit = true) (hne : d.digits ≠ []) :
    ∃ c r, doubleFormat.write d = c :: r ∧ c.isDigit = true := by
  obtain ⟨digits, e⟩ := d
  obtain ⟨c, ds, rfl⟩ := List.exists_cons_of_ne_nil hne
  unfold DoubleFormat.write
  split
  · split
    · exact ⟨'0', _, rfl, by decide⟩
    · exact ⟨c, _, rfl, hd c (by simp)⟩
  · cases ds <;> exact ⟨c, _, rfl, hd c (by simp)⟩

theorem magnitudeText_head {p : Parts} (hp : p.Proper) :
    ∃ c r, magnitudeText p = c :: r ∧ c.isDigit = true := by
  unfold magnitudeText
  split <;> rename_i hm
  · exact ⟨'0', ".0".toList, rfl, by decide⟩
  · obtain ⟨hd, hne, -⟩ := shortest_spec hp (by omega)
    exact write_head hd hne

/-- **The text of a double determines it.** -/
theorem writeDouble_injective {a b : UInt64} {p r : Parts} (ha : parts? a = some p)
    (hb : parts? b = some r) (h : writeDouble a = writeDouble b) : a = b := by
  have hp := proper_of_parts? ha
  have hr := proper_of_parts? hb
  obtain ⟨c, s, hc, hcd⟩ := magnitudeText_head hp
  obtain ⟨d, t, hd, hdd⟩ := magnitudeText_head hr
  rw [writeDouble_eq ha, writeDouble_eq hb] at h
  have hsign : p.negative = r.negative ∧ magnitudeText p = magnitudeText r := by
    cases hpn : p.negative <;> cases hrn : r.negative <;> simp only [hpn, hrn] at h
    · exact ⟨rfl, by simpa using h⟩
    · rw [hc] at h
      simp at h
      exact absurd h.1 (ne_of_isDigit hcd (by decide))
    · rw [hd] at h
      simp at h
      exact absurd h.1.symm (ne_of_isDigit hdd (by decide))
    · exact ⟨rfl, by simpa using h⟩
  obtain ⟨hm, hq⟩ := magnitudeText_injective hp hr hsign.2
  exact parts?_injective ha hb hsign.1 hm hq

end CodeSurvey.Decimal
