import CodeSurvey.Decimal.Shortest
import Mathlib.Algebra.Order.Field.Power
import Mathlib.Data.Nat.Cast.Order.Field
import Mathlib.Tactic.Linarith
import Mathlib.Tactic.NormNum
import Mathlib.Tactic.Positivity
import Mathlib.Tactic.Ring
/-!
# Decimals that round to a double

The exact interval test of the search says what it should (`holds_interval_iff`), the intervals of
two doubles share no number (`Parts.Rounds.not_both`), and eighteen digits always suffice, so that
the search ends with a decimal that rounds to the double it started from (`rounds_search`).
-/
namespace CodeSurvey.Decimal

/-! ## The parts of a double -/

/-- What holds of the parts of every double: the significand fills its 53 bits unless the exponent is
the least one. -/
structure Parts.Proper (p : Parts) : Prop where
  least : -1074 ≤ p.q
  bound : p.m < 2 ^ 53
  normal : p.q = -1074 ∨ 2 ^ 52 ≤ p.m
  tight_iff : p.tight = true ↔ p.m = 2 ^ 52 ∧ p.q ≠ -1074

theorem proper_of_parts? {bits : UInt64} {p : Parts} (h : parts? bits = some p) : p.Proper := by
  simp only [parts?] at h
  split at h
  · cases h
  · split at h <;> rename_i h0 <;> cases h
    · exact ⟨le_refl _, by dsimp only; omega, .inl rfl, by simp⟩
    · refine ⟨by dsimp only; omega, by dsimp only; omega, .inr (by dsimp only; omega), ?_⟩
      simp only [Bool.and_eq_true, beq_iff_eq, decide_eq_true_eq]
      omega

/-- The sign, the significand and the exponent give the bits back. -/
theorem parts?_injective {a b : UInt64} {p r : Parts} (ha : parts? a = some p)
    (hb : parts? b = some r) (hn : p.negative = r.negative) (hm : p.m = r.m) (hq : p.q = r.q) :
    a = b := by
  have h1 := a.toNat_lt
  have h2 := b.toNat_lt
  simp only [parts?] at ha hb
  rw [← UInt64.toNat_inj]
  split at ha
  · cases ha
  split at hb
  · cases hb
  have sign : a.toNat / 2 ^ 63 = b.toNat / 2 ^ 63 := by
    have : (a.toNat / 2 ^ 63 == 1) = (b.toNat / 2 ^ 63 == 1) := by
      split at ha <;> split at hb <;> cases ha <;> cases hb <;> exact hn
    rw [Bool.eq_iff_iff, beq_iff_eq, beq_iff_eq] at this
    omega
  split at ha <;> split at hb <;> cases ha <;> cases hb <;> dsimp only at hm hq <;> omega

/-! ## Exact values -/

theorem zpow_mul_toNat {b : ℚ} (hb : 0 < b) (z : Int) :
    b ^ z * b ^ (-z).toNat = b ^ z.toNat := by
  rw [← zpow_natCast, ← zpow_natCast, ← zpow_add₀ hb.ne']
  congr 1
  omega

/-- The least number that might round to the double, in quarters of its unit. -/
def Parts.lowQuarters (p : Parts) : Int := 4 * p.m - if p.tight then 1 else 2

/-- The least number that might round to the double. -/
def Parts.low (p : Parts) : ℚ := p.lowQuarters * 2 ^ (p.q - 2)

/-- The greatest number that might round to the double. -/
def Parts.high (p : Parts) : ℚ := (4 * p.m + 2 : Int) * 2 ^ (p.q - 2)

/-- Whether a number rounds to the double: the ends of the interval do if the significand is even. -/
def Parts.Rounds (p : Parts) (x : ℚ) : Prop :=
  if p.m % 2 = 0 then p.low ≤ x ∧ x ≤ p.high else p.low < x ∧ x < p.high

/-- What `holds` compares, over the common denominator. -/
theorem scaled (n k : Nat) (q e : Int) :
    let d : ℚ := 2 ^ (2 - q).toNat * 10 ^ (-e).toNat
    ((n * 2 ^ (q - 2).toNat * 10 ^ (-e).toNat : Nat) : ℚ) = n * 2 ^ (q - 2) * d ∧
      ((k * 10 ^ e.toNat * 2 ^ (2 - q).toNat : Nat) : ℚ) = k * 10 ^ e * d := by
  intro d
  have h2 := zpow_mul_toNat (b := 2) (by norm_num) (q - 2)
  have h10 := zpow_mul_toNat (b := 10) (by norm_num) e
  rw [neg_sub] at h2
  constructor
  · push_cast
    rw [← h2]
    ring
  · push_cast
    rw [← h10]
    ring

theorem Interval.holds_iff (i : Interval) (k : Nat) (e : Int) :
    i.holds k e = true ↔
      if i.closed then i.low * 10 ^ (-e).toNat ≤ k * 10 ^ e.toNat * i.den ∧
        k * 10 ^ e.toNat * i.den ≤ i.high * 10 ^ (-e).toNat
      else i.low * 10 ^ (-e).toNat < k * 10 ^ e.toNat * i.den ∧
        k * 10 ^ e.toNat * i.den < i.high * 10 ^ (-e).toNat := by
  unfold Interval.holds
  dsimp only
  split <;> simp only [Bool.and_eq_true, decide_eq_true_eq]

/-- The exact test decides whether a decimal rounds to the double. -/
theorem holds_interval_iff {p : Parts} (hm : 1 ≤ p.m) (k : Nat) (e : Int) :
    (interval p).holds k e = true ↔ p.Rounds (k * 10 ^ e) := by
  have hd : (0 : ℚ) < 2 ^ (2 - p.q).toNat * 10 ^ (-e).toNat := by positivity
  obtain ⟨hlow, hk⟩ := scaled (4 * p.m - if p.tight then 1 else 2) k p.q e
  obtain ⟨hhigh, -⟩ := scaled (4 * p.m + 2) k p.q e
  have cast_low : ((4 * p.m - if p.tight then 1 else 2 : Nat) : ℚ) = p.lowQuarters := by
    rw [Parts.lowQuarters, ← Int.cast_natCast, Int.cast_inj]
    split <;> omega
  have cast_high : ((4 * p.m + 2 : Nat) : ℚ) = (4 * p.m + 2 : Int) := by push_cast; rfl
  rw [cast_low, ← Parts.low] at hlow
  rw [cast_high, ← Parts.high] at hhigh
  rw [Interval.holds_iff]
  simp only [interval, Parts.Rounds, beq_iff_eq]
  split
  · rw [← Nat.cast_le (α := ℚ), ← Nat.cast_le (α := ℚ), hlow, hk, hhigh,
      mul_le_mul_iff_of_pos_right hd, mul_le_mul_iff_of_pos_right hd]
  · rw [← Nat.cast_lt (α := ℚ), ← Nat.cast_lt (α := ℚ), hlow, hk, hhigh,
      mul_lt_mul_iff_of_pos_right hd, mul_lt_mul_iff_of_pos_right hd]

/-! ## Different doubles have disjoint intervals -/

/-- The interval of a smaller double ends before that of a greater one begins; where they touch, not
both hold their ends. -/
theorem high_le_low {p r : Parts} (hp : p.Proper) (hr : r.Proper)
    (h : p.q < r.q ∨ p.q = r.q ∧ p.m < r.m) :
    p.high ≤ r.low ∧ (p.high = r.low → p.m % 2 = 0 → r.m % 2 = 0 → False) := by
  have hu : (0 : ℚ) < 2 ^ (p.q - 2) := by positivity
  have least := hp.least
  have bound := hp.bound
  have tight := hr.tight_iff
  -- in quarters of the smaller unit, the greater interval begins at `b * 2 ^ n`
  obtain ⟨b, n, hb, hlow⟩ : ∃ (b : Int) (n : Nat),
      (4 * p.m + 2 ≤ b ∧ (4 * p.m + 2 = b → p.m % 2 = 0 → r.m % 2 = 0 → False)) ∧
        r.low = b * 2 ^ n * 2 ^ (p.q - 2) := by
    rcases h with hq | ⟨hq, hm⟩
    · have hn : r.q - 2 = p.q - 2 + 1 + (r.q - p.q - 1).toNat := by omega
      refine ⟨2 * r.lowQuarters, (r.q - p.q - 1).toNat, ?_, ?_⟩
      · have normal := hr.normal
        unfold Parts.lowQuarters
        split <;> rename_i ht
        · have := (tight.1 ht).1
          exact ⟨by omega, fun _ _ _ => by omega⟩
        · have : r.m ≠ 2 ^ 52 := fun hm => ht (tight.2 ⟨hm, by omega⟩)
          exact ⟨by omega, fun _ _ _ => by omega⟩
      · rw [Parts.low, hn, zpow_add₀ (by norm_num), zpow_add₀ (by norm_num), zpow_natCast, zpow_one]
        push_cast
        ring
    · refine ⟨r.lowQuarters, 0, ?_, ?_⟩
      · unfold Parts.lowQuarters
        split <;> exact ⟨by omega, fun _ _ _ => by omega⟩
      · rw [Parts.low, hq]; ring
  have hn : (1 : ℚ) ≤ 2 ^ n := one_le_pow₀ (by norm_num)
  have hb' : (((4 * p.m + 2 : Int)) : ℚ) ≤ b := by exact_mod_cast hb.1
  have hpos : (0 : ℚ) < b := lt_of_lt_of_le (by push_cast; positivity) hb'
  have hscale : (b : ℚ) ≤ b * 2 ^ n := le_mul_of_one_le_right hpos.le hn
  rw [Parts.high, hlow]
  refine ⟨mul_le_mul_of_nonneg_right (hb'.trans hscale) hu.le, fun heq => ?_⟩
  have heq' := mul_right_cancel₀ hu.ne' heq
  have : ((4 * p.m + 2 : Int) : ℚ) = b := le_antisymm hb' (heq' ▸ hscale)
  exact hb.2 (by exact_mod_cast this)

theorem Parts.Rounds.le {p : Parts} {x : ℚ} (h : p.Rounds x) : p.low ≤ x ∧ x ≤ p.high := by
  unfold Rounds at h
  split at h
  · exact h
  · exact ⟨h.1.le, h.2.le⟩

/-- A number rounds to one double only. -/
theorem Parts.Rounds.not_both {p r : Parts} {x : ℚ} (hp : p.Proper) (hr : r.Proper)
    (h : p.q < r.q ∨ p.q = r.q ∧ p.m < r.m) (hx : p.Rounds x) : ¬ r.Rounds x := by
  intro hy
  obtain ⟨hle, htouch⟩ := high_le_low hp hr h
  have hxl := hx.le
  have hyl := hy.le
  have heq : p.high = r.low := le_antisymm hle (hyl.1.trans hxl.2)
  unfold Rounds at hx hy
  split at hx
  · split at hy
    · exact htouch heq ‹_› ‹_›
    · linarith
  · linarith

/-! ## The search finds a decimal that rounds to the double -/

/-- The double as a number. -/
def Parts.value (p : Parts) : ℚ := p.m * 2 ^ p.q

theorem value_eq (p : Parts) : p.value = (interval p).value / (interval p).den := by
  have h2 := zpow_mul_toNat (b := 2) (by norm_num) (p.q - 2)
  rw [neg_sub] at h2
  have hden : (0 : ℚ) < 2 ^ (2 - p.q).toNat := by positivity
  simp only [interval, Parts.value]
  push_cast
  rw [eq_div_iff hden.ne', ← h2, zpow_sub₀ (by norm_num)]
  ring

theorem Interval.holds_of_candidate? {i : Interval} {k : Nat} {e : Int}
    (h : i.candidate? e = some k) : i.holds k e = true := by
  unfold candidate? at h
  dsimp only at h
  split at h <;> rename_i h1 h2
  · split at h <;> cases h <;> assumption
  · cases h; exact h1
  · cases h; exact h2
  · cases h

theorem Interval.candidate?_isSome {i : Interval} {e : Int}
    (h : i.holds (i.value * 10 ^ (-e).toNat / (i.den * 10 ^ e.toNat) + 1) e = true) :
    (i.candidate? e).isSome = true := by
  unfold candidate?
  dsimp only
  rw [h]
  split <;> simp_all

/-- If some grid has a candidate, the search gives one. -/
theorem Interval.holds_search {i : Interval} {mag : Int} {fuel count j : Nat} (hj : j < fuel)
    (h : (i.candidate? (mag - (count + j : Nat))).isSome = true) :
    i.holds (i.search mag fuel count).1 (i.search mag fuel count).2 = true := by
  induction fuel generalizing count j with
  | zero => omega
  | succ fuel ih =>
    unfold search
    dsimp only
    split
    · rename_i k hk
      exact holds_of_candidate? hk
    · rename_i hk
      cases j with
      | zero => simp [hk] at h
      | succ j => exact ih (j := j) (by omega) (by rwa [show count + 1 + j = count + (j + 1) by omega])

/-- Scaled by four hundred digits or more, every double is at least one. -/
theorem den_le {p : Parts} (hp : p.Proper) (hm : 1 ≤ p.m) {n : Nat} (hn : 400 ≤ n) :
    (interval p).den ≤ (interval p).value * 10 ^ n := by
  have least := hp.least
  simp only [interval]
  calc 2 ^ (2 - p.q).toNat ≤ 2 ^ (3 * n) := Nat.pow_le_pow_right (by omega) (by omega)
    _ = 8 ^ n := by rw [Nat.pow_mul]
    _ ≤ 10 ^ n := Nat.pow_le_pow_left (by omega) n
    _ ≤ 4 * p.m * 2 ^ (p.q - 2).toNat * 10 ^ n := Nat.le_mul_of_pos_left _ (by positivity)

theorem ten_pow_length_le {n : Nat} (hn : 1 ≤ n) : 10 ^ ((Nat.toDigits 10 n).length - 1) ≤ n := by
  have hpos := Nat.length_toDigits_pos (b := 10) (n := n)
  by_cases h1 : (Nat.toDigits 10 n).length = 1
  · rw [h1]; exact hn
  · have := Nat.length_toDigits_le_iff (b := 10) (n := n) (k := (Nat.toDigits 10 n).length - 1)
      (by omega) (by omega)
    omega

theorem ten_pow_scaled_le {p : Parts} (hp : p.Proper) (hm : 1 ≤ p.m) {n : Nat} (hn : 400 ≤ n) :
    (10 : ℚ) ^ (((Nat.toDigits 10 ((interval p).value * 10 ^ n / (interval p).den)).length : Int) -
      (n + 1)) ≤ p.value := by
  have hden : 0 < (interval p).den := by simp only [interval]; positivity
  have hone := (Nat.one_le_div_iff hden).2 (den_le hp hm hn)
  have hfloor := Nat.cast_div_le (α := ℚ) (m := (interval p).value * 10 ^ n) (n := (interval p).den)
  generalize (interval p).value * 10 ^ n / (interval p).den = k at hone hfloor ⊢
  have hlen : ((10 ^ ((Nat.toDigits 10 k).length - 1) : Nat) : ℚ) ≤ k :=
    Nat.cast_le.2 (ten_pow_length_le hone)
  have hpos := Nat.length_toDigits_pos (b := 10) (n := k)
  have hsplit : (10 : ℚ) ^ (((Nat.toDigits 10 k).length : Int) - (n + 1)) * 10 ^ n =
      ((10 ^ ((Nat.toDigits 10 k).length - 1) : Nat) : ℚ) := by
    push_cast
    rw [← zpow_natCast, ← zpow_natCast, ← zpow_add₀ (by norm_num)]
    congr 1
    omega
  have hscale : (0 : ℚ) < 10 ^ n := by positivity
  rw [value_eq, ← mul_le_mul_iff_of_pos_right hscale, hsplit]
  calc _ ≤ (k : ℚ) := hlen
    _ ≤ _ := hfloor
    _ = _ := by push_cast; ring

/-- The power of ten of the first digit is not above the double. -/
theorem ten_pow_magnitude_le {p : Parts} (hp : p.Proper) (hm : 1 ≤ p.m) :
    (10 : ℚ) ^ (interval p).magnitude ≤ p.value :=
  ten_pow_scaled_le hp hm (Nat.le_refl 400)

/-- The first multiple of a power of ten above the double. -/
theorem next_multiple (p : Parts) (e : Int) {k : Nat}
    (hk : (interval p).value * 10 ^ (-e).toNat / ((interval p).den * 10 ^ e.toNat) = k) :
    p.value < (k + 1 : Nat) * 10 ^ e ∧ ((k + 1 : Nat) : ℚ) * 10 ^ e ≤ p.value + 10 ^ e := by
  have hden : 0 < (interval p).den := by simp only [interval]; positivity
  have hD : 0 < (interval p).den * 10 ^ e.toNat := by positivity
  have h10 := zpow_mul_toNat (b := 10) (by norm_num) e
  have hs : (0 : ℚ) < 10 ^ (-e).toNat := by positivity
  have hden' : (0 : ℚ) < (interval p).den := Nat.cast_pos.2 hden
  have above := Nat.lt_mul_div_succ ((interval p).value * 10 ^ (-e).toNat) hD
  have below := Nat.mul_div_le ((interval p).value * 10 ^ (-e).toNat)
    ((interval p).den * 10 ^ e.toNat)
  rw [hk, ← Nat.cast_lt (α := ℚ)] at above
  rw [hk, ← Nat.cast_le (α := ℚ)] at below
  push_cast at above below
  rw [← h10] at above below
  rw [value_eq]
  constructor
  · rw [div_lt_iff₀ hden', ← mul_lt_mul_iff_of_pos_right hs]
    calc _ < _ := above
      _ = _ := by push_cast; ring
  · have : (k : ℚ) * 10 ^ e ≤ (interval p).value / (interval p).den := by
      rw [le_div_iff₀ hden', ← mul_le_mul_iff_of_pos_right hs]
      calc _ = _ := by ring
        _ ≤ _ := below
    push_cast
    linarith

theorem Parts.rounds_of_lt {p : Parts} {x : ℚ} (h : p.low < x) (h' : x < p.high) : p.Rounds x := by
  unfold Rounds
  split
  · exact ⟨h.le, h'.le⟩
  · exact ⟨h, h'⟩

/-- On the grid of eighteen digits, the first multiple above the double rounds to it. -/
theorem candidate?_eighteen {p : Parts} (hp : p.Proper) (hm : 1 ≤ p.m) :
    ((interval p).candidate? ((interval p).magnitude - (0 + 17 : Nat))).isSome = true := by
  generalize he : (interval p).magnitude - (0 + 17 : Nat) = e
  apply Interval.candidate?_isSome
  rw [holds_interval_iff hm]
  obtain ⟨above, below⟩ := next_multiple p e rfl
  have hgrid : (10 : ℚ) ^ e * 10 ^ 17 ≤ p.value := by
    have := ten_pow_magnitude_le hp hm
    rwa [show (interval p).magnitude = e + (17 : Nat) by omega, zpow_add₀ (by norm_num),
      zpow_natCast] at this
  have hu : (0 : ℚ) < 2 ^ (p.q - 2) := by positivity
  have hvalue : p.value = 4 * p.m * 2 ^ (p.q - 2) := by
    rw [Parts.value, zpow_sub₀ (by norm_num)]; ring
  -- the step of the grid is less than half a unit
  have hstep : (10 : ℚ) ^ e < 2 * 2 ^ (p.q - 2) := by
    have hbound : (p.m : ℚ) ≤ 2 ^ 53 := by exact_mod_cast hp.bound.le
    have : p.value ≤ 4 * 2 ^ 53 * 2 ^ (p.q - 2) := by
      rw [hvalue]
      exact mul_le_mul_of_nonneg_right (by linarith) hu.le
    linarith
  have hlow : p.low < p.value := by
    rw [hvalue, Parts.low]
    refine mul_lt_mul_of_pos_right ?_ hu
    unfold Parts.lowQuarters
    split <;> push_cast <;> linarith
  have hhigh : p.high = p.value + 2 * 2 ^ (p.q - 2) := by
    rw [hvalue, Parts.high]; push_cast; ring
  exact Parts.rounds_of_lt (hlow.trans above) (by rw [hhigh]; linarith)

/-- The search gives a decimal that rounds to the double. -/
theorem rounds_search {p : Parts} (hp : p.Proper) (hm : 1 ≤ p.m) :
    p.Rounds (((interval p).search (interval p).magnitude 18 0).1 *
      10 ^ ((interval p).search (interval p).magnitude 18 0).2) :=
  (holds_interval_iff hm _ _).1 (Interval.holds_search (by omega) (candidate?_eighteen hp hm))

theorem Parts.Rounds.pos {p : Parts} {x : ℚ} (hm : 1 ≤ p.m) (h : p.Rounds x) : 0 < x := by
  refine lt_of_lt_of_le ?_ h.le.1
  have : 0 < p.lowQuarters := by unfold Parts.lowQuarters; split <;> omega
  unfold Parts.low
  positivity

end CodeSurvey.Decimal
