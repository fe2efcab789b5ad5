import CodeSurvey.Json.Reader
import CodeSurvey.Proofs.Decimal.Text
import Mathlib.Tactic.IntervalCases
/-!
# Compact JSON text determines its value

Strings read back as they were written (`readString_quote`), and so do natural numbers of 64 bits
(`readNumber_writeInt`). Over whole values, compact text can be told from whatever follows it, as
long as that does not continue a number (`compact_append_inj`): no two values share a text
(`compact_injective`).
-/
namespace CodeSurvey.Json

/-! ## Strings -/

theorem hexDigit?_digitChar {n : Nat} (h : n < 16) : hexDigit? (Nat.digitChar n) = some n := by
  interval_cases n <;> decide

theorem hex4?_control {n : Nat} (h : n < 32) :
    hex4? '0' '0' (Nat.digitChar (n / 16)) (Nat.digitChar (n % 16)) = some n := by
  have h1 := hexDigit?_digitChar (n := n / 16) (by omega)
  have h2 := hexDigit?_digitChar (n := n % 16) (by omega)
  have h0 : hexDigit? '0' = some 0 := by decide
  simp only [hex4?, h0, h1, h2, bind, Option.bind, pure]
  congr 1
  omega

/-- A character as it is written is read back, whatever follows. -/
theorem readChars_escapeChar (acc : List Char) (c : Char) (r : List Char) :
    readChars acc (escapeChar c ++ r) = readChars (c :: acc) r := by
  unfold escapeChar
  split
  · subst_vars; simp [readChars, shortEscape?]
  split
  · subst_vars; simp [readChars, shortEscape?]
  split
  · rename_i h
    rw [← Char.ofNat_toNat c, h]
    simp [readChars, shortEscape?]
  split
  · rename_i h
    rw [← Char.ofNat_toNat c, h]
    simp [readChars, shortEscape?]
  split
  · subst_vars; simp [readChars, shortEscape?]
  split
  · subst_vars; simp [readChars, shortEscape?]
  split
  · subst_vars; simp [readChars, shortEscape?]
  split
  · rename_i h
    simp only [List.cons_append, List.nil_append, readChars, hex4?_control h]
    rw [if_neg (by omega), if_neg (by omega), Char.ofNat_toNat]
  · rename_i h1 h2 _ _ _ _ _ h8
    rw [List.cons_append, List.nil_append, readChars.eq_def]
    split <;> simp_all

theorem readChars_flatMap (acc cs r : List Char) :
    readChars acc (cs.flatMap escapeChar ++ '"' :: r) = some (acc.reverse ++ cs, r) := by
  induction cs generalizing acc with
  | nil => simp [readChars]
  | cons c cs ih =>
    rw [List.flatMap_cons, List.append_assoc, readChars_escapeChar, ih]
    simp

/-- **A string reads back**, whatever follows it. -/
theorem readString_quote (s : String) (r : List Char) :
    readString (quote s ++ r) = some (s, r) := by
  rw [quote, List.cons_append, List.append_assoc, readString]
  rw [List.cons_append, List.nil_append, readChars_flatMap]
  simp

theorem quote_append_inj {s t : String} {r u : List Char} (h : quote s ++ r = quote t ++ u) :
    s = t ∧ r = u := by
  have := readString_quote s r
  rw [h, readString_quote] at this
  simpa [eq_comm] using this

/-! ## Numbers -/

/-- A character that the text of a number may hold. -/
def isNumeric (c : Char) : Bool := c.isDigit || c == '-' || c == '+' || c == '.' || c == 'e'

/-- Whether a text cannot continue a number. -/
def Closed (r : List Char) : Prop := ∀ c ∈ r.head?, isNumeric c = false

theorem closed_cons {c : Char} {r : List Char} (h : isNumeric c = false) : Closed (c :: r) := by
  intro d hd
  simp only [List.head?_cons, Option.mem_some_iff] at hd
  exact hd ▸ h

theorem isNumeric_of_isDigit {c : Char} (h : c.isDigit = true) : isNumeric c = true := by
  simp [isNumeric, h]

theorem takeWhile_numeric {w r : List Char} (hw : ∀ c ∈ w, isNumeric c = true) (hr : Closed r) :
    (w ++ r).takeWhile isNumeric = w := by
  rw [List.takeWhile_append_of_pos hw]
  cases r with
  | nil => simp
  | cons c r => simp [hr c rfl]

/-- The text of a number ends where a text begins that cannot continue it. -/
theorem append_inj_numeric {v w r s : List Char} (hv : ∀ c ∈ v, isNumeric c = true)
    (hw : ∀ c ∈ w, isNumeric c = true) (hr : Closed r) (hs : Closed s) (h : v ++ r = w ++ s) :
    v = w ∧ r = s := by
  have hvw : v = w := by rw [← takeWhile_numeric hv hr, h, takeWhile_numeric hw hs]
  subst hvw
  exact ⟨rfl, List.append_cancel_left h⟩

theorem isDigit_of_mem_toDigits {n : Nat} {c : Char} (h : c ∈ Nat.toDigits 10 n) :
    c.isDigit = true :=
  Nat.isDigit_of_mem_toDigits (by omega) (by omega) h

theorem toDigits_injective {m n : Nat} (h : Nat.toDigits 10 m = Nat.toDigits 10 n) : m = n := by
  rw [← Nat.ofDigitChars_ten_toDigits (n := m), h, Nat.ofDigitChars_ten_toDigits]

/-- A whole number is written with digits after a sign. -/
theorem mem_writeInt {n : Int} {c : Char} (h : c ∈ writeInt n) : c = '-' ∨ c.isDigit = true := by
  unfold writeInt at h
  rcases List.mem_append.1 h with h | h
  · split at h
    · exact .inl (List.mem_singleton.1 h)
    · cases h
  · exact .inr (isDigit_of_mem_toDigits h)

theorem writeInt_numeric {n : Int} : ∀ c ∈ writeInt n, isNumeric c = true := by
  intro c hc
  rcases mem_writeInt hc with rfl | hc
  · decide
  · exact isNumeric_of_isDigit hc

theorem writeInt_injective {m n : Int} (h : writeInt m = writeInt n) : m = n := by
  have no_sign : ∀ k : Nat, '-' ∉ Nat.toDigits 10 k := fun k hk => by
    simpa using isDigit_of_mem_toDigits hk
  unfold writeInt at h
  split at h <;> split at h
  · have := toDigits_injective (List.append_cancel_left h)
    omega
  · exact absurd (h ▸ List.mem_cons_self : '-' ∈ [] ++ Nat.toDigits 10 n.natAbs) (no_sign _)
  · exact absurd (h.symm ▸ List.mem_cons_self : '-' ∈ [] ++ Nat.toDigits 10 m.natAbs) (no_sign _)
  · have := toDigits_injective h
    omega

open Decimal

theorem finite_parts {x : Double} (h : x.isFinite = true) : ∃ p, parts? x.bits = some p := by
  simp only [Double.isFinite, bne_iff_ne] at h
  simp only [parts?, h, if_false]
  split <;> exact ⟨_, rfl⟩

/-- A positional text has a point, an exponential one its letter. -/
theorem write_numeric {d : Digits} (hd : ∀ c ∈ d.digits, c.isDigit = true) :
    (∀ c ∈ doubleFormat.write d, isNumeric c = true) ∧
      ('.' ∈ doubleFormat.write d ∨ 'e' ∈ doubleFormat.write d) := by
  have digits : ∀ c ∈ d.digits, isNumeric c = true := fun c hc => isNumeric_of_isDigit (hd c hc)
  have zeros : ∀ n, ∀ c ∈ List.replicate n '0', isNumeric c = true := fun n c hc =>
    isNumeric_of_isDigit (isDigit_replicate c hc)
  unfold DoubleFormat.write
  split
  · split
    · refine ⟨?_, .inl (by simp)⟩
      simp only [List.forall_mem_append]
      exact ⟨⟨List.all_eq_true.1 (by decide), zeros _⟩, digits⟩
    · refine ⟨?_, .inl (by simp [placePoint])⟩
      simp only [placePoint, List.forall_mem_append, List.forall_mem_cons]
      refine ⟨⟨fun c hc => digits c (List.mem_of_mem_take hc), zeros _⟩, by decide, ?_⟩
      split
      · exact zeros 1
      · exact fun c hc => digits c (List.mem_of_mem_drop hc)
  · refine ⟨?_, .inr (by simp)⟩
    simp only [List.forall_mem_append, List.forall_mem_cons]
    refine ⟨⟨⟨?_, by decide, by split <;> decide, by simp⟩, zeros _⟩,
      fun c hc => isNumeric_of_isDigit (isDigit_of_mem_toDigits hc)⟩
    split
    · simp
    · simp_all
    · simp_all [isNumeric]

theorem writeDouble_numeric {x : Double} (h : x.isFinite = true) :
    (∀ c ∈ writeDouble x.bits, isNumeric c = true) ∧
      ('.' ∈ writeDouble x.bits ∨ 'e' ∈ writeDouble x.bits) := by
  obtain ⟨p, hp⟩ := finite_parts h
  have hm : (∀ c ∈ magnitudeText p, isNumeric c = true) ∧
      ('.' ∈ magnitudeText p ∨ 'e' ∈ magnitudeText p) := by
    unfold magnitudeText
    split
    · exact ⟨List.all_eq_true.1 (by decide), .inl (by decide)⟩
    · exact write_numeric (shortest_spec (proper_of_parts? hp) (by omega)).1
  rw [writeDouble_eq hp]
  refine ⟨?_, hm.2.imp (List.mem_append_right _) (List.mem_append_right _)⟩
  rw [List.forall_mem_append]
  exact ⟨by split <;> exact List.all_eq_true.1 (by decide), hm.1⟩

/-- A double is never written as a whole number. -/
theorem writeInt_ne_writeDouble {n : Int} {x : Double} (h : x.isFinite = true) :
    writeInt n ≠ writeDouble x.bits := by
  intro heq
  rcases (writeDouble_numeric h).2 with hc | hc <;> rw [← heq] at hc <;>
    rcases mem_writeInt hc with hc | hc <;> revert hc <;> decide

theorem numeric_head {w : List Char} (hw : ∀ c ∈ w, isNumeric c = true) (hne : w ≠ []) :
    ∃ c r, w = c :: r ∧ isNumeric c = true := by
  obtain ⟨c, r, rfl⟩ := List.exists_cons_of_ne_nil hne
  exact ⟨c, r, rfl, hw c List.mem_cons_self⟩

/-! ## Numbers read back -/

theorem leading_zero {n : Nat} {r : List Char} (h : Nat.toDigits 10 n = '0' :: r) : n = 0 := by
  induction n using Nat.strongRecOn generalizing r with
  | ind n ih =>
    rw [Nat.toDigits_eq_if (by omega)] at h
    split at h
    · rename_i hn
      revert h
      interval_cases n <;> simp [Nat.digitChar]
    · obtain ⟨d, t, hd⟩ := List.exists_cons_of_ne_nil (Nat.toDigits_ne_nil (n := n / 10) (b := 10))
      rw [hd, List.cons_append] at h
      obtain ⟨rfl, -⟩ := List.cons.inj h
      have := ih (n / 10) (by omega) hd
      omega

/-- Digits whose number fits 64 bits are all taken. -/
theorem significand_digits {ds : List Char} (hd : ∀ c ∈ ds, c.isDigit = true) {acc : Nat}
    (hlt : Nat.ofDigitChars 10 ds acc < 2 ^ 64) (taken : Nat) {c : Char} (hc : c.isDigit = false)
    (r : List Char) :
    significand acc taken (ds ++ c :: r) =
      (Nat.ofDigitChars 10 ds acc, taken + ds.length, c :: r) := by
  induction ds generalizing acc taken with
  | nil => simp [significand, hc]
  | cons d ds ih =>
    have hnext : 10 * acc + (d.toNat - '0'.toNat) = acc * 10 + (d.toNat - 48) := by
      rw [Nat.mul_comm]; rfl
    rw [Nat.ofDigitChars_cons, hnext] at hlt
    have hle : acc * 10 + (d.toNat - 48) < 2 ^ 64 := by
      rw [Nat.ofDigitChars_eq_ofDigitChars_zero] at hlt
      have := Nat.le_mul_of_pos_left (acc * 10 + (d.toNat - 48)) (Nat.pow_pos (n := ds.length)
        (show 0 < 10 by omega))
      omega
    have htake : (d.isDigit && decide (acc * 10 + (d.toNat - 48) < 2 ^ 64)) = true := by
      rw [hd d List.mem_cons_self, Bool.true_and, decide_eq_true hle]
    rw [List.cons_append, significand, if_pos htake,
      ih (fun c hc => hd c (List.mem_cons_of_mem _ hc)) hlt, Nat.ofDigitChars_cons, hnext,
      List.length_cons, Nat.add_assoc, Nat.add_comm 1]

/-- A natural number of 64 bits reads back in front of a comma. -/
theorem readNumber_writeInt {n : Nat} (h : n < 2 ^ 64) (r : List Char) :
    readNumber (writeInt n ++ ',' :: r) = some (.int n, ',' :: r) := by
  have hw : writeInt n = Nat.toDigits 10 n := by simp [writeInt]
  obtain ⟨d, ds, hd⟩ := List.exists_cons_of_ne_nil (Nat.toDigits_ne_nil (n := n) (b := 10))
  have digits : ∀ c ∈ d :: ds, c.isDigit = true := fun c hc => isDigit_of_mem_toDigits (hd ▸ hc)
  have hdd := digits d List.mem_cons_self
  have hlt : Nat.ofDigitChars 10 (d :: ds) 0 < 2 ^ 64 := by
    rwa [← hd, Nat.ofDigitChars_ten_toDigits]
  have hsig := significand_digits digits hlt 0 (show Char.isDigit ',' = false from rfl) r
  rw [← hd, Nat.ofDigitChars_ten_toDigits, hd] at hsig
  have hzero : (d == '0' && (ds ++ ',' :: r).head?.any Char.isDigit) = false := by
    rw [Bool.and_eq_false_iff]
    by_cases h0 : d = '0'
    · subst h0
      have hn := leading_zero hd
      rw [hn, Nat.toDigits_zero] at hd
      obtain ⟨-, rfl⟩ := List.cons.inj hd
      exact .inr rfl
    · exact .inl (by simpa using h0)
  rw [List.cons_append] at hsig
  rw [hw, hd, List.cons_append, readNumber, readUnsigned]
  · simp only [hdd, hzero, hsig]
    simp
  · intro t ht
    obtain ⟨rfl, -⟩ := List.cons.inj ht
    revert hdd
    decide

/-! ## Values -/

/-- The character that the text of a value begins with, but for numbers. -/
def lead? : Json → Option Char
  | .null => some 'n'
  | .bool true => some 't'
  | .bool false => some 'f'
  | .int _ | .double _ _ => none
  | .str _ => some '"'
  | .arr _ => some '['
  | .obj _ => some '\x7b'

theorem compact_head (x : Json) :
    ∃ c r, compact x = c :: r ∧ (lead? x = none ∧ isNumeric c = true ∨ lead? x = some c) := by
  match x with
  | .null | .bool true | .bool false | .str _ | .arr _ | .obj _ => exact ⟨_, _, rfl, .inr rfl⟩
  | .int n =>
    obtain ⟨c, r, hc, hn⟩ := numeric_head (w := writeInt n) writeInt_numeric
      (by simp [writeInt, Nat.toDigits_ne_nil])
    exact ⟨c, r, hc, .inl ⟨rfl, hn⟩⟩
  | .double x h =>
    obtain ⟨hw, hm⟩ := writeDouble_numeric h
    obtain ⟨c, r, hc, hn⟩ := numeric_head hw (by rcases hm with hm | hm <;> exact List.ne_nil_of_mem hm)
    exact ⟨c, r, hc, .inl ⟨rfl, hn⟩⟩

theorem isNumeric_of_lead? {x : Json} {c : Char} (h : lead? x = some c) : isNumeric c = false := by
  unfold lead? at h
  split at h <;> cases h <;> decide

/-- Texts that begin alike are of values that begin alike. -/
theorem lead?_eq {x y : Json} {r s : List Char} (h : compact x ++ r = compact y ++ s) :
    lead? x = lead? y := by
  obtain ⟨c, u, hx, hc⟩ := compact_head x
  obtain ⟨d, v, hy, hd⟩ := compact_head y
  rw [hx, hy] at h
  obtain ⟨rfl, -⟩ := List.cons.inj h
  rcases hc with ⟨hx, hn⟩ | hx <;> rcases hd with ⟨hy, hn'⟩ | hy
  · rw [hx, hy]
  · simp [isNumeric_of_lead? hy] at hn
  · simp [isNumeric_of_lead? hx] at hn'
  · rw [hx, hy]

/-- Pieces with a comma before each. -/
def tails (pieces : List (List Char)) : List Char := pieces.flatMap (',' :: ·)

theorem join_cons (p : List Char) (ps : List (List Char)) :
    Text.join [','] (p :: ps) = p ++ tails ps := by
  induction ps generalizing p with
  | nil => simp [Text.join, tails, List.intercalate, List.intersperse]
  | cons q qs ih =>
    have := ih q
    simp_all [Text.join, tails, List.intercalate, List.intersperse]

theorem closed_tails {c : Char} (hc : isNumeric c = false) (ps : List (List Char)) (r : List Char) :
    Closed (tails ps ++ c :: r) := by
  cases ps with
  | nil => exact closed_cons hc
  | cons p ps => exact closed_cons (by decide)

/-- Between brackets that no piece begins with, joined pieces can be told from their number. -/
theorem tails_eq_of_join {ps qs : List (List Char)} {c : Char} {r s : List Char}
    (hps : ∀ p ∈ ps, ∃ d u, p = d :: u ∧ d ≠ c) (hqs : ∀ q ∈ qs, ∃ d u, q = d :: u ∧ d ≠ c)
    (h : Text.join [','] ps ++ c :: r = Text.join [','] qs ++ c :: s) :
    tails ps ++ c :: r = tails qs ++ c :: s := by
  cases ps with
  | nil =>
    cases qs with
    | nil => exact h
    | cons q qs =>
      obtain ⟨d, u, rfl, hd⟩ := hqs q List.mem_cons_self
      rw [join_cons] at h
      exact absurd (List.cons.inj h).1.symm hd
  | cons p ps =>
    cases qs with
    | nil =>
      obtain ⟨d, u, rfl, hd⟩ := hps p List.mem_cons_self
      rw [join_cons] at h
      exact absurd (List.cons.inj h).1 hd
    | cons q qs =>
      rw [join_cons, join_cons] at h
      exact congrArg (',' :: ·) h

theorem compactItems_heads : ∀ xs : List Json, ∀ p ∈ compactItems xs, ∃ d u, p = d :: u ∧ d ≠ ']'
  | x :: xs, p, hp => by
    rcases List.mem_cons.1 hp with rfl | hp
    · obtain ⟨c, u, hc, hl⟩ := compact_head x
      refine ⟨c, u, hc, ?_⟩
      rintro rfl
      rcases hl with ⟨-, hn⟩ | hl
      · revert hn; decide
      · unfold lead? at hl
        split at hl <;> cases hl
    · exact compactItems_heads xs p hp

theorem compactFields_heads : ∀ fs : List (String × Json), ∀ p ∈ compactFields fs,
    ∃ d u, p = d :: u ∧ d ≠ '\x7d'
  | (k, v) :: fs, p, hp => by
    rcases List.mem_cons.1 hp with rfl | hp
    · exact ⟨'"', _, rfl, by decide⟩
    · exact compactFields_heads fs p hp

theorem compact_arr_append (xs : List Json) (r : List Char) :
    compact (.arr xs) ++ r = '[' :: (Text.join [','] (compactItems xs) ++ ']' :: r) := by
  simp [compact]

theorem compact_obj_append (fs : List (String × Json)) (r : List Char) :
    compact (.obj fs) ++ r = '\x7b' :: (Text.join [','] (compactFields fs) ++ '\x7d' :: r) := by
  simp [compact]

mutual

/-- **The compact text of a value determines it**, and can be told from what follows unless that
continues a number. -/
theorem compact_append_inj : ∀ (x y : Json) {r s : List Char}, Closed r → Closed s →
    compact x ++ r = compact y ++ s → x = y ∧ r = s
  | x, y, r, s, hr, hs, h => by
    have hl := lead?_eq h
    match x, y with
    | .null, .null | .bool true, .bool true | .bool false, .bool false =>
      exact ⟨rfl, List.append_cancel_left h⟩
    | .int m, .int n =>
      obtain ⟨hw, hrs⟩ := append_inj_numeric writeInt_numeric writeInt_numeric hr hs h
      exact ⟨by rw [writeInt_injective hw], hrs⟩
    | .int m, .double b hb =>
      obtain ⟨hw, -⟩ := append_inj_numeric writeInt_numeric (writeDouble_numeric hb).1 hr hs h
      exact absurd hw (writeInt_ne_writeDouble hb)
    | .double a ha, .int n =>
      obtain ⟨hw, -⟩ := append_inj_numeric (writeDouble_numeric ha).1 writeInt_numeric hr hs h
      exact absurd hw.symm (writeInt_ne_writeDouble ha)
    | .double ⟨a⟩ ha, .double ⟨b⟩ hb =>
      obtain ⟨hw, hrs⟩ :=
        append_inj_numeric (writeDouble_numeric ha).1 (writeDouble_numeric hb).1 hr hs h
      obtain ⟨p, hp⟩ := finite_parts ha
      obtain ⟨q, hq⟩ := finite_parts hb
      obtain rfl := writeDouble_injective hp hq hw
      exact ⟨rfl, hrs⟩
    | .str a, .str b =>
      obtain ⟨rfl, hrs⟩ := quote_append_inj h
      exact ⟨rfl, hrs⟩
    | .arr xs, .arr ys =>
      rw [compact_arr_append, compact_arr_append] at h
      obtain ⟨rfl, hrs⟩ := tails_items_inj xs ys
        (tails_eq_of_join (compactItems_heads xs) (compactItems_heads ys) (List.cons.inj h).2)
      exact ⟨rfl, hrs⟩
    | .obj fs, .obj gs =>
      rw [compact_obj_append, compact_obj_append] at h
      obtain ⟨rfl, hrs⟩ := tails_fields_inj fs gs
        (tails_eq_of_join (compactFields_heads fs) (compactFields_heads gs) (List.cons.inj h).2)
      exact ⟨rfl, hrs⟩

theorem tails_items_inj : ∀ (xs ys : List Json) {r s : List Char},
    tails (compactItems xs) ++ ']' :: r = tails (compactItems ys) ++ ']' :: s → xs = ys ∧ r = s
  | [], [], _, _, h => ⟨rfl, (List.cons.inj h).2⟩
  | [], _ :: _, _, _, h => absurd (List.cons.inj h).1 (by decide)
  | _ :: _, [], _, _, h => absurd (List.cons.inj h).1 (by decide)
  | x :: xs, y :: ys, r, s, h => by
    have h' : compact x ++ (tails (compactItems xs) ++ ']' :: r) =
        compact y ++ (tails (compactItems ys) ++ ']' :: s) := by
      simpa [tails, compactItems] using h
    obtain ⟨rfl, ht⟩ := compact_append_inj x y (closed_tails (by decide) _ _)
      (closed_tails (by decide) _ _) h'
    obtain ⟨rfl, hrs⟩ := tails_items_inj xs ys ht
    exact ⟨rfl, hrs⟩

theorem tails_fields_inj : ∀ (fs gs : List (String × Json)) {r s : List Char},
    tails (compactFields fs) ++ '\x7d' :: r = tails (compactFields gs) ++ '\x7d' :: s →
      fs = gs ∧ r = s
  | [], [], _, _, h => ⟨rfl, (List.cons.inj h).2⟩
  | [], _ :: _, _, _, h => absurd (List.cons.inj h).1 (by decide)
  | _ :: _, [], _, _, h => absurd (List.cons.inj h).1 (by decide)
  | (k, v) :: fs, (l, w) :: gs, r, s, h => by
    have h' : quote k ++ ':' :: (compact v ++ (tails (compactFields fs) ++ '\x7d' :: r)) =
        quote l ++ ':' :: (compact w ++ (tails (compactFields gs) ++ '\x7d' :: s)) := by
      simpa [tails, compactFields] using h
    obtain ⟨rfl, hv⟩ := quote_append_inj h'
    obtain ⟨rfl, ht⟩ := compact_append_inj v w (closed_tails (by decide) _ _)
      (closed_tails (by decide) _ _) (List.cons.inj hv).2
    obtain ⟨rfl, hrs⟩ := tails_fields_inj fs gs ht
    exact ⟨rfl, hrs⟩

end

/-- **The compact text of a value determines it.** -/
theorem compact_injective {x y : Json} (h : compact x = compact y) : x = y :=
  (compact_append_inj x y (r := []) (s := []) (by simp [Closed]) (by simp [Closed])
    (by rw [h])).1

/-! ## Values and fields read back -/

theorem skipSpace_cons {c : Char} (h : isSpace c = false) (r : List Char) :
    skipSpace (c :: r) = c :: r := by
  simp [skipSpace, h]

theorem skipSpace_compact (j : Json) (r : List Char) : skipSpace (compact j ++ r) = compact j ++ r := by
  obtain ⟨c, u, hc, hl⟩ := compact_head j
  have hspace : isSpace c = false := by
    rcases hl with ⟨-, hn⟩ | hl
    · by_contra hs
      simp only [Bool.not_eq_false, isSpace, Bool.or_eq_true, beq_iff_eq] at hs
      rcases hs with ((rfl | rfl) | rfl) | rfl <;> revert hn <;> decide
    · unfold lead? at hl
      split at hl <;> cases hl <;> decide
  rw [hc, List.cons_append, skipSpace_cons hspace]

theorem readValue_str (depth : Nat) (s : String) (r : List Char) :
    readValue (depth + 1) (compact (.str s) ++ r) = some (.str s, r) := by
  rw [compact, show quote s ++ r = '"' :: (s.toList.flatMap escapeChar ++ ['"'] ++ r) from rfl,
    readValue, ← List.cons_append, ← quote, readString_quote]
  rfl

theorem readValue_ofNat (depth : Nat) {n : Nat} (h : n < 2 ^ 64) (r : List Char) :
    readValue (depth + 1) (compact (.ofNat n) ++ ',' :: r) = some (.ofNat n, ',' :: r) := by
  obtain ⟨d, ds, hd⟩ := List.exists_cons_of_ne_nil (Nat.toDigits_ne_nil (n := n) (b := 10))
  have hw : writeInt n = d :: ds := by simp [writeInt, hd]
  have hdigit : d.isDigit = true := isDigit_of_mem_toDigits (hd ▸ List.mem_cons_self)
  have hread := readNumber_writeInt h r
  rw [ofNat, compact, hw, List.cons_append] at *
  rw [readValue]
  · exact hread
  -- no other kind of value begins with a digit
  all_goals
    intros
    simp_all

theorem readFields_comma {element : Reader Json} {k : String} {v j : Json} {r : List Char}
    (h : element (compact j ++ ',' :: '"' :: r) = some (v, ',' :: '"' :: r)) (fuel : Nat) :
    readFields element (fuel + 1) (quote k ++ ':' :: (compact j ++ ',' :: '"' :: r)) =
      (readFields element fuel ('"' :: r)).map fun (fs, t) => ((k, v) :: fs, t) := by
  simp only [readFields, readString_quote, skipSpace_compact, h,
    skipSpace_cons (show isSpace ':' = false from rfl),
    skipSpace_cons (show isSpace ',' = false from rfl),
    skipSpace_cons (show isSpace '"' = false from rfl)]

theorem readFields_last {element : Reader Json} {k : String} {v j : Json} {r : List Char}
    (h : element (compact j ++ '\x7d' :: r) = some (v, '\x7d' :: r)) (fuel : Nat) :
    readFields element (fuel + 1) (quote k ++ ':' :: (compact j ++ '\x7d' :: r)) =
      some ([(k, v)], r) := by
  simp only [readFields, readString_quote, skipSpace_compact, h,
    skipSpace_cons (show isSpace ':' = false from rfl),
    skipSpace_cons (show isSpace '\x7d' = false from rfl)]

/-- Fields that read as a whole are an object. -/
theorem read?_object {r : List Char} {fs : List (String × Json)}
    (h : readFields (readValue 127) ('"' :: r).length.succ ('"' :: r) = some (fs, [])) :
    read? ('\x7b' :: '"' :: r) = some (object fs) := by
  have hvalue : readValue 128 ('\x7b' :: '"' :: r) = some (object fs, []) := by
    rw [readValue]
    simp only [skipSpace_cons (show isSpace '"' = false from rfl)]
    rw [if_neg (by omega)]
    simpa using congrArg (Option.map fun x : List (String × Json) × List Char => (object x.1, x.2)) h
  rw [read?, skipSpace_cons rfl, hvalue]
  rfl

end CodeSurvey.Json
