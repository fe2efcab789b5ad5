import CodeSurvey.Cache.Basic
import CodeSurvey.Config.Call
import CodeSurvey.Proofs.JsonText
import CodeSurvey.Proofs.Utf8
/-!
# Cache keys

A key is a path, a colon and an encoded configuration. The encoding has no colon, so the path is
what stands before the last one, and no step of the encoding (fields, JSON text, UTF-8, base 64)
loses anything: a key stands for one path and one settled configuration
(`key_identifies`).
-/
namespace CodeSurvey

/-! ## Base 64 -/

namespace Base64

/-- The number of a letter. -/
def value (c : Char) : Nat := ((List.range 64).find? (letter · == c)).getD 0

/-- Reads groups of four letters. -/
def decode : List Char → List UInt8
  | a :: b :: c :: d :: r =>
    let n := value a * 2 ^ 18 + value b * 2 ^ 12 + value c * 2 ^ 6 + value d
    let first := UInt8.ofNat (n / 2 ^ 16)
    let second := UInt8.ofNat (n / 2 ^ 8 % 256)
    if c = '=' then [first]
    else if d = '=' then [first, second]
    else first :: second :: UInt8.ofNat (n % 256) :: decode r
  | _ => []

/-- A letter reads back, and it is not the sign that fills a group. -/
theorem letter_spec {n : Nat} (h : n < 64) : value (letter n) = n ∧ letter n ≠ '=' := by
  have table : ∀ n < 64, value (letter n) = n ∧ letter n ≠ '=' := by decide
  exact table n h

theorem value_fill : value '=' = 0 := by decide

theorem byte_eq {a : UInt8} {n : Nat} (h : n = a.toNat) : UInt8.ofNat n = a := by
  rw [h, UInt8.ofNat_toNat]

/-- **Reading undoes encoding.** -/
theorem decode_encode : ∀ bs : List UInt8, decode (encode bs) = bs
  | [] => rfl
  | [a] => by
    have ha := a.toNat_lt
    have h1 := letter_spec (n := a.toNat * 65536 / 262144) (by omega)
    have h2 := letter_spec (n := a.toNat * 65536 / 4096 % 64) (by omega)
    simp only [encode, decode, h1.1, h2.1, value_fill, if_true]
    rw [byte_eq (a := a) (by omega)]
  | [a, b] => by
    have ha := a.toNat_lt
    have hb := b.toNat_lt
    generalize hn : a.toNat * 65536 + b.toNat * 256 = n
    have h1 := letter_spec (n := n / 262144) (by omega)
    have h2 := letter_spec (n := n / 4096 % 64) (by omega)
    have h3 := letter_spec (n := n / 64 % 64) (by omega)
    simp only [encode, decode, hn, h1.1, h2.1, h3.1, h3.2, value_fill, if_true, if_false]
    rw [byte_eq (a := a) (by omega), byte_eq (a := b) (by omega)]
  | a :: b :: c :: r => by
    have ha := a.toNat_lt
    have hb := b.toNat_lt
    have hc := c.toNat_lt
    generalize hn : a.toNat * 65536 + b.toNat * 256 + c.toNat = n
    have h1 := letter_spec (n := n / 262144) (by omega)
    have h2 := letter_spec (n := n / 4096 % 64) (by omega)
    have h3 := letter_spec (n := n / 64 % 64) (by omega)
    have h4 := letter_spec (n := n % 64) (by omega)
    simp only [encode, decode, hn, h1.1, h2.1, h3.1, h4.1, h3.2, h4.2, if_false]
    rw [byte_eq (a := a) (by omega), byte_eq (a := b) (by omega), byte_eq (a := c) (by omega),
      decode_encode r]

theorem encode_injective {s t : List UInt8} (h : encode s = encode t) : s = t := by
  rw [← decode_encode s, h, decode_encode]

theorem colon_ne_letter (n : Nat) : ':' ≠ letter n := by
  by_cases hn : n < 64
  · have table : ∀ n < 64, ':' ≠ letter n := by decide
    exact table n hn
  · unfold letter
    rw [if_neg (by omega), if_neg (by omega), if_neg (by omega), if_neg (by omega)]
    decide

theorem not_mem_encode : ∀ bs : List UInt8, ':' ∉ encode bs
  | [] => by simp [encode]
  | [_] | [_, _] => by simp [encode, colon_ne_letter]
  | _ :: _ :: _ :: r => by simp [encode, colon_ne_letter, not_mem_encode r]

end Base64

/-! ## Configurations -/

namespace Json

theorem texts_injective {xs ys : List String} (h : texts xs = texts ys) : xs = ys := by
  simp only [texts, list, Json.arr.injEq] at h
  exact List.map_injective_iff.2 (fun a b h => Json.str.inj h) h

theorem dict_injective {d e : Dict Json} (h : dict (fun v => v) d = dict (fun v => v) e) : d = e := by
  obtain ⟨es, _⟩ := d
  obtain ⟨fs, _⟩ := e
  simp only [dict, Json.obj.injEq, Prod.mk.eta, List.map_id'] at h
  subst h
  rfl

end Json

namespace SettledConfig

theorem toJson_injective {c d : SettledConfig} (h : c.toJson = d.toJson) : c = d := by
  obtain ⟨ce, ci, cc, ct, cx, cy⟩ := c
  obtain ⟨de, di, dc, dt, dx, dy⟩ := d
  simp only [toJson, Json.obj.injEq, List.cons.injEq, Prod.mk.injEq, true_and, and_true,
    Json.bool.injEq, Json.ofNat, Json.int.injEq, Int.natCast_inj] at h
  obtain ⟨he, hi, rfl, rfl, hx, hy⟩ := h
  rw [Json.texts_injective he, Json.texts_injective hi, Json.dict_injective hx,
    Json.dict_injective hy]

/-- What follows the path in a key. -/
def code (c : SettledConfig) : List Char := Base64.encode (Utf8.encode c.canonical)

theorem code_injective {c d : SettledConfig} (h : c.code = d.code) : c = d :=
  toJson_injective (Json.compact_injective (Utf8.encode_injective (Base64.encode_injective h)))

theorem toList_key (p : String) (c : SettledConfig) : (c.key p).toList = p.toList ++ ':' :: c.code := by
  simp [key, code]

end SettledConfig

/-- The path of a key is what stands before a colon with no colon after it. -/
theorem pathOfKey?_of_toList {k p : String} {code : List Char} (h : k.toList = p.toList ++ ':' :: code)
    (hc : ':' ∉ code) : pathOfKey? k = some p := by
  have hdrop : k.toList.reverse.dropWhile (· != ':') = ':' :: p.toList.reverse := by
    rw [h, List.reverse_append, List.reverse_cons, List.append_assoc,
      List.dropWhile_append_of_pos]
    · simp
    · intro c hmem
      rw [bne_iff_ne]
      rintro rfl
      exact hc (List.mem_reverse.1 hmem)
  simp [pathOfKey?, hdrop]

theorem SettledConfig.pathOfKey?_key (p : String) (c : SettledConfig) :
    pathOfKey? (c.key p) = some p :=
  pathOfKey?_of_toList (c.toList_key p) (Base64.not_mem_encode _)

theorem Cache.isKeyOf_key (p q : String) (c : SettledConfig) : isKeyOf p (c.key q) = true ↔ q = p := by
  rw [isKeyOf, c.pathOfKey?_key, beq_iff_eq, Option.some.injEq]

theorem SettledConfig.key_injective {p q : String} {c d : SettledConfig} (h : c.key p = d.key q) :
    p = q ∧ c = d := by
  have hp : p = q := by
    have := c.pathOfKey?_key p
    rw [h, d.pathOfKey?_key q] at this
    exact (Option.some.inj this).symm
  subst hp
  have hl := congrArg String.toList h
  rw [c.toList_key, d.toList_key] at hl
  exact ⟨rfl, code_injective (List.cons.inj (List.append_cancel_left hl)).2⟩

/-- **Keys identify exactly a path and a settled configuration**: two keys are equal if and only if
both are, and the path can be read off a key. -/
theorem SettledConfig.key_identifies (p q : String) (c d : SettledConfig) :
    (c.key p = d.key q ↔ p = q ∧ c = d) ∧ pathOfKey? (c.key p) = some p :=
  ⟨⟨key_injective, fun ⟨hp, hc⟩ => by rw [hp, hc]⟩, c.pathOfKey?_key p⟩

end CodeSurvey
