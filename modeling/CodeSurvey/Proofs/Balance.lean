import CodeSurvey.Text.Utf8
import Mathlib.Data.List.Basic
/-!
# Balance outside quoted runs

What is left of some bytes when their quoted runs are deleted is said by a grammar (`Unquoted`), and one
pass with a state finds it (`unquoted_iff`). A search that counts open braces in the same pass stops
behind the first brace at which as many are closed as have been opened, if there is one
(`closing_spec`): what each byte adds to the counts is said once, in `Found`, and carried along the pass.
-/
namespace CodeSurvey.Scan

/-! ## Texts without their quoted runs -/

/-- A byte that opens a quoted run: a double, a single or a back quote. -/
def isQuoteByte (b : UInt8) : Bool :=
  b == '"'.toUInt8 || b == '\''.toUInt8 || b == (Char.ofNat 0x60).toUInt8

/-- What follows an opening quote up to what closes the run: the same quote or a newline. A backslash
takes the next byte with it. -/
inductive QuotedRun (q : UInt8) : List UInt8 → Prop
  | quote : QuotedRun q [q]
  | newline : QuotedRun q ['\n'.toUInt8]
  | escaped {b : UInt8} {r : List UInt8} : QuotedRun q r → QuotedRun q ('\\'.toUInt8 :: b :: r)
  | next {b : UInt8} {r : List UInt8} : b ≠ '\\'.toUInt8 → b ≠ q → b ≠ '\n'.toUInt8 →
      QuotedRun q r → QuotedRun q (b :: r)

/-- What follows an opening quote whose run nothing closes. -/
inductive OpenRun (q : UInt8) : List UInt8 → Prop
  | nil : OpenRun q []
  | backslash : OpenRun q ['\\'.toUInt8]
  | escaped {b : UInt8} {r : List UInt8} : OpenRun q r → OpenRun q ('\\'.toUInt8 :: b :: r)
  | next {b : UInt8} {r : List UInt8} : b ≠ '\\'.toUInt8 → b ≠ q → b ≠ '\n'.toUInt8 →
      OpenRun q r → OpenRun q (b :: r)

/-- The bytes that are left of a text at an offset when its quoted runs are deleted, each with the offset
at which it stands. -/
inductive Unquoted : Nat → List UInt8 → List (Nat × UInt8) → Prop
  | nil {o : Nat} : Unquoted o [] []
  | plain {o : Nat} {b : UInt8} {r : List UInt8} {kept : List (Nat × UInt8)} :
      isQuoteByte b = false → Unquoted (o + 1) r kept → Unquoted o (b :: r) ((o, b) :: kept)
  | run {o : Nat} {q : UInt8} {w r : List UInt8} {kept : List (Nat × UInt8)} :
      isQuoteByte q = true → QuotedRun q w → Unquoted (o + 1 + w.length) r kept →
      Unquoted o (q :: (w ++ r)) kept
  | unclosed {o : Nat} {q : UInt8} {w : List UInt8} :
      isQuoteByte q = true → OpenRun q w → Unquoted o (q :: w) []

/-! ## One pass -/

/-- Where a byte stands: in the code, in a run that a quote has opened, or behind a backslash in it. -/
inductive Reading where
  | code
  | quoted (q : UInt8)
  | escaped (q : UInt8)
deriving DecidableEq

/-- Where the byte after `b` stands. -/
def Reading.next : Reading → UInt8 → Reading
  | .code, b => if isQuoteByte b then .quoted b else .code
  | .quoted q, b =>
    if b = '\\'.toUInt8 then .escaped q
    else if b = q ∨ b = '\n'.toUInt8 then .code else .quoted q
  | .escaped q, _ => .quoted q

/-- The bytes outside quoted runs, with their offsets, in one pass. -/
def outside (st : Reading) (offset : Nat) : List UInt8 → List (Nat × UInt8)
  | [] => []
  | b :: r =>
    if st = .code ∧ isQuoteByte b = false then (offset, b) :: outside .code (offset + 1) r
    else outside (st.next b) (offset + 1) r

theorem outside_quoted (q : UInt8) (o : Nat) (b : UInt8) (r : List UInt8) :
    outside (.quoted q) o (b :: r) = outside (Reading.next (.quoted q) b) (o + 1) r := by
  rw [outside, if_neg (by simp)]

theorem outside_escaped (q : UInt8) (o : Nat) (b : UInt8) (r : List UInt8) :
    outside (.escaped q) o (b :: r) = outside (.quoted q) (o + 1) r := by
  rw [outside, if_neg (by simp)]
  rfl

theorem outside_opening {q : UInt8} (hq : isQuoteByte q = true) (o : Nat) (r : List UInt8) :
    outside .code o (q :: r) = outside (.quoted q) (o + 1) r := by
  rw [outside, if_neg (by simp [hq]), Reading.next, if_pos hq]

theorem ne_backslash_of_isQuoteByte {q : UInt8} (h : isQuoteByte q = true) : q ≠ '\\'.toUInt8 := by
  rintro rfl
  exact absurd h (by decide)

/-- A closed run leaves nothing. -/
theorem outside_of_run {q : UInt8} (hq : q ≠ '\\'.toUInt8) {w : List UInt8} (h : QuotedRun q w)
    (o : Nat) (r : List UInt8) : outside (.quoted q) o (w ++ r) = outside .code (o + w.length) r := by
  induction h generalizing o with
  | quote => simp [outside_quoted, Reading.next, hq]
  | newline =>
    have hn : '\n'.toUInt8 ≠ '\\'.toUInt8 := by decide
    simp [outside_quoted, Reading.next, hn]
  | @escaped b w _ ih =>
    have hlen : o + ('\\'.toUInt8 :: b :: w).length = o + 1 + 1 + w.length := by simp; omega
    rw [List.cons_append, List.cons_append, outside_quoted, Reading.next, if_pos rfl, outside_escaped,
      ih, hlen]
  | @next b w hb hbq hbn _ ih =>
    have hlen : o + (b :: w).length = o + 1 + w.length := by simp; omega
    rw [List.cons_append, outside_quoted, Reading.next, if_neg hb, if_neg (by simp [hbq, hbn]), ih, hlen]

theorem outside_of_openRun {q : UInt8} {w : List UInt8} (h : OpenRun q w) (o : Nat) :
    outside (.quoted q) o w = [] := by
  induction h generalizing o with
  | nil => rfl
  | backslash => rfl
  | escaped _ ih => rw [outside_quoted, Reading.next, if_pos rfl, outside_escaped, ih]
  | next hb hbq hbn _ ih =>
    rw [outside_quoted, Reading.next, if_neg hb, if_neg (by simp [hbq, hbn]), ih]

/-- Every run is closed somewhere or nowhere. -/
theorem openRun_or_run (q : UInt8) (bytes : List UInt8) :
    OpenRun q bytes ∨ ∃ w r, bytes = w ++ r ∧ QuotedRun q w := by
  -- an escape takes two bytes, so the induction is on the length
  induction hn : bytes.length using Nat.strongRecOn generalizing bytes with
  | ind n ih =>
    subst hn
    cases bytes with
    | nil => exact .inl .nil
    | cons b r =>
      by_cases hb : b = '\\'.toUInt8
      · subst hb
        cases r with
        | nil => exact .inl .backslash
        | cons b r =>
          rcases ih r.length (by rw [List.length_cons, List.length_cons]; omega) r rfl with h | ⟨w, r', rfl, h⟩
          · exact .inl (.escaped h)
          · exact .inr ⟨_, r', rfl, .escaped h⟩
      · by_cases hbq : b = q
        · subst hbq
          exact .inr ⟨[b], r, rfl, .quote⟩
        · by_cases hbn : b = '\n'.toUInt8
          · subst hbn
            exact .inr ⟨_, r, rfl, .newline⟩
          · rcases ih r.length (by simp) r rfl with h | ⟨w, r', rfl, h⟩
            · exact .inl (.next hb hbq hbn h)
            · exact .inr ⟨b :: w, r', rfl, .next hb hbq hbn h⟩

theorem Unquoted.eq_outside {o : Nat} {bytes : List UInt8} {kept : List (Nat × UInt8)}
    (h : Unquoted o bytes kept) : kept = outside .code o bytes := by
  induction h with
  | nil => rfl
  | plain hb _ ih => rw [outside, if_pos ⟨rfl, hb⟩, ← ih]
  | run hq hw _ ih =>
    rw [outside_opening hq, outside_of_run (ne_backslash_of_isQuoteByte hq) hw, ← ih]
  | unclosed hq hw => rw [outside_opening hq, outside_of_openRun hw]

theorem exists_unquoted (o : Nat) (bytes : List UInt8) : ∃ kept, Unquoted o bytes kept := by
  induction hn : bytes.length using Nat.strongRecOn generalizing o bytes with
  | ind n ih =>
    subst hn
    cases bytes with
    | nil => exact ⟨[], .nil⟩
    | cons b r =>
      by_cases hb : isQuoteByte b = true
      · rcases openRun_or_run b r with h | ⟨w, r', rfl, h⟩
        · exact ⟨[], .unclosed hb h⟩
        · have hlt : r'.length < (b :: (w ++ r')).length := by
            rw [List.length_cons, List.length_append]
            omega
          obtain ⟨kept, hkept⟩ := ih _ hlt (o + 1 + w.length) r' rfl
          exact ⟨kept, .run hb h hkept⟩
      · obtain ⟨kept, hkept⟩ := ih r.length (by simp) (o + 1) r rfl
        exact ⟨_, .plain (by simpa using hb) hkept⟩

/-- **Quoted runs can be deleted in one way only**, and one pass does it. -/
theorem unquoted_iff {o : Nat} {bytes : List UInt8} {kept : List (Nat × UInt8)} :
    Unquoted o bytes kept ↔ kept = outside .code o bytes := by
  constructor
  · exact Unquoted.eq_outside
  · rintro rfl
    obtain ⟨kept, hkept⟩ := exists_unquoted o bytes
    rwa [← hkept.eq_outside]

theorem le_of_mem_outside {st : Reading} {o : Nat} {bytes : List UInt8} {x : Nat × UInt8}
    (h : x ∈ outside st o bytes) : o ≤ x.1 := by
  induction bytes generalizing st o with
  | nil => cases h
  | cons b r ih =>
    rw [outside] at h
    split at h
    · rcases List.mem_cons.1 h with rfl | h
      · exact Nat.le_refl _
      · exact Nat.le_of_succ_le (ih h)
    · exact Nat.le_of_succ_le (ih h)

/-! ## Balance -/

/-- How often a byte is left in front of an offset. -/
def countBefore (kept : List (Nat × UInt8)) (b : UInt8) (n : Nat) : Nat :=
  kept.countP fun x => x.2 = b ∧ x.1 < n

/-- A body that opens at `p` ends at `q`: from `p` to `q` as many braces are closed as are opened, and
from `p` to any place in between fewer. -/
def Balanced (kept : List (Nat × UInt8)) (p q : Nat) : Prop :=
  p < q ∧ countBefore kept '\x7b'.toUInt8 q = countBefore kept '\x7d'.toUInt8 q ∧
    ∀ n, p < n → n < q → countBefore kept '\x7d'.toUInt8 n < countBefore kept '\x7b'.toUInt8 n

theorem Balanced.unique {kept : List (Nat × UInt8)} {p q q' : Nat} (h : Balanced kept p q)
    (h' : Balanced kept p q') : q = q' := by
  obtain ⟨hp, heq, hbefore⟩ := h
  obtain ⟨hp', heq', hbefore'⟩ := h'
  rcases Nat.lt_trichotomy q q' with hlt | rfl | hlt
  · have := hbefore' q hp hlt
    omega
  · rfl
  · have := hbefore q' hp' hlt
    omega

section

variable (o : Nat) (kept : List (Nat × UInt8)) (n : Nat)

theorem countBefore_cons_of_ne {x b : UInt8} (h : x ≠ b) :
    countBefore ((o, x) :: kept) b n = countBefore kept b n := by
  simp [countBefore, h]

theorem countBefore_cons_self (b : UInt8) :
    countBefore ((o, b) :: kept) b n = countBefore kept b n + if o < n then 1 else 0 := by
  simp [countBefore, List.countP_cons]

end

theorem openingBrace_ne : '\x7b'.toUInt8 ≠ '\x7d'.toUInt8 := by decide

/-- Nothing is left in front of the start. -/
theorem countBefore_outside {st : Reading} {o n : Nat} {bytes : List UInt8} (h : n ≤ o) (b : UInt8) :
    countBefore (outside st o bytes) b n = 0 := by
  refine List.countP_eq_zero.2 fun x hx => ?_
  have := le_of_mem_outside hx
  simp
  omega

/-- Offset behind the brace that closes `depth` open ones, byte by byte. -/
def closing (depth : Nat) (st : Reading) (offset : Nat) : List UInt8 → Nat
  | [] => offset
  | b :: r =>
    if st = .code ∧ b = '\x7b'.toUInt8 then closing (depth + 1) .code (offset + 1) r
    else if st = .code ∧ b = '\x7d'.toUInt8 then
      if depth ≤ 1 then offset + 1 else closing (depth - 1) .code (offset + 1) r
    else closing depth (st.next b) (offset + 1) r

theorem closing_run (depth : Nat) (q : UInt8) (o : Nat) (b : UInt8) (r : List UInt8) :
    closing depth (.quoted q) o (b :: r) = closing depth (Reading.next (.quoted q) b) (o + 1) r := by
  rw [closing, if_neg (by simp), if_neg (by simp)]

/-- What the search for the end of a body finds: the first place where all braces are closed, or no
such place. -/
def Found (kept : List (Nat × UInt8)) (depth start stop found : Nat) : Prop :=
  start < found ∧ found ≤ stop ∧
      countBefore kept '\x7d'.toUInt8 found = depth + countBefore kept '\x7b'.toUInt8 found ∧
      (∀ n < found,
        countBefore kept '\x7d'.toUInt8 n < depth + countBefore kept '\x7b'.toUInt8 n) ∨
    found = stop ∧
      ∀ n, countBefore kept '\x7d'.toUInt8 n < depth + countBefore kept '\x7b'.toUInt8 n

namespace Found

variable {kept : List (Nat × UInt8)} {depth o stop found : Nat}

theorem skip (h : Found kept depth (o + 1) stop found) : Found kept depth o stop found := by
  rcases h with ⟨hlt, h⟩ | h
  · exact .inl ⟨Nat.lt_of_succ_lt hlt, h⟩
  · exact .inr h

/-- A byte that is no brace changes nothing. -/
theorem plain {b : UInt8} (hopen : b ≠ '\x7b'.toUInt8) (hclose : b ≠ '\x7d'.toUInt8)
    (h : Found kept depth (o + 1) stop found) : Found ((o, b) :: kept) depth o stop found := by
  simpa only [Found, countBefore_cons_of_ne o kept _ hopen, countBefore_cons_of_ne o kept _ hclose]
    using h.skip

/-- With a closing brace in front, one brace more was open before. -/
theorem closing (h : Found kept depth (o + 1) stop found) :
    Found ((o, '\x7d'.toUInt8) :: kept) (depth + 1) o stop found := by
  have hbefore (n : Nat) (hn : countBefore kept '\x7d'.toUInt8 n <
      depth + countBefore kept '\x7b'.toUInt8 n) :
      (countBefore kept '\x7d'.toUInt8 n + if o < n then 1 else 0) <
        depth + 1 + countBefore kept '\x7b'.toUInt8 n := by
    split <;> omega
  unfold Found
  simp only [countBefore_cons_of_ne o kept _ openingBrace_ne.symm, countBefore_cons_self]
  rcases h with ⟨hlt, hle, heq, hless⟩ | ⟨heq, hless⟩
  · refine .inl ⟨by omega, hle, ?_, fun n hn => hbefore n (hless n hn)⟩
    rw [heq, if_pos (by omega)]
    omega
  · exact .inr ⟨heq, fun n => hbefore n (hless n)⟩

variable (hstart : ∀ b n, n ≤ o + 1 → countBefore kept b n = 0)
include hstart

/-- With an opening brace in front, one brace less was open before. -/
theorem opening (hdepth : 0 < depth) (h : Found kept (depth + 1) (o + 1) stop found) :
    Found ((o, '\x7b'.toUInt8) :: kept) depth o stop found := by
  have hbefore (n : Nat) (hn : countBefore kept '\x7d'.toUInt8 n <
      depth + 1 + countBefore kept '\x7b'.toUInt8 n) :
      countBefore kept '\x7d'.toUInt8 n <
        depth + (countBefore kept '\x7b'.toUInt8 n + if o < n then 1 else 0) := by
    split
    · omega
    · rw [hstart _ n (by omega)]
      omega
  unfold Found
  simp only [countBefore_cons_of_ne o kept _ openingBrace_ne, countBefore_cons_self]
  rcases h with ⟨hlt, hle, heq, hless⟩ | ⟨heq, hless⟩
  · refine .inl ⟨by omega, hle, ?_, fun n hn => hbefore n (hless n hn)⟩
    rw [heq, if_pos (by omega)]
    omega
  · exact .inr ⟨heq, fun n => hbefore n (hless n)⟩

/-- A closing brace closes the last one that is open. -/
theorem here (hstop : o < stop) : Found ((o, '\x7d'.toUInt8) :: kept) 1 o stop (o + 1) := by
  refine .inl ⟨Nat.lt_succ_self o, hstop, ?_, fun n hn => ?_⟩
  · rw [countBefore_cons_self, countBefore_cons_of_ne o kept _ openingBrace_ne.symm,
      hstart _ _ (Nat.le_refl _), hstart _ _ (Nat.le_refl _), if_pos (Nat.lt_succ_self o)]
  · rw [countBefore_cons_self, hstart _ n (by omega), if_neg (by omega)]
    omega

end Found

/-- **The search ends where all braces are closed.** -/
theorem closing_spec {depth : Nat} (hdepth : 0 < depth) (st : Reading) (o : Nat) (bytes : List UInt8) :
    Found (outside st o bytes) depth o (o + bytes.length) (closing depth st o bytes) := by
  induction bytes generalizing depth st o with
  | nil => exact .inr ⟨rfl, fun n => by simpa [outside, countBefore] using hdepth⟩
  | cons b r ih =>
    have hlen : o + (b :: r).length = o + 1 + r.length := by simp; omega
    have hstart : ∀ b n, n ≤ o + 1 → countBefore (outside .code (o + 1) r) b n = 0 :=
      fun b n hn => countBefore_outside hn b
    rw [hlen, closing, outside]
    by_cases hcode : st = .code ∧ isQuoteByte b = false
    · -- the byte is left, and it may be a brace
      obtain ⟨rfl, hb⟩ := hcode
      rw [if_pos ⟨rfl, hb⟩]
      by_cases hopen : b = '\x7b'.toUInt8
      · subst hopen
        rw [if_pos ⟨rfl, rfl⟩]
        exact .opening hstart hdepth (ih (Nat.succ_pos depth) .code (o + 1))
      · rw [if_neg (fun h => hopen h.2)]
        by_cases hclose : b = '\x7d'.toUInt8
        · subst hclose
          rw [if_pos ⟨rfl, rfl⟩]
          split
          · obtain rfl : depth = 1 := by omega
            exact .here hstart (by omega)
          · obtain ⟨d, rfl⟩ : ∃ d, depth = d + 1 := ⟨depth - 1, by omega⟩
            exact .closing (ih (by omega) .code (o + 1))
        · have hnext : Reading.next .code b = .code := if_neg (by simp [hb])
          rw [if_neg (fun h => hclose h.2), hnext]
          exact (ih hdepth .code (o + 1)).plain hopen hclose
    · -- it belongs to a run
      have hrun {c : UInt8} (hc : isQuoteByte c = false) : ¬ (st = .code ∧ b = c) :=
        fun h => hcode ⟨h.1, h.2 ▸ hc⟩
      rw [if_neg hcode, if_neg (hrun (by decide)), if_neg (hrun (by decide))]
      exact (ih hdepth (st.next b) (o + 1)).skip

end CodeSurvey.Scan
