import CodeSurvey.Proofs.Balance
import CodeSurvey.Proofs.Masking
import CodeSurvey.Scan.Block
/-!
# Matching braces

The search for the end of a body goes through characters and answers with an offset in bytes. Among
bytes it is the search of `closing_spec` (`matchBrace_eq_closing`), because a character that is not ASCII
has none of the bytes that are looked for. In front of the first opening brace it is over at a semicolon
or in front of a blank line (`headerAt`), and a start inside a character makes no difference
(`exists_headerAt`).
-/
namespace CodeSurvey.Scan

open Text Utf8

/-! ## Characters as bytes -/

theorem encode_cons_of_ascii {c : Char} (h : c.toNat < 0x80) (r : List Char) :
    encode (c :: r) = c.toUInt8 :: encode r := by
  rw [encode_cons, encodeChar_of_ascii h, List.singleton_append]

theorem isQuoteByte_toUInt8 {c : Char} (hc : c.toNat < 0x80) :
    isQuoteByte c.toUInt8 = Comment.isQuote c := by
  rw [Bool.eq_iff_iff]
  simp only [isQuoteByte, Comment.isQuote, Bool.or_eq_true, beq_iff_eq]
  rw [toUInt8_inj hc (by decide), toUInt8_inj hc (by decide), toUInt8_inj hc (by decide)]

theorem isQuoteByte_of_le {b : UInt8} (hb : 0x80 ≤ b) : isQuoteByte b = false := by
  have hne {d : Char} (hd : d.toNat < 0x80) : (b == d.toUInt8) = false := by
    simpa using ne_toUInt8 hb hd
  rw [isQuoteByte, hne (by decide), hne (by decide), hne (by decide)]
  rfl

theorem toNat_lt_of_isQuote {q : Char} (h : Comment.isQuote q = true) : q.toNat < 0x80 := by
  simp only [Comment.isQuote, Bool.or_eq_true, beq_iff_eq] at h
  rcases h with (rfl | rfl) | rfl <;> decide

/-- Where a character stands, seen from its bytes. -/
def Reading.ofQuote (quote : Option Char) : Reading := quote.elim .code fun q => .quoted q.toUInt8

theorem closing_backslash (depth : Nat) (q : Char) (o : Nat) (r : List UInt8) :
    closing depth (.ofQuote (some q)) o ('\\'.toUInt8 :: r) =
      closing depth (.escaped q.toUInt8) (o + 1) r := by
  rw [Reading.ofQuote, Option.elim, closing_run, Reading.next, if_pos rfl]

section

variable {depth o : Nat} (quote : Option Char) (hquote : ∀ q ∈ quote, Comment.isQuote q = true)
include hquote

/-- No byte of a character that is not ASCII is looked for. -/
theorem closing_of_le {bs : List UInt8} (hbs : ∀ b ∈ bs, 0x80 ≤ b) (r : List UInt8) :
    closing depth (.ofQuote quote) o (bs ++ r) = closing depth (.ofQuote quote) (o + bs.length) r := by
  induction bs generalizing o with
  | nil => rfl
  | cons b bs ih =>
    obtain ⟨hb, hbs⟩ := List.forall_mem_cons.1 hbs
    have hne {c : Char} (hc : c.toNat < 0x80) : b ≠ c.toUInt8 := ne_toUInt8 hb hc
    have hnext : (Reading.ofQuote quote).next b = .ofQuote quote := by
      cases quote with
      | none => exact if_neg (by simp [isQuoteByte_of_le hb])
      | some q =>
        have hq : b ≠ q.toUInt8 := hne (toNat_lt_of_isQuote (hquote q rfl))
        have hn : b ≠ '\n'.toUInt8 := hne (by decide)
        exact (if_neg (hne (by decide))).trans (if_neg (by simp [hq, hn]))
    have hlen : o + (b :: bs).length = o + 1 + bs.length := by simp; omega
    rw [List.cons_append, closing, if_neg (fun h => hne (by decide) h.2),
      if_neg (fun h => hne (by decide) h.2), hnext, ih hbs, hlen]

end

/-- The first byte of a character is its only ASCII byte. -/
theorem exists_encodeChar_eq_cons (c : Char) :
    ∃ b bs, encodeChar c = b :: bs ∧ ∀ x ∈ bs, 0x80 ≤ x := by
  rcases Nat.lt_or_ge c.toNat 0x80 with hc | hc
  · exact ⟨_, [], encodeChar_of_ascii hc, by simp⟩
  · cases hbytes : encodeChar c with
    | nil => exact absurd hbytes (List.ne_nil_of_length_pos (length_encodeChar c ▸ Char.utf8Size_pos c))
    | cons b bs =>
      exact ⟨b, bs, rfl, fun x hx => le_of_mem_encodeChar hc (hbytes ▸ List.mem_cons_of_mem b hx)⟩

theorem utf8Size_of_ascii {c : Char} (hc : c.toNat < 0x80) : c.utf8Size = 1 := by
  rw [← length_encodeChar, encodeChar_of_ascii hc, List.length_singleton]

/-- In the code, a character that is no brace may open a run. -/
theorem closing_code {c : Char} (hopen : c ≠ '\x7b') (hclose : c ≠ '\x7d') (depth o : Nat)
    (r : List UInt8) :
    closing depth (.ofQuote none) o (encodeChar c ++ r) =
      closing depth (.ofQuote (if Comment.isQuote c then some c else none)) (o + c.utf8Size) r := by
  rcases Nat.lt_or_ge c.toNat 0x80 with hc | hc
  · have hbyte {d : Char} (hd : d.toNat < 0x80) (hne : c ≠ d) : c.toUInt8 ≠ d.toUInt8 :=
      fun h => hne ((toUInt8_inj hc hd).1 h)
    have hnext : (Reading.ofQuote none).next c.toUInt8 =
        .ofQuote (if Comment.isQuote c then some c else none) := by
      rw [Reading.ofQuote, Option.elim, Reading.next, isQuoteByte_toUInt8 hc]
      split <;> rfl
    rw [encodeChar_of_ascii hc, List.singleton_append, closing,
      if_neg (fun h => hbyte (by decide) hopen h.2), if_neg (fun h => hbyte (by decide) hclose h.2),
      hnext, utf8Size_of_ascii hc]
  · have hquote : ¬ Comment.isQuote c = true := fun h => Nat.not_lt.2 hc (toNat_lt_of_isQuote h)
    rw [if_neg hquote, ← length_encodeChar]
    exact closing_of_le none (by simp) (fun b => le_of_mem_encodeChar hc) r

/-- In a run, a character that is no backslash may close it. -/
theorem closing_quoted {c q : Char} (hq : Comment.isQuote q = true) (hback : c ≠ '\\') (depth o : Nat)
    (r : List UInt8) :
    closing depth (.ofQuote (some q)) o (encodeChar c ++ r) =
      closing depth (.ofQuote (if c = q || c = '\n' then none else some q)) (o + c.utf8Size) r := by
  have hqa := toNat_lt_of_isQuote hq
  rcases Nat.lt_or_ge c.toNat 0x80 with hc | hc
  · have hnext : (Reading.ofQuote (some q)).next c.toUInt8 =
        .ofQuote (if c = q || c = '\n' then none else some q) := by
      have hbyte : c.toUInt8 ≠ '\\'.toUInt8 := fun h => hback ((toUInt8_inj hc (by decide)).1 h)
      have hnewline : c.toUInt8 = '\n'.toUInt8 ↔ c = '\n' := toUInt8_inj hc (by decide)
      rw [Reading.ofQuote, Option.elim, Reading.next, if_neg hbyte]
      simp only [toUInt8_inj hc hqa, hnewline]
      by_cases hend : c = q ∨ c = '\n' <;> simp [hend, Reading.ofQuote]
    rw [encodeChar_of_ascii hc, List.singleton_append, utf8Size_of_ascii hc, ← hnext]
    exact closing_run depth q.toUInt8 o c.toUInt8 r
  · have hend : ¬ (decide (c = q) || decide (c = '\n')) = true := by
      simp [ne_of_ascii hc hqa, ne_of_ascii (d := '\n') hc]
    rw [if_neg hend, ← length_encodeChar]
    exact closing_of_le (some q) (by simpa using hq) (fun b => le_of_mem_encodeChar hc) r

/-- Behind a backslash, any character is passed over. -/
theorem closing_escaped {q : Char} (hq : Comment.isQuote q = true) (c : Char) (depth o : Nat)
    (r : List UInt8) :
    closing depth (.ofQuote (some q)) o ('\\'.toUInt8 :: (encodeChar c ++ r)) =
      closing depth (.ofQuote (some q)) (o + 1 + c.utf8Size) r := by
  obtain ⟨b, bs, hbytes, hbs⟩ := exists_encodeChar_eq_cons c
  have hlen : c.utf8Size = bs.length + 1 := by rw [← length_encodeChar, hbytes, List.length_cons]
  have hskip : closing depth (.escaped q.toUInt8) (o + 1) (b :: (bs ++ r)) =
      closing depth (.ofQuote (some q)) (o + 1 + 1) (bs ++ r) := by
    rw [closing, if_neg (by simp), if_neg (by simp)]
    rfl
  rw [hbytes, List.cons_append, closing_backslash, hskip,
    closing_of_le (some q) (by simpa using hq) hbs, hlen]
  congr 1
  omega

/-- **Characters and bytes are searched alike.** -/
theorem matchBrace_eq_closing (depth : Nat) (quote : Option Char)
    (hquote : ∀ q ∈ quote, Comment.isQuote q = true) (o : Nat) (s : List Char) :
    matchBrace depth quote o s = closing depth (.ofQuote quote) o (encode s) := by
  fun_induction matchBrace depth quote o s with
  | case1 => rfl
  | case2 depth o q next =>
    rw [encode_cons_of_ascii (by decide), closing_backslash]
    rfl
  | case3 depth o q c r next ih =>
    rw [ih hquote, encode_cons_of_ascii (by decide), encode_cons, closing_escaped (hquote q rfl)]
    rfl
  | case4 depth o c r next q hback ih =>
    rw [encode_cons, closing_quoted (hquote q rfl) hback]
    apply ih
    intro x hx
    split at hx
    · cases hx
    · exact hquote x hx
  | case5 depth o c r next hc ih =>
    have hne {d : Char} (hd : Comment.isQuote d = false) : c ≠ d := by
      rintro rfl
      exact absurd hc (by simp [hd])
    rw [encode_cons, closing_code (hne (by decide)) (hne (by decide)), if_pos hc]
    apply ih
    intro x hx
    rwa [← Option.some.inj hx]
  | case6 depth o r next _ ih =>
    rw [ih (by simp), encode_cons_of_ascii (by decide), closing, if_pos ⟨rfl, rfl⟩]
    rfl
  | case7 depth o r hdepth next _ _ =>
    rw [encode_cons_of_ascii (by decide), closing, if_neg (fun h => openingBrace_ne h.2.symm),
      if_pos ⟨rfl, rfl⟩, if_pos hdepth]
    rfl
  | case8 depth o r hdepth next _ _ ih =>
    rw [ih (by simp), encode_cons_of_ascii (by decide), closing,
      if_neg (fun h => openingBrace_ne h.2.symm), if_pos ⟨rfl, rfl⟩, if_neg hdepth]
    rfl
  | case9 depth o c r next hc hopen hclose ih =>
    rw [ih (by simp), encode_cons, closing_code hopen hclose, if_neg hc]

/-! ## Headers -/

/-- A byte that may stand in a blank line. -/
def IsPadByte (b : UInt8) : Prop := b = ' '.toUInt8 ∨ b = '\t'.toUInt8 ∨ b = '\r'.toUInt8

/-- The line that starts here is blank, or there is none. -/
def BlankLine (bytes : List UInt8) : Prop :=
  ∃ pad rest, bytes = pad ++ rest ∧ (∀ b ∈ pad, IsPadByte b) ∧
    (rest = [] ∨ rest.head? = some '\n'.toUInt8)

/-- A declaration ends here and has no body: at a semicolon, or at a newline in front of a blank line. -/
def Bodiless (bytes : List UInt8) (i : Nat) : Prop :=
  bytes[i]? = some ';'.toUInt8 ∨ bytes[i]? = some '\n'.toUInt8 ∧ BlankLine (bytes.drop (i + 1))

/-- From one offset to another, no body opens and no declaration ends without one. -/
def Quiet (bytes : List UInt8) (start stop : Nat) : Prop :=
  ∀ j, start ≤ j → j < stop → bytes[j]? ≠ some '\x7b'.toUInt8 ∧ ¬ Bodiless bytes j

theorem BlankLine.cons_iff {b : UInt8} {r : List UInt8} :
    BlankLine (b :: r) ↔ b = '\n'.toUInt8 ∨ IsPadByte b ∧ BlankLine r := by
  constructor
  · rintro ⟨pad, rest, hbytes, hpad, hrest⟩
    cases pad with
    | nil =>
      rw [List.nil_append] at hbytes
      subst hbytes
      simpa using Or.inl hrest
    | cons x pad =>
      obtain ⟨rfl, rfl⟩ := List.cons.inj hbytes
      obtain ⟨hx, hpad⟩ := List.forall_mem_cons.1 hpad
      exact .inr ⟨hx, pad, rest, rfl, hpad, hrest⟩
  · rintro (rfl | ⟨hb, pad, rest, rfl, hpad, hrest⟩)
    · exact ⟨[], _, rfl, by simp, .inr rfl⟩
    · exact ⟨b :: pad, rest, rfl, List.forall_mem_cons.2 ⟨hb, hpad⟩, hrest⟩

theorem blankLine_cons (c : Char) (r : List Char) :
    blankLine (c :: r) = if isPad c || c == '\r' then blankLine r else c == '\n' := by
  unfold blankLine
  rw [List.dropWhile_cons]
  by_cases hc : (isPad c || c == '\r') = true
  · rw [if_pos hc, if_pos hc]
  · rw [if_neg hc, if_neg hc]

theorem blankLine_iff (s : List Char) : blankLine s = true ↔ BlankLine (encode s) := by
  induction s with
  | nil => exact iff_of_true rfl ⟨[], [], rfl, by simp, .inl rfl⟩
  | cons c r ih =>
    obtain ⟨b, bs, hbytes, hbs⟩ := exists_encodeChar_eq_cons c
    rw [blankLine_cons, encode_cons]
    rcases Nat.lt_or_ge c.toNat 0x80 with hc | hc
    · have hpad : IsPadByte c.toUInt8 ↔ (isPad c || c == '\r') = true := by
        rw [IsPadByte, toUInt8_inj hc (by decide), toUInt8_inj hc (by decide), toUInt8_inj hc (by decide)]
        simp [isPad, or_assoc]
      rw [encodeChar_of_ascii hc, List.singleton_append, BlankLine.cons_iff, toUInt8_inj hc (by decide),
        hpad, ← ih]
      by_cases hp : (isPad c || c == '\r') = true
      · have hn : c ≠ '\n' := by
          rintro rfl
          exact absurd hp (by decide)
        simp [hp, hn]
      · simp [hp]
    · have hb : 0x80 ≤ b := le_of_mem_encodeChar hc (hbytes ▸ List.mem_cons_self)
      have hne {d : Char} (hd : d.toNat < 0x80) : c ≠ d := ne_of_ascii hc hd
      have hbne {d : Char} (hd : d.toNat < 0x80) : b ≠ d.toUInt8 := ne_toUInt8 hb hd
      have hpad : (isPad c || c == '\r') = false := by
        simp [isPad, hne (d := ' '), hne (d := '\t'), hne (d := '\r')]
      rw [hbytes, List.cons_append, BlankLine.cons_iff, hpad]
      simp [IsPadByte, hne (d := '\n'), hbne (d := '\n'), hbne (d := ' '), hbne (d := '\t'),
        hbne (d := '\r')]

namespace Quiet

variable {bytes : List UInt8} {start mid stop : Nat}

theorem refl (bytes : List UInt8) (start : Nat) : Quiet bytes start start :=
  fun _ hj hj' => absurd hj' (Nat.not_lt.2 hj)

theorem trans (h : Quiet bytes start mid) (h' : Quiet bytes mid stop) : Quiet bytes start stop := by
  intro j hj hj'
  rcases Nat.lt_or_ge j mid with hlt | hge
  · exact h j hj hlt
  · exact h' j hge hj'

/-- Bytes that are not ASCII are quiet. -/
theorem of_le (h : ∀ j, start ≤ j → j < stop → ∃ b, bytes[j]? = some b ∧ 0x80 ≤ b) :
    Quiet bytes start stop := by
  intro j hj hj'
  obtain ⟨b, hb, hle⟩ := h j hj hj'
  have hne {c : Char} (hc : c.toNat < 0x80) : bytes[j]? ≠ some c.toUInt8 :=
    fun heq => ne_toUInt8 hle hc (Option.some.inj (hb.symm.trans heq))
  refine ⟨hne (by decide), ?_⟩
  rintro (h | ⟨h, -⟩)
  · exact hne (by decide) h
  · exact hne (by decide) h

/-- A character is quiet unless it is a brace, a semicolon or a newline in front of a blank line. -/
theorem of_char (pre : List UInt8) {c : Char} {r : List Char} (hopen : c ≠ '\x7b') (hsemi : c ≠ ';')
    (hline : ¬ (c = '\n' ∧ blankLine r = true)) :
    Quiet (pre ++ (encodeChar c ++ encode r)) pre.length (pre.length + c.utf8Size) := by
  intro j hj hj'
  obtain ⟨i, rfl⟩ := Nat.exists_eq_add_of_le hj
  have hi : i < (encodeChar c).length := by
    rw [length_encodeChar]
    omega
  have hbyte : (pre ++ (encodeChar c ++ encode r))[pre.length + i]? = (encodeChar c)[i]? := by
    rw [List.getElem?_append_right (by omega), Nat.add_sub_cancel_left, List.getElem?_append_left hi]
  have hchar {d : Char} (hd : d.toNat < 0x80)
      (h : (pre ++ (encodeChar c ++ encode r))[pre.length + i]? = some d.toUInt8) : c = d := by
    rw [hbyte] at h
    exact eq_of_toUInt8_mem hd (List.mem_of_getElem? h)
  refine ⟨fun h => hopen (hchar (by decide) h), ?_⟩
  rintro (h | ⟨h, hblank⟩)
  · exact hsemi (hchar (by decide) h)
  · have hc := hchar (by decide) h
    subst hc
    have hzero : i = 0 := by
      rw [length_encodeChar] at hi
      exact Nat.lt_one_iff.1 hi
    subst hzero
    refine hline ⟨rfl, (blankLine_iff r).2 ?_⟩
    have hrest : (pre ++ (encodeChar '\n' ++ encode r)).drop (pre.length + 0 + 1) = encode r := by
      rw [Nat.add_zero, ← List.drop_drop, List.drop_left]
      rfl
    rwa [hrest] at hblank

end Quiet

/-- What the search for a body finds in the bytes of a text, from `start` on. -/
inductive HeaderAt (bytes : List UInt8) (start : Nat) : Header → Prop
  | semicolon {i : Nat} : start ≤ i → Quiet bytes start i → bytes[i]? = some ';'.toUInt8 →
      HeaderAt bytes start (.done (i + 1))
  | blankLine {i : Nat} : start ≤ i → Quiet bytes start i → bytes[i]? = some '\n'.toUInt8 →
      BlankLine (bytes.drop (i + 1)) → HeaderAt bytes start (.done i)
  | brace {i : Nat} {r : List Char} : start ≤ i → Quiet bytes start i →
      bytes.drop i = encode ('\x7b' :: r) → HeaderAt bytes start (.body i ('\x7b' :: r))
  | absent : Quiet bytes start bytes.length → HeaderAt bytes start (.body bytes.length [])

theorem HeaderAt.of_quiet {bytes : List UInt8} {start mid : Nat} (hle : start ≤ mid)
    (hquiet : Quiet bytes start mid) {x : Header} (h : HeaderAt bytes mid x) : HeaderAt bytes start x := by
  cases h with
  | semicolon hi hq hb => exact .semicolon (hle.trans hi) (hquiet.trans hq) hb
  | blankLine hi hq hb hline => exact .blankLine (hle.trans hi) (hquiet.trans hq) hb hline
  | brace hi hq hb => exact .brace (hle.trans hi) (hquiet.trans hq) hb
  | absent hq => exact .absent (hquiet.trans hq)

theorem headerAt (pre : List UInt8) (s : List Char) :
    HeaderAt (pre ++ encode s) pre.length (header pre.length s) := by
  induction s generalizing pre with
  | nil =>
    have hlen : (pre ++ encode []).length = pre.length := by simp [encode]
    have hquiet : Quiet (pre ++ encode []) pre.length (pre ++ encode []).length := by
      rw [hlen]
      exact .refl _ _
    have hfound := HeaderAt.absent hquiet
    rwa [hlen] at hfound
  | cons c r ih =>
    have hget {d : Char} (hd : d.toNat < 0x80) :
        (pre ++ encode (d :: r))[pre.length]? = some d.toUInt8 := by
      rw [List.getElem?_append_right (Nat.le_refl _), Nat.sub_self, encode_cons_of_ascii hd]
      rfl
    rw [header]
    split
    · rename_i hc
      subst hc
      exact .brace (Nat.le_refl _) (.refl _ _) List.drop_left
    · rename_i hopen
      split
      · rename_i hc
        subst hc
        exact .semicolon (Nat.le_refl _) (.refl _ _) (hget (by decide))
      · rename_i hsemi
        split
        · rename_i hc
          obtain ⟨hc, hblank⟩ : c = '\n' ∧ blankLine r = true := by simpa using hc
          subst hc
          refine .blankLine (Nat.le_refl _) (.refl _ _) (hget (by decide)) ?_
          have hrest : (pre ++ encode ('\n' :: r)).drop (pre.length + 1) = encode r := by
            rw [← List.drop_drop, List.drop_left]
            rfl
          rw [hrest]
          exact (blankLine_iff r).1 hblank
        · rename_i hline
          have hquiet := Quiet.of_char pre hopen hsemi (by simpa using hline)
          have hlater := ih (pre ++ encodeChar c)
          rw [List.length_append, length_encodeChar, List.append_assoc] at hlater
          exact hlater.of_quiet (Nat.le_add_right _ _) hquiet

/-! ## The end of a body -/

/-- What is dropped ends at `n` or with the character that holds it; a cut inside a character leaves
only bytes of it that are not ASCII. -/
theorem exists_append_dropBytes (n : Nat) (s : List Char) :
    ∃ a, s = a ++ dropBytes n s ∧ (n ≤ size a ∨ dropBytes n s = []) ∧
      ∀ b ∈ (encode a).drop n, 0x80 ≤ b := by
  induction s generalizing n with
  | nil => exact ⟨[], rfl, .inr rfl, by simp [encode]⟩
  | cons c r ih =>
    rw [dropBytes]
    split
    · exact ⟨[], rfl, .inl (by omega), by simp [encode]⟩
    · rename_i hn
      obtain ⟨a, hr, hle, hcut⟩ := ih (n - c.utf8Size)
      refine ⟨c :: a, congrArg (c :: ·) hr, hle.imp_left fun hle => by rw [size]; omega, ?_⟩
      intro b hb
      rw [encode_cons, List.drop_append, List.mem_append, length_encodeChar] at hb
      rcases hb with hb | hb
      · -- the first byte is gone
        obtain ⟨x, bs, hbytes, hbs⟩ := exists_encodeChar_eq_cons c
        obtain ⟨k, rfl⟩ : ∃ k, n = k + 1 := ⟨n - 1, by omega⟩
        rw [hbytes, List.drop_succ_cons] at hb
        exact hbs b (List.mem_of_mem_drop hb)
      · exact hcut b hb

/-- Where a declaration ends that has such a header. -/
def Header.stop : Header → Nat
  | .done stop => stop
  | .body offset rest => matchBrace 0 none offset rest

theorem braceEnd_eq_stop (s : List Char) (start : Nat) :
    braceEnd s start = (header (size s - size (dropBytes start s)) (dropBytes start s)).stop := by
  unfold braceEnd
  dsimp only
  cases header (size s - size (dropBytes start s)) (dropBytes start s) <;> rfl

theorem exists_headerAt (s : List Char) (start : Nat) :
    ∃ x, HeaderAt (encode s) start x ∧ braceEnd s start = x.stop := by
  obtain ⟨a, hs, hle, hcut⟩ := exists_append_dropBytes start s
  have hbytes : encode s = encode a ++ encode (dropBytes start s) := by
    conv_lhs => rw [hs]
    exact List.flatMap_append
  have hsize : size s - size (dropBytes start s) = (encode a).length := by
    rw [length_encode]
    conv_lhs => rw [hs, size_append, ← hs, Nat.add_sub_cancel]
  refine ⟨_, ?_, braceEnd_eq_stop s start⟩
  have hfound := headerAt (encode a) (dropBytes start s)
  rw [← hbytes] at hfound
  rw [hsize]
  rcases Nat.lt_or_ge (encode a).length start with hlt | hge
  · -- behind the end of the text there is nothing
    rw [← length_encode] at hle
    have hrest : dropBytes start s = [] := hle.resolve_left (by omega)
    have hlen : (encode s).length = (encode a).length := by rw [hbytes, hrest]; simp [encode]
    rw [hrest, header, ← hlen]
    exact .absent fun j hj hj' => absurd hj' (by omega)
  · refine hfound.of_quiet hge (.of_le fun j hj hj' => ?_)
    refine ⟨(encode a)[j], ?_, hcut _ ?_⟩
    · rw [hbytes, List.getElem?_append_left hj', List.getElem?_eq_getElem hj']
    · exact List.mem_drop_iff_getElem.2 ⟨j - start, by omega, by congr; omega⟩

theorem getElem?_of_drop_eq {bytes : List UInt8} {i : Nat} {r : List Char}
    (h : bytes.drop i = encode ('\x7b' :: r)) : bytes[i]? = some '\x7b'.toUInt8 := by
  rw [← List.head?_drop, h]
  rfl

theorem lt_length_of_getElem? {bytes : List UInt8} {i : Nat} {b : UInt8} (h : bytes[i]? = some b) :
    i < bytes.length :=
  (List.getElem?_eq_some_iff.1 h).1

/-- From its opening brace on, a body ends where its braces are balanced, or with the text. -/
theorem body_spec (bytes : List UInt8) (p : Nat) (r : List Char)
    (hp : bytes.drop p = encode ('\x7b' :: r)) :
    let stop := matchBrace 0 none p ('\x7b' :: r)
    let kept := outside .code p (bytes.drop p)
    p < stop ∧ stop ≤ bytes.length ∧
      (Balanced kept p stop ∨ (∀ q, ¬ Balanced kept p q) ∧ stop = bytes.length) := by
  intro stop kept
  have hbrace : encode ('\x7b' :: r) = '\x7b'.toUInt8 :: encode r := rfl
  have hlen : bytes.length = p + 1 + (encode r).length := by
    have h := congrArg List.length hp
    rw [List.length_drop, hbrace, List.length_cons] at h
    omega
  have hstop : stop = closing 1 .code (p + 1) (encode r) := by
    show matchBrace 0 none p ('\x7b' :: r) = _
    rw [matchBrace_eq_closing 0 none (by simp), hbrace, closing, if_pos ⟨rfl, rfl⟩]
  have hkept : kept = (p, '\x7b'.toUInt8) :: outside .code (p + 1) (encode r) := by
    show outside .code p (bytes.drop p) = _
    rw [hp, hbrace, outside, if_pos ⟨rfl, by decide⟩]
  have hfound := closing_spec Nat.one_pos .code (p + 1) (encode r)
  rw [← hstop, ← hlen] at hfound
  have hclosed (n : Nat) : countBefore kept '\x7d'.toUInt8 n =
      countBefore (outside .code (p + 1) (encode r)) '\x7d'.toUInt8 n := by
    rw [hkept, countBefore_cons_of_ne _ _ _ openingBrace_ne]
  have hopened {n : Nat} (hn : p < n) : countBefore kept '\x7b'.toUInt8 n =
      1 + countBefore (outside .code (p + 1) (encode r)) '\x7b'.toUInt8 n := by
    rw [hkept, countBefore_cons_self, if_pos hn, Nat.add_comm]
  rcases hfound with ⟨hlt, hle, heq, hless⟩ | ⟨heq, hless⟩
  · refine ⟨by omega, hle, .inl ⟨by omega, ?_, fun n hn hn' => ?_⟩⟩
    · rw [hopened (by omega), hclosed, heq]
    · rw [hopened hn, hclosed]
      exact hless n hn'
  · refine ⟨by omega, by omega, .inr ⟨fun q hq => ?_, heq⟩⟩
    obtain ⟨hpq, hbalance, -⟩ := hq
    rw [hopened hpq, hclosed] at hbalance
    exact absurd hbalance (Nat.ne_of_gt (hless q))

/-- The first place where a body opens or a declaration ends without one is the place that is found. -/
theorem HeaderAt.resolve {bytes : List UInt8} {start i : Nat} {x : Header} (h : HeaderAt bytes start x)
    (hi : start ≤ i) (hquiet : Quiet bytes start i)
    (hstop : bytes[i]? = some '\x7b'.toUInt8 ∨ Bodiless bytes i) :
    (bytes[i]? = some ';'.toUInt8 → x = .done (i + 1)) ∧
    (bytes[i]? = some '\n'.toUInt8 → x = .done i) ∧
    (bytes[i]? = some '\x7b'.toUInt8 →
      ∃ r, x = .body i ('\x7b' :: r) ∧ bytes.drop i = encode ('\x7b' :: r)) := by
  have hfirst {j : Nat} (hj : start ≤ j) (hquiet' : Quiet bytes start j)
      (hstop' : bytes[j]? = some '\x7b'.toUInt8 ∨ Bodiless bytes j) : j = i := by
    rcases Nat.lt_trichotomy j i with hlt | heq | hlt
    · obtain ⟨hbrace, hbodiless⟩ := hquiet j hj hlt
      exact (hstop'.elim hbrace hbodiless).elim
    · exact heq
    · obtain ⟨hbrace, hbodiless⟩ := hquiet' i hi hlt
      exact (hstop.elim hbrace hbodiless).elim
  -- a place holds one byte only
  have hone {b b' : UInt8} (hb : bytes[i]? = some b) (hne : b ≠ b') {P : Prop} : bytes[i]? = some b' → P :=
    fun h => absurd (Option.some.inj (hb.symm.trans h)) hne
  cases h with
  | semicolon hj hq hb =>
    obtain rfl := hfirst hj hq (.inr (.inl hb))
    exact ⟨fun _ => rfl, hone hb (by decide), hone hb (by decide)⟩
  | blankLine hj hq hb hline =>
    obtain rfl := hfirst hj hq (.inr (.inr ⟨hb, hline⟩))
    exact ⟨hone hb (by decide), fun _ => rfl, hone hb (by decide)⟩
  | @brace j r hj hq hb =>
    have hbrace := getElem?_of_drop_eq hb
    obtain rfl := hfirst hj hq (.inl hbrace)
    exact ⟨hone hbrace (by decide), hone hbrace (by decide), fun _ => ⟨r, rfl, hb⟩⟩
  | absent hq =>
    have hnone : ¬ i < bytes.length := by
      intro hlt
      obtain ⟨hbrace, hbodiless⟩ := hq i hi hlt
      exact hstop.elim hbrace hbodiless
    rw [List.getElem?_eq_none (Nat.le_of_not_lt hnone)]
    exact ⟨nofun, nofun, nofun⟩

theorem braceEnd_bounds (s : List Char) (start : Nat) :
    min start (size s) ≤ braceEnd s start ∧ braceEnd s start ≤ size s := by
  obtain ⟨x, hx, hstop⟩ := exists_headerAt s start
  rw [hstop, ← length_encode]
  cases hx with
  | semicolon hi _ hb =>
    have := lt_length_of_getElem? hb
    simp only [Header.stop]
    omega
  | blankLine hi _ hb _ =>
    have := lt_length_of_getElem? hb
    simp only [Header.stop]
    omega
  | brace hi _ hb =>
    obtain ⟨hpos, hle, -⟩ := body_spec _ _ _ hb
    simp only [Header.stop]
    omega
  | absent _ =>
    simp only [Header.stop, matchBrace]
    omega

/-- **A body ends with its matching brace.** For every text and start, inside a character or behind the
end as well, the answer lies between the start and the end of the text. A semicolon, or a newline in
front of a blank line, that comes before any opening brace ends the declaration. Otherwise let `p` be the
first opening brace. Of the text from there on, one thing is left when its quoted runs are deleted, and
the answer is the only place `q` up to which its braces are balanced while every shorter part has more
opening than closing ones, or the end of the text when there is no such place. -/
theorem braceEnd_matches (s : List Char) (start : Nat) :
    let bytes := encode s
    let stop := braceEnd s start
    (min start bytes.length ≤ stop ∧ stop ≤ bytes.length) ∧
    (∀ i, start ≤ i → Quiet bytes start i → bytes[i]? = some ';'.toUInt8 → stop = i + 1) ∧
    (∀ i, start ≤ i → Quiet bytes start i → bytes[i]? = some '\n'.toUInt8 →
      BlankLine (bytes.drop (i + 1)) → stop = i) ∧
    (∀ p, start ≤ p → Quiet bytes start p → bytes[p]? = some '\x7b'.toUInt8 →
      ∃ kept, (∀ k, Unquoted p (bytes.drop p) k ↔ k = kept) ∧
        ((∀ q, Balanced kept p q ↔ q = stop) ∨
          (∀ q, ¬ Balanced kept p q) ∧ stop = bytes.length)) ∧
    (Quiet bytes start bytes.length → stop = bytes.length) := by
  intro bytes stop
  obtain ⟨x, hx, hstop⟩ := exists_headerAt s start
  replace hstop : stop = x.stop := hstop
  refine ⟨?_, fun i hi hq hb => ?_, fun i hi hq hb hline => ?_, fun p hp hq hb => ?_, fun hq => ?_⟩
  · have hbounds := braceEnd_bounds s start
    rwa [← length_encode] at hbounds
  · rw [hstop, (hx.resolve hi hq (.inr (.inl hb))).1 hb, Header.stop]
  · rw [hstop, (hx.resolve hi hq (.inr (.inr ⟨hb, hline⟩))).2.1 hb, Header.stop]
  · obtain ⟨r, rfl, hdrop⟩ := (hx.resolve hp hq (.inl hb)).2.2 hb
    obtain ⟨-, -, hbody⟩ := body_spec bytes p r hdrop
    refine ⟨outside .code p (bytes.drop p), fun k => unquoted_iff, ?_⟩
    rw [hstop, Header.stop]
    refine hbody.imp_left fun hbalanced q => ⟨fun hq => hq.unique hbalanced, ?_⟩
    rintro rfl
    exact hbalanced
  · cases hx with
    | semicolon hi _ hb => exact ((hq _ hi (lt_length_of_getElem? hb)).2 (.inl hb)).elim
    | blankLine hi _ hb hline =>
      exact ((hq _ hi (lt_length_of_getElem? hb)).2 (.inr ⟨hb, hline⟩)).elim
    | brace hi _ hb =>
      have hbrace := getElem?_of_drop_eq hb
      exact ((hq _ hi (lt_length_of_getElem? hbrace)).1 hbrace).elim
    | absent _ => exact hstop

/-- A body with a quoted brace in it, from inside a character on. -/
theorem braceEnd_matches_quoted :
    let s := "é \x7b'\x7d'\x7d.".toList
    Quiet (encode s) 1 3 ∧ (encode s)[3]? = some '\x7b'.toUInt8 ∧
      ∃ kept, Unquoted 3 ((encode s).drop 3) kept ∧ Balanced kept 3 8 := by
  intro s
  have hquiet : Quiet (encode s) 1 3 := by
    intro j hj hj'
    obtain rfl | rfl : j = 1 ∨ j = 2 := by omega
    · exact ⟨by decide, fun h => h.elim (by decide) fun h => absurd h.1 (by decide)⟩
    · exact ⟨by decide, fun h => h.elim (by decide) fun h => absurd h.1 (by decide)⟩
  have hstop : braceEnd s 1 = 8 := by decide +kernel
  have hbrace : (encode s)[3]? = some '\x7b'.toUInt8 := by decide
  obtain ⟨-, -, -, hbody, -⟩ := braceEnd_matches s 1
  obtain ⟨kept, hkept, hend⟩ := hbody 3 (by decide) hquiet hbrace
  rw [hstop] at hend
  refine ⟨hquiet, hbrace, kept, (hkept kept).2 rfl, ?_⟩
  rcases hend with hend | ⟨-, hlen⟩
  · exact (hend 8).2 rfl
  · exact absurd hlen (by decide)

end CodeSurvey.Scan
