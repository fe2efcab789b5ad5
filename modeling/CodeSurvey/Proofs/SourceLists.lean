import CodeSurvey.Language.Go
import CodeSurvey.Proofs.NormalPath
import CodeSurvey.Proofs.Parameters
import CodeSurvey.Proofs.Positions
import CodeSurvey.Proofs.Remasking
/-!
# Sources in lists

A captured list of sources is read in one of two ways. Between commas, each part that is not blank gives
its first word; `commaSources` keeps a running offset for this, which is that of the part
(`exists_parts`). Between quotes, the search takes the first run that has a quote on both sides, then the
first one behind it (`enclosedRuns_sourcesIn`). Either way the pieces stand in the list where they say,
one behind the other, so that the line of a dependency is the one on which its own text starts
(`sourcesIn_exact`).
-/
namespace CodeSurvey

open Text Pattern

/-! ## Searching from left to right -/

namespace Pattern

variable {α : Type} {width : α → Nat} {p : Pattern α} {before : Option α} {resume offset : Nat}

theorem getLast?_cons_or (c : α) (r : List α) (before : Option α) :
    (c :: r).getLast?.or before = r.getLast?.or (some c) := by
  cases r <;> simp [List.getLast?_cons]

/-- The search passes over symbols that it has to skip or where nothing matches. -/
theorem matchesFrom_append {a rest : List α}
    (h : ∀ x y z, a = x ++ y :: z → resume ≤ offset + total width x →
      p.matchAt width (Cursor.past width ⟨before, offset, a ++ rest⟩ x (y :: (z ++ rest))) = none) :
    p.matchesFrom width resume before offset (a ++ rest) =
      p.matchesFrom width resume (a.getLast?.or before) (offset + total width a) rest := by
  induction a generalizing before offset with
  | nil => rfl
  | cons c r ih =>
    have hhere : (if offset < resume then none
        else p.matchAt width ⟨before, offset, c :: (r ++ rest)⟩) = none := by
      split
      · rfl
      · rename_i hle
        exact h [] c r rfl (Nat.le_of_not_lt hle)
    have hlater : p.matchesFrom width resume (some c) (offset + width c) (r ++ rest) =
        p.matchesFrom width resume (r.getLast?.or (some c)) (offset + width c + total width r) rest := by
      refine ih fun x y z hr hresume => ?_
      have hnone := h (c :: x) y z (by rw [hr]; rfl) (by rw [total]; omega)
      subst hr
      simpa [Cursor.past_cons] using hnone
    rw [List.cons_append, matchesFrom]
    simp only [hhere, hlater, total, getLast?_cons_or, Nat.add_assoc]

/-- A match that takes symbols is found, and the search goes on behind them. -/
theorem matchesFrom_of_matchAt (hwidth : ∀ a, 0 < width a) {t rest : List α} {m : Match}
    (hresume : resume ≤ offset) (hm : p.matchAt width ⟨before, offset, t ++ rest⟩ = some m)
    (ht : t ≠ []) (hstop : m.stop = offset + total width t) :
    p.matchesFrom width resume before offset (t ++ rest) =
      m :: p.matchesFrom width m.stop (t.getLast?.or before) (offset + total width t) rest := by
  obtain ⟨c, r, rfl⟩ := List.exists_cons_of_ne_nil ht
  rw [List.cons_append] at hm
  have hlater : p.matchesFrom width m.stop (some c) (offset + width c) (r ++ rest) =
      p.matchesFrom width m.stop (r.getLast?.or (some c)) (offset + width c + total width r) rest := by
    refine matchesFrom_append fun x y z hr hle => ?_
    have hpos := hwidth y
    rw [hstop, total, hr, total_append, total] at hle
    omega
  rw [List.cons_append, matchesFrom]
  simp only [if_neg (Nat.not_lt.2 hresume), hm, hlater, total, getLast?_cons_or,
    Nat.add_assoc]

end Pattern

namespace Scan

/-! ## Pieces of a list -/

/-- Pieces stand in a text that starts at an offset: each where it says, one behind the other. -/
structure Placed (offset : Nat) (s : List Char) (pieces : List (List Char × Nat)) : Prop where
  stands : ∀ x ∈ pieces, offset ≤ x.2 ∧ Occurs s (x.2 - offset) x.1
  ordered : pieces.Pairwise fun x y => x.2 < y.2 ∧ x.2 + size x.1 ≤ y.2

namespace Placed

variable {offset : Nat} {s : List Char} {pieces : List (List Char × Nat)}

theorem nil : Placed offset s [] :=
  ⟨fun _ h => absurd h List.not_mem_nil, .nil⟩

/-- More text in front moves no piece. -/
theorem behind (a : List Char) (h : Placed (offset + size a) s pieces) :
    Placed offset (a ++ s) pieces := by
  refine ⟨fun x hx => ?_, h.ordered⟩
  obtain ⟨hle, hocc⟩ := h.stands x hx
  have hall : Occurs (a ++ s) (size a) s := ⟨a, [], by simp, rfl⟩
  have hoffset : x.2 - offset = size a + (x.2 - (offset + size a)) := by omega
  exact ⟨by omega, hoffset ▸ hall.trans hocc⟩

/-- A piece in front of those that stand behind it. -/
theorem cons {lead w : List Char} (hw : w ≠ [])
    (h : Placed (offset + size lead + size w) s pieces) :
    Placed offset (lead ++ (w ++ s)) ((w, offset + size lead) :: pieces) := by
  have hlater : Placed offset (lead ++ (w ++ s)) pieces := by
    rw [← List.append_assoc]
    exact .behind (lead ++ w) (by rwa [size_append, ← Nat.add_assoc])
  have hpos : size w ≠ 0 := fun hzero => hw (Comment.size_eq_zero hzero)
  refine ⟨List.forall_mem_cons.2 ⟨⟨Nat.le_add_right _ _, ?_⟩, hlater.stands⟩,
    List.pairwise_cons.2 ⟨fun y hy => ?_, h.ordered⟩⟩
  · rw [Nat.add_sub_cancel_left]
    exact ⟨lead, s, rfl, rfl⟩
  · have hle := (h.stands y hy).1
    exact ⟨by dsimp only; omega, hle⟩

end Placed

/-! ## Parts between commas -/

/-- The parts of a text between its commas, each with the offset at which it starts. -/
inductive Parts : Nat → List Char → List (List Char × Nat) → Prop
  | last {offset : Nat} {part : List Char} (hpart : ',' ∉ part) : Parts offset part [(part, offset)]
  | next {offset : Nat} {part rest : List Char} {parts : List (List Char × Nat)} (hpart : ',' ∉ part)
      (hrest : Parts (offset + size part + 1) rest parts) :
      Parts offset (part ++ ',' :: rest) ((part, offset) :: parts)

/-- A piece is the first word of a part, between its leading blanks and a blank or the end, at its own
offset. -/
def FirstWord (part piece : List Char × Nat) : Prop :=
  ∃ lead tail, part.1 = lead ++ (piece.1 ++ tail) ∧ Blank lead ∧ IsWord piece.1 ∧
    (∀ c ∈ tail.head?, isBlank c = true) ∧ piece.2 = part.2 + size lead

theorem takeWhile_isBlank {lead w : List Char} (hlead : Blank lead) (hw : IsWord w) (tail : List Char) :
    (lead ++ (w ++ tail)).takeWhile isBlank = lead := by
  obtain ⟨c, r, rfl⟩ := List.exists_cons_of_ne_nil hw.1
  have hc : isBlank c = false := hw.2 c List.mem_cons_self
  rw [List.takeWhile_append_of_pos hlead, List.cons_append, List.takeWhile_cons_of_neg (by simp [hc]),
    List.append_nil]

/-- A word ends at a blank or with the text. -/
theorem exists_words_eq_cons {lead w tail : List Char} (hlead : Blank lead) (hw : IsWord w)
    (htail : ∀ c ∈ tail.head?, isBlank c = true) : ∃ ws, words (lead ++ (w ++ tail)) = w :: ws := by
  rw [words_append_of_blank hlead]
  cases tail with
  | nil => exact ⟨[], by rw [List.append_nil, words_of_isWord hw]⟩
  | cons c rest =>
    have hc : isBlank c = true := htail c rfl
    exact ⟨words rest, by rw [words_append hc, words_of_isWord hw, List.singleton_append]⟩

/-- A blank part has no word, and any other one has a first. -/
theorem words_cases (part : List Char) : Blank part ∧ words part = [] ∨
    ¬ Blank part ∧ ∃ w ws, words part = w :: ws ∧
      ∀ offset, FirstWord (part, offset) (w, offset + size (part.takeWhile isBlank)) := by
  rcases blank_or_word part with hblank | ⟨lead, w, hlead, hw, hpart⟩
  · exact .inl ⟨hblank, words_of_blank hblank⟩
  · obtain ⟨tail, htail, rfl⟩ : ∃ tail : List Char, (∀ c ∈ tail.head?, isBlank c = true) ∧
        part = lead ++ (w ++ tail) := by
      rcases hpart with rfl | ⟨c, rest, hc, rfl⟩
      · exact ⟨[], by simp, by rw [List.append_nil]⟩
      · exact ⟨c :: rest, by simpa using hc, rfl⟩
    obtain ⟨ws, hwords⟩ := exists_words_eq_cons hlead hw htail
    refine .inr ⟨fun hblank => ?_, w, ws, hwords, fun offset => ?_⟩
    · rw [words_of_blank hblank] at hwords
      cases hwords
    · rw [takeWhile_isBlank hlead hw]
      exact ⟨lead, tail, rfl, hlead, hw, htail, rfl⟩

/-- **The running offset is that of the part**: each part that is not blank gives its first word. -/
theorem exists_parts {ws : List (List Char)} {s : List Char} (h : splitAt ',' s = ws) (offset : Nat) :
    ∃ parts, Parts offset s parts ∧
      List.Forall₂ FirstWord (parts.filter fun part => ¬ Blank part.1) (commaSources offset ws) := by
  induction ws generalizing s offset with
  | nil => exact absurd h (FileSystem.splitBy_ne_nil _ s)
  | cons part ws ih =>
    have hpart : ',' ∉ part := Path.not_mem_of_mem_splitAt (h ▸ List.mem_cons_self)
    obtain ⟨parts, hparts, hpieces⟩ : ∃ parts, Parts offset s ((part, offset) :: parts) ∧
        List.Forall₂ FirstWord (parts.filter fun part => ¬ Blank part.1)
          (commaSources (offset + size part + 1) ws) := by
      rcases splitAt_eq_cons h with ⟨rfl, rfl⟩ | ⟨rest, rfl, hrest⟩
      · exact ⟨[], .last hpart, .nil⟩
      · obtain ⟨parts, hparts, hpieces⟩ := ih hrest (offset + size part + 1)
        exact ⟨parts, .next hpart hparts, hpieces⟩
    refine ⟨(part, offset) :: parts, hparts, ?_⟩
    rw [commaSources]
    rcases words_cases part with ⟨hblank, hwords⟩ | ⟨hblank, w, more, hwords, hfirst⟩
    · rw [hwords, List.filter_cons_of_neg (by simpa using hblank)]
      exact hpieces
    · rw [hwords, List.filter_cons_of_pos (by simpa using hblank)]
      exact .cons (hfirst offset) hpieces

/-- The first word of a part stands in front of what is behind the part. -/
theorem FirstWord.placed {offset : Nat} {part s : List Char} {piece : List Char × Nat}
    {pieces : List (List Char × Nat)} (h : FirstWord (part, offset) piece)
    (hlater : Placed (offset + size part) s pieces) : Placed offset (part ++ s) (piece :: pieces) := by
  obtain ⟨w, n⟩ := piece
  obtain ⟨lead, tail, hpart, -, hw, -, hoffset⟩ := h
  dsimp only at hpart hw hoffset
  subst hpart hoffset
  rw [List.append_assoc, List.append_assoc]
  refine .cons hw.1 (.behind tail ?_)
  simpa only [size_append, Nat.add_assoc] using hlater

/-- First words of parts stand in the text one behind the other. -/
theorem Parts.placed {offset : Nat} {s : List Char} {parts pieces : List (List Char × Nat)}
    (h : Parts offset s parts)
    (hpieces : List.Forall₂ FirstWord (parts.filter fun part => ¬ Blank part.1) pieces) :
    Placed offset s pieces := by
  induction h generalizing pieces with
  | @last offset part _ =>
    by_cases hblank : Blank part
    · rw [List.filter_cons_of_neg (by simpa using hblank)] at hpieces
      cases hpieces
      exact .nil
    · rw [List.filter_cons_of_pos (by simpa using hblank)] at hpieces
      rcases hpieces with _ | ⟨hfirst, hnone⟩
      cases hnone
      simpa using hfirst.placed (s := []) .nil
  | @next offset part rest parts _ _ ih =>
    -- the comma is behind the part and in front of the others
    have hbehind {later : List (List Char × Nat)}
        (h : List.Forall₂ FirstWord (parts.filter fun part => ¬ Blank part.1) later) :
        Placed (offset + size part) (',' :: rest) later := .behind [','] (ih h)
    by_cases hblank : Blank part
    · rw [List.filter_cons_of_neg (by simpa using hblank)] at hpieces
      exact .behind part (hbehind hpieces)
    · rw [List.filter_cons_of_pos (by simpa using hblank)] at hpieces
      rcases hpieces with _ | ⟨hfirst, hlater⟩
      exact hfirst.placed (hbehind hlater)

/-! ## Runs between quotes -/

/-- A run that is not empty stands between two double quotes and holds none. -/
structure EnclosedRun (s front run rest : List Char) : Prop where
  text : s = front ++ '"' :: (run ++ '"' :: rest)
  ne_nil : run ≠ []
  noQuote : '"' ∉ run

/-- The quoted runs of a text that starts at an offset: always the one that starts first, then those
behind its closing quote. -/
inductive EnclosedRuns : Nat → List Char → List (List Char × Nat) → Prop
  | done {offset : Nat} {s : List Char} (hnone : ∀ front run rest, ¬ EnclosedRun s front run rest) :
      EnclosedRuns offset s []
  | next {offset : Nat} {s front run rest : List Char} {pieces : List (List Char × Nat)}
      (hrun : EnclosedRun s front run rest)
      (hfirst : ∀ front' run' rest', EnclosedRun s front' run' rest' → front.length ≤ front'.length)
      (hrest : EnclosedRuns (offset + size front + 1 + size run + 1) rest pieces) :
      EnclosedRuns offset s ((run, offset + size front + 1) :: pieces)

theorem EnclosedRun.behind {s front run rest : List Char} (h : EnclosedRun s front run rest)
    (a : List Char) : EnclosedRun (a ++ s) (a ++ front) run rest :=
  ⟨by rw [h.text, List.append_assoc], h.ne_nil, h.noQuote⟩

/-- Behind one opening quote stands at most one run. -/
theorem EnclosedRun.unique {s run rest run' rest' : List Char} (h : EnclosedRun s [] run rest)
    (h' : EnclosedRun s [] run' rest') : run = run' ∧ rest = rest' := by
  have hsame : run ++ '"' :: rest = run' ++ '"' :: rest' := by
    simpa [h.text] using h'.text
  have htake {run : List Char} (hrun : '"' ∉ run) (rest : List Char) :
      (run ++ '"' :: rest).takeWhile (· != '"') = run := by
    have hall : ∀ c ∈ run, (c != '"') = true := by
      intro c hc
      have hne : c ≠ '"' := fun heq => hrun (heq ▸ hc)
      simpa using hne
    rw [List.takeWhile_append_of_pos hall]
    simp
  have hrun : run = run' := by rw [← htake h.noQuote rest, hsame, htake h'.noQuote]
  subst hrun
  simpa using hsame

theorem takes_quotedPattern {b : Option Char} {t r : List Char} {k : List (Capture Char)}
    (h : Takes quotedPattern b t r k) :
    ∃ run, t = '"' :: (run ++ ['"']) ∧ run ≠ [] ∧ '"' ∉ run ∧ k = [⟨"source", ['"'], run⟩] := by
  obtain ⟨opening, later, _, _, rfl, rfl, hopening, h⟩ := TextPattern.takes_inOrder h
  obtain ⟨run, closing, _, _, rfl, rfl, hgroup, hclosing⟩ := TextPattern.takes_inOrder h
  obtain ⟨rfl, rfl⟩ := TextPattern.takes_lit hopening
  obtain ⟨rfl, rfl⟩ := TextPattern.takes_lit hclosing
  obtain ⟨k, rfl, hrun⟩ := TextPattern.takes_cap hgroup
  obtain ⟨hne, hall, rfl⟩ := TextPattern.takes_many1 hrun
  refine ⟨run, rfl, hne, fun hquote => ?_, rfl⟩
  exact absurd (hall '"' hquote) (by decide)

theorem EnclosedRun.takes {s run rest : List Char} (h : EnclosedRun s [] run rest) (b : Option Char) :
    Takes quotedPattern b ('"' :: (run ++ ['"'])) rest [⟨"source", ['"'], run⟩] := by
  obtain ⟨c, r, rfl⟩ := List.exists_cons_of_ne_nil h.ne_nil
  have hall : ∀ d ∈ c :: r, TextPattern.noneOf "\"" d = true := by
    intro d hd
    have hne : d ≠ '"' := fun heq => h.noQuote (heq ▸ hd)
    simpa [TextPattern.noneOf] using hne
  obtain ⟨hc, hr⟩ := List.forall_mem_cons.1 hall
  have hrun : Takes (TextPattern.many1 (TextPattern.noneOf "\"")) (some '"') (c :: r)
      ('"' :: rest) [] := .seq (.one hc) (.span hr)
  have hgroup : Takes (TextPattern.cap "source" (TextPattern.many1 (TextPattern.noneOf "\"")))
      (some '"') (c :: r) ('"' :: rest) [⟨"source", [], c :: r⟩] := .group hrun
  have hclosed := Takes.seq hgroup (TextPattern.takes_chars "\"")
  exact .seq (TextPattern.takes_chars "\"") hclosed

/-- What the search finds where a run starts: its range with the quotes and, as a group, without. -/
theorem matchAt_quotedPattern {s run rest : List Char} (h : EnclosedRun s [] run rest)
    (before : Option Char) (offset : Nat) :
    quotedPattern.matchAt Char.utf8Size ⟨before, offset, s⟩ =
      some ⟨⟨offset, offset + size ('"' :: (run ++ ['"']))⟩,
        [("source", ⟨offset + 1, offset + 1 + size run⟩)]⟩ := by
  have htext : s = '"' :: (run ++ ['"']) ++ rest := by simp [h.text]
  obtain ⟨m, hm⟩ := Option.isSome_iff_exists.1
    (isSome_matchAt Char.utf8Size_pos (c := ⟨before, offset, s⟩) htext (h.takes before))
  obtain ⟨t, rest', k, hafter, htakes, hspan, hgroups⟩ := takes_of_matchAt hm
  obtain ⟨run', rfl, hne, hquote, rfl⟩ := takes_quotedPattern htakes
  obtain ⟨rfl, -⟩ := h.unique ⟨by simpa using hafter, hne, hquote⟩
  rw [hm]
  obtain ⟨span, groups⟩ := m
  dsimp only at hspan hgroups
  rw [hspan, hgroups, size_eq_total, size_eq_total]
  rfl

/-- A match stands where a run starts. -/
theorem exists_enclosedRun {c : Cursor Char} {m : Match}
    (h : quotedPattern.matchAt Char.utf8Size c = some m) :
    ∃ run rest, EnclosedRun c.after [] run rest := by
  obtain ⟨t, rest, k, hafter, htakes, -⟩ := takes_of_matchAt h
  obtain ⟨run, rfl, hne, hquote, -⟩ := takes_quotedPattern htakes
  exact ⟨run, rest, by simpa using hafter, hne, hquote⟩

/-- A text has no quoted run, or one that starts first. -/
theorem exists_first_enclosedRun (s : List Char) : (∀ front run rest, ¬ EnclosedRun s front run rest) ∨
    ∃ front run rest, EnclosedRun s front run rest ∧
      ∀ front' run' rest', EnclosedRun s front' run' rest' → front.length ≤ front'.length := by
  classical
  by_cases h : ∃ n front run rest, EnclosedRun s front run rest ∧ front.length = n
  · obtain ⟨front, run, rest, hrun, hlength⟩ := Nat.find_spec h
    refine .inr ⟨front, run, rest, hrun, fun front' run' rest' hrun' => ?_⟩
    rw [hlength]
    exact Nat.find_min' h ⟨front', run', rest', hrun', rfl⟩
  · exact .inl fun front run rest hrun => h ⟨_, front, run, rest, hrun, rfl⟩

/-- The search passes over what is in front of the first run, takes it and goes on behind its closing
quote. -/
theorem matchesFrom_enclosedRun {s front run rest : List Char} (hrun : EnclosedRun s front run rest)
    (hfirst : ∀ front' run' rest', EnclosedRun s front' run' rest' → front.length ≤ front'.length)
    {past : List Char} {resume : Nat} (hresume : resume ≤ size past) (before : Option Char) :
    let start := size (past ++ front)
    let stop := size (past ++ (front ++ '"' :: (run ++ ['"'])))
    ∃ last, quotedPattern.matchesFrom Char.utf8Size resume before (size past) s =
      ⟨⟨start, stop⟩, [("source", ⟨start + 1, start + 1 + size run⟩)]⟩ ::
        quotedPattern.matchesFrom Char.utf8Size stop last stop rest := by
  intro start stop
  have htext : s = front ++ ('"' :: (run ++ ['"']) ++ rest) := by simp [hrun.text]
  have hstart : size past + total Char.utf8Size front = start := by rw [← size_eq_total, ← size_append]
  have hstop : start + size ('"' :: (run ++ ['"'])) = stop := by
    rw [← size_append, List.append_assoc]
  have hpass : quotedPattern.matchesFrom Char.utf8Size resume before (size past) s =
      quotedPattern.matchesFrom Char.utf8Size resume (front.getLast?.or before) start
        ('"' :: (run ++ ['"']) ++ rest) := by
    rw [htext, ← hstart]
    refine matchesFrom_append fun x y z hfront _ => ?_
    -- a match in front of the first run would be a run itself
    by_contra hmatch
    obtain ⟨m, hm⟩ := Option.ne_none_iff_exists'.1 hmatch
    obtain ⟨run', rest', hearlier⟩ := exists_enclosedRun hm
    have hbehind := hearlier.behind x
    have hsame : x ++ y :: (z ++ ('"' :: (run ++ ['"']) ++ rest)) = s := by
      simp [htext, hfront]
    have hle := hfirst _ _ _ (hsame ▸ hbehind)
    rw [hfront, List.append_nil, List.length_append, List.length_cons] at hle
    omega
  have hhere : EnclosedRun ('"' :: (run ++ ['"']) ++ rest) [] run rest :=
    ⟨by simp, hrun.ne_nil, hrun.noQuote⟩
  have hmatch := matchAt_quotedPattern hhere (front.getLast?.or before) start
  rw [hstop] at hmatch
  have hwidth : stop = start + total Char.utf8Size ('"' :: (run ++ ['"'])) := by
    rw [← size_eq_total, hstop]
  have hle : resume ≤ start := by
    refine hresume.trans ?_
    rw [← hstart]
    exact Nat.le_add_right _ _
  have hfound := matchesFrom_of_matchAt Char.utf8Size_pos hle hmatch (List.cons_ne_nil _ _) hwidth
  rw [← hwidth] at hfound
  exact ⟨_, hpass.trans hfound⟩

/-- **The search takes the runs one by one**, from any place of a text on. -/
theorem enclosedRuns_matchesFrom (base : Nat) (past s : List Char) (before : Option Char) {resume : Nat}
    (hresume : resume ≤ size past) :
    EnclosedRuns (base + size past) s
      ((quotedPattern.matchesFrom Char.utf8Size resume before (size past) s).filterMap fun m =>
        (m.group? "source").map fun sp =>
          (slice sp.start sp.stop (past ++ s), base + sp.start)) := by
  -- each run is taken off with its quotes and all in front of it, so the induction is on the length
  induction hn : s.length using Nat.strongRecOn generalizing past s before resume with
  | ind n ih =>
    subst hn
    rcases exists_first_enclosedRun s with hnone | ⟨front, run, rest, hrun, hfirst⟩
    · have hempty : quotedPattern.matchesFrom Char.utf8Size resume before (size past) s = [] := by
        refine List.eq_nil_iff_forall_not_mem.2 fun m hm => ?_
        obtain ⟨a, b, rfl, hm⟩ := mem_matchesFrom hm
        obtain ⟨run, rest, hrun⟩ := exists_enclosedRun hm
        exact hnone _ _ _ (hrun.behind a)
      rw [hempty]
      exact .done hnone
    · obtain ⟨last, hscan⟩ := matchesFrom_enclosedRun hrun hfirst hresume before
      have hquote (t : List Char) : size (t ++ ['"']) = size t + 1 := size_append t ['"']
      have htext : past ++ s = past ++ (front ++ '"' :: (run ++ ['"'])) ++ rest := by simp [hrun.text]
      have hslice : slice (size (past ++ front) + 1) (size (past ++ front) + 1 + size run) (past ++ s) =
          run := by
        have hcuts : Cuts (past ++ s)
            ⟨size (past ++ front) + 1, size (past ++ front) + 1 + size run⟩ run :=
          ⟨⟨past ++ front ++ ['"'], '"' :: rest, by simp [hrun.text], hquote _⟩, rfl⟩
        exact hcuts.slice_eq
      have hlater := ih rest.length (by simp [hrun.text]; omega)
        (past ++ (front ++ '"' :: (run ++ ['"']))) rest last (Nat.le_refl _) rfl
      rw [← htext] at hlater
      have hoffset : base + size (past ++ (front ++ '"' :: (run ++ ['"']))) =
          base + size past + size front + 1 + size run + 1 := by
        have hsize : size ('"' :: (run ++ ['"'])) = 1 + size (run ++ ['"']) := rfl
        rw [size_append past, size_append front, hsize, hquote]
        omega
      have hstart : base + (size (past ++ front) + 1) = base + size past + size front + 1 := by
        rw [size_append]
        omega
      rw [hoffset] at hlater
      rw [hscan, List.filterMap_cons_some (by rfl)]
      dsimp only
      rw [hslice, hstart]
      exact .next hrun hfirst hlater

theorem enclosedRuns_sourcesIn (text : List Char) (base : Nat) :
    EnclosedRuns base text (sourcesIn .quoted text base) :=
  enclosedRuns_matchesFrom base [] text none (Nat.le_refl 0)

-- the second of two adjacent quotes opens a run
example : sourcesIn .quoted "\"\"a\" \"b".toList 0 = [("a".toList, 2)] := by decide +kernel

/-- Quoted runs stand in the text one behind the other. -/
theorem EnclosedRuns.placed {offset : Nat} {s : List Char} {pieces : List (List Char × Nat)}
    (h : EnclosedRuns offset s pieces) : Placed offset s pieces := by
  induction h with
  | done _ => exact .nil
  | @next offset s front run rest pieces hrun _ _ ih =>
    have hopening : offset + size front + 1 = offset + size (front ++ ['"']) := by
      rw [size_append, Nat.add_assoc]
      rfl
    have htext : s = (front ++ ['"']) ++ (run ++ '"' :: rest) := by simp [hrun.text]
    rw [hopening] at ih ⊢
    rw [htext]
    exact .cons hrun.ne_nil (.behind ['"'] ih)

/-! ## Dependencies on their lines -/

/-- **Sources of a list are placed exactly**, whichever way the list is read. -/
theorem placed_sourcesIn {form : SourceForm} (h : form ≠ .whole) (text : List Char) (base : Nat) :
    Placed base text (sourcesIn form text base) := by
  cases form with
  | whole => exact absurd rfl h
  | commas =>
    obtain ⟨parts, hparts, hpieces⟩ := exists_parts rfl base
    exact hparts.placed hpieces
  | quoted => exact (enclosedRuns_sourcesIn text base).placed

/-- A dependency is reported on the line on which its own text starts: the text stands at an offset, it
is read there outside the comments, and the line is one more than the newlines in front. -/
structure OnOwnLine (sc : Scan) (offset : Nat) (d : Dependency) : Prop where
  occurs : Occurs sc.masked offset d.source.toList
  reads : sc.ReadsAt offset d.source.toList
  line : d.line = ((Utf8.encode sc.source).take offset).count 10 + 1

/-- The dependencies of a rule are the pieces of what it captures. -/
theorem pieces_dependenciesBy (sc : Scan) (fs : FileSystem) (file : OsString) (rule : DependencyRule) :
    (sc.dependenciesBy fs file rule).map (fun x => (x.2.source.toList, x.1)) =
      (rule.pattern.findAll sc.masked).flatMap fun m =>
        (m.group? "source").elim [] fun sp => sourcesIn rule.split (sc.text sp) sp.start := by
  rw [dependenciesBy, List.map_flatMap]
  refine List.flatMap_congr fun m _ => ?_
  cases m.group? "source" with
  | none => rfl
  | some sp => simp [Function.comp_def]

theorem line_of_mem {sc : Scan} {fs : FileSystem} {file : OsString} {rule : DependencyRule}
    {x : Nat × Dependency} (hx : x ∈ sc.dependenciesBy fs file rule) :
    x.2.line = sc.lines.line x.1 := by
  obtain ⟨m, -, hx⟩ := List.mem_flatMap.1 hx
  split at hx
  · cases hx
  · obtain ⟨piece, -, rfl⟩ := List.mem_map.1 hx
    rfl

theorem onOwnLine_of_mem {l : Language} {source : List Char} {fs : FileSystem} {file : OsString}
    {rule : DependencyRule} (hsplit : rule.split ≠ .whole) {x : Nat × Dependency}
    (hx : x ∈ (ofSource l source).dependenciesBy fs file rule) :
    (ofSource l source).OnOwnLine x.1 x.2 := by
  have hpiece := List.mem_map_of_mem (f := fun x => (x.2.source.toList, x.1)) hx
  rw [pieces_dependenciesBy] at hpiece
  obtain ⟨m, hm, hpiece⟩ := List.mem_flatMap.1 hpiece
  cases hsp : m.group? "source" with
  | none =>
    rw [hsp] at hpiece
    cases hpiece
  | some sp =>
    rw [hsp] at hpiece
    obtain ⟨hle, hocc⟩ := (placed_sourcesIn hsplit _ _).stands _ hpiece
    have hstands := (cuts_text hm hsp).1.occurs.trans hocc
    rw [Nat.add_sub_cancel' hle] at hstands
    refine ⟨hstands, readsAt_of_occurs hstands, ?_⟩
    rw [line_of_mem hx]
    exact LineIndex.line_eq_count source x.1

/-- Lists of sources are taken apart exactly, for every text and every offset at which it starts. In both
forms each piece stands in the text where it says, behind the end of the one before. Between commas there
is one piece for each part that is not blank, its first word. Between quotes the pieces are the runs that
are not empty, one after the other. So, whatever the table and the source, a rule with one of these forms
reports the pieces of its captures, each on the line on which it starts. -/
theorem sourcesIn_exact (text : List Char) (base : Nat) (l : Language) (source : List Char) :
    (∀ form, form ≠ .whole → Placed base text (sourcesIn form text base)) ∧
    (∃ parts, Parts base text parts ∧ List.Forall₂ FirstWord
      (parts.filter fun part => ¬ Blank part.1) (sourcesIn .commas text base)) ∧
    EnclosedRuns base text (sourcesIn .quoted text base) ∧
    ∀ fs file, ∀ rule ∈ l.dependencies, rule.split ≠ .whole →
      let sc := ofSource l source
      (sc.dependenciesBy fs file rule).map (fun x => (x.2.source.toList, x.1)) =
        ((rule.pattern.findAll sc.masked).flatMap fun m =>
          (m.group? "source").elim [] fun sp => sourcesIn rule.split (sc.text sp) sp.start) ∧
      ∀ x ∈ sc.dependenciesBy fs file rule, x.2 ∈ sc.dependencies fs file ∧ sc.OnOwnLine x.1 x.2 := by
  refine ⟨fun form hform => placed_sourcesIn hform text base, exists_parts rfl base,
    enclosedRuns_sourcesIn text base, fun fs file rule hrule hsplit => ?_⟩
  refine ⟨pieces_dependenciesBy _ fs file rule, fun x hx => ⟨?_, onOwnLine_of_mem hsplit hx⟩⟩
  exact mem_byOffset.2 ⟨x.1, List.mem_flatMap.2 ⟨rule, hrule, hx⟩⟩

/-- Imports between commas, with a blank part among them, and the second source of an import block,
behind a comment. -/
theorem sourcesIn_exact_block :
    let source := "import (\n\t\"é\" // \"x\"\n\n\t\"b/c\"\n)".toList
    let sc := ofSource Language.Go.table source
    let d : Dependency := ⟨"b/c", .imports, false, 4, none⟩
    Placed 7 "é as e, ,\n b".toList (sourcesIn .commas "é as e, ,\n b".toList 7) ∧
      ∃ rule ∈ Language.Go.table.dependencies, rule.split ≠ .whole ∧
        (25, d) ∈ sc.dependenciesBy .empty "m.go" rule ∧ d ∈ sc.dependencies .empty "m.go" ∧
        sc.OnOwnLine 25 d := by
  intro source sc d
  obtain ⟨hplaced, -, -, hlines⟩ :=
    sourcesIn_exact "é as e, ,\n b".toList 7 Language.Go.table source
  refine ⟨hplaced .commas (by decide), ?_⟩
  obtain ⟨rule, hrule, hsplit, hd⟩ : ∃ rule ∈ Language.Go.table.dependencies, rule.split ≠ .whole ∧
      (25, d) ∈ sc.dependenciesBy .empty "m.go" rule := by decide +kernel
  exact ⟨rule, hrule, hsplit, hd, (hlines .empty "m.go" rule hrule hsplit).2 (25, d) hd⟩

end Scan

end CodeSurvey
