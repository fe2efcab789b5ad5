import CodeSurvey.Language.Basic
import CodeSurvey.Proofs.Literals
import CodeSurvey.Proofs.Matching
/-!
# The search for comments

The search looks for the next match from where it stands. It goes on behind a comment, or one character
behind a match that it passes over. `spansFrom_cases` says what comes of that: the first comment that
begins, then the search behind it. So the search is the scan `Greedy`, for every way to match that ends
between characters (`search_greedy`).
-/
namespace CodeSurvey

open Text Pattern

namespace Comment

/-! ## Matches of a finder -/

/-- Wherever a text is cut, matches go from the cut to another place between characters. -/
def Finder.Aligned (f : Finder) (s : List Char) : Prop :=
  ∀ past after m, s = past ++ after → f (place past after) = some m →
    ∃ t rest, after = t ++ rest ∧ m.span = ⟨size past, size past + size t⟩

theorem aligned_matchAt (p : TextPattern) (s : List Char) :
    Finder.Aligned (p.matchAt Char.utf8Size) s := by
  intro past after m _ hm
  obtain ⟨t, rest, k, hafter, -, hspan, -⟩ := takes_of_matchAt hm
  rw [← size_eq_total] at hspan
  exact ⟨t, rest, hafter, hspan⟩

/-- A comment begins at a place: a match that is not empty, outside the literals of the line. -/
structure Begins (f : Finder) (past after : List Char) (m : Match) : Prop where
  found : f (place past after) = some m
  long : m.start < m.stop
  outside : endsQuoted past = false

variable {f : Finder} {past after : List Char}

theorem firstMatch?_eq_none (h : firstMatch? f past.getLast? (size past) after = none)
    {a b : List Char} (hsplit : after = a ++ b) : f (place (past ++ a) b) = none := by
  induction after generalizing past a with
  | nil =>
    obtain ⟨rfl, rfl⟩ := List.append_eq_nil_iff.1 hsplit.symm
    rw [List.append_nil]
    exact Option.map_eq_none_iff.1 h
  | cons c r ih =>
    rw [firstMatch?] at h
    split at h
    · cases h
    · rename_i hhere
      cases a with
      | nil =>
        obtain rfl : c :: r = b := hsplit
        rw [List.append_nil]
        exact hhere
      | cons d a =>
        obtain ⟨rfl, rfl⟩ := List.cons.inj hsplit
        have hlater := Option.map_eq_none_iff.1 h
        have hplace : (past ++ [c]).getLast? = some c := List.getLast?_concat
        rw [List.append_cons]
        refine ih ?_ rfl
        rw [hplace, size_append]
        exact hlater

/-- The first match: nothing matches at the places that are passed. -/
theorem firstMatch?_eq_some {n : Nat} {m : Match}
    (h : firstMatch? f past.getLast? (size past) after = some (n, m)) :
    ∃ a b, after = a ++ b ∧ a.length = n ∧ f (place (past ++ a) b) = some m ∧
      ∀ x y, a = x ++ y → y ≠ [] → f (place (past ++ x) (y ++ b)) = none := by
  induction after generalizing past n with
  | nil =>
    obtain ⟨m', hm, hpair⟩ := Option.map_eq_some_iff.1 h
    obtain ⟨rfl, rfl⟩ := Prod.mk.inj hpair
    refine ⟨[], [], rfl, rfl, by rwa [List.append_nil], fun x y hxy hy => ?_⟩
    exact absurd (List.append_eq_nil_iff.1 hxy.symm).2 hy
  | cons c r ih =>
    rw [firstMatch?] at h
    split at h
    · rename_i m' hm
      obtain ⟨rfl, rfl⟩ := Prod.mk.inj (Option.some.inj h)
      refine ⟨[], c :: r, rfl, rfl, by rwa [List.append_nil], fun x y hxy hy => ?_⟩
      exact absurd (List.append_eq_nil_iff.1 hxy.symm).2 hy
    · rename_i hhere
      obtain ⟨⟨k, m'⟩, hlater, hpair⟩ := Option.map_eq_some_iff.1 h
      obtain ⟨rfl, rfl⟩ := Prod.mk.inj hpair
      have hplace : (past ++ [c]).getLast? = some c := List.getLast?_concat
      have hfirst : firstMatch? f (past ++ [c]).getLast? (size (past ++ [c])) r = some (k, m') := by
        rw [hplace, size_append]
        exact hlater
      obtain ⟨a, b, rfl, hlength, hm, hnone⟩ := ih hfirst
      refine ⟨c :: a, b, rfl, by rw [List.length_cons, hlength], by rwa [List.append_cons], ?_⟩
      intro x y hxy hy
      cases x with
      | nil =>
        obtain rfl : c :: a = y := hxy
        rw [List.append_nil]
        exact hhere
      | cons d x =>
        obtain ⟨rfl, rfl⟩ := List.cons.inj hxy
        rw [List.append_cons]
        exact hnone x y rfl hy

/-- No comment begins in a text that is passed, in front of others. -/
def Passed (f : Finder) (past u rest : List Char) : Prop :=
  ∀ x y m, u = x ++ y → y ≠ [] → ¬ Begins f (past ++ x) (y ++ rest) m

theorem Passed.append {u v rest : List Char} (hu : Passed f past u (v ++ rest))
    (hv : Passed f (past ++ u) v rest) : Passed f past (u ++ v) rest := by
  intro x y m hxy hy
  rcases List.append_eq_append_iff.1 hxy with ⟨z, rfl, rfl⟩ | ⟨z, rfl, rfl⟩
  · rw [← List.append_assoc]
    exact hv z y m rfl hy
  · by_cases hz : z = []
    · subst hz
      simpa using hv [] v m rfl (by simpa using hy)
    · rw [List.append_assoc]
      exact hu x z m rfl hz

/-- A place that no comment begins at is passed with the character behind it. -/
theorem passed_singleton {c : Char} {rest : List Char}
    (h : ∀ m, ¬ Begins f past (c :: rest) m) : Passed f past [c] rest := by
  intro x y m hxy hy
  rcases List.append_eq_singleton_iff.1 hxy.symm with ⟨rfl, rfl⟩ | ⟨-, rfl⟩
  · rw [List.append_nil]
    exact h m
  · exact absurd rfl hy

/-- **What the search does**: either it passes the whole text, or it takes the first comment that
begins and goes on behind it. -/
theorem spansFrom_cases (hf : f.Aligned (past ++ after)) :
    (spansFrom f past after = [] ∧ Passed f past after []) ∨
    ∃ a t b m, after = a ++ (t ++ b) ∧ t ≠ [] ∧ Begins f (past ++ a) (t ++ b) m ∧
      m.span = ⟨size (past ++ a), size (past ++ a) + size t⟩ ∧ Passed f past a (t ++ b) ∧
      spansFrom f past after = m.span :: spansFrom f (past ++ a ++ t) b := by
  fun_induction spansFrom f past after with
  | case1 past =>
    refine .inl ⟨rfl, fun x y m hxy hy => ?_⟩
    exact absurd (List.append_eq_nil_iff.1 hxy.symm).2 hy
  | case2 past c r hnone =>
    refine .inl ⟨rfl, fun x y m hxy hy hbegins => ?_⟩
    have hmatch := hbegins.found
    rw [List.append_nil, firstMatch?_eq_none hnone hxy] at hmatch
    cases hmatch
  | case3 past c r n m hfirst lead rest hskip ih =>
    obtain ⟨a, b, hsplit, rfl, hm, hnone⟩ := firstMatch?_eq_some hfirst
    have hlead : lead = past ++ a := by simp [lead, hsplit]
    have hrest : rest = b := by simp [rest, hsplit]
    clear_value lead rest
    subst hlead hrest
    rw [hsplit] at hf ⊢
    have hpassed : Passed f past a rest := by
      intro x y m' hxy hy hbegins
      have hmatch := hbegins.found
      rw [hnone x y hxy hy] at hmatch
      cases hmatch
    have hhere : ∀ m', ¬ Begins f (past ++ a) rest m' := by
      intro m' hbegins
      obtain rfl : m = m' := Option.some.inj (hm.symm.trans hbegins.found)
      rcases hskip with hempty | hquoted
      · exact absurd hbegins.long (by omega)
      · rw [hbegins.outside] at hquoted
        cases hquoted
    -- the search passes what stands before the match and one character more
    have hmore : Passed f past (a ++ rest.take 1) (rest.drop 1) := by
      cases rest with
      | nil => simpa using hpassed
      | cons d ds => exact hpassed.append (passed_singleton hhere)
    have htext : a ++ rest = a ++ rest.take 1 ++ rest.drop 1 := by
      rw [List.append_assoc, List.take_append_drop]
    rw [htext] at hf ⊢
    generalize rest.take 1 = one at *
    generalize rest.drop 1 = later at *
    rw [List.append_assoc past] at ih ⊢
    rcases ih (by rwa [List.append_assoc past]) with
      ⟨hnil, hall⟩ | ⟨u, t, b, m', rfl, ht, hbegins, hspan, hfirst, heq⟩
    · exact .inl ⟨hnil, Passed.append (by rwa [List.append_nil]) hall⟩
    · rw [List.append_assoc past] at hbegins hspan heq
      exact .inr ⟨a ++ one ++ u, t, b, m', by rw [List.append_assoc _ u], ht, hbegins, hspan,
        hmore.append hfirst, heq⟩
  | case4 past c r n m hfirst lead rest htake width ih =>
    obtain ⟨a, b, hsplit, rfl, hm, hnone⟩ := firstMatch?_eq_some hfirst
    have hlead : lead = past ++ a := by simp [lead, hsplit]
    have hrest : rest = b := by simp [rest, hsplit]
    clear_value lead rest
    subst hlead hrest
    rw [hsplit] at hf ⊢
    obtain ⟨t, b, rfl, hspan⟩ := hf (past ++ a) rest m (by simp) hm
    have hwidth : width = size t := by
      simp only [width, Match.stop, Match.start, hspan]
      omega
    rw [not_or, Nat.not_le, Bool.not_eq_true] at htake
    have hbegins : Begins f (past ++ a) (t ++ b) m := ⟨hm, htake.1, htake.2⟩
    have ht : t ≠ [] := by
      rintro rfl
      have hlong := htake.1
      simp [Match.start, Match.stop, hspan, size] at hlong
    refine .inr ⟨a, t, b, m, rfl, ht, hbegins, hspan, ?_, ?_⟩
    · intro x y m' hxy hy hbegins
      have hmatch := hbegins.found
      rw [hnone x y hxy hy] at hmatch
      cases hmatch
    · rw [hwidth, takeBytes_size_append, dropBytes_size_append]

/-! ## Places of a text -/

theorem size_eq_zero {s : List Char} (h : size s = 0) : s = [] := by
  cases s with
  | nil => rfl
  | cons c r =>
    have := Char.utf8Size_pos c
    rw [size] at h
    omega

/-- Of two places of a text, one lies behind the other. -/
theorem exists_append_of_size_le {a b a' b' : List Char} (h : a ++ b = a' ++ b')
    (hle : size a ≤ size a') : ∃ x, a' = a ++ x ∧ b = x ++ b' := by
  rcases List.append_eq_append_iff.1 h with ⟨x, ha, hb⟩ | ⟨x, rfl, rfl⟩
  · exact ⟨x, ha, hb⟩
  · have hx : x = [] := size_eq_zero (by rw [size_append] at hle; omega)
    exact ⟨[], by simp [hx], by simp [hx]⟩

theorem eq_of_size_eq {a b a' b' : List Char} (h : a ++ b = a' ++ b') (hsize : size a = size a') :
    a = a' ∧ b = b' := by
  obtain ⟨x, rfl, rfl⟩ := exists_append_of_size_le h (Nat.le_of_eq hsize)
  obtain rfl : x = [] := size_eq_zero (by rw [size_append] at hsize; omega)
  exact ⟨(List.append_nil a).symm, rfl⟩

/-! ## The greedy scan -/

/-- A comment stands at a range of a text: there the pattern matches, and it takes at least one
character; the line up to there does not end inside a literal. -/
def CommentAt (f : Finder) (s : List Char) (sp : Span) : Prop :=
  ∃ past after m, s = past ++ after ∧ size past = sp.start ∧ f (place past after) = some m ∧
    m.stop = sp.stop ∧ sp.start < sp.stop ∧ ¬ EndsInLiteral (afterLast '\n' past)

/-- The comments from an offset on: always the one that starts first, then those from its end on. -/
inductive Greedy (f : Finder) (s : List Char) : Nat → List Span → Prop
  | done {pos : Nat} (hnone : ∀ sp, CommentAt f s sp → sp.start < pos) : Greedy f s pos []
  | take {pos : Nat} {sp : Span} {found : List Span} (hat : CommentAt f s sp)
      (hpos : pos ≤ sp.start)
      (hleast : ∀ sp', CommentAt f s sp' → pos ≤ sp'.start → sp.start ≤ sp'.start)
      (hrest : Greedy f s sp.stop found) : Greedy f s pos (sp :: found)

section

variable {s : List Char} {sp : Span}

theorem commentAt_iff (hf : f.Aligned s) : CommentAt f s sp ↔
    ∃ past after m, s = past ++ after ∧ Begins f past after m ∧ m.span = sp := by
  constructor
  · rintro ⟨past, after, m, hs, hstart, hm, hstop, hlong, hout⟩
    obtain ⟨t, rest, -, hspan⟩ := hf past after m hs hm
    have hsp : m.span = sp := by
      rw [Match.stop, hspan] at hstop
      rw [hspan, hstart]
      rw [hstart] at hstop
      exact congrArg (Span.mk sp.start) hstop
    refine ⟨past, after, m, hs, ⟨hm, by rwa [Match.start, Match.stop, hsp], ?_⟩, hsp⟩
    rwa [← endsQuoted_iff, Bool.not_eq_true] at hout
  · rintro ⟨past, after, m, hs, hbegins, rfl⟩
    obtain ⟨t, rest, -, hspan⟩ := hf past after m hs hbegins.found
    refine ⟨past, after, m, hs, by rw [hspan], hbegins.found, rfl, hbegins.long, ?_⟩
    rw [← endsQuoted_iff, hbegins.outside]
    exact Bool.false_ne_true

theorem CommentAt.cuts (hf : f.Aligned s) (h : CommentAt f s sp) :
    Cuts s sp (slice sp.start sp.stop s) := by
  obtain ⟨past, after, m, hs, hbegins, rfl⟩ := (commentAt_iff hf).1 h
  obtain ⟨t, rest, hafter, hspan⟩ := hf past after m hs hbegins.found
  have hcuts : Cuts s m.span t := by
    rw [hspan]
    exact ⟨⟨past, rest, hafter ▸ hs, rfl⟩, rfl⟩
  have hslice := hcuts.slice_eq
  rw [← hslice] at hcuts
  exact hcuts

/-- One comment at most starts at a place. -/
theorem CommentAt.eq_of_start {sp' : Span} (h : CommentAt f s sp) (h' : CommentAt f s sp')
    (hstart : sp.start = sp'.start) : sp = sp' := by
  obtain ⟨past, after, m, hs, hsize, hm, hstop, -, -⟩ := h
  obtain ⟨past', after', m', hs', hsize', hm', hstop', -, -⟩ := h'
  obtain ⟨rfl, rfl⟩ := eq_of_size_eq (hs.symm.trans hs') (by rw [hsize, hsize', hstart])
  obtain rfl : m = m' := Option.some.inj (hm.symm.trans hm')
  cases sp
  cases sp'
  simp_all

/-- A comment that starts in or behind a text that is passed starts behind it. -/
theorem Passed.le_start (hf : f.Aligned s) {u rest : List Char} (h : Passed f past u rest)
    (hs : s = past ++ (u ++ rest)) (hat : CommentAt f s sp) (hpos : size past ≤ sp.start) :
    size (past ++ u) ≤ sp.start := by
  obtain ⟨past', after', m, hs', hbegins, rfl⟩ := (commentAt_iff hf).1 hat
  obtain ⟨t, rest', -, hspan⟩ := hf past' after' m hs' hbegins.found
  rw [hspan] at hpos ⊢
  obtain ⟨x, rfl, hx⟩ := exists_append_of_size_le (hs.symm.trans hs') hpos
  by_contra hlt
  have hle : size x ≤ size u := by
    simp only [size_append] at hlt
    omega
  obtain ⟨y, rfl, rfl⟩ := exists_append_of_size_le hx.symm hle
  refine h x y m rfl ?_ hbegins
  rintro rfl
  simp at hlt

/-- **The search is the greedy scan**, from every place on. -/
theorem greedy_spansFrom (hf : f.Aligned s) (hs : s = past ++ after) :
    Greedy f s (size past) (spansFrom f past after) := by
  induction hlength : after.length using Nat.strong_induction_on generalizing past after with
  | _ n ih =>
    subst hlength
    rcases spansFrom_cases (hs ▸ hf) with ⟨hnil, hpassed⟩ |
      ⟨a, t, b, m, rfl, ht, hbegins, hspan, hpassed, heq⟩
    · rw [hnil]
      refine .done fun sp hat => ?_
      by_contra hlt
      have hstart := hpassed.le_start hf (by rwa [List.append_nil]) hat (Nat.le_of_not_lt hlt)
      -- nothing is left to take at the end of the text
      obtain ⟨⟨x, y, hxy, hx⟩, hstop⟩ := hat.cuts hf
      obtain ⟨-, -, -, -, -, -, -, hlong, -⟩ := hat
      have hsize := congrArg size hxy
      rw [size_append, size_append, congrArg size hs] at hsize
      omega
    · rw [heq]
      have hs' : s = past ++ a ++ (t ++ b) := by rw [hs, List.append_assoc]
      have hat : CommentAt f s m.span := (commentAt_iff hf).2 ⟨_, _, m, hs', hbegins, rfl⟩
      have hstop : size (past ++ a ++ t) = m.span.stop := by rw [hspan, size_append]
      have hstart : size past ≤ m.span.start := by simp [hspan]
      refine .take hat hstart (fun sp' hat' hpos => ?_) ?_
      · rw [hspan]
        exact hpassed.le_start hf hs hat' hpos
      · rw [← hstop]
        have hshort : b.length < (a ++ (t ++ b)).length := by
          have := List.length_pos_iff.2 ht
          simp only [List.length_append]
          omega
        exact ih _ hshort (by rw [hs', List.append_assoc _ t]) rfl

namespace Greedy

variable {pos : Nat} {found : List Span}

/-- The scan leaves no choice. -/
theorem unique {found' : List Span} (h : Greedy f s pos found) (h' : Greedy f s pos found') :
    found = found' := by
  induction h generalizing found' with
  | done hnone =>
    cases h' with
    | done _ => rfl
    | take hat hpos _ _ => exact absurd (hnone _ hat) (Nat.not_lt.2 hpos)
  | @take pos sp found hat hpos hleast _ ih =>
    cases h' with
    | done hnone => exact absurd (hnone _ hat) (Nat.not_lt.2 hpos)
    | @take _ sp' found' hat' hpos' hleast' hrest' =>
      have hstart : sp.start = sp'.start :=
        Nat.le_antisymm (hleast _ hat' hpos') (hleast' _ hat hpos)
      obtain rfl := hat.eq_of_start hat' hstart
      rw [ih hrest']

theorem commentAt (h : Greedy f s pos found) : ∀ sp ∈ found, CommentAt f s sp ∧ pos ≤ sp.start := by
  induction h with
  | done _ => simp
  | @take pos sp found hat hpos _ _ ih =>
    intro sp' hsp'
    rcases List.mem_cons.1 hsp' with rfl | hsp'
    · exact ⟨hat, hpos⟩
    · obtain ⟨-, -, -, -, -, -, -, hlong, -⟩ := hat
      obtain ⟨hat', hstop⟩ := ih sp' hsp'
      exact ⟨hat', by omega⟩

theorem pairwise (h : Greedy f s pos found) : found.Pairwise fun a b => a.stop ≤ b.start := by
  induction h with
  | done _ => exact .nil
  | take _ _ _ hrest ih => exact .cons (fun sp hsp => (hrest.commentAt sp hsp).2) ih

/-- A comment that is not taken starts inside one that is. -/
theorem mem_or_inside (h : Greedy f s pos found) (hat : CommentAt f s sp) (hpos : pos ≤ sp.start) :
    sp ∈ found ∨ ∃ e ∈ found, e.start < sp.start ∧ sp.start < e.stop := by
  induction h with
  | done hnone => exact absurd (hnone sp hat) (Nat.not_lt.2 hpos)
  | @take pos sp' found hat' _ hleast _ ih =>
    rcases Nat.lt_or_eq_of_le (hleast sp hat hpos) with hlt | heq
    · by_cases hin : sp.start < sp'.stop
      · exact .inr ⟨sp', List.mem_cons_self, hlt, hin⟩
      · rcases ih (Nat.le_of_not_lt hin) with hmem | ⟨e, he, hinside⟩
        · exact .inl (List.mem_cons_of_mem _ hmem)
        · exact .inr ⟨e, List.mem_cons_of_mem _ he, hinside⟩
    · obtain rfl := hat'.eq_of_start hat heq
      exact .inl List.mem_cons_self

end Greedy

end

theorem greedy_spans (p : TextPattern) (s : List Char) :
    Greedy (p.matchAt Char.utf8Size) s 0 (spans p s) :=
  greedy_spansFrom (aligned_matchAt p s) (List.nil_append s).symm

/-- **Comments cut the text**, and none is empty. -/
theorem cuts_of_mem_spans {p : TextPattern} {s : List Char} {sp : Span} (h : sp ∈ spans p s) :
    Cuts s sp (slice sp.start sp.stop s) ∧ sp.start < sp.stop := by
  obtain ⟨hat, -⟩ := (greedy_spans p s).commentAt sp h
  have hcuts := hat.cuts (aligned_matchAt p s)
  obtain ⟨-, -, -, -, -, -, -, hlong, -⟩ := hat
  exact ⟨hcuts, hlong⟩

/-- **The search finds the comments from left to right**, whatever the pattern, as long as matches end
between characters: it gives what the greedy scan gives, and nothing else does. So comments are not
empty, lie in the text between characters, in order and apart from each other, and a place where a
comment could start is passed over only inside an earlier one. -/
theorem search_greedy (f : Finder) (s : List Char) (hf : f.Aligned s) :
    (∀ found, Greedy f s 0 found ↔ found = spansFrom f [] s) ∧
    (∀ sp ∈ spansFrom f [] s, sp.start < sp.stop ∧ Cuts s sp (slice sp.start sp.stop s)) ∧
    (spansFrom f [] s).Pairwise (fun a b => a.stop ≤ b.start) ∧
    ∀ sp, CommentAt f s sp → sp ∈ spansFrom f [] s ∨
      ∃ e ∈ spansFrom f [] s, e.start < sp.start ∧ sp.start < e.stop := by
  have hgreedy : Greedy f s 0 (spansFrom f [] s) := greedy_spansFrom hf (List.nil_append s).symm
  refine ⟨fun found => ⟨fun h => h.unique hgreedy, fun h => h ▸ hgreedy⟩, ?_, hgreedy.pairwise, ?_⟩
  · intro sp hsp
    obtain ⟨hat, -⟩ := hgreedy.commentAt sp hsp
    have hcuts := hat.cuts hf
    obtain ⟨-, -, -, -, -, -, -, hlong, -⟩ := hat
    exact ⟨hlong, hcuts⟩
  · intro sp hat
    exact hgreedy.mem_or_inside hat (Nat.zero_le _)

/-- Two slashes in a literal start no comment. -/
theorem search_greedy_url :
    let s := "const url = \"http://example.com\"; // real comment\n/* block */\n".toList
    let f : Finder := Language.slashComments.matchAt Char.utf8Size
    f.Aligned s ∧ Greedy f s 0 [⟨34, 49⟩, ⟨50, 61⟩] := by
  intro s f
  have hf : f.Aligned s := aligned_matchAt _ s
  exact ⟨hf, ((search_greedy f s hf).1 _).2 (by decide +kernel)⟩

end Comment

end CodeSurvey
