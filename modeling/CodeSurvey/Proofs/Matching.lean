import CodeSurvey.Pattern.Chars
/-!
# What patterns take

`Takes p before t rest k` says that between the symbol `before` and the symbols `rest` the pattern
`p` can take the symbols `t` and capture `k`: one rule for each way to match, with no order among
the ways and no search. A search finds one of them (`takes_of_run`), so what holds of all ways holds
of every match, and it fails only if there is none (`succeeds_run`). A match and its groups cut out
pieces of the text at the offsets that they name (`cuts_of_mem_findAll`).
-/
namespace CodeSurvey

namespace Pattern

variable {α : Type} {width : α → Nat}

/-! ## Going through a sequence -/

/-- The width of a sequence. -/
def total (width : α → Nat) : List α → Nat
  | [] => 0
  | a :: r => width a + total width r

theorem total_append (s t : List α) : total width (s ++ t) = total width s + total width t := by
  induction s with
  | nil => simp [total]
  | cons a r ih => simp [total, ih, Nat.add_assoc]

/-- The place behind some symbols, where others follow. -/
def Cursor.past (width : α → Nat) (c : Cursor α) (t rest : List α) : Cursor α :=
  ⟨t.getLast?.or c.before, c.offset + total width t, rest⟩

theorem Cursor.past_append (c : Cursor α) (t t' rest : List α) :
    c.past width (t ++ t') rest = (c.past width t (t' ++ rest)).past width t' rest := by
  simp [past, total_append, List.getLast?_append, Option.or_assoc, Nat.add_assoc]

/-- One symbol further on. -/
theorem Cursor.past_cons (before : Option α) (offset : Nat) (a : α) (t rest : List α) :
    past width ⟨before, offset, a :: (t ++ rest)⟩ (a :: t) rest =
      past width ⟨some a, offset + width a, t ++ rest⟩ t rest := by
  have hone : past width ⟨before, offset, a :: (t ++ rest)⟩ [a] (t ++ rest) =
      ⟨some a, offset + width a, t ++ rest⟩ := rfl
  rw [← hone, ← past_append, List.singleton_append]

/-! ## Ways to match -/

/-- What a group holds: its label, what was taken before it, and what it took. -/
structure Capture (α : Type) where
  label : String
  lead : List α
  text : List α

namespace Capture

/-- A capture behind symbols that were taken before. -/
def behind (t : List α) (k : Capture α) : Capture α := { k with lead := t ++ k.lead }

/-- The group of a capture in what is taken at an offset. -/
def group (width : α → Nat) (offset : Nat) (k : Capture α) : String × Span :=
  (k.label, ⟨offset + total width k.lead, offset + total width k.lead + total width k.text⟩)

theorem group_behind (offset : Nat) (t : List α) (k : Capture α) :
    (k.behind t).group width offset = k.group width (offset + total width t) := by
  simp [group, behind, total_append, Nat.add_assoc]

theorem map_group_behind (offset : Nat) (t : List α) (ks : List (Capture α)) :
    (ks.map (behind t)).map (group width offset) =
      ks.map (group width (offset + total width t)) := by
  rw [List.map_map]
  exact List.map_congr_left fun k _ => group_behind offset t k

end Capture

/-- Behind one symbol and in front of others, a pattern can take some symbols and capture some. -/
inductive Takes : Pattern α → Option α → List α → List α → List (Capture α) → Prop
  | empty {b : Option α} {r : List α} : Takes .empty b [] r []
  | one {p : α → Bool} {b : Option α} {a : α} {r : List α} (hp : p a = true) :
      Takes (.one p) b [a] r []
  | span {greedy : Bool} {p : α → Bool} {b : Option α} {t r : List α} (hp : ∀ a ∈ t, p a = true) :
      Takes (.span greedy p) b t r []
  | seq {x y : Pattern α} {b : Option α} {t t' r : List α} {k k' : List (Capture α)}
      (hx : Takes x b t (t' ++ r) k) (hy : Takes y (t.getLast?.or b) t' r k') :
      Takes (.seq x y) b (t ++ t') r (k'.map (Capture.behind t) ++ k)
  | left {x y : Pattern α} {b : Option α} {t r : List α} {k : List (Capture α)}
      (hx : Takes x b t r k) : Takes (.alt x y) b t r k
  | right {x y : Pattern α} {b : Option α} {t r : List α} {k : List (Capture α)}
      (hy : Takes y b t r k) : Takes (.alt x y) b t r k
  | done {x : Pattern α} {b : Option α} {r : List α} : Takes (.loop x) b [] r []
  | again {x : Pattern α} {b : Option α} {t t' r : List α} {k k' : List (Capture α)}
      (hx : Takes x b t (t' ++ r) k) (hloop : Takes (.loop x) (t.getLast?.or b) t' r k') :
      Takes (.loop x) b (t ++ t') r (k'.map (Capture.behind t) ++ k)
  | edge {p : Option α → Option α → Bool} {b : Option α} {r : List α} (hp : p b r.head? = true) :
      Takes (.edge p) b [] r []
  | group {label : String} {x : Pattern α} {b : Option α} {t r : List α} {k : List (Capture α)}
      (hx : Takes x b t r k) : Takes (.group label x) b t r (⟨label, [], t⟩ :: k)

/-- What a search owes: whatever it returns was returned by what comes next, behind symbols that can
be taken. -/
def Finds (width : α → Nat) (search : Cursor α → Groups → Next α → Option (Cursor α × Groups))
    (p : Pattern α) : Prop :=
  ∀ c g next found, search c g next = some found →
    ∃ t rest k, c.after = t ++ rest ∧ Takes p c.before t rest k ∧
      next (c.past width t rest) (k.map (Capture.group width c.offset) ++ g) = some found

theorem mem_reaches {p : α → Bool} {c : Cursor α} {before : Option α} {offset : Nat} {s : List α}
    {acc : List (Cursor α)} (h : c ∈ reaches width p before offset s acc) :
    c ∈ acc ∨ ∃ t rest, s = t ++ rest ∧ (∀ a ∈ t, p a = true) ∧
      c = Cursor.past width ⟨before, offset, s⟩ t rest := by
  induction s generalizing before offset acc with
  | nil =>
    rcases List.mem_cons.1 h with rfl | h
    · exact .inr ⟨[], [], rfl, by simp, rfl⟩
    · exact .inl h
  | cons a r ih =>
    simp only [reaches] at h
    split at h
    · rename_i hp
      rcases ih h with h | ⟨t, rest, rfl, hall, rfl⟩
      · rcases List.mem_cons.1 h with rfl | h
        · exact .inr ⟨[], a :: r, rfl, by simp, rfl⟩
        · exact .inl h
      · refine .inr ⟨a :: t, rest, rfl, ?_, (Cursor.past_cons ..).symm⟩
        intro b hb
        rcases List.mem_cons.1 hb with rfl | hb
        · exact hp
        · exact hall b hb
    · rcases List.mem_cons.1 h with rfl | h
      · exact .inr ⟨[], a :: r, rfl, by simp, rfl⟩
      · exact .inl h

/-- Two searches in turn, seen from the place of the first. -/
theorem next_append {c : Cursor α} {g : Groups} {t t' rest : List α} {k k' : List (Capture α)}
    {next : Next α} {found : Cursor α × Groups}
    (h : next ((c.past width t (t' ++ rest)).past width t' rest)
      (k'.map (Capture.group width (c.past width t (t' ++ rest)).offset) ++
        (k.map (Capture.group width c.offset) ++ g)) = some found) :
    next (c.past width (t ++ t') rest)
      ((k'.map (Capture.behind t) ++ k).map (Capture.group width c.offset) ++ g) = some found := by
  rw [Cursor.past_append, List.map_append, Capture.map_group_behind, List.append_assoc]
  exact h

theorem finds_rounds {x : Pattern α} (hx : Finds width (x.run width) x) (n : Nat) :
    Finds width (rounds (x.run width) n) (.loop x) := by
  induction n with
  | zero =>
    intro c g next found h
    exact ⟨[], c.after, [], rfl, .done, h⟩
  | succ n ih =>
    intro c g next found h
    simp only [rounds] at h
    split at h
    · rename_i first hfirst
      cases h
      obtain ⟨t, rest, k, hafter, htakes, hnext⟩ := hx c g _ found hfirst
      split at hnext
      · obtain ⟨t', rest, k', rfl, hlater, hnext⟩ := ih _ _ next found hnext
        exact ⟨t ++ t', rest, _, by rw [hafter, List.append_assoc], .again htakes hlater,
          next_append hnext⟩
      · cases hnext
    · exact ⟨[], c.after, [], rfl, .done, h⟩

/-- **A search takes what can be taken.** -/
theorem takes_of_run (width : α → Nat) (p : Pattern α) : Finds width (p.run width) p := by
  induction p with
  | empty =>
    intro c g next found h
    exact ⟨[], c.after, [], rfl, .empty, h⟩
  | one p =>
    intro c g next found h
    simp only [run] at h
    split at h
    · rename_i a rest hafter
      split at h
      · rename_i hp
        exact ⟨[a], rest, [], hafter, .one hp, h⟩
      · cases h
    · cases h
  | span greedy p =>
    intro c g next found h
    obtain ⟨c', hmem, hnext⟩ := List.exists_of_findSome?_eq_some h
    have hplace : c' ∈ reaches width p c.before c.offset c.after [] := by
      cases greedy with
      | true => exact hmem
      | false => exact List.mem_reverse.1 hmem
    obtain ⟨t, rest, hafter, hall, rfl⟩ := (mem_reaches hplace).resolve_left List.not_mem_nil
    exact ⟨t, rest, [], hafter, .span hall, hnext⟩
  | seq x y ihx ihy =>
    intro c g next found h
    obtain ⟨t, rest, k, hafter, hx, h⟩ := ihx c g _ found h
    obtain ⟨t', rest, k', rfl, hy, hnext⟩ := ihy _ _ next found h
    exact ⟨t ++ t', rest, _, by rw [hafter, List.append_assoc], .seq hx hy, next_append hnext⟩
  | alt x y ihx ihy =>
    intro c g next found h
    simp only [run] at h
    split at h
    · rename_i first hfirst
      cases h
      obtain ⟨t, rest, k, hafter, hx, hnext⟩ := ihx c g next found hfirst
      exact ⟨t, rest, k, hafter, .left hx, hnext⟩
    · obtain ⟨t, rest, k, hafter, hy, hnext⟩ := ihy c g next found h
      exact ⟨t, rest, k, hafter, .right hy, hnext⟩
  | loop x ih =>
    intro c g next found h
    exact finds_rounds ih _ c g next found h
  | edge p =>
    intro c g next found h
    simp only [run] at h
    split at h
    · rename_i hp
      exact ⟨[], c.after, [], rfl, .edge hp, h⟩
    · cases h
  | group label x ih =>
    intro c g next found h
    obtain ⟨t, rest, k, hafter, hx, hnext⟩ := ih c g _ found h
    exact ⟨t, rest, _, hafter, .group hx, hnext⟩

/-! ## Completeness -/

/-- What a search owes the other way round: it succeeds where symbols can be taken behind which what
comes next succeeds. -/
def Succeeds (width : α → Nat) (search : Cursor α → Groups → Next α → Option (Cursor α × Groups))
    (p : Pattern α) : Prop :=
  ∀ c g next t rest k, c.after = t ++ rest → Takes p c.before t rest k →
    (∀ g', (next (c.past width t rest) g').isSome) → (search c g next).isSome

theorem past_mem_reaches {p : α → Bool} {before : Option α} {offset : Nat} {t rest : List α}
    {acc : List (Cursor α)} (hp : ∀ a ∈ t, p a = true) :
    Cursor.past width ⟨before, offset, t ++ rest⟩ t rest ∈
      reaches width p before offset (t ++ rest) acc := by
  have hkeep {c : Cursor α} {before : Option α} {offset : Nat} {s : List α} {acc : List (Cursor α)}
      (h : c ∈ acc) : c ∈ reaches width p before offset s acc := by
    induction s generalizing before offset acc with
    | nil => exact List.mem_cons_of_mem _ h
    | cons a r ih =>
      rw [reaches]
      split
      · exact ih (List.mem_cons_of_mem _ h)
      · exact List.mem_cons_of_mem _ h
  induction t generalizing before offset acc with
  | nil =>
    cases rest with
    | nil => exact List.mem_cons_self
    | cons a r =>
      rw [List.nil_append, reaches]
      split
      · exact hkeep List.mem_cons_self
      · exact List.mem_cons_self
  | cons a t ih =>
    rw [List.forall_mem_cons] at hp
    rw [List.cons_append, Cursor.past_cons, reaches, if_pos hp.1]
    exact ih hp.2

/-- The rounds of a loop, without those that take nothing. -/
theorem Takes.loop_cases {x : Pattern α} {b : Option α} {t r : List α} {k : List (Capture α)}
    (h : Takes (.loop x) b t r k) :
    t = [] ∨ ∃ u v k₁ k₂, t = u ++ v ∧ u ≠ [] ∧ Takes x b u (v ++ r) k₁ ∧
      Takes (.loop x) (u.getLast?.or b) v r k₂ := by
  generalize hp : Pattern.loop x = p at h
  induction h with
  | done => exact .inl rfl
  | @again x' b t t' r k k' hround hlater _ ih =>
    cases hp
    by_cases ht : t = []
    · subst ht
      exact ih rfl
    · exact .inr ⟨t, t', k, k', rfl, ht, hround, hlater⟩
  | _ => cases hp

theorem isSome_rounds_of_next {step : Cursor α → Groups → Next α → Option (Cursor α × Groups)}
    {c : Cursor α} {g : Groups} {next : Next α} (n : Nat) (h : (next c g).isSome) :
    (rounds step n c g next).isSome := by
  cases n with
  | zero => exact h
  | succ n =>
    rw [rounds]
    split
    · rfl
    · exact h

theorem total_pos (hwidth : ∀ a, 0 < width a) {t : List α} (h : t ≠ []) : 0 < total width t := by
  cases t with
  | nil => exact absurd rfl h
  | cons a r =>
    have := hwidth a
    rw [total]
    omega

theorem succeeds_rounds (hwidth : ∀ a, 0 < width a) {x : Pattern α}
    (hx : Succeeds width (x.run width) x) (n : Nat) {c : Cursor α} {g : Groups} {next : Next α}
    {t rest : List α} {k : List (Capture α)} (hn : t.length ≤ n) (hafter : c.after = t ++ rest)
    (htakes : Takes (.loop x) c.before t rest k)
    (hnext : ∀ g', (next (c.past width t rest) g').isSome) :
    (rounds (x.run width) n c g next).isSome := by
  induction n generalizing c g t k with
  | zero =>
    obtain rfl := List.eq_nil_of_length_eq_zero (Nat.le_zero.1 hn)
    obtain rfl : c.after = rest := hafter
    exact hnext g
  | succ n ih =>
    rcases htakes.loop_cases with rfl | ⟨u, v, k₁, k₂, rfl, hu, hround, hlater⟩
    · obtain rfl : c.after = rest := hafter
      exact isSome_rounds_of_next _ (hnext g)
    · have hlength := List.length_pos_iff.2 hu
      have hpos := total_pos hwidth hu
      rw [List.length_append] at hn
      rw [List.append_assoc] at hafter
      -- the first round advances, so that the others may follow it
      have hfirst : (x.run width c g fun c' g' =>
          if c.offset < c'.offset then rounds (x.run width) n c' g' next else none).isSome := by
        refine hx c g _ u (v ++ rest) k₁ hafter hround fun g' => ?_
        rw [if_pos (by show _ < c.offset + total width u; omega)]
        exact ih (by omega) rfl hlater (by rwa [← Cursor.past_append])
      rw [rounds]
      split
      · rfl
      · rename_i hnone
        rw [hnone] at hfirst
        cases hfirst

/-- **A search succeeds where it can.** -/
theorem succeeds_run (hwidth : ∀ a, 0 < width a) (p : Pattern α) :
    Succeeds width (p.run width) p := by
  induction p with
  | empty =>
    intro c g next t rest k hafter htakes hnext
    cases htakes
    obtain rfl : c.after = rest := hafter
    exact hnext g
  | one p =>
    intro c g next t rest k hafter htakes hnext
    cases htakes with
    | @one _ _ a _ hp =>
      have hafter' : c.after = a :: rest := hafter
      simp only [run, hafter', hp, if_true]
      exact hnext g
  | span greedy p =>
    intro c g next t rest k hafter htakes hnext
    cases htakes with
    | span hp =>
      have hmem : c.past width t rest ∈ reaches width p c.before c.offset c.after [] := by
        rw [hafter]
        exact past_mem_reaches hp
      rw [run, List.findSome?_isSome_iff]
      refine ⟨c.past width t rest, ?_, hnext g⟩
      cases greedy with
      | true => exact hmem
      | false => exact List.mem_reverse.2 hmem
  | seq x y ihx ihy =>
    intro c g next t rest k hafter htakes hnext
    cases htakes with
    | seq hx hy =>
      rw [List.append_assoc] at hafter
      refine ihx c g _ _ _ _ hafter hx fun g' => ?_
      exact ihy _ g' next _ rest _ rfl hy (by rwa [← Cursor.past_append])
  | alt x y ihx ihy =>
    intro c g next t rest k hafter htakes hnext
    rw [run]
    split
    · rfl
    · rename_i hnone
      cases htakes with
      | left hx =>
        have hsome := ihx c g next t rest k hafter hx hnext
        rw [hnone] at hsome
        cases hsome
      | right hy => exact ihy c g next t rest k hafter hy hnext
  | loop x ih =>
    intro c g next t rest k hafter htakes hnext
    have hlength : t.length ≤ c.after.length := by
      rw [hafter, List.length_append]
      omega
    exact succeeds_rounds hwidth ih _ hlength hafter htakes hnext
  | edge p =>
    intro c g next t rest k hafter htakes hnext
    cases htakes with
    | edge hp =>
      obtain rfl : c.after = rest := hafter
      rw [run, if_pos hp]
      exact hnext g
  | group label x ih =>
    intro c g next t rest k hafter htakes hnext
    cases htakes with
    | group hx => exact ih c g _ t rest _ hafter hx fun g' => hnext _

/-- Captures are pieces of what is taken. -/
theorem Takes.captured {p : Pattern α} {b : Option α} {t r : List α} {k : List (Capture α)}
    (h : Takes p b t r k) : ∀ x ∈ k, ∃ tail, t = x.lead ++ (x.text ++ tail) := by
  have hseq {t t' : List α} {k k' : List (Capture α)}
      (hk : ∀ x ∈ k, ∃ tail, t = x.lead ++ (x.text ++ tail))
      (hk' : ∀ x ∈ k', ∃ tail, t' = x.lead ++ (x.text ++ tail)) :
      ∀ x ∈ k'.map (Capture.behind t) ++ k, ∃ tail, t ++ t' = x.lead ++ (x.text ++ tail) := by
    intro x hx
    rcases List.mem_append.1 hx with hx | hx
    · obtain ⟨y, hy, rfl⟩ := List.mem_map.1 hx
      obtain ⟨tail, rfl⟩ := hk' y hy
      exact ⟨tail, by simp [Capture.behind]⟩
    · obtain ⟨tail, rfl⟩ := hk x hx
      exact ⟨tail ++ t', by simp⟩
  induction h with
  | empty => simp
  | one _ => simp
  | span _ => simp
  | seq _ _ ihx ihy => exact hseq ihx ihy
  | left _ ih => exact ih
  | right _ ih => exact ih
  | done => simp
  | again _ _ ihx ihloop => exact hseq ihx ihloop
  | edge _ => simp
  | group _ ih =>
    intro x hx
    rcases List.mem_cons.1 hx with rfl | hx
    · exact ⟨[], by simp⟩
    · exact ih x hx

/-! ## Matches -/

theorem takes_of_matchAt {p : Pattern α} {c : Cursor α} {m : Match}
    (h : p.matchAt width c = some m) :
    ∃ t rest k, c.after = t ++ rest ∧ Takes p c.before t rest k ∧
      m.span = ⟨c.offset, c.offset + total width t⟩ ∧
      m.groups = k.map (Capture.group width c.offset) := by
  obtain ⟨⟨d, g⟩, hrun, rfl⟩ := Option.map_eq_some_iff.1 h
  obtain ⟨t, rest, k, hafter, htakes, hnext⟩ := takes_of_run width p c [] _ _ hrun
  obtain ⟨rfl, rfl⟩ := Prod.mk.inj (Option.some.inj hnext)
  exact ⟨t, rest, k, hafter, htakes, rfl, by simp⟩

theorem isSome_matchAt (hwidth : ∀ a, 0 < width a) {p : Pattern α} {c : Cursor α} {t rest : List α}
    {k : List (Capture α)} (hafter : c.after = t ++ rest) (h : Takes p c.before t rest k) :
    (p.matchAt width c).isSome := by
  rw [matchAt, Option.isSome_map]
  exact succeeds_run hwidth p c [] _ t rest k hafter h fun _ => rfl

/-- Matches are found behind a beginning of the sequence. -/
theorem mem_matchesFrom {p : Pattern α} {m : Match} {resume : Nat} {before : Option α}
    {offset : Nat} {s : List α} (h : m ∈ matchesFrom width p resume before offset s) :
    ∃ a rest, s = a ++ rest ∧
      p.matchAt width (Cursor.past width ⟨before, offset, s⟩ a rest) = some m := by
  induction s generalizing resume before offset with
  | nil =>
    unfold matchesFrom at h
    simp only at h
    split at h
    · rename_i hit hhit
      obtain rfl := List.mem_singleton.1 h
      split at hhit
      · cases hhit
      · exact ⟨[], [], rfl, hhit⟩
    · cases h
  | cons c r ih =>
    have hlater {resume : Nat} (h : m ∈ matchesFrom width p resume (some c) (offset + width c) r) :
        ∃ a rest, c :: r = a ++ rest ∧
          p.matchAt width (Cursor.past width ⟨before, offset, c :: r⟩ a rest) = some m := by
      obtain ⟨a, rest, rfl, hm⟩ := ih h
      exact ⟨c :: a, rest, rfl, by rwa [Cursor.past_cons]⟩
    unfold matchesFrom at h
    simp only at h
    split at h
    · rename_i hit hhit
      rcases List.mem_cons.1 h with rfl | h
      · split at hhit
        · cases hhit
        · exact ⟨[], c :: r, rfl, hhit⟩
      · exact hlater h
    · exact hlater h

end Pattern

/-! ## Texts -/

namespace Text

/-- A text stands in another one at an offset. -/
def Occurs (s : List Char) (n : Nat) (t : List Char) : Prop := ∃ a b, s = a ++ (t ++ b) ∧ size a = n

theorem Occurs.trans {s t u : List Char} {n k : Nat} (h : Occurs s n t) (h' : Occurs t k u) :
    Occurs s (n + k) u := by
  obtain ⟨a, b, rfl, rfl⟩ := h
  obtain ⟨a', b', rfl, rfl⟩ := h'
  exact ⟨a ++ a', b' ++ b, by simp, size_append a a'⟩

theorem size_eq_total (s : List Char) : size s = Pattern.total Char.utf8Size s := by
  induction s with
  | nil => rfl
  | cons c r ih => rw [size, ih, Pattern.total]

theorem dropBytes_size_append (a t : List Char) : dropBytes (size a) (a ++ t) = t := by
  induction a with
  | nil => exact dropBytes_zero t
  | cons c r ih =>
    have hpos := Char.utf8Size_pos c
    rw [List.cons_append, size, dropBytes, if_neg (by omega), Nat.add_sub_cancel_left, ih]

theorem takeBytes_size_append (t b : List Char) : takeBytes (size t) (t ++ b) = t := by
  induction t with
  | nil =>
    cases b with
    | nil => rfl
    | cons c r => exact if_pos (Char.utf8Size_pos c)
  | cons c r ih =>
    rw [List.cons_append, size, takeBytes, if_neg (by omega), Nat.add_sub_cancel_left, ih]

end Text

open Text Pattern

/-- A range of offsets cuts a piece out of a text, at both ends between characters. -/
structure Cuts (s : List Char) (sp : Span) (t : List Char) : Prop where
  occurs : Occurs s sp.start t
  stop : sp.stop = sp.start + size t

theorem Cuts.slice_eq {s t : List Char} {sp : Span} (h : Cuts s sp t) :
    slice sp.start sp.stop s = t := by
  obtain ⟨⟨a, b, rfl, hstart⟩, hstop⟩ := h
  rw [slice, hstop, Nat.add_sub_cancel_left, ← hstart, dropBytes_size_append, takeBytes_size_append]

/-- What is known of a match in a text: it cuts the text, and so do its groups, inside it. -/
structure MatchCuts (s : List Char) (m : Match) : Prop where
  whole : Cuts s m.span (slice m.start m.stop s)
  group : ∀ {label sp}, m.group? label = some sp →
    Cuts s sp (slice sp.start sp.stop s) ∧ m.start ≤ sp.start ∧ sp.stop ≤ m.stop

/-- A match takes a piece of a text. -/
structure Taken (p : TextPattern) (s : List Char) (m : Match) (before : Option Char)
    (a t rest : List Char) (k : List (Capture Char)) : Prop where
  text : s = a ++ (t ++ rest)
  takes : Takes p before t rest k
  span : m.span = ⟨size a, size a + size t⟩
  groups : m.groups = k.map (Capture.group Char.utf8Size (size a))

theorem exists_taken {p : TextPattern} {s a rest : List Char} {before : Option Char} {m : Match}
    (hs : s = a ++ rest)
    (h : p.matchAt Char.utf8Size (Cursor.past Char.utf8Size ⟨before, 0, s⟩ a rest) = some m) :
    ∃ t rest k, Taken p s m (a.getLast?.or before) a t rest k := by
  obtain ⟨t, rest', k, hafter, htakes, hspan, hgroups⟩ := takes_of_matchAt h
  have hoffset : (Cursor.past Char.utf8Size ⟨before, 0, s⟩ a rest).offset = size a := by
    simp [Cursor.past, size_eq_total]
  rw [hoffset, ← size_eq_total] at hspan
  rw [hoffset] at hgroups
  exact ⟨t, rest', k, hs.trans (congrArg _ hafter), htakes, hspan, hgroups⟩

/-- **Matches in a text take pieces of it.** -/
theorem exists_taken_of_mem_findAll {p : TextPattern} {s : List Char} {m : Match}
    (h : m ∈ p.findAll s) : ∃ a t rest k, Taken p s m a.getLast? a t rest k := by
  obtain ⟨a, rest, hs, hm⟩ := mem_matchesFrom h
  obtain ⟨t, rest, k, htaken⟩ := exists_taken hs hm
  rw [Option.or_none] at htaken
  exact ⟨a, t, rest, k, htaken⟩

namespace Taken

variable {p : TextPattern} {s : List Char} {m : Match} {before : Option Char} {a t rest : List Char}
  {k : List (Capture Char)}

/-- A capture cuts the text. -/
theorem cuts (h : Taken p s m before a t rest k) {x : Capture Char} (hx : x ∈ k) :
    Cuts s (x.group Char.utf8Size (size a)).2 x.text := by
  obtain ⟨tail, ht⟩ := h.takes.captured x hx
  refine ⟨⟨a ++ x.lead, tail ++ rest, by simp [h.text, ht], ?_⟩, ?_⟩
  · rw [size_append, size_eq_total x.lead]
    rfl
  · rw [size_eq_total x.text]
    rfl

/-- A group of a match is a capture with its label. -/
theorem group?_eq (h : Taken p s m before a t rest k) (label : String) : m.group? label =
    (k.find? fun x => label == x.label).map fun x => (x.group Char.utf8Size (size a)).2 := by
  rw [Match.group?, h.groups]
  clear h
  induction k with
  | nil => rfl
  | cons x k ih =>
    rw [List.map_cons, List.lookup_cons, List.find?_cons]
    cases hlabel : label == x.label with
    | true => simp [Capture.group, hlabel]
    | false => simpa [Capture.group, hlabel] using ih

theorem matchCuts (h : Taken p s m before a t rest k) : MatchCuts s m := by
  constructor
  · have hcuts : Cuts s m.span t := by
      rw [h.span]
      exact ⟨⟨a, rest, h.text, rfl⟩, rfl⟩
    have hslice := hcuts.slice_eq
    rw [← hslice] at hcuts
    exact hcuts
  · intro label sp hgroup
    rw [h.group?_eq] at hgroup
    obtain ⟨x, hfind, rfl⟩ := Option.map_eq_some_iff.1 hgroup
    have hx := List.mem_of_find?_eq_some hfind
    have hcuts := h.cuts hx
    refine ⟨by rwa [hcuts.slice_eq], ?_⟩
    obtain ⟨tail, rfl⟩ := h.takes.captured x hx
    simp only [Match.start, Match.stop, h.span, Capture.group, size_append, ← size_eq_total]
    omega

end Taken

/-- **Matches in a text cut it.** -/
theorem cuts_of_mem_findAll {p : TextPattern} {s : List Char} {m : Match} (h : m ∈ p.findAll s) :
    MatchCuts s m := by
  obtain ⟨a, t, rest, k, htaken⟩ := exists_taken_of_mem_findAll h
  exact htaken.matchCuts

end CodeSurvey
