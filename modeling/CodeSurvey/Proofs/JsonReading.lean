import CodeSurvey.Proofs.JsonText
/-!
# Compact text reads back up to its numbers

A number may be read as another one, as it is put together from parts that round. All else in a
value is read back (`Echoes`): if the compact text of a value can be read, in front of a comma, a
closing bracket or the end, then what is read has the same shape, the same texts and the same names,
and nothing but the text of the value is taken (`recalls_readValue`, `echoes_of_read?`).
-/
namespace CodeSurvey.Json

/-! ## Numbers take what looks like a number -/

/-- A character that a number may be read from. -/
def isNumeral (c : Char) : Bool := isNumeric c || c == 'E'

/-- What is taken from a text are characters of a number. -/
def Spends (s t : List Char) : Prop := ∃ w, s = w ++ t ∧ ∀ c ∈ w, isNumeral c = true

namespace Spends

variable {s t u : List Char}

theorem refl (s : List Char) : Spends s s := ⟨[], rfl, nofun⟩

theorem cons {c : Char} (hc : isNumeral c = true) (h : Spends s t) : Spends (c :: s) t := by
  obtain ⟨w, rfl, hw⟩ := h
  exact ⟨c :: w, rfl, List.forall_mem_cons.2 ⟨hc, hw⟩⟩

theorem trans (h : Spends s t) (h' : Spends t u) : Spends s u := by
  obtain ⟨w, rfl, hw⟩ := h
  obtain ⟨v, rfl, hv⟩ := h'
  exact ⟨w ++ v, (List.append_assoc ..).symm, List.forall_mem_append.2 ⟨hw, hv⟩⟩

end Spends

theorem isNumeral_of_isDigit {c : Char} (h : c.isDigit = true) : isNumeral c = true := by
  simp [isNumeral, isNumeric_of_isDigit h]

theorem spends_dropWhile (s : List Char) : Spends s (s.dropWhile Char.isDigit) :=
  ⟨s.takeWhile Char.isDigit, List.takeWhile_append_dropWhile.symm, fun _ hc =>
    isNumeral_of_isDigit (List.mem_takeWhile_imp hc)⟩

theorem spends_significand (acc taken : Nat) (s : List Char) :
    Spends s (significand acc taken s).2.2 := by
  induction s generalizing acc taken with
  | nil => exact .refl []
  | cons c s ih =>
    rw [significand]
    split
    · rename_i h
      exact (ih _ _).cons (isNumeral_of_isDigit (Bool.and_eq_true_iff.1 h).1)
    · exact .refl _

theorem spends_exponentSign (s : List Char) : Spends s (exponentSign s).2 := by
  unfold exponentSign
  split
  · exact (Spends.refl _).cons rfl
  · exact (Spends.refl _).cons rfl
  · exact .refl s

theorem spends_exponentDigits (acc : Nat) (s : List Char) :
    Spends s (exponentDigits acc s).2 := by
  induction s generalizing acc with
  | nil => exact .refl []
  | cons c s ih =>
    rw [exponentDigits]
    split
    · rename_i h
      exact (ih _).cons (isNumeral_of_isDigit h)
    · exact .refl _

section Numbers

variable {negative : Bool} {sig : Nat} {s t : List Char} {v : Json}

theorem spends_readExponent {start : Int} (h : readExponent negative sig start s = some (v, t)) :
    Spends s t := by
  unfold readExponent at h
  refine (spends_exponentSign s).trans ((spends_exponentDigits 0 _).trans ?_)
  dsimp only at h
  split at h
  · split at h
    · split at h
      · split at h
        · cases h
        · exact (Prod.mk.inj (Option.some.inj h)).2 ▸ .refl _
      · obtain ⟨j, -, hj⟩ := Option.map_eq_some_iff.1 h
        exact (Prod.mk.inj hj).2 ▸ .refl _
    · cases h
  · cases h

theorem spends_readScaled {exponent : Int} (h : readScaled negative sig exponent s = some (v, t)) :
    Spends s t := by
  unfold readScaled at h
  split at h
  · exact (spends_readExponent h).cons rfl
  · exact (spends_readExponent h).cons rfl
  · obtain ⟨j, -, hj⟩ := Option.map_eq_some_iff.1 h
    exact (Prod.mk.inj hj).2 ▸ .refl _

theorem spends_readFraction {exponent : Int}
    (h : readFraction negative sig exponent s = some (v, t)) : Spends s t := by
  unfold readFraction at h
  dsimp only at h
  split at h
  · cases h
  · exact (spends_significand sig 0 s).trans ((spends_dropWhile _).trans (spends_readScaled h))

theorem spends_readUnsigned (h : readUnsigned negative s = some (v, t)) : Spends s t := by
  unfold readUnsigned at h
  split at h
  · cases h
  · split at h
    · cases h
    · split at h
      · cases h
      · refine (spends_significand 0 0 _).trans ?_
        dsimp only at h
        split at h
        · refine (spends_dropWhile _).trans ?_
          split at h
          · rename_i hrest
            rw [hrest]
            exact (spends_readFraction h).cons rfl
          · exact spends_readScaled h
        · split at h
          · rename_i hrest
            rw [hrest]
            exact (spends_readFraction h).cons rfl
          · rename_i hrest
            rw [hrest]
            exact (spends_readExponent h).cons rfl
          · rename_i hrest
            rw [hrest]
            exact (spends_readExponent h).cons rfl
          · split at h
            · split at h <;> exact (Prod.mk.inj (Option.some.inj h)).2 ▸ .refl _
            · exact (Prod.mk.inj (Option.some.inj h)).2 ▸ .refl _

theorem spends_readNumber (h : readNumber s = some (v, t)) : Spends s t := by
  unfold readNumber at h
  split at h
  · exact (spends_readUnsigned h).cons rfl
  · exact spends_readUnsigned h

end Numbers

/-! ## What follows a value -/

/-- A text that can follow a value inside another one, or at the end. -/
def Ends (r : List Char) : Prop := ∀ c ∈ r.head?, c = ',' ∨ c = ']' ∨ c = '\x7d'

theorem ends_tails {c : Char} (hc : c = ']' ∨ c = '\x7d') (ps : List (List Char)) (r : List Char) :
    Ends (tails ps ++ c :: r) := by
  cases ps with
  | nil =>
    rintro d ⟨⟩
    exact .inr hc
  | cons p ps =>
    rintro d ⟨⟩
    exact .inl rfl

/-- What is left of the text of a number, and what follows it. -/
def Leaves (r t : List Char) : Prop := ∃ w, t = w ++ r ∧ ∀ c ∈ w, isNumeric c = true

theorem leaves_of_spends {w r t : List Char} (hw : ∀ c ∈ w, isNumeric c = true) (hr : Ends r)
    (h : Spends (w ++ r) t) : Leaves r t := by
  obtain ⟨u, heq, hu⟩ := h
  rcases List.append_eq_append_iff.1 heq with ⟨a, rfl, hra⟩ | ⟨a, rfl, rfl⟩
  · cases a with
    | nil => exact ⟨[], hra.symm, nofun⟩
    | cons c a =>
      -- a number does not take what can follow it
      have hc := hu c (List.mem_append_right _ List.mem_cons_self)
      rcases hr c (by simp [hra]) with rfl | rfl | rfl <;> cases hc
  · exact ⟨a, rfl, fun c hc => hw c (List.mem_append_right _ hc)⟩

/-- Only where nothing of a number is left the text goes on as it should. -/
theorem Leaves.eq_of_skipSpace {r t u : List Char} {d : Char} (h : Leaves r t)
    (hd : isNumeric d = false) (hskip : skipSpace t = d :: u) (hr : skipSpace r = r) :
    r = d :: u := by
  obtain ⟨w, rfl, hw⟩ := h
  cases w with
  | nil => rwa [List.nil_append, hr] at hskip
  | cons c w =>
    have hc := hw c List.mem_cons_self
    have hspace : isSpace c = false := by
      by_contra hs
      simp only [Bool.not_eq_false, isSpace, Bool.or_eq_true, beq_iff_eq] at hs
      rcases hs with ((rfl | rfl) | rfl) | rfl <;> cases hc
    rw [List.cons_append, skipSpace_cons hspace] at hskip
    obtain ⟨rfl, -⟩ := List.cons.inj hskip
    rw [hc] at hd
    cases hd

/-! ## Values -/

mutual

/-- A value as it may be read from the text of another one: its numbers may differ, and the fields
of its objects stand in ascending order. -/
def Echoes : Json → Json → Prop
  | .null, v => v = .null
  | .bool b, v => v = .bool b
  | .int _, _ => True
  | .double _ _, _ => True
  | .str s, v => v = .str s
  | .arr xs, v => ∃ ys, v = .arr ys ∧ EchoesItems xs ys
  | .obj fs, v => ∃ gs, v = object gs ∧ EchoesFields fs gs

/-- Items that echo others one by one. -/
def EchoesItems : List Json → List Json → Prop
  | [], ys => ys = []
  | x :: xs, ys => ∃ y zs, ys = y :: zs ∧ Echoes x y ∧ EchoesItems xs zs

/-- Fields of the same names whose values echo others one by one. -/
def EchoesFields : List (String × Json) → List (String × Json) → Prop
  | [], gs => gs = []
  | (k, j) :: fs, gs => ∃ v hs, gs = (k, v) :: hs ∧ Echoes j v ∧ EchoesFields fs hs

end

theorem tails_cons (p : List Char) (ps : List (List Char)) :
    tails (p :: ps) = ',' :: (p ++ tails ps) := rfl

theorem skipSpace_tails {c : Char} (hc : isSpace c = false) (ps : List (List Char))
    (r : List Char) : skipSpace (tails ps ++ c :: r) = tails ps ++ c :: r := by
  cases ps with
  | nil => exact skipSpace_cons hc r
  | cons p ps => exact skipSpace_cons rfl _

/-- A text that begins like a number is read as one. -/
theorem readValue_numeric {w : List Char} (hw : ∀ c ∈ w, isNumeric c = true) (hne : w ≠ [])
    (depth : Nat) (r : List Char) : readValue (depth + 1) (w ++ r) = readNumber (w ++ r) := by
  obtain ⟨c, u, rfl, hc⟩ := numeric_head hw hne
  rw [List.cons_append, readValue]
  -- no other kind of value begins with such a character
  · intro h
    cases h
  all_goals
    intro t ht
    obtain ⟨rfl, -⟩ := List.cons.inj ht
    cases hc

theorem Leaves.refl (r : List Char) : Leaves r r := ⟨[], rfl, nofun⟩

/-- A reader that gives back the values whose texts it can read, up to their numbers. -/
def Recalls (element : Reader Json) : Prop :=
  ∀ (j : Json) {r t : List Char} {v : Json}, Ends r → element (compact j ++ r) = some (v, t) →
    Echoes j v ∧ Leaves r t

section Containers

variable {element : Reader Json} {fuel : Nat} {r t : List Char}

/-- Items read back one by one. -/
theorem readItems_tails (hel : Recalls element) {x : Json} {xs ys : List Json}
    (h : readItems element fuel (compact x ++ (tails (compactItems xs) ++ ']' :: r)) =
      some (ys, t)) : EchoesItems (x :: xs) ys ∧ t = r := by
  induction fuel generalizing x xs ys with
  | zero => cases h
  | succ fuel ih =>
    rw [readItems] at h
    split at h
    · cases h
    · rename_i v rest hread
      obtain ⟨hv, hrest⟩ := hel x (ends_tails (.inl rfl) _ r) hread
      have hskip := skipSpace_tails (c := ']') rfl (compactItems xs) r
      split at h
      · rename_i u hu
        have hnext := hrest.eq_of_skipSpace rfl hu hskip
        cases xs with
        | nil => cases hnext
        | cons y xs =>
          simp only [compactItems, tails_cons, List.cons_append, List.append_assoc,
            List.cons.injEq, true_and] at hnext
          rw [← hnext, skipSpace_compact] at h
          obtain ⟨⟨zs, t'⟩, hitems, heq⟩ := Option.map_eq_some_iff.1 h
          cases heq
          obtain ⟨hzs, rfl⟩ := ih hitems
          exact ⟨⟨v, zs, rfl, hv, hzs⟩, rfl⟩
      · rename_i u hu
        have hnext := hrest.eq_of_skipSpace rfl hu hskip
        cases xs with
        | nil =>
          cases hnext
          cases h
          exact ⟨⟨v, [], rfl, hv, rfl⟩, rfl⟩
        | cons y xs => cases hnext
      · cases h

/-- Fields read back one by one, under their names. -/
theorem readFields_tails (hel : Recalls element) {k : String} {j : Json}
    {fs gs : List (String × Json)}
    (h : readFields element fuel
      (quote k ++ ':' :: (compact j ++ (tails (compactFields fs) ++ '\x7d' :: r))) =
        some (gs, t)) : EchoesFields ((k, j) :: fs) gs ∧ t = r := by
  induction fuel generalizing k j fs gs with
  | zero => cases h
  | succ fuel ih =>
    rw [readFields, readString_quote] at h
    simp only [skipSpace_cons (show isSpace ':' = false from rfl), skipSpace_compact] at h
    split at h
    · cases h
    · rename_i v rest hread
      obtain ⟨hv, hrest⟩ := hel j (ends_tails (.inr rfl) _ r) hread
      have hskip := skipSpace_tails (c := '\x7d') rfl (compactFields fs) r
      split at h
      · rename_i u hu
        have hnext := hrest.eq_of_skipSpace rfl hu hskip
        cases fs with
        | nil => cases hnext
        | cons f fs =>
          obtain ⟨l, w⟩ := f
          simp only [compactFields, tails_cons, List.cons_append, List.append_assoc,
            List.cons.injEq, true_and] at hnext
          rw [← hnext, quote, List.cons_append, skipSpace_cons rfl, ← List.cons_append,
            ← quote] at h
          obtain ⟨⟨hs, t'⟩, hfields, heq⟩ := Option.map_eq_some_iff.1 h
          cases heq
          obtain ⟨hhs, rfl⟩ := ih hfields
          exact ⟨⟨v, hs, rfl, hv, hhs⟩, rfl⟩
      · rename_i u hu
        have hnext := hrest.eq_of_skipSpace rfl hu hskip
        cases fs with
        | nil =>
          cases hnext
          cases h
          exact ⟨⟨v, [], rfl, hv, rfl⟩, rfl⟩
        | cons f fs => cases hnext
      · cases h

end Containers

/-- **The text of a value reads back up to its numbers**, if it can be read. -/
theorem recalls_readValue (depth : Nat) : Recalls (readValue depth) := by
  induction depth with
  | zero => exact fun _ _ _ _ _ h => by cases h
  | succ depth ih =>
    intro j r t v hr h
    match j with
    | .null | .bool true | .bool false =>
      cases h
      exact ⟨rfl, .refl r⟩
    | .int n =>
      have hne : writeInt n ≠ [] := by simp [writeInt, Nat.toDigits_ne_nil]
      rw [compact, readValue_numeric writeInt_numeric hne] at h
      exact ⟨trivial, leaves_of_spends writeInt_numeric hr (spends_readNumber h)⟩
    | .double x hx =>
      obtain ⟨hw, hm⟩ := writeDouble_numeric hx
      have hne : writeDouble x.bits ≠ [] := by
        rcases hm with hm | hm <;> exact List.ne_nil_of_mem hm
      rw [compact, readValue_numeric hw hne] at h
      exact ⟨trivial, leaves_of_spends hw hr (spends_readNumber h)⟩
    | .str s =>
      rw [readValue_str] at h
      cases h
      exact ⟨rfl, .refl r⟩
    | .arr [] =>
      rw [compact_arr_append, readValue] at h
      split at h
      · cases h
      · cases h
        exact ⟨⟨[], rfl, rfl⟩, .refl r⟩
    | .arr (x :: xs) =>
      rw [compact_arr_append, compactItems, join_cons, List.append_assoc, readValue] at h
      split at h
      · cases h
      · rw [skipSpace_compact] at h
        split at h
        · rename_i hhead
          obtain ⟨d, u, hd, hne⟩ := compactItems_heads [x] (compact x) List.mem_cons_self
          rw [hd] at hhead
          exact absurd (List.cons.inj hhead).1 hne
        · obtain ⟨⟨ys, t'⟩, hitems, heq⟩ := Option.map_eq_some_iff.1 h
          cases heq
          obtain ⟨hys, rfl⟩ := readItems_tails ih hitems
          exact ⟨⟨ys, rfl, hys⟩, .refl _⟩
    | .obj [] =>
      rw [compact_obj_append, readValue] at h
      split at h
      · cases h
      · cases h
        exact ⟨⟨[], rfl, rfl⟩, .refl r⟩
    | .obj ((k, j) :: fs) =>
      rw [compact_obj_append, compactFields, join_cons, List.append_assoc, List.append_assoc,
        readValue] at h
      split at h
      · cases h
      · rw [quote, List.cons_append, skipSpace_cons rfl, ← List.cons_append, ← quote] at h
        split at h
        · rename_i hhead
          exact absurd (List.cons.inj hhead).1 (by decide)
        · obtain ⟨⟨gs, t'⟩, hfields, heq⟩ := Option.map_eq_some_iff.1 h
          cases heq
          obtain ⟨hgs, rfl⟩ := readFields_tails ih hfields
          exact ⟨⟨gs, rfl, hgs⟩, .refl _⟩

/-- A whole text reads back up to its numbers, if it can be read. -/
theorem echoes_of_read? {j v : Json} (h : read? (compact j) = some v) : Echoes j v := by
  have hskip := skipSpace_compact j []
  rw [List.append_nil] at hskip
  rw [read?, hskip] at h
  split at h
  · rename_i k rest hread
    split at h
    · cases h
      rw [← List.append_nil (compact j)] at hread
      exact (recalls_readValue 128 j (fun c hc => by cases hc) hread).1
    · cases h
  · cases h

end CodeSurvey.Json
