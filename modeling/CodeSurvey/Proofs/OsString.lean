import CodeSurvey.Proofs.NormalPath
import CodeSurvey.Proofs.Utf8
/-!
# Names and paths that are texts

A text can be read back from its name, strictly and as it is shown (`text?_ofText`,
`display_ofText`), and a name that is named by what is shown of it is a text (`ofText_display_iff`).
A path that is a text has texts as its names (`Path.isText_of_mem_components`), so that what is
put together from them is a text again (`Path.TextNames.isText_render`).
-/
namespace CodeSurvey

namespace OsString

@[simp]
theorem display_ofText (s : String) : (ofText s).display = s := by
  rw [display, ofText, Utf8.decodeLossy_encode, String.ofList_toList]

@[simp]
theorem text?_ofText (s : String) : (ofText s).text? = some s := by
  rw [text?, ofText, Utf8.decode?_encode, Option.map_some, String.ofList_toList]

@[simp]
theorem ofText_inj {s t : String} : ofText s = ofText t ↔ s = t := by
  refine ⟨fun h => ?_, congrArg ofText⟩
  rw [← display_ofText s, h, display_ofText]

/-- Whether a name is UTF-8. -/
def IsText (s : OsString) : Prop := s.text?.isSome = true

instance (s : OsString) : Decidable s.IsText := inferInstanceAs (Decidable (_ = true))

theorem isText_iff {s : OsString} : s.IsText ↔ ∃ t : String, s = ofText t := by
  constructor
  · intro h
    obtain ⟨t, ht⟩ := Option.isSome_iff_exists.1 h
    obtain ⟨cs, hcs, rfl⟩ := Option.map_eq_some_iff.1 ht
    refine ⟨String.ofList cs, ?_⟩
    rw [ofText, String.toList_ofList, Utf8.encode_of_decode? hcs]
  · rintro ⟨t, rfl⟩
    simp [IsText]

theorem isText_ofText (s : String) : (ofText s).IsText := isText_iff.2 ⟨s, rfl⟩

/-- **What is shown of a name is its text** if and only if it is one. -/
theorem ofText_display_iff {s : OsString} : ofText s.display = s ↔ s.IsText := by
  constructor
  · exact fun h => isText_iff.2 ⟨_, h.symm⟩
  · intro h
    obtain ⟨t, rfl⟩ := isText_iff.1 h
    rw [display_ofText]

end OsString

/-! ## Order -/

namespace OsString

theorem le_total (s t : OsString) : s ≤ t ∨ t ≤ s := List.le_total s.bytes t.bytes

theorem le_trans {s t u : OsString} (hst : s ≤ t) (htu : t ≤ u) : s ≤ u := List.le_trans hst htu

theorem le_antisymm {s t : OsString} (hst : s ≤ t) (hts : t ≤ s) : s = t :=
  congrArg mk (List.le_antisymm hst hts)

end OsString

/-! ## Paths -/

namespace Path

open OsString (IsText isText_iff isText_ofText)

/-- Slashes among bytes are slashes among characters. -/
theorem splitAt_encode (s : List Char) :
    Text.splitAt slash (Utf8.encode s) = (Text.splitAt '/' s).map Utf8.encode := by
  have hascii : '/'.toNat < 0x80 := by decide
  have hslash : slash = '/'.toUInt8 := rfl
  -- a slash cuts both, and what holds none is one piece
  induction hlen : s.length using Nat.strong_induction_on generalizing s with
  | _ len ih =>
    by_cases hmem : '/' ∈ s
    · obtain ⟨w, r, rfl⟩ := List.append_of_mem hmem
      have hcut : Utf8.encode (w ++ '/' :: r) = Utf8.encode w ++ slash :: Utf8.encode r := by
        rw [Utf8.encode_append, Utf8.encode, Utf8.encode, List.flatMap_cons,
          Utf8.encodeChar_of_ascii hascii]
        rfl
      rw [List.length_append, List.length_cons] at hlen
      rw [hcut, FileSystem.splitAt_append, FileSystem.splitAt_append, ih _ (by omega) w rfl,
        ih _ (by omega) r rfl, List.map_append]
    · have hbytes : slash ∉ Utf8.encode s := by
        intro h
        obtain ⟨c, hc, hb⟩ := List.mem_flatMap.1 h
        exact hmem (Utf8.eq_of_toUInt8_mem hascii (hslash ▸ hb) ▸ hc)
      rw [FileSystem.splitAt_of_not_mem hmem, FileSystem.splitAt_of_not_mem hbytes]
      rfl

/-- The names of a text are texts. -/
theorem isText_of_mem_components {path : OsString} (h : path.IsText) {s : OsString}
    (hs : .name s ∈ components path) : s.IsText := by
  obtain ⟨t, rfl⟩ := isText_iff.1 h
  have hinner : .name s ∈ inner (OsString.ofText t) := by
    rw [components_inner] at hs
    rcases List.mem_append.1 hs with hs | hs
    · split at hs
      · simp at hs
      · split at hs <;> simp at hs
    · exact hs
  obtain ⟨p, hp, hc⟩ := List.mem_filterMap.1 hinner
  obtain ⟨hpiece, -⟩ := List.mem_filter.1 hp
  rw [OsString.ofText, splitAt_encode] at hpiece
  obtain ⟨w, -, rfl⟩ := List.mem_map.1 hpiece
  split at hc
  · cases hc
  · split at hc <;> cases hc
    refine isText_iff.2 ⟨String.ofList w, ?_⟩
    rw [OsString.ofText, String.toList_ofList]

/-- Components with texts as names. -/
def TextNames (cs : List Component) : Prop := ∀ s, Component.name s ∈ cs → s.IsText

theorem TextNames.normalize {cs : List Component} (h : TextNames cs) :
    TextNames (Path.normalize cs) := fun s hs => h s (mem_normalize hs)

theorem Component.exists_text {c : Component} (h : ∀ s, c = .name s → s.IsText) :
    ∃ w, c.bytes = Utf8.encode w := by
  cases c with
  | root => exact ⟨[], rfl⟩
  | here => exact ⟨['.'], rfl⟩
  | up => exact ⟨['.', '.'], rfl⟩
  | name s =>
    obtain ⟨t, rfl⟩ := isText_iff.1 (h s rfl)
    exact ⟨t.toList, rfl⟩

theorem TextNames.exists_intercalate {cs : List Component} (h : TextNames cs) :
    ∃ w, [slash].intercalate (cs.map Component.bytes) = Utf8.encode w := by
  induction cs with
  | nil => exact ⟨[], rfl⟩
  | cons c cs ih =>
    obtain ⟨v, hv⟩ := Component.exists_text fun s hs => h s (hs ▸ List.mem_cons_self)
    obtain ⟨w, hw⟩ := ih fun s hs => h s (List.mem_cons_of_mem _ hs)
    cases cs with
    | nil => exact ⟨v, by simpa using hv⟩
    | cons d ds =>
      refine ⟨v ++ '/' :: w, ?_⟩
      rw [List.map_cons, List.map_cons, List.intercalate_cons_cons, ← List.map_cons, hw, hv,
        Utf8.encode_append, List.append_assoc]
      rfl

/-- What is put together from texts is a text. -/
theorem TextNames.isText_render {cs : List Component} (h : TextNames cs) : (render cs).IsText := by
  have hbytes : ∃ w, (render cs).bytes = Utf8.encode w := by
    by_cases hroot : cs = [.root]
    · exact ⟨['/'], by rw [hroot]; rfl⟩
    · rw [bytes_render hroot]
      exact h.exists_intercalate
  obtain ⟨w, hw⟩ := hbytes
  refine isText_iff.2 ⟨String.ofList w, ?_⟩
  rw [OsString.ofText, String.toList_ofList, ← hw]

end Path

end CodeSurvey
