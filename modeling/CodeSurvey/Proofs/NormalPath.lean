import CodeSurvey.Proofs.Directory
/-!
# Paths in normal form

Folding dots away leaves the root or not, then steps up, then names (`isNormal_normalize`). Such
components are what normalizing leaves alone (`normalize_of_isNormal`) and are read back from their
text (`components_render`). Walking a path from any directory ends where walking its normal form ends
(`normalizeText_denotes`).
-/
namespace CodeSurvey.Path

open FileSystem (pieceStep splitAt_append splitAt_of_not_mem splitBy_ne_nil steps_eq)

/-! ## The components of a text -/

/-- A name that the text of a path can hold as one component. -/
structure IsName (s : OsString) : Prop where
  nonempty : s.bytes ≠ []
  noSlash : slash ∉ s.bytes
  notDot : s.bytes ≠ [dot]
  notUp : s.bytes ≠ [dot, dot]

/-- Components that a text can have: the root stands in front only, and names are names. -/
structure Legal (cs : List Component) : Prop where
  root_front : Component.root ∉ cs.tail
  isName : ∀ s, Component.name s ∈ cs → IsName s

theorem not_mem_of_mem_splitAt {α : Type} [BEq α] [LawfulBEq α] {sep : α} {s w : List α}
    (h : w ∈ Text.splitAt sep s) :
    sep ∉ w := by
  unfold Text.splitAt at h
  induction s generalizing w with
  | nil =>
    obtain rfl : w = [] := by simpa [Text.splitBy] using h
    exact List.not_mem_nil
  | cons c r ih =>
    rw [Text.splitBy] at h
    split at h
    · rcases List.mem_cons.1 h with rfl | h
      · exact List.not_mem_nil
      · exact ih h
    · rename_i hc
      obtain ⟨v, vs, hv⟩ := List.exists_cons_of_ne_nil (splitBy_ne_nil (· == sep) r)
      rw [hv] at h ih
      rcases List.mem_cons.1 h with rfl | h
      · intro hmem
        rcases List.mem_cons.1 hmem with rfl | hmem
        · simp at hc
        · exact ih List.mem_cons_self hmem
      · exact ih (List.mem_cons_of_mem _ h)

/-- The components after the start of a path: the pieces between slashes, without empty ones and
dots. -/
def inner (path : OsString) : List Component :=
  ((Text.splitAt slash path.bytes).filter (! ·.isEmpty)).filterMap fun p =>
    if p = [dot] then none
    else if p = [dot, dot] then some .up
    else some (.name (⟨p⟩))

theorem inner_eq (path : OsString) :
    inner path = ((Text.splitAt slash path.bytes).filterMap pieceStep).filter (· ≠ .here) :=
  (FileSystem.filterMap_pieces _).symm

theorem components_inner (path : OsString) :
    components path = (if isAbsolute path then [.root]
      else if ((Text.splitAt slash path.bytes).filter (! ·.isEmpty)).head? = some [dot] then [.here]
      else []) ++ inner path := by
  unfold components isAbsolute inner
  simp

theorem mem_inner {path : OsString} {c : Component} (h : c ∈ inner path) :
    c = .up ∨ ∃ s, c = .name s ∧ IsName s := by
  obtain ⟨p, hp, hc⟩ := List.mem_filterMap.1 h
  obtain ⟨hsplit, hne⟩ := List.mem_filter.1 hp
  split at hc
  · cases hc
  · rename_i hdot
    split at hc
    · exact .inl (Option.some.inj hc).symm
    · rename_i hup
      refine .inr ⟨⟨p⟩, (Option.some.inj hc).symm, ?_, ?_, ?_, ?_⟩
      · simpa using hne
      · simpa using not_mem_of_mem_splitAt hsplit
      · simpa using hdot
      · simpa using hup

theorem root_not_mem_inner (path : OsString) : Component.root ∉ inner path := by
  intro h
  rcases mem_inner h with h | ⟨s, h, -⟩ <;> cases h

theorem legal_components (path : OsString) : Legal (components path) := by
  have hinner := root_not_mem_inner path
  have hname : ∀ s, Component.name s ∈ inner path → IsName s := by
    intro s hs
    rcases mem_inner hs with h | ⟨_, h, hn⟩
    · cases h
    · cases h
      exact hn
  rw [components_inner]
  split
  · exact ⟨hinner, by simpa using hname⟩
  · split
    · exact ⟨hinner, by simpa using hname⟩
    · exact ⟨fun h => hinner (List.mem_of_mem_tail h), by simpa using hname⟩

theorem root_not_mem_components {path : OsString} (h : isAbsolute path = false) :
    Component.root ∉ components path := by
  have hinner := root_not_mem_inner path
  rw [components_inner, h, if_neg Bool.false_ne_true]
  split <;> simp [hinner]

theorem legal_parent (path : OsString) : Legal ((parent? path).getD []) := by
  have h := legal_components path
  have hdrop : Legal (components path).dropLast :=
    ⟨fun hm => h.root_front (by
        rw [List.tail_dropLast] at hm
        exact (List.dropLast_sublist _).mem hm),
      fun s hs => h.isName s ((List.dropLast_sublist _).mem hs)⟩
  unfold parent?
  dsimp only
  split
  · exact ⟨List.not_mem_nil, fun _ hs => absurd hs List.not_mem_nil⟩
  · exact ⟨List.not_mem_nil, fun _ hs => absurd hs List.not_mem_nil⟩
  · exact hdrop

theorem mem_of_mem_parent {path : OsString} {c : Component} (h : c ∈ (parent? path).getD []) :
    c ∈ components path := by
  unfold parent? at h
  dsimp only at h
  split at h
  · exact absurd h List.not_mem_nil
  · exact absurd h List.not_mem_nil
  · exact (List.dropLast_sublist _).mem h

theorem legal_joinComponents {dir : List Component} (h : Legal dir) (path : OsString) :
    Legal (joinComponents dir path) := by
  have hpath := legal_components path
  unfold joinComponents
  split
  · exact hpath
  · rename_i habs
    have hroot := root_not_mem_components (Bool.eq_false_iff.2 habs)
    constructor
    · cases dir with
      | nil => exact hpath.root_front
      | cons c cs =>
        rw [List.cons_append, List.tail_cons, List.mem_append]
        exact fun hm => hm.elim h.root_front hroot
    · intro s hs
      exact (List.mem_append.1 hs).elim (h.isName s) (hpath.isName s)

/-! ## The normal form -/

/-- Steps from the root or not: so many up, then down along names. -/
def straight (absolute : Bool) (ups : Nat) (names : List OsString) : List Component :=
  (if absolute then [.root] else []) ++ (List.replicate ups .up ++ names.map .name)

/-- **The lexical normal form**: no dots, and no step up after a name. -/
def IsNormal (cs : List Component) : Prop :=
  ∃ absolute ups names, cs = straight absolute ups names ∧ ∀ n ∈ names, IsName n

theorem straight_concat (absolute : Bool) (ups : Nat) (names : List OsString) (n : OsString) :
    (straight absolute ups (names ++ [n])).reverse =
      .name n :: (straight absolute ups names).reverse := by
  simp [straight]

theorem straight_up (absolute : Bool) (ups : Nat) :
    (straight absolute (ups + 1) []).reverse = .up :: (straight absolute ups []).reverse := by
  simp only [straight, List.map_nil, List.append_nil, List.reverse_append, List.reverse_replicate]
  rfl

theorem fold_up (absolute : Bool) (ups : Nat) :
    fold (straight absolute ups []).reverse .up = (straight absolute (ups + 1) []).reverse := by
  rw [straight_up]
  cases ups with
  | zero => cases absolute <;> rfl
  | succ ups => rw [straight_up]; rfl

/-- One component taken onto a normal form gives a normal form. -/
theorem fold_straight (absolute : Bool) (ups : Nat) {names : List OsString}
    (hnames : ∀ n ∈ names, IsName n) {c : Component} (hroot : c ≠ .root)
    (hname : ∀ s, c = .name s → IsName s) :
    ∃ ups' names', fold (straight absolute ups names).reverse c =
      (straight absolute ups' names').reverse ∧ ∀ n ∈ names', IsName n := by
  cases c with
  | root => exact absurd rfl hroot
  | here => exact ⟨ups, names, rfl, hnames⟩
  | up =>
    rcases List.eq_nil_or_concat' names with rfl | ⟨ms, m, rfl⟩
    · exact ⟨ups + 1, [], fold_up absolute ups, hnames⟩
    · refine ⟨ups, ms, ?_, fun n hn => hnames n (List.mem_append_left _ hn)⟩
      rw [straight_concat]
      rfl
  | name s =>
    refine ⟨ups, names ++ [s], (straight_concat ..).symm, fun n hn => ?_⟩
    rcases List.mem_append.1 hn with hn | hn
    · exact hnames n hn
    · exact List.mem_singleton.1 hn ▸ hname s rfl

theorem foldl_straight (absolute : Bool) {cs : List Component} (hroot : Component.root ∉ cs)
    (hname : ∀ s, Component.name s ∈ cs → IsName s) (ups : Nat) {names : List OsString}
    (hnames : ∀ n ∈ names, IsName n) :
    ∃ ups' names', cs.foldl fold (straight absolute ups names).reverse =
      (straight absolute ups' names').reverse ∧ ∀ n ∈ names', IsName n := by
  induction cs generalizing ups names with
  | nil => exact ⟨ups, names, rfl, hnames⟩
  | cons c cs ih =>
    obtain ⟨ups₁, names₁, hstep, hnames₁⟩ := fold_straight absolute ups hnames
      (fun h => hroot (h ▸ List.mem_cons_self)) fun s h => hname s (h ▸ List.mem_cons_self)
    rw [List.foldl_cons, hstep]
    exact ih (fun h => hroot (List.mem_cons_of_mem _ h))
      (fun s h => hname s (List.mem_cons_of_mem _ h)) ups₁ hnames₁

/-- **Normalizing gives normal forms.** -/
theorem isNormal_normalize {cs : List Component} (h : Legal cs) : IsNormal (normalize cs) := by
  -- the root, if there is one, is taken first; what follows has none
  obtain ⟨absolute, rest, rfl, hroot⟩ :
      ∃ absolute rest, cs = straight absolute 0 [] ++ rest ∧ Component.root ∉ rest := by
    cases cs with
    | nil => exact ⟨false, [], rfl, List.not_mem_nil⟩
    | cons c cs =>
      by_cases hc : c = .root
      · exact ⟨true, cs, by rw [hc]; rfl, h.root_front⟩
      · refine ⟨false, c :: cs, rfl, fun hm => ?_⟩
        rcases List.mem_cons.1 hm with rfl | hm
        · exact hc rfl
        · exact h.root_front hm
  obtain ⟨ups, names, hfold, hnames⟩ := foldl_straight absolute hroot
    (fun s hs => h.isName s (List.mem_append_right _ hs)) 0
    fun _ hn => absurd hn List.not_mem_nil
  refine ⟨absolute, ups, names, ?_, hnames⟩
  have hstart : (straight absolute 0 []).foldl fold [] = (straight absolute 0 []).reverse := by
    cases absolute <;> rfl
  rw [normalize, List.foldl_append, hstart, hfold, List.reverse_reverse]

theorem foldl_ups (absolute : Bool) (ups : Nat) :
    (List.replicate ups Component.up).foldl fold (straight absolute 0 []).reverse =
      (straight absolute ups []).reverse := by
  induction ups with
  | zero => rfl
  | succ ups ih =>
    rw [List.replicate_succ', List.foldl_append, ih]
    exact fold_up absolute ups

theorem foldl_names (names : List OsString) (done : List Component) :
    (names.map Component.name).foldl fold done = (names.map Component.name).reverse ++ done := by
  induction names generalizing done with
  | nil => rfl
  | cons n ns ih => simp [fold, ih]

/-- Normalizing leaves normal forms alone. -/
theorem normalize_of_isNormal {cs : List Component} (h : IsNormal cs) : normalize cs = cs := by
  obtain ⟨absolute, ups, names, rfl, -⟩ := h
  have hstart : (if absolute then [Component.root] else []).foldl fold [] =
      (straight absolute 0 []).reverse := by cases absolute <;> rfl
  rw [normalize, straight, List.foldl_append, List.foldl_append, hstart, foldl_ups, foldl_names]
  simp [straight]

/-! ## The text of a normal form -/

theorem bytes_render {cs : List Component} (h : cs ≠ [.root]) :
    (render cs).bytes = [slash].intercalate (cs.map Component.bytes) := by
  unfold render
  split
  · exact absurd rfl h
  · rfl

theorem bytes_render_root (c : Component) (cs : List Component) :
    (render (.root :: c :: cs)).bytes =
      [] ++ slash :: [slash].intercalate ((c :: cs).map Component.bytes) := by
  rw [bytes_render (by simp), List.map_cons, List.map_cons, List.intercalate_cons_cons]
  rfl

/-- What a normal form holds after its root. -/
def Component.Moves (c : Component) : Prop := c = .up ∨ ∃ s, c = .name s ∧ IsName s

namespace Component.Moves

variable {c : Component} (h : c.Moves)
include h

theorem nonempty : c.bytes ≠ [] := by
  rcases h with rfl | ⟨s, rfl, hs⟩
  · exact List.cons_ne_nil _ _
  · exact hs.nonempty

theorem noSlash : slash ∉ c.bytes := by
  rcases h with rfl | ⟨s, rfl, hs⟩
  · decide
  · exact hs.noSlash

theorem notDot : c.bytes ≠ [dot] := by
  rcases h with rfl | ⟨s, rfl, hs⟩
  · decide
  · exact hs.notDot

theorem pieceStep_bytes : pieceStep c.bytes = some c := by
  rcases h with rfl | ⟨s, rfl, hs⟩
  · rfl
  · simp [pieceStep, bytes, hs.nonempty, hs.notDot, hs.notUp]

end Component.Moves

theorem splitAt_intercalate {ws : List (List UInt8)} (hne : ws ≠ []) (h : ∀ w ∈ ws, slash ∉ w) :
    Text.splitAt slash ([slash].intercalate ws) = ws := by
  induction ws with
  | nil => exact absurd rfl hne
  | cons w ws ih =>
    have hw := splitAt_of_not_mem (h w List.mem_cons_self)
    cases ws with
    | nil => simpa using hw
    | cons v vs =>
      rw [List.intercalate_cons_cons, List.append_assoc, List.singleton_append, splitAt_append, hw,
        ih (List.cons_ne_nil _ _) fun u hu => h u (List.mem_cons_of_mem _ hu)]
      rfl

theorem mem_intercalate {x : UInt8} {ws : List (List UInt8)} (h : x ∈ [slash].intercalate ws) :
    x = slash ∨ ∃ w ∈ ws, x ∈ w := by
  induction ws with
  | nil => simp at h
  | cons w ws ih =>
    cases ws with
    | nil => exact .inr ⟨w, by simp, by simpa using h⟩
    | cons v vs =>
      rw [List.intercalate_cons_cons, List.mem_append, List.mem_append, List.mem_singleton] at h
      rcases h with (h | h) | h
      · exact .inr ⟨w, List.mem_cons_self, h⟩
      · exact .inl h
      · obtain h | ⟨u, hu, hx⟩ := ih h
        · exact .inl h
        · exact .inr ⟨u, List.mem_cons_of_mem _ hu, hx⟩

section Texts

variable {c : Component} {cs : List Component} (h : ∀ d ∈ c :: cs, d.Moves)
include h

theorem head_intercalate : ([slash].intercalate ((c :: cs).map Component.bytes)).head? =
    c.bytes.head? := by
  obtain ⟨x, w, hx⟩ := List.exists_cons_of_ne_nil (h c List.mem_cons_self).nonempty
  cases cs with
  | nil => simp
  | cons d ds => rw [List.map_cons, List.map_cons, List.intercalate_cons_cons, hx]; rfl

theorem last_intercalate :
    ∃ x, ([slash].intercalate ((c :: cs).map Component.bytes)).getLast? = some x ∧ x ≠ slash := by
  induction cs generalizing c with
  | nil =>
    have hc := h c List.mem_cons_self
    obtain ⟨w, x, hx⟩ := (List.eq_nil_or_concat' c.bytes).resolve_left hc.nonempty
    refine ⟨x, by simp [hx], ?_⟩
    rintro rfl
    exact hc.noSlash (by simp [hx])
  | cons d ds ih =>
    obtain ⟨x, hx, hne⟩ := ih fun e he => h e (List.mem_cons_of_mem _ he)
    refine ⟨x, ?_, hne⟩
    rw [List.map_cons, List.map_cons, List.intercalate_cons_cons, List.getLast?_append]
    rw [List.map_cons] at hx
    rw [hx]
    rfl

theorem splitAt_moves :
    Text.splitAt slash ([slash].intercalate ((c :: cs).map Component.bytes)) =
      (c :: cs).map Component.bytes := by
  refine splitAt_intercalate (by simp) fun w hw => ?_
  obtain ⟨d, hd, rfl⟩ := List.mem_map.1 hw
  exact (h d hd).noSlash

theorem filterMap_moves : ((c :: cs).map Component.bytes).filterMap pieceStep = c :: cs := by
  rw [List.filterMap_map]
  exact (List.filterMap_congr fun d hd => (h d hd).pieceStep_bytes).trans List.filterMap_some

theorem head_ne_slash : c.bytes.head? ≠ some slash := by
  have hc := h c List.mem_cons_self
  intro hhead
  exact hc.noSlash (List.mem_of_mem_head? hhead)

theorem filter_moves : (c :: cs).filter (· ≠ .here) = c :: cs := by
  refine List.filter_eq_self.2 fun d hd => ?_
  rcases h d hd with rfl | ⟨s, rfl, -⟩ <;> rfl

theorem ne_root_of_moves : c :: cs ≠ [.root] := by
  intro heq
  rcases h .root (heq ▸ List.mem_cons_self) with hm | ⟨s, hm, -⟩ <;> cases hm

theorem steps_render_moves : FileSystem.steps (render (c :: cs)) = c :: cs := by
  obtain ⟨x, hx, hne⟩ := last_intercalate h
  rw [steps_eq, bytes_render (ne_root_of_moves h), head_intercalate h, if_neg (head_ne_slash h), splitAt_moves h,
    filterMap_moves h, hx, if_neg (by simpa using hne)]
  simp

theorem components_render_moves : components (render (c :: cs)) = c :: cs := by
  have htext := bytes_render (ne_root_of_moves h)
  have habs : isAbsolute (render (c :: cs)) = false := by
    rw [isAbsolute, htext, head_intercalate h]
    simpa using head_ne_slash h
  have hkeep : ((c :: cs).map Component.bytes).filter (! ·.isEmpty) =
      (c :: cs).map Component.bytes := by
    refine List.filter_eq_self.2 fun w hw => ?_
    obtain ⟨d, hd, rfl⟩ := List.mem_map.1 hw
    simpa using (h d hd).nonempty
  rw [components_inner, inner_eq, habs, htext, splitAt_moves h, hkeep, filterMap_moves h,
    filter_moves h]
  simp [(h c List.mem_cons_self).notDot]

theorem splitAt_root :
    (Text.splitAt slash ([] ++ slash :: [slash].intercalate ((c :: cs).map Component.bytes))).filterMap
      pieceStep = c :: cs := by
  rw [splitAt_append, splitAt_moves h, List.filterMap_append, filterMap_moves h]
  rfl

theorem steps_render_root : FileSystem.steps (render (.root :: c :: cs)) = .root :: c :: cs := by
  obtain ⟨x, hx, hne⟩ := last_intercalate h
  have hlast : ([] ++ slash :: [slash].intercalate ((c :: cs).map Component.bytes)).getLast? ≠
      some slash := by
    rw [List.nil_append, List.getLast?_cons, hx]
    simpa using hne
  rw [steps_eq, bytes_render_root, splitAt_root h, if_neg hlast]
  simp

theorem components_render_root : components (render (.root :: c :: cs)) = .root :: c :: cs := by
  have habs : isAbsolute (render (.root :: c :: cs)) = true := by
    rw [isAbsolute, bytes_render_root]
    rfl
  rw [components_inner, inner_eq, habs, bytes_render_root, splitAt_root h, filter_moves h]
  rfl

end Texts

theorem moves_of_straight (ups : Nat) {names : List OsString} (h : ∀ n ∈ names, IsName n) :
    ∀ d ∈ List.replicate ups Component.up ++ names.map .name, d.Moves := by
  intro d hd
  rcases List.mem_append.1 hd with hd | hd
  · exact .inl (List.eq_of_mem_replicate hd)
  · obtain ⟨n, hn, rfl⟩ := List.mem_map.1 hd
    exact .inr ⟨n, rfl, h n hn⟩

/-- **Normal forms are read back from their text.** -/
theorem components_render {cs : List Component} (h : IsNormal cs) : components (render cs) = cs := by
  obtain ⟨absolute, ups, names, rfl, hnames⟩ := h
  have hmoves := moves_of_straight ups hnames
  unfold straight
  cases hrest : List.replicate ups Component.up ++ names.map .name with
  | nil => cases absolute <;> rfl
  | cons c cs =>
    rw [hrest] at hmoves
    cases absolute with
    | true => exact components_render_root hmoves
    | false => exact components_render_moves hmoves

/-- The steps of a normal path are its components, but for the dot that the slash of the root stands
for. -/
theorem steps_render {cs : List Component} (h : IsNormal cs) (hne : cs ≠ []) :
    FileSystem.steps (render cs) = cs ∨
      cs = [.root] ∧ FileSystem.steps (render cs) = [.root, .here] := by
  obtain ⟨absolute, ups, names, rfl, hnames⟩ := h
  have hmoves := moves_of_straight ups hnames
  unfold straight at hne ⊢
  cases hrest : List.replicate ups Component.up ++ names.map .name with
  | nil =>
    rw [hrest] at hne
    cases absolute with
    | true => exact .inr ⟨rfl, rfl⟩
    | false => exact absurd rfl hne
  | cons c cs =>
    rw [hrest] at hmoves
    cases absolute with
    | true => exact .inl (steps_render_root hmoves)
    | false => exact .inl (steps_render_moves hmoves)

theorem render_nonempty {cs : List Component} (h : IsNormal cs) (hne : cs ≠ []) :
    (render cs).isEmpty = false := by
  refine Bool.eq_false_iff.2 fun hempty => hne ?_
  rw [← components_render h]
  obtain ⟨bytes, hbytes⟩ : ∃ bytes, render cs = ⟨bytes⟩ := ⟨_, rfl⟩
  rw [hbytes] at hempty ⊢
  rw [show bytes = [] from List.isEmpty_iff.1 hempty]
  rfl

/-- The text of a normal form is normal. -/
theorem normalizeText_render {cs : List Component} (h : IsNormal cs) :
    normalizeText (render cs) = render cs := by
  rw [normalizeText, components_render h, normalize_of_isNormal h]

/-! ## What a path denotes -/

/-- One component walked from a directory, given by the names that lead to it, the innermost first. There
is nothing above the root. -/
def move (stack : List OsString) : Component → List OsString
  | .root => []
  | .here => stack
  | .up => stack.tail
  | .name s => s :: stack

/-- The directory at which a walk along components ends. -/
def destination (start : List OsString) (cs : List Component) : List OsString := cs.foldl move start

/-- Folding a component onto the steps so far ends where walking it would. -/
theorem destination_fold (start : List OsString) (done : List Component) (c : Component) :
    destination start (fold done c).reverse = move (destination start done.reverse) c := by
  have hpush : destination start (c :: done).reverse = move (destination start done.reverse) c := by
    rw [destination, List.reverse_cons, List.foldl_append]
    rfl
  cases c with
  | root => exact hpush
  | here => rfl
  | name s => exact hpush
  | up =>
    cases done with
    | nil => exact hpush
    | cons d rest =>
      cases d with
      | root | here | up => exact hpush
      | name s =>
        -- the name was walked last, and leaving it leads back
        show destination start rest.reverse = move (destination start (.name s :: rest).reverse) .up
        rw [destination, destination, List.reverse_cons, List.foldl_append]
        rfl

theorem destination_foldl (start : List OsString) (cs done : List Component) :
    destination start (cs.foldl fold done).reverse = destination (destination start done.reverse) cs := by
  induction cs generalizing done with
  | nil => rfl
  | cons c cs ih => rw [List.foldl_cons, ih, destination_fold]; rfl

theorem destination_normalize (start : List OsString) (cs : List Component) :
    destination start (normalize cs) = destination start cs :=
  destination_foldl start cs []

theorem destination_names (start names : List OsString) :
    destination start (names.map .name) = names.reverse ++ start := by
  induction names generalizing start with
  | nil => rfl
  | cons n names ih =>
    rw [List.map_cons, destination, List.foldl_cons]
    refine (ih (n :: start)).trans ?_
    simp

/-- Folding adds no components. -/
theorem mem_normalize {cs : List Component} {d : Component} (h : d ∈ normalize cs) : d ∈ cs := by
  have hfold {done : List Component} {c : Component} (h : d ∈ fold done c) : d ∈ done ∨ d = c := by
    cases c with
    | here => exact .inl h
    | root | name => exact (List.mem_cons.1 h).symm
    | up =>
      cases done with
      | nil => exact (List.mem_cons.1 h).symm
      | cons e rest =>
        cases e with
        | name s => exact .inl (List.mem_cons_of_mem _ h)
        | root | here | up => exact (List.mem_cons.1 h).symm
  have hfoldl {ds done : List Component} (h : d ∈ ds.foldl fold done) : d ∈ done ∨ d ∈ ds := by
    induction ds generalizing done with
    | nil => exact .inl h
    | cons c ds ih =>
      rcases ih h with h | h
      · rcases hfold h with h | rfl
        · exact .inl h
        · exact .inr List.mem_cons_self
      · exact .inr (List.mem_cons_of_mem _ h)
  exact (hfoldl (List.mem_reverse.1 h)).resolve_left List.not_mem_nil

/-- Only names are folded away, so the root stays. -/
theorem root_mem_normalize {cs : List Component} : .root ∈ normalize cs ↔ .root ∈ cs := by
  have hfold (done : List Component) (c : Component) :
      .root ∈ fold done c ↔ .root ∈ done ∨ c = .root := by
    cases c with
    | root => simp [fold]
    | here => simp [fold]
    | name s => simp [fold]
    | up =>
      cases done with
      | nil => simp [fold]
      | cons d rest => cases d <;> simp [fold]
  have hfoldl (done : List Component) : .root ∈ cs.foldl fold done ↔ .root ∈ done ∨ .root ∈ cs := by
    induction cs generalizing done with
    | nil => simp
    | cons c cs ih => rw [List.foldl_cons, ih, hfold, List.mem_cons, or_assoc, eq_comm (a := c)]
  rw [normalize, List.mem_reverse, hfoldl]
  simp

theorem root_mem_components {path : OsString} : .root ∈ components path ↔ isAbsolute path = true := by
  constructor
  · intro hmem
    by_contra habs
    exact root_not_mem_components (Bool.eq_false_iff.2 habs) hmem
  · intro habs
    rw [components_inner, if_pos habs]
    exact List.mem_append_left _ List.mem_cons_self

theorem root_mem_straight (absolute : Bool) (ups : Nat) (names : List OsString) :
    .root ∈ straight absolute ups names ↔ absolute = true := by
  cases absolute <;> simp [straight]

/-- **Normalizing computes the lexical normal form.** The result is the root if the path has it, then steps
up, then names; normalizing it again changes nothing; from every directory it leads where the path leads;
and it is absolute if and only if the path is. -/
theorem normalizeText_denotes (path : OsString) :
    (∃ ups names, components (normalizeText path) = straight (isAbsolute path) ups names ∧
      ∀ n ∈ names, IsName n) ∧
    normalizeText (normalizeText path) = normalizeText path ∧
    (∀ start, destination start (components (normalizeText path)) =
      destination start (components path)) ∧
    isAbsolute (normalizeText path) = isAbsolute path := by
  have hnormal : IsNormal (normalize (components path)) := isNormal_normalize (legal_components path)
  have hback : components (normalizeText path) = normalize (components path) :=
    components_render hnormal
  have habs : isAbsolute (normalizeText path) = isAbsolute path := by
    rw [Bool.eq_iff_iff, ← root_mem_components, ← root_mem_components, hback, root_mem_normalize]
  refine ⟨?_, normalizeText_render hnormal, fun start => ?_, habs⟩
  · obtain ⟨absolute, ups, names, hstraight, hnames⟩ := hnormal
    have hroot : absolute = isAbsolute path := by
      rw [Bool.eq_iff_iff, ← root_mem_straight absolute ups names, ← hstraight, root_mem_normalize,
        root_mem_components]
    exact ⟨ups, names, by rw [hback, hstraight, hroot], hnames⟩
  · rw [hback, destination_normalize]

example : normalizeText "/../a/./b/../../../c" = "/../../c" := by decide

end CodeSurvey.Path
