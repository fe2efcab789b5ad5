import CodeSurvey.Text.Blank
/-!
# Texts as lists of characters

Offsets into a text count UTF-8 bytes. `size` measures a text, `slice` cuts it between two offsets,
and the remaining functions trim, split and join. `slice_size` says that cutting a text from zero to
its own size gives the text back.
-/
namespace CodeSurvey.Text

/-! ## Measuring and cutting -/

def size : List Char → Nat
  | [] => 0
  | c :: r => c.utf8Size + size r

/-- What follows the first `n` bytes; a cut inside a character drops all of it. -/
def dropBytes (n : Nat) : List Char → List Char
  | [] => []
  | c :: r => if n = 0 then c :: r else dropBytes (n - c.utf8Size) r

/-- The whole characters among the first `n` bytes. -/
def takeBytes (n : Nat) : List Char → List Char
  | [] => []
  | c :: r => if n < c.utf8Size then [] else c :: takeBytes (n - c.utf8Size) r

def slice (start stop : Nat) (s : List Char) : List Char :=
  takeBytes (stop - start) (dropBytes start s)

@[simp] theorem size_append (s t : List Char) : size (s ++ t) = size s + size t := by
  induction s with
  | nil => simp [size]
  | cons c r ih => simp [size, ih, Nat.add_assoc]

theorem takeBytes_size (s : List Char) : takeBytes (size s) s = s := by
  induction s with
  | nil => rfl
  | cons c r ih =>
    have h : ¬ (c.utf8Size + size r < c.utf8Size) := by omega
    simp [takeBytes, size, h, ih]

@[simp] theorem dropBytes_zero (s : List Char) : dropBytes 0 s = s := by
  cases s <;> simp [dropBytes]

theorem length_dropBytes_le (n : Nat) (s : List Char) : (dropBytes n s).length ≤ s.length := by
  induction s generalizing n with
  | nil => exact Nat.le_refl _
  | cons c r ih =>
    rw [dropBytes]
    split
    · exact Nat.le_refl _
    · exact Nat.le_succ_of_le (ih _)

theorem length_dropBytes_lt {n : Nat} {s : List Char} (hn : 0 < n) (hs : s ≠ []) :
    (dropBytes n s).length < s.length := by
  cases s with
  | nil => exact absurd rfl hs
  | cons c r =>
    rw [dropBytes, if_neg (Nat.ne_of_gt hn)]
    exact Nat.lt_succ_of_le (length_dropBytes_le _ r)

theorem slice_size (s : List Char) : slice 0 (size s) s = s := by
  simp [slice, takeBytes_size]

/-! ## Trimming -/

/-- Drops the longest ending whose characters satisfy `p` (`trim_end_matches`). -/
def dropEndWhile (p : Char → Bool) (s : List Char) : List Char :=
  (s.reverse.dropWhile p).reverse

def trimStart (s : List Char) : List Char := s.dropWhile isBlank

def trimEnd (s : List Char) : List Char := dropEndWhile isBlank s

def trim (s : List Char) : List Char := trimEnd (trimStart s)

/-! ## Beginnings, endings and inner parts -/

/-- What follows the given beginning, if the text has it. -/
def afterStart? : List Char → List Char → Option (List Char)
  | [], s => some s
  | _ :: _, [] => none
  | a :: r, c :: s => if a = c then afterStart? r s else none

/-- What precedes the given ending, if the text has it. -/
def beforeEnd? (ending s : List Char) : Option (List Char) :=
  (afterStart? ending.reverse s.reverse).map List.reverse

def startsWith (start s : List Char) : Bool := (afterStart? start s).isSome

def endsWith (ending s : List Char) : Bool := (beforeEnd? ending s).isSome

def holds (part : List Char) : List Char → Bool
  | [] => part.isEmpty
  | c :: r => startsWith part (c :: r) || holds part r

/-- Drops the given ending as often as it stands there. -/
def dropEndings (ending : List Char) : Nat → List Char → List Char
  | 0, s => s
  | n + 1, s => match beforeEnd? ending s with
    | some r => dropEndings ending n r
    | none => s

/-! ## Splitting and joining -/

/-- The pieces between the elements that satisfy `p`: one more than there are such elements. -/
def splitBy {α : Type} (p : α → Bool) : List α → List (List α)
  | [] => [[]]
  | c :: r =>
    if p c then [] :: splitBy p r
    else match splitBy p r with
      | [] => [[c]]
      | w :: ws => (c :: w) :: ws

def splitAt {α : Type} [BEq α] (sep : α) (s : List α) : List (List α) := splitBy (· == sep) s

/-- The maximal runs of non-blank characters (`split_whitespace`). -/
def words (s : List Char) : List (List Char) := (splitBy isBlank s).filter (! ·.isEmpty)

def join (sep : List Char) (pieces : List (List Char)) : List Char :=
  List.intercalate sep pieces

theorem join_singleton (sep s : List Char) : join sep [s] = s := by
  simp [join, List.intercalate, List.intersperse]

theorem join_cons_cons (sep s t : List Char) (ts : List (List Char)) :
    join sep (s :: t :: ts) = s ++ (sep ++ join sep (t :: ts)) := by
  simp [join, List.intercalate, List.intersperse]

/-- Runs of blanks become one space and the ends are trimmed. -/
def squeeze (s : List Char) : List Char := join [' '] (words s)

def dropReturn (s : List Char) : List Char := (beforeEnd? ['\r'] s).getD s

/-- The lines of a text (`lines`). A final newline starts no line, and the carriage return of a line
that ends in a newline is not part of it. -/
def lines (s : List Char) : List (List Char) :=
  let pieces := splitAt '\n' s
  let closed := pieces.dropLast.map dropReturn
  match pieces.getLast? with
  | some [] | none => closed
  | some last => closed ++ [last]

/-- The lines of a text with their newlines: concatenated they give the text back. -/
def linesKept : List Char → List (List Char)
  | [] => []
  | c :: r =>
    if c = '\n' then [c] :: linesKept r
    else match linesKept r with
      | [] => [[c]]
      | w :: ws => (c :: w) :: ws

theorem flatten_linesKept (s : List Char) : (linesKept s).flatten = s := by
  induction s with
  | nil => rfl
  | cons c r ih =>
    unfold linesKept
    split
    · simp [ih]
    · split <;> rename_i h <;> rw [h] at ih <;> simp_all

/-- What follows the last occurrence of an element, or everything. -/
def afterLast {α : Type} [BEq α] (sep : α) (s : List α) : List α :=
  (s.reverse.takeWhile (· != sep)).reverse

end CodeSurvey.Text
