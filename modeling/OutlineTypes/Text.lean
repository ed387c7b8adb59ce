/-! Offsets into a text count the bytes of its UTF-8 encoding. -/
namespace OutlineTypes.Text

def byteLength : List Char → Nat
  | [] => 0
  | c :: text => c.utf8Size + byteLength text

@[simp] theorem byteLength_nil : byteLength [] = 0 := rfl

@[simp] theorem byteLength_cons (c : Char) (text : List Char) :
    byteLength (c :: text) = c.utf8Size + byteLength text := rfl

@[simp] theorem byteLength_append (left right : List Char) :
    byteLength (left ++ right) = byteLength left + byteLength right := by
  induction left with
  | nil => simp
  | cons c left ih => simp [ih, Nat.add_assoc]

/-- The bytes from `start` up to, not including, `stop`. -/
structure ByteRange where
  start : Nat
  stop : Nat
deriving DecidableEq

namespace ByteRange

/-- The range that covers `text` where `text` begins at `start`. -/
def covering (start : Nat) (text : List Char) : ByteRange := ⟨start, start + byteLength text⟩

/-- The least range that holds both. -/
def cover (range other : ByteRange) : ByteRange := ⟨min range.start other.start, max range.stop other.stop⟩

end ByteRange

/-- The text from byte offset `n` on, if a character begins there or the text ends there. -/
def dropBytes? : List Char → Nat → Option (List Char)
  | text, 0 => some text
  | [], _ + 1 => none
  | c :: text, n + 1 => if c.utf8Size ≤ n + 1 then dropBytes? text (n + 1 - c.utf8Size) else none

/-- The text before byte offset `n`, if a character begins there or the text ends there. -/
def takeBytes? : List Char → Nat → Option (List Char)
  | _, 0 => some []
  | [], _ + 1 => none
  | c :: text, n + 1 =>
    if c.utf8Size ≤ n + 1 then (takeBytes? text (n + 1 - c.utf8Size)).map (c :: ·) else none

/-- The characters a range covers, if it begins and ends on character boundaries. -/
def slice? (text : List Char) (range : ByteRange) : Option (List Char) :=
  (dropBytes? text range.start).bind (takeBytes? · (range.stop - range.start))

/-! White space is the Unicode property `White_Space`, and trimming drops every leading and trailing
element a predicate accepts. -/

/-- The code point ranges with the property `White_Space`, ends included. -/
def blankRanges : List (Nat × Nat) :=
  [(0x09, 0x0D), (0x20, 0x20), (0x85, 0x85), (0xA0, 0xA0), (0x1680, 0x1680), (0x2000, 0x200A),
    (0x2028, 0x2029), (0x202F, 0x202F), (0x205F, 0x205F), (0x3000, 0x3000)]

def isBlank (c : Char) : Bool :=
  blankRanges.any fun (first, last) => first ≤ c.toNat && c.toNat ≤ last

/-- The elements from the first one that `p` refuses. -/
def trimStart (p : α → Bool) (xs : List α) : List α := xs.dropWhile p

/-- The elements up to the last one that `p` refuses. -/
def trimEnd (p : α → Bool) (xs : List α) : List α := (xs.reverse.dropWhile p).reverse

def trim (p : α → Bool) (xs : List α) : List α := trimEnd p (trimStart p xs)

@[simp] theorem trim_nil (p : α → Bool) : trim p [] = [] := rfl

theorem dropWhile_eq_nil (p : α → Bool) (xs : List α) : xs.dropWhile p = [] ↔ ∀ x ∈ xs, p x := by
  induction xs with
  | nil => simp
  | cons x xs ih => by_cases h : p x <;> simp [h, ih]

theorem trim_eq_nil_iff (p : α → Bool) (xs : List α) : trim p xs = [] ↔ ∀ x ∈ xs, p x := by
  simp only [trim, trimEnd, trimStart, List.reverse_eq_nil_iff, dropWhile_eq_nil, List.mem_reverse]
  constructor
  · intro all
    cases rest : xs.dropWhile p with
    | nil => exact (dropWhile_eq_nil p xs).mp rest
    | cons x _ =>
      have refused := List.head?_dropWhile_not p xs
      rw [rest] at refused all
      simp [all x (by simp)] at refused
  · exact fun all x member => all x ((List.dropWhile_sublist p).subset member)

/-! A list cut at its separators. Joining the pieces again puts every element back. -/

/-- The runs between separators, in order; there is always one more run than there are separators. -/
def pieces (separates : α → Bool) : List α → List (List α)
  | [] => [[]]
  | x :: xs =>
    if separates x then [] :: pieces separates xs
    else match pieces separates xs with
      | [] => [[x]]
      | piece :: rest => (x :: piece) :: rest

@[simp] theorem pieces_nil (p : α → Bool) : pieces p [] = [[]] := rfl

theorem pieces_ne_nil (p : α → Bool) (xs : List α) : pieces p xs ≠ [] := by
  cases xs with
  | nil => simp
  | cons x xs =>
    unfold pieces
    split
    · simp
    · split <;> simp

/-- No piece holds a separator. -/
theorem not_separator_of_mem_pieces (p : α → Bool) (xs : List α) (piece : List α)
    (member : piece ∈ pieces p xs) : ∀ x ∈ piece, ¬ p x := by
  induction xs generalizing piece with
  | nil => simp_all
  | cons x xs ih =>
    unfold pieces at member
    by_cases h : p x
    · simp only [h, ↓reduceIte, List.mem_cons] at member
      rcases member with rfl | member
      · simp
      · exact ih piece member
    · simp only [h, Bool.false_eq_true, ↓reduceIte] at member
      split at member
      · exact absurd ‹_› (pieces_ne_nil p xs)
      · rename_i first rest eq
        rcases List.mem_cons.mp member with rfl | member
        · intro y hy
          rcases List.mem_cons.mp hy with rfl | hy
          · exact h
          · exact ih first (by simp [eq]) y hy
        · exact ih piece (by simp [eq, member])

/-! The lines of a text. A line ends at a newline, a carriage return right before that newline belongs
to the ending, and a final newline starts no further line. -/

/-- A line that ended in a newline, without the carriage return of its ending. -/
def withoutReturn (line : List Char) : List Char :=
  if line.getLast? = some '\r' then line.dropLast else line

/-- Every piece before the last was ended by a newline; the last one counts if it holds anything. -/
def lineRuns : List (List Char) → List (List Char)
  | [] => []
  | [last] => if last = [] then [] else [last]
  | line :: next :: rest => withoutReturn line :: lineRuns (next :: rest)

def lines (text : String) : List String :=
  (lineRuns (pieces (· == '\n') text.toList)).map String.ofList

@[simp] theorem lines_empty : lines "" = [] := rfl

example : lines "A\r\nB\r" = ["A", "B\r"] := by decide

end OutlineTypes.Text
