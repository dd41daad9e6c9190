/-
# Text, its byte offsets and its character classes

A text is the list of its characters. Positions in a text are counted in bytes
of its UTF-8 encoding, so a position is meaningful only between two characters;
`Text.slice` gives the text between two positions, and the empty text when the
two are not positions of the text, in this order.

The character classes are those that names, numbers, blanks and strings of a
style sheet are made of. All of them are about ASCII, except that every
character outside ASCII counts as a letter of a name.

Key definitions: `Text.size`, `Text.slice`, `isBlank`, `isNameStart`, `isNameChar`.
Key theorems: `Text.size_append`, `Text.dropBytes?_size_append`,
`Text.slice_append`, `Text.length_lt_of_split`.
-/
namespace CssReader

/-- A text: the list of its characters. -/
abbrev Text := List Char

namespace Text

/-! ### Bytes -/

/-- The number of bytes of the UTF-8 encoding. -/
def size : Text → Nat
  | [] => 0
  | c :: s => c.utf8Size + size s

/-- The text without its first `n` bytes, if they end between two characters. -/
def dropBytes? : Nat → Text → Option Text
  | 0, s => some s
  | _ + 1, [] => none
  | n + 1, c :: s =>
    if c.utf8Size ≤ n + 1 then dropBytes? (n + 1 - c.utf8Size) s else none

/-- The first `n` bytes of the text, if they end between two characters. -/
def takeBytes? : Nat → Text → Option Text
  | 0, _ => some []
  | _ + 1, [] => none
  | n + 1, c :: s =>
    if c.utf8Size ≤ n + 1 then (takeBytes? (n + 1 - c.utf8Size) s).map (c :: ·) else none

/-- The text from byte `a` to byte `b`; empty unless both are positions of the
text and `a ≤ b`. -/
def slice (s : Text) (a b : Nat) : Text :=
  if a ≤ b then ((dropBytes? a s).bind (takeBytes? (b - a))).getD [] else []

@[simp] theorem size_nil : size [] = 0 := rfl

@[simp] theorem size_cons (c : Char) (s : Text) : size (c :: s) = c.utf8Size + size s := rfl

@[simp] theorem size_append : ∀ s t : Text, size (s ++ t) = size s + size t
  | [], t => by simp
  | c :: s, t => by simp [size_append s t, Nat.add_assoc]

/-- Every character takes a byte, so only the empty text takes none. -/
theorem size_pos : ∀ {s : Text}, s ≠ [] → 0 < size s
  | [], h => absurd rfl h
  | c :: s, _ => by have := c.utf8Size_pos; simp only [size_cons]; omega

/-- A beginning that is not empty leaves less behind. -/
theorem length_lt_of_split {s l r : Text} (h : l ++ r = s ∧ l ≠ []) : r.length < s.length := by
  have := List.length_pos_iff.2 h.2
  rw [← h.1, List.length_append]
  omega

theorem dropBytes?_size_append : ∀ s t : Text, dropBytes? (size s) (s ++ t) = some t
  | [], t => by cases t <;> rfl
  | c :: s, t => by
    have hc := c.utf8Size_pos
    obtain ⟨n, hn⟩ : ∃ n, size (c :: s) = n + 1 :=
      ⟨size (c :: s) - 1, by simp only [size_cons]; omega⟩
    have hs : n + 1 - c.utf8Size = size s := by simp only [size_cons] at hn; omega
    have hle : c.utf8Size ≤ n + 1 := by simp only [size_cons] at hn; omega
    rw [hn, List.cons_append, dropBytes?, if_pos hle, hs, dropBytes?_size_append s t]

theorem takeBytes?_size_append : ∀ s t : Text, takeBytes? (size s) (s ++ t) = some s
  | [], t => by cases t <;> rfl
  | c :: s, t => by
    have hc := c.utf8Size_pos
    obtain ⟨n, hn⟩ : ∃ n, size (c :: s) = n + 1 :=
      ⟨size (c :: s) - 1, by simp only [size_cons]; omega⟩
    have hs : n + 1 - c.utf8Size = size s := by simp only [size_cons] at hn; omega
    have hle : c.utf8Size ≤ n + 1 := by simp only [size_cons] at hn; omega
    rw [hn, List.cons_append, takeBytes?, if_pos hle, hs, takeBytes?_size_append s t]
    rfl

/-- The middle of a text is the slice between the bytes before it and the bytes
up to its end. -/
theorem slice_append (before middle after : Text) :
    slice (before ++ (middle ++ after)) (size before) (size before + size middle) = middle := by
  simp [slice, dropBytes?_size_append, takeBytes?_size_append]

end Text

/-! ### Character classes -/

/-- Space, tab, line feed, carriage return and form feed. -/
def isBlank (c : Char) : Bool :=
  c = ' ' || c = '\t' || c = '\n' || c = '\r' || c = '\x0c'

/-- The blanks that break a line: no string runs across one. -/
def isLineBreak (c : Char) : Bool :=
  c = '\n' || c = '\r' || c = '\x0c'

/-- A quotation mark that opens and closes strings. -/
def isQuote (c : Char) : Bool :=
  c = '"' || c = '\''

/-- A hexadecimal digit, in either case. -/
def isHex (c : Char) : Bool :=
  c.isDigit || ('a' ≤ c && c ≤ 'f') || ('A' ≤ c && c ≤ 'F')

/-- A character that may begin a name: a letter, an underscore, or anything
outside ASCII. -/
def isNameStart (c : Char) : Bool :=
  c.isAlpha || c = '_' || 128 ≤ c.toNat

/-- A character that may continue a name. -/
def isNameChar (c : Char) : Bool :=
  isNameStart c || c.isDigit || c = '-'

/-! ### Ends of lists -/

/-- The list without the elements of class `p` at either end. -/
def trimEnds {α : Type} (p : α → Bool) (l : List α) : List α :=
  ((l.dropWhile p).reverse.dropWhile p).reverse

/-- The text without its last character, if that is `c`. -/
def stripLast (c : Char) (s : Text) : Text :=
  if s.getLast? = some c then s.dropLast else s

end CssReader
