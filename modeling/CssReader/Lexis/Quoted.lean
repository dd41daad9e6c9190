/-
# Quoted strings

A string runs from its opening quote to the next quote of the same kind. A
backslash takes the character behind it into the string, whatever that is.
A string that meets a line break or the end of the text first is cut off there
and counts as open. A backslash with nothing behind it is not taken.

Key definitions: `Quoted.bodyOf`, `Quoted.read`, `Quoted.text`.
Key theorem: `Quoted.read_split`.
-/
import CssReader.Text

namespace CssReader

/-- A string at the front of a text. -/
structure Quoted where
  /-- The quotation mark it begins with. -/
  quote : Char
  /-- What is between the quotes. -/
  body : Text
  /-- Whether the closing quote was met. -/
  closed : Bool
  /-- What follows the string. -/
  rest : Text

namespace Quoted

/-- The string as it is written. -/
def text (q : Quoted) : Text :=
  q.quote :: q.body ++ if q.closed then [q.quote] else []

/-- The longest text free of the quote `q`, of line breaks and of backslashes
with nothing behind them, and the rest. -/
def bodyOf (q : Char) : Text → Text × Text
  | [] => ([], [])
  | ['\\'] => ([], ['\\'])
  | '\\' :: c :: s => ('\\' :: c :: (bodyOf q s).1, (bodyOf q s).2)
  | c :: s => if c = q || isLineBreak c then ([], c :: s) else (c :: (bodyOf q s).1, (bodyOf q s).2)

/-- The string whose opening quote `q` has just been read. -/
def read (q : Char) (s : Text) : Quoted :=
  match bodyOf q s with
  | (body, c :: r) => if c = q then ⟨q, body, true, r⟩ else ⟨q, body, false, c :: r⟩
  | (body, []) => ⟨q, body, false, []⟩

theorem bodyOf_split (q : Char) (s : Text) : (bodyOf q s).1 ++ (bodyOf q s).2 = s := by
  fun_induction bodyOf q s <;> simp_all

/-- Nothing is lost: the string and the rest are the text. -/
theorem read_split (q : Char) (s : Text) : (read q s).text ++ (read q s).rest = q :: s := by
  have h := bodyOf_split q s
  unfold read
  split
  · rename_i body c r heq
    rw [heq] at h
    split <;> simp_all [text]
  · rename_i body heq
    rw [heq] at h
    simp_all [text]

theorem text_ne_nil (q : Quoted) : q.text ≠ [] := by simp [text]

end Quoted
end CssReader
