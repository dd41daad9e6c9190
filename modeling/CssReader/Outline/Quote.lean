/-
# Quoted texts

A text between quotes: the quote itself and backslashes have a backslash before
them, and control characters are written as a letter or a number behind a
backslash. Characters that cannot be told apart by eye are written as a number
too; which they are, besides the control characters, depends on what is there to
show them, and is left to the caller. All other characters stand for themselves,
the other kind of quote among them.

Key definitions: `Quote.escape`, `Quote.text`.
-/
import CssReader.Text

namespace CssReader
namespace Quote

/-- A control character: one of the first 32, or one from 127 to 159. -/
def isControl (c : Char) : Bool :=
  c.toNat < 32 || (127 ≤ c.toNat && c.toNat < 160)

/-- The characters, control characters apart, that are written as a number if nothing else
is said: none. -/
def noneHidden (_ : Char) : Bool := false

/-- A character between two quotes `q`, where control characters and those in `hidden` are
not shown as they are. -/
def escape (hidden : Char → Bool) (q c : Char) : Text :=
  if c = q || c = '\\' then ['\\', c]
  else if c = '\x00' then ['\\', '0']
  else if c = '\t' then ['\\', 't']
  else if c = '\n' then ['\\', 'n']
  else if c = '\r' then ['\\', 'r']
  else if isControl c || hidden c then ['\\', 'u', '\x7b'] ++ Nat.toDigits 16 c.toNat ++ ['\x7d']
  else [c]

/-- A text between two quotes `q`. -/
def text (hidden : Char → Bool) (q : Char) (s : Text) : Text :=
  q :: s.flatMap (escape hidden q) ++ [q]

end Quote
end CssReader
