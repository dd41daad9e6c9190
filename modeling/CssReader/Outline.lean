/-
# Outlines

An outline is a value laid out for reading: a word, a quoted text, a record of
labelled fields, a tuple or a list. It is written on one line, or indented with
every field and item on a line of its own. Neither words nor quoted texts are
written with line breaks, so the number of lines depends on the outline's shape
alone. Which characters of a quoted text are hidden is said when it is written.

Key definitions: `Outline`, `Outline.inline`, `Outline.indented`.
-/
import CssReader.Outline.Quote

namespace CssReader

/-- The three ways to hold other outlines. -/
inductive OutlineShape
  | record
  | tuple
  | list
deriving DecidableEq

namespace OutlineShape

/-- What stands in front of the items. -/
def opener : OutlineShape → Text
  | record => [' ', '\x7b']
  | tuple => ['(']
  | list => ['[']

/-- What stands behind the items. -/
def closer : OutlineShape → Text
  | record => ['\x7d']
  | tuple => [')']
  | list => [']']

/-- What stands between the items and the two ends on one line. -/
def padding : OutlineShape → Text
  | record => [' ']
  | _ => []

end OutlineShape

/-- A value laid out for reading. -/
inductive Outline
  | word (text : Text)
  /-- A text between two quotes `mark`. -/
  | quoted (mark : Char) (text : Text)
  /-- A field of a record. -/
  | field (label : Text) (value : Outline)
  /-- A head, which is empty for a list, and the items behind it. -/
  | group (head : Text) (shape : OutlineShape) (items : List Outline)

namespace Outline

/-- A record with a name and labelled fields. -/
def record (name : String) (fields : List (String × Outline)) : Outline :=
  .group name.toList .record (fields.map fun (label, value) => .field label.toList value)

/-- A name with one value in parentheses. -/
def tagged (name : String) (value : Outline) : Outline :=
  .group name.toList .tuple [value]

/-- A text, in double quotes. -/
def ofText (s : Text) : Outline := .quoted '"' s

/-- A character, in single quotes. -/
def ofChar (c : Char) : Outline := .quoted '\'' [c]

/-- A number, in decimal digits. -/
def ofNat (n : Nat) : Outline := .word (Nat.toDigits 10 n)

/-- A list. -/
def list (items : List Outline) : Outline := .group [] .list items

/-- A value that may be missing. -/
def optional : Option Outline → Outline
  | none => .word "None".toList
  | some value => tagged "Some" value

/-! ### One line -/

mutual

/-- The outline on one line. -/
def inline (hidden : Char → Bool := Quote.noneHidden) : Outline → Text
  | .word text => text
  | .quoted mark text => Quote.text hidden mark text
  | .field label value => label ++ [':', ' '] ++ inline hidden value
  | .group head shape items =>
    head ++ shape.opener ++ shape.padding ++ inlineItems hidden items ++ shape.padding ++
      shape.closer

/-- Items on one line, with commas between them. -/
def inlineItems (hidden : Char → Bool) : List Outline → Text
  | [] => []
  | item :: items => inline hidden item ++ inlineTail hidden items

/-- The items behind the first, each with a comma before it. -/
def inlineTail (hidden : Char → Bool) : List Outline → Text
  | [] => []
  | item :: items => [',', ' '] ++ inline hidden item ++ inlineTail hidden items

end

/-! ### Indented -/

/-- The blanks at the beginning of a line: four for each level. -/
def margin (level : Nat) : Text := List.replicate (4 * level) ' '

mutual

/-- The outline from the current place on, with further lines at `level` and
deeper. A group without items stays on its line. -/
def indentedAt (hidden : Char → Bool) (level : Nat) : Outline → Text
  | .word text => text
  | .quoted mark text => Quote.text hidden mark text
  | .field label value => label ++ [':', ' '] ++ indentedAt hidden level value
  | .group head shape items =>
    head ++ shape.opener ++
      (if items.isEmpty then []
        else '\n' :: indentedItems hidden (level + 1) items ++ margin level) ++
      shape.closer

/-- Items on lines of their own, each with a comma behind it. -/
def indentedItems (hidden : Char → Bool) (level : Nat) : List Outline → Text
  | [] => []
  | item :: items =>
    margin level ++ indentedAt hidden level item ++ [',', '\n'] ++
      indentedItems hidden level items

end

/-- The outline on several lines. -/
def indented (hidden : Char → Bool := Quote.noneHidden) (o : Outline) : Text :=
  indentedAt hidden 0 o

end Outline
end CssReader
