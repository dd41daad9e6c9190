/-
# Trees of a style sheet

A component value is a token, a function with the values between its
parentheses, or a block with the values between its brackets. A rule is an
at-rule, or a qualified rule, which always has a block. Functions and blocks
carry the source text they were read from.

Key definitions: `ComponentValue`, `Block`, `Rule`, `Stylesheet`, `Opener`.
-/
import CssReader.Token

namespace CssReader

/-- A component value. -/
inductive ComponentValue
  /-- A token that neither opens a function nor a block. -/
  | token (t : Token)
  | function (name text : Text) (arguments : List ComponentValue)
  | block (bracket : Bracket) (text : Text) (values : List ComponentValue)

/-- A block on its own. -/
structure Block where
  bracket : Bracket
  /-- The source text with its brackets; the closing one is missing if the text
  ended first. -/
  text : Text
  values : List ComponentValue

/-- A rule. -/
inductive Rule
  /-- An at-rule; it has no block if a semicolon or the end of the text ended it. -/
  | atRule (name : Text) (header : List ComponentValue) (block : Option Block)
  | qualified (header : List ComponentValue) (block : Block)

/-- A style sheet: its rules in the order of the source. -/
structure Stylesheet where
  rules : List Rule

namespace ComponentValue

/-- The value as it is written. -/
def text : ComponentValue → Text
  | token t => t.text
  | function _ text _ => text
  | block _ text _ => text

/-- Whether the value is a run of blanks. -/
def isWhitespace : ComponentValue → Bool
  | token .whitespace => true
  | _ => false

end ComponentValue

namespace Rule

/-- What stands in front of a rule's block, without the name of an at-rule. -/
def header : Rule → List ComponentValue
  | atRule _ header _ => header
  | qualified header _ => header

/-- The block of a rule, if it has one. -/
def block? : Rule → Option Block
  | atRule _ _ block => block
  | qualified _ block => some block

end Rule

/-- What opens a nested component value. -/
inductive Opener
  | bracket (b : Bracket)
  | function (name : Text)
deriving DecidableEq

namespace Opener

/-- The opener that a token is, if it is one. -/
def ofToken? : Token → Option Opener
  | .opening b => some (bracket b)
  | .function name _ => some (function name)
  | _ => none

/-- The token that closes what was opened. -/
def closer : Opener → Token
  | bracket b => .closing b
  | function _ => .closing .round

end Opener
end CssReader
