/-
# Tokens

The tokens of a style sheet. A token carries the text it was written as:
escapes are not decoded and numbers are not converted. Blanks are the exception,
whose token does not say how many there were and of which kind.

Key definitions: `Bracket`, `AttrMatch`, `Token`, `Token.text`, `Token.closer?`.
-/
import CssReader.Text

namespace CssReader

/-- The three kinds of brackets. -/
inductive Bracket
  | round
  | square
  | curly
deriving DecidableEq

namespace Bracket

/-- The character that opens a bracket. -/
def opener : Bracket → Char
  | round => '('
  | square => '['
  | curly => '\x7b'

/-- The character that closes a bracket. -/
def closer : Bracket → Char
  | round => ')'
  | square => ']'
  | curly => '\x7d'

end Bracket

/-- The ways in which a selector compares an attribute with a value. -/
inductive AttrMatch
  /-- One of the words is the value. -/
  | word
  /-- The value, perhaps with a hyphen and more behind it. -/
  | dash
  /-- Begins with the value. -/
  | start
  /-- Ends with the value. -/
  | finish
  /-- Contains the value. -/
  | part
deriving DecidableEq

namespace AttrMatch

/-- The character written in front of the equals sign. -/
def sign : AttrMatch → Char
  | word => '~'
  | dash => '|'
  | start => '^'
  | finish => '$'
  | part => '*'

/-- The comparison that a character in front of an equals sign stands for. -/
def ofSign? (c : Char) : Option AttrMatch :=
  [word, dash, start, finish, part].find? fun m => m.sign = c

end AttrMatch

/-- A token. -/
inductive Token
  /-- A name. -/
  | ident (value : Text)
  /-- A name with a parenthesis behind it: the beginning of a function only. -/
  | function (name text : Text)
  /-- A name with an at sign before it, which is not part of the value. -/
  | atKeyword (value : Text)
  /-- A hash sign and what follows it. -/
  | hash (value : Text)
  /-- A string with the quotes it has. -/
  | string (value : Text)
  /-- A whole url, from its name to its closing parenthesis. -/
  | url (value : Text)
  /-- A character that begins no other token. -/
  | delim (value : Char)
  | number (value : Text)
  /-- A number with its percent sign. -/
  | percentage (value : Text)
  /-- A number with its unit. -/
  | dimension (value : Text)
  /-- One or more blanks. -/
  | whitespace
  /-- The mark that opens a comment of a surrounding document. -/
  | cdo
  /-- The mark that closes a comment of a surrounding document. -/
  | cdc
  | colon
  | semicolon
  | comma
  | opening (bracket : Bracket)
  | closing (bracket : Bracket)
  | attrMatch (how : AttrMatch)
deriving DecidableEq

namespace Token

/-- The token as it is written; blanks are written as one space. -/
def text : Token → Text
  | ident value => value
  | function _ text => text
  | atKeyword value => '@' :: value
  | hash value => value
  | string value => value
  | url value => value
  | delim value => [value]
  | number value => value
  | percentage value => value
  | dimension value => value
  | whitespace => [' ']
  | cdo => ['<', '!', '-', '-']
  | cdc => ['-', '-', '>']
  | colon => [':']
  | semicolon => [';']
  | comma => [',']
  | opening b => [b.opener]
  | closing b => [b.closer]
  | attrMatch m => [m.sign, '=']

/-- The closing token of an opening bracket. -/
def closer? : Token → Option Token
  | opening b => some (closing b)
  | _ => none

end Token
end CssReader
