/-
# The parts of a token

A numeric token splits into its numeral and its unit, a url into its target and
what surrounds it. All of this is read off the token's text alone.

Key definitions: `Token.splitNumeric`, `Token.numericValue?`, `Token.unit?`,
`Token.urlTarget?`.
-/
import CssReader.Token
import CssReader.Lexis.Numeral

namespace CssReader
namespace Token

/-- The numeral at the front of a numeric token's text and what follows it,
without a percent sign at the end. A text that begins with no numeral is all
unit. -/
def splitNumeric (s : Text) : Option Numeral × Text :=
  match Numeral.read? (stripLast '%' s) with
  | some (n, unit) => (some n, unit)
  | none => (none, stripLast '%' s)

/-- The numeral of a number, a percentage or a dimension. -/
def numeral? : Token → Option Numeral
  | number value | percentage value | dimension value => (splitNumeric value).1
  | _ => none

/-- The value of a number, of a percentage without its sign, or of a dimension
without its unit. -/
def numericValue? (t : Token) : Option Float :=
  t.numeral?.map Numeral.toFloat

/-- The unit of a dimension. -/
def unit? : Token → Option Text
  | dimension value => some (splitNumeric value).2
  | _ => none

/-- The text without the quote it begins with, if it does, and without the same
quote at its end. -/
def unquote : Text → Text
  | [] => []
  | c :: s => if isQuote c then stripLast c s else c :: s

/-- What is between the parentheses of a url, without blanks around it. The
name and the opening parenthesis take four bytes. -/
def urlBody (value : Text) : Text :=
  trimEnds isBlank (stripLast ')' ((Text.dropBytes? 4 value).getD []))

/-- The target of a url, without blanks or quotes around it. -/
def urlTarget? : Token → Option Text
  | url value => some (unquote (urlBody value))
  | _ => none

end Token
end CssReader
