/-
# Outlines of tokens, trees and faults

Every constructor has a name of its own and every part a label, in the order in
which the parts are declared.

Key definitions: `Token.label`, `Token.outline`, `ComponentValue.outline`,
`Stylesheet.outline`, `Fault.outline`.
-/
import CssReader.Outline
import CssReader.Report
import CssReader.Tree

namespace CssReader

namespace Bracket

/-- The shape of a bracket, in a word. -/
def label : Bracket → String
  | round => "Parenthesis"
  | square => "SquareBracket"
  | curly => "CurlyBracket"

end Bracket

namespace AttrMatch

/-- The name of a comparison. -/
def label : AttrMatch → String
  | word => "IncludeMatch"
  | dash => "DashMatch"
  | start => "PrefixMatch"
  | finish => "SuffixMatch"
  | part => "SubstringMatch"

end AttrMatch

namespace Token

/-- The name of a token's kind. -/
def label : Token → String
  | ident _ => "Ident"
  | function _ _ => "Function"
  | atKeyword _ => "AtKeyword"
  | hash _ => "Hash"
  | string _ => "String"
  | url _ => "Url"
  | delim _ => "Delim"
  | number _ => "Number"
  | percentage _ => "Percentage"
  | dimension _ => "Dimension"
  | whitespace => "Whitespace"
  | cdo => "Cdo"
  | cdc => "Cdc"
  | colon => "Colon"
  | semicolon => "Semicolon"
  | comma => "Comma"
  | opening b => "Left" ++ b.label
  | closing b => "Right" ++ b.label
  | attrMatch m => m.label

/-- The labelled parts of a token. -/
def fields : Token → List (String × Outline)
  | ident value | atKeyword value | hash value | string value | url value | number value
  | percentage value | dimension value => [("value", .ofText value)]
  | function name text => [("name", .ofText name), ("text", .ofText text)]
  | delim value => [("value", .ofChar value)]
  | _ => []

/-- The outline of a token: its name alone if it has no parts. -/
def outline (t : Token) : Outline :=
  if t.fields.isEmpty then .word t.label.toList else .record t.label t.fields

end Token

namespace ComponentValue

/-- The record of a function. -/
def functionOutline (name text : Text) (components : List Outline) : Outline :=
  .record "Function"
    [("name", .ofText name), ("text", .ofText text), ("components", .list components)]

/-- The record of a block. -/
def blockOutline (b : Bracket) (text : Text) (values : List Outline) : Outline :=
  .record "SimpleBlock"
    [("associated_token", (Token.opening b).outline), ("text", .ofText text),
      ("values", .list values)]

mutual

/-- The outline of a component value. -/
def outline : ComponentValue → Outline
  | .token t => .tagged "PreservedToken" t.outline
  | .function name text arguments =>
    .tagged "Function" (functionOutline name text (outlines arguments))
  | .block b text values => .tagged "SimpleBlock" (blockOutline b text (outlines values))

/-- The outlines of component values. -/
def outlines : List ComponentValue → List Outline
  | [] => []
  | v :: vs => outline v :: outlines vs

end

end ComponentValue

/-- The outline of a block on its own. -/
def Block.outline (b : Block) : Outline :=
  ComponentValue.blockOutline b.bracket b.text (ComponentValue.outlines b.values)

/-- The outline of a rule. -/
def Rule.outline : Rule → Outline
  | .atRule name header block =>
    .tagged "AtRule" (.record "AtRule"
      [("name", .ofText name), ("prelude", .list (ComponentValue.outlines header)),
        ("block", .optional (block.map Block.outline))])
  | .qualified header block =>
    .tagged "QualifiedRule" (.record "QualifiedRule"
      [("prelude", .list (ComponentValue.outlines header)),
        ("block", .optional (some block.outline))])

/-- The outline of a style sheet. -/
def Stylesheet.outline (s : Stylesheet) : Outline :=
  .record "Stylesheet" [("rules", .list (s.rules.map Rule.outline))]

/-- The name of a fault's kind. -/
def FaultKind.label : FaultKind → String
  | .unicodeRange => "UnicodeRange"
  | .urlEscape => "UrlEscape"
  | .urlQuote => "UrlQuote"
  | .malformedUrl => "BadUrl"

/-- The outline of a fault. -/
def Fault.outline (f : Fault) : Outline :=
  .record f.kind.label [("position", .ofNat f.position)]

namespace Outline

/-- A value, or the reason why there is none. -/
def ofResult : Except Outline Outline → Outline
  | .ok value => .tagged "Ok" value
  | .error reason => .tagged "Err" reason

/-- The tokens of a text, or the fault that took their place. -/
def ofTokens (r : Except Fault (List Token)) : Outline :=
  match r with
  | .ok ts => ofResult (.ok (.list (ts.map Token.outline)))
  | .error f => ofResult (.error f.outline)

/-- The style sheet that a text is, or the fault that took its place, which came
from reading the tokens. -/
def ofStylesheet (r : Except Fault Stylesheet) : Outline :=
  match r with
  | .ok s => ofResult (.ok s.outline)
  | .error f => ofResult (.error (.tagged "Tokenize" f.outline))

end Outline
end CssReader
