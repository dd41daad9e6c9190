/-
# What reading reports

A fault is found in place of a token. A malformed url is the one fault that
readers skip; the others end what is being read. A warning is about a mistake
that the grammar tolerates. Faults and warnings carry the byte position they
are about.

An event is a line of the reader's log: a warning, a token that was taken from
the text, or a token that was lost because a second one was handed back in its
place.

Key definitions: `Fault`, `Fault.message`, `Warning`, `Warning.message`, `Event`.
-/
import CssReader.Token

namespace CssReader

/-- What may be found in place of a token. -/
inductive FaultKind
  /-- A range of characters, such as `U+26`. -/
  | unicodeRange
  /-- A backslash in a url without quotes. -/
  | urlEscape
  /-- A quote in a url without quotes. -/
  | urlQuote
  /-- A url that is not closed where it has to be. -/
  | malformedUrl
deriving DecidableEq

/-- A fault and where it is. -/
structure Fault where
  kind : FaultKind
  position : Nat
deriving DecidableEq

namespace Fault

/-- Whether a reader may skip the fault and go on. -/
def isRecoverable (f : Fault) : Bool := f.kind = .malformedUrl

/-- The fault, in a text that has `n` more bytes in front. -/
def shift (n : Nat) (f : Fault) : Fault := { f with position := n + f.position }

/-- The fault in words. -/
def message (f : Fault) : String :=
  let what := match f.kind with
    | .unicodeRange => "unicode-range tokens are not supported"
    | .urlEscape => "escapes in unquoted url tokens are not supported"
    | .urlQuote => "unexpected quote in unquoted url token"
    | .malformedUrl => "malformed url token"
  s!"{what} (at byte {f.position})"

end Fault

/-- The mistakes that the grammar tolerates. -/
inductive Mistake
  | openComment
  | openString
  | openUrl
  /-- A malformed url, which was skipped. -/
  | skippedUrl
  | openAtRule
  /-- A qualified rule without a block, which was dropped. -/
  | openQualifiedRule
  | openBlock
  | openFunction
deriving DecidableEq

/-- A tolerated mistake and where it is. -/
structure Warning where
  mistake : Mistake
  position : Nat
deriving DecidableEq

namespace Warning

/-- The warning, in a text that has `n` more bytes in front. -/
def shift (n : Nat) (w : Warning) : Warning := { w with position := n + w.position }

/-- The warning in words. -/
def message (w : Warning) : String :=
  let what := match w.mistake with
    | .openComment => "unterminated comment"
    | .openString => "unterminated string"
    | .openUrl => "EOF in url token"
    | .skippedUrl => Fault.message ⟨.malformedUrl, w.position⟩
    | .openAtRule => "EOF in at-rule"
    | .openQualifiedRule => "EOF in qualified rule, dropping it"
    | .openBlock => "EOF in simple block"
    | .openFunction => "EOF in function"
  s!"parse error: {what}"

end Warning

/-- Who writes to the log: the reader of tokens, or the reader of trees. -/
inductive Layer
  | tokens
  | trees
deriving DecidableEq

/-- A line of the log. -/
inductive Event
  | warning (layer : Layer) (w : Warning)
  /-- A token was taken from the text into a list of tokens. -/
  | taken (t : Token)
  /-- A token that had been handed back was lost. -/
  | lost (t : Token)
deriving DecidableEq

end CssReader
