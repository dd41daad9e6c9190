/-
# The dump command

The command reads one file and writes its style sheet, indented, or with the
flag its tokens, one on a line. It is given exactly one path, and the flag
anywhere and any number of times. Whatever goes wrong is told on the error
output, and then nothing is written to the other.

The command itself touches no file: it is given a way to read one, and reads at
most the file that its arguments name.

Key definitions: `Dump.Request.ofArgs?`, `Dump.contents`, `Dump.run`.
-/
import CssReader.Outline.OfTree
import CssReader.Tree.Rules

namespace CssReader
namespace Dump

/-- What to write about a style sheet. -/
inductive Mode
  | tokens
  | stylesheet
deriving DecidableEq

/-- What the arguments ask for. -/
structure Request where
  mode : Mode
  path : String
deriving DecidableEq

/-- What the arguments have asked for so far; there may be no path yet. -/
structure Seen where
  mode : Mode
  path? : Option String

/-- How the command ends. Its log goes to the error output too, and is left out of `stderr`,
since its lines tell times. By default these are two of level INFO, both about a style sheet:
one when the reading of it begins, and one when it has come to the end. -/
structure Exit where
  code : UInt32
  stdout : String
  /-- The failure in words, without the lines of the log. -/
  stderr : String

/-- The argument that asks for tokens. -/
def tokensFlag : String := "--tokens"

/-- What is asked for with one more argument; a second path is too many. -/
def Seen.add (seen : Seen) (arg : String) : Option Seen :=
  if arg = tokensFlag then some { seen with mode := .tokens }
  else if seen.path?.isNone then some { seen with path? := some arg }
  else none

/-- What the arguments ask for, if there is exactly one path among them. -/
def Request.ofArgs? (args : List String) : Option Request :=
  match args.foldlM Seen.add ⟨.stylesheet, none⟩ with
  | some ⟨mode, some path⟩ => some ⟨mode, path⟩
  | _ => none

/-- The reasons to fail. -/
inductive Failure
  | usage
  /-- The file cannot be read, for a reason in the system's words. -/
  | unreadable (path reason : String)
  | invalidText (path : String)
  | fault (mode : Mode) (path : String) (f : Fault)

/-- An error and what caused it. -/
def causedBy (what cause : String) : String :=
  s!"Error: {what}\n\nCaused by:\n    {cause}\n"

/-- The failure in words. -/
def Failure.message : Failure → String
  | usage => "Error: Usage: css_dump [--tokens] <path-to-css-file>\n"
  | unreadable path reason => causedBy s!"failed to read '{path}'" reason
  | invalidText path => causedBy s!"failed to read '{path}'" "stream did not contain valid UTF-8"
  | fault .tokens path f => causedBy s!"failed to tokenize '{path}'" f.message
  | fault .stylesheet path f => causedBy s!"failed to parse '{path}'" f.message

/-- The dump of tokens: a line for each. -/
def ofTokens (ts : List Token) (hidden : Char → Bool := Quote.noneHidden) : Text :=
  "---- CSS Tokens ----\n".toList ++ ts.flatMap fun t => t.outline.inline hidden ++ ['\n']

/-- The dump of a style sheet. -/
def ofStylesheet (s : Stylesheet) (hidden : Char → Bool := Quote.noneHidden) : Text :=
  "---- CSS Stylesheet ----\n".toList ++ s.outline.indented hidden ++ ['\n']

/-- The dump of a text, or the fault that it has. -/
def ofText (mode : Mode) (s : Text) (hidden : Char → Bool := Quote.noneHidden) :
    Except Fault Text :=
  match mode with
  | .tokens => (Cursor.ofText s).tokens.result.map (ofTokens · hidden)
  | .stylesheet => (Stylesheet.ofText s).result.map (ofStylesheet · hidden)

/-- The dump that the arguments ask for, where `read` gives the bytes of a file or
the reason why it cannot be read. -/
def contents (args : List String) (read : String → Except String ByteArray)
    (hidden : Char → Bool := Quote.noneHidden) : Except Failure Text :=
  match Request.ofArgs? args with
  | none => .error .usage
  | some ⟨mode, path⟩ =>
    match read path with
    | .error reason => .error (.unreadable path reason)
    | .ok bytes =>
      match String.fromUTF8? bytes with
      | none => .error (.invalidText path)
      | some s => (ofText mode s.toList hidden).mapError (.fault mode path)

/-- Runs the command. The lines of its log are no part of what it is said to write
(`Exit`). -/
def run (args : List String) (read : String → Except String ByteArray)
    (hidden : Char → Bool := Quote.noneHidden) : Exit :=
  match contents args read hidden with
  | .ok dump => ⟨0, String.ofList dump, ""⟩
  | .error failure => ⟨1, "", failure.message⟩

end Dump
end CssReader
