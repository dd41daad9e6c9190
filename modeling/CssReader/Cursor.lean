/-
# Cursors

A cursor reads a text token by token. It knows the text, where the token it
read last began and ended, and one token that may have been handed back to it:
the next token asked for is then that one, and nothing is read.

The search for the end of a comment may run to the end of the text. A cursor
therefore remembers the first comment that it found to be open; no comment
behind it can be closed, so none is searched for and none is reported.

`Cursor.weight` is what is left to do. Every token taken lowers it, and handing
one token back undoes at most that.

Key definitions: `Cursor`, `Outcome`, `Cursor.next`, `Cursor.pushBack`,
`Cursor.slice`, `Cursor.weight`.
Key theorems: `Cursor.next_weight_le`, `Cursor.next_weight_lt`,
`Cursor.next_pending`.
-/
import CssReader.Lexeme
import CssReader.Lexis.Comment

namespace CssReader

/-- A place in a text, between two tokens. -/
structure Cursor where
  /-- The whole text. -/
  source : Text
  /-- What has not been read. -/
  rest : Text
  /-- The byte position in front of `rest`. -/
  position : Nat
  /-- The byte position at which the token read last began. -/
  tokenStart : Nat
  /-- The token handed back. -/
  pending : Option Token
  /-- The byte position of the first comment found to be open. -/
  openComment : Option Nat

/-- What a reader gives: a value or a fault, the cursor behind what was read, and
the events of reading it. -/
structure Outcome (α : Type) where
  result : Except Fault α
  cursor : Cursor
  events : List Event

namespace Cursor

/-- The cursor in front of a text. -/
def ofText (s : Text) : Cursor := ⟨s, s, 0, 0, none, none⟩

/-- The source between two byte positions. -/
def slice (c : Cursor) (a b : Nat) : Text := c.source.slice a b

/-- Hands a token back to the cursor; gives the token that it displaces. -/
def pushBack (t : Token) (c : Cursor) : Option Token × Cursor :=
  (c.pending, { c with pending := some t })

/-- Whether a comment that begins here is known to be open. -/
def isBehindOpenComment (c : Cursor) : Bool :=
  c.openComment.any (· ≤ c.position)

/-- The cursor behind the comments in front of it, where the next token begins. -/
def skipComments (c : Cursor) : Cursor :=
  let (skipped, rest) := if c.isBehindOpenComment then ([], c.rest) else Comment.run c.rest
  { c with
    rest
    position := c.position + Text.size skipped
    tokenStart := c.position + Text.size skipped }

/-- The cursor that remembers an open comment in front of it, and the warning
about it if it is the first. -/
def noteOpenComment (c : Cursor) : Cursor × List Event :=
  if !c.isBehindOpenComment && Comment.opens c.rest then
    ({ c with openComment := some c.position }, [.warning .tokens ⟨.openComment, c.position⟩])
  else (c, [])

/-- The cursor behind a lexeme. -/
def advance (c : Cursor) (l : Lexeme) : Cursor :=
  { c with rest := l.rest, position := c.position + l.text.size }

/-- What a lexeme found at `position` gives. -/
def outcomeOf (c : Cursor) (events : List Event) (l : Lexeme) : Outcome (Option Token) :=
  { result := match l.result with
      | .ok t => .ok (some t)
      | .error f => .error (f.shift c.position)
    cursor := c.advance l
    events := events ++ l.warnings.map fun w => .warning .tokens (w.shift c.position) }

/-- The next token: the one handed back, or the next one in the text, or none at
its end. A fault is given once, and the cursor then goes on behind it. -/
def next (c : Cursor) : Outcome (Option Token) :=
  match c.pending with
  | some t => ⟨.ok (some t), { c with pending := none }, []⟩
  | none =>
    let (start, events) := c.skipComments.noteOpenComment
    match Lexeme.read start.rest with
    | none => ⟨.ok none, start, events⟩
    | some l => start.outcomeOf events l

/-! ### What is left to do -/

/-- The bytes left, doubled, and one for a token handed back. -/
def weight (c : Cursor) : Nat :=
  2 * Text.size c.rest + if c.pending.isSome then 1 else 0

theorem skipComments_size_le (c : Cursor) :
    Text.size c.skipComments.rest ≤ Text.size c.rest := by
  unfold skipComments
  split
  rename_i skipped rest heq
  split at heq
  · cases heq
    exact Nat.le_refl _
  · have := Comment.run_split c.rest
    rw [heq] at this
    simp [← this]

@[simp] theorem skipComments_pending (c : Cursor) : c.skipComments.pending = c.pending := rfl

@[simp] theorem noteOpenComment_rest (c : Cursor) : c.noteOpenComment.1.rest = c.rest := by
  unfold noteOpenComment
  split <;> rfl

@[simp] theorem noteOpenComment_pending (c : Cursor) :
    c.noteOpenComment.1.pending = c.pending := by
  unfold noteOpenComment
  split <;> rfl

/-- Nothing is handed back to a cursor that has just given a token. -/
@[simp] theorem next_pending (c : Cursor) : c.next.cursor.pending = none := by
  unfold next
  split
  · rfl
  · rename_i h
    dsimp only
    split <;> simp [outcomeOf, advance, h]

theorem advance_size_lt {c : Cursor} {l : Lexeme} (h : Lexeme.read c.rest = some l) :
    Text.size (c.advance l).rest < Text.size c.rest := by
  obtain ⟨hs, hne⟩ := Lexeme.read_split h
  have := Text.size_pos hne
  rw [← hs, Text.size_append]
  simp only [advance]
  omega

/-- **Asking for a token lowers the weight**, unless there is nothing left. -/
theorem next_weight_le (c : Cursor) : c.next.cursor.weight ≤ c.weight - 1 := by
  unfold next
  split
  · rename_i t h
    simp [weight, h]
  · rename_i h
    have hs := skipComments_size_le c
    dsimp only
    split
    · rename_i hr
      have h0 : c.skipComments.noteOpenComment.1.rest = [] := Lexeme.read_eq_none.1 hr
      simp only [noteOpenComment_rest] at h0
      simp [weight, h, h0]
    · rename_i l hl
      have := advance_size_lt hl
      simp only [noteOpenComment_rest] at this
      simp only [weight, outcomeOf, advance, noteOpenComment_pending, skipComments_pending, h,
        Option.isSome_none] at *
      omega

/-- A cursor that gives a token or a fault had something left. -/
theorem weight_pos_of_next {c : Cursor} (h : c.next.result ≠ .ok none) : 0 < c.weight := by
  unfold next at h
  split at h
  · rename_i t ht
    simp [weight, ht]
  · dsimp only at h
    split at h
    · exact absurd rfl h
    · rename_i l hl
      have h1 := advance_size_lt hl
      have h2 := skipComments_size_le c
      simp only [noteOpenComment_rest] at h1
      simp only [weight]
      omega

/-- A token or a fault lowers the weight strictly. -/
theorem next_weight_lt {c : Cursor} (h : c.next.result ≠ .ok none) :
    c.next.cursor.weight < c.weight := by
  have := next_weight_le c
  have := weight_pos_of_next h
  omega

/-- Handing a token back to a cursor that holds none raises its weight by one. -/
theorem pushBack_weight {c : Cursor} (t : Token) (h : c.pending = none) :
    (c.pushBack t).2.weight = c.weight + 1 := by
  simp [pushBack, weight, h]

end Cursor
end CssReader
