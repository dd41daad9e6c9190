/-
# The tokens behind a cursor

Three ways to ask for more than one token: `Cursor.pull` gives the next token
and skips malformed urls in front of it, `Cursor.tokens` gives all tokens up to
the end or the first fault that cannot be skipped, and `Cursor.walk` gives the
outcome of every single step, faults included, up to the end.

All three end because every step lowers the weight of the cursor.

Key definitions: `Cursor.pull`, `Cursor.tokens`, `Cursor.walk`.
Key theorems: `Cursor.pull_weight_le`, `Cursor.pull_weight_lt`, `Cursor.pull_pending`.
-/
import CssReader.Cursor

namespace CssReader

namespace Outcome

/-- The outcome, with events that came before its own. -/
def after {α : Type} (events : List Event) (o : Outcome α) : Outcome α :=
  { o with events := events ++ o.events }

/-- Goes on with the value and the cursor of an outcome; a fault ends it. -/
def bind {α β : Type} (o : Outcome α) (f : α → Cursor → Outcome β) : Outcome β :=
  match o.result with
  | .error e => ⟨.error e, o.cursor, o.events⟩
  | .ok a => (f a o.cursor).after o.events

/-- The outcome with another value. -/
def map {α β : Type} (f : α → β) (o : Outcome α) : Outcome β :=
  { result := o.result.map f, cursor := o.cursor, events := o.events }

/-- Whether a step met the end of the text. -/
def isEnd (o : Outcome (Option Token)) : Bool :=
  match o.result with
  | .ok none => true
  | _ => false

@[simp] theorem after_cursor {α : Type} (es : List Event) (o : Outcome α) :
    (o.after es).cursor = o.cursor := rfl

@[simp] theorem after_result {α : Type} (es : List Event) (o : Outcome α) :
    (o.after es).result = o.result := rfl

@[simp] theorem map_cursor {α β : Type} (f : α → β) (o : Outcome α) :
    (o.map f).cursor = o.cursor := rfl

end Outcome

namespace Cursor

/-- The next token that is not a malformed url; each one skipped is reported by
`layer`. -/
def pull (layer : Layer) (c : Cursor) : Outcome (Option Token) :=
  match _h : c.next.result with
  | .ok _ => c.next
  | .error f =>
    if f.isRecoverable then
      (c.next.cursor.pull layer).after
        (c.next.events ++ [.warning layer ⟨.skippedUrl, f.position⟩])
    else c.next
termination_by c.weight
decreasing_by exact next_weight_lt (by simp [_h])

/-- Nothing is handed back to a cursor that has just given a token. -/
@[simp] theorem pull_pending (layer : Layer) (c : Cursor) :
    (c.pull layer).cursor.pending = none := by
  fun_induction pull layer c with
  | case1 | case3 => simp
  | case2 c f h hr ih => simpa using ih

/-- Asking for a token lowers the weight, unless there is nothing left. -/
theorem pull_weight_le (layer : Layer) (c : Cursor) :
    (c.pull layer).cursor.weight ≤ c.weight - 1 := by
  fun_induction pull layer c with
  | case1 c | case3 c => exact next_weight_le c
  | case2 c f h hr ih =>
    have := next_weight_le c
    simp only [Outcome.after_cursor]
    omega

/-- A token or a fault lowers the weight strictly. -/
theorem pull_weight_lt (layer : Layer) (c : Cursor) (h : (c.pull layer).result ≠ .ok none) :
    (c.pull layer).cursor.weight < c.weight := by
  have hle := pull_weight_le layer c
  suffices 0 < c.weight by omega
  rw [pull] at h
  split at h
  · exact weight_pos_of_next h
  · rename_i f hf
    exact weight_pos_of_next (by simp [hf])

/-- All tokens up to the end of the text, without malformed urls. A fault that
cannot be skipped takes their place, and the cursor is then behind it. -/
def tokens (c : Cursor) : Outcome (List Token) :=
  match _h : (c.pull .tokens).result with
  | .error f => ⟨.error f, (c.pull .tokens).cursor, (c.pull .tokens).events⟩
  | .ok none => ⟨.ok [], (c.pull .tokens).cursor, (c.pull .tokens).events⟩
  | .ok (some t) =>
    ((c.pull .tokens).cursor.tokens.map (t :: ·)).after ((c.pull .tokens).events ++ [.taken t])
termination_by c.weight
decreasing_by exact pull_weight_lt .tokens c (by simp [_h])

/-- The outcomes of asking for the next token again and again, faults or not,
until there is none. -/
def walk (c : Cursor) : List (Outcome (Option Token)) :=
  if _h : c.next.isEnd then [c.next] else c.next :: c.next.cursor.walk
termination_by c.weight
decreasing_by exact next_weight_lt fun h => _h (by simp [Outcome.isEnd, h])

end Cursor
end CssReader
