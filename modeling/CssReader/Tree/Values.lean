/-
# Component values behind a cursor

`Cursor.value` reads one component value, `Cursor.enclosed` what stands between
an opener and its closing token, and `Cursor.values` component values up to a
token that stops them. The three call each other. Each looks at the next token
and hands it back before it lets another one read it; a token that this would
displace is reported as lost.

They end because each of them leaves a cursor of less weight than it was given,
unless that had nothing left. This bound is part of what the functions named
`…Step` give; the functions without that name leave it out.

Whatever is still open at the end of the text ends there with a warning. A
block loses the blanks at either end of its values, a function does not.

Key definitions: `Cursor.value`, `Cursor.values`, `Cursor.enclosed`, `Cursor.block`.
Key theorems: `Cursor.value_eq`, `Cursor.values_eq`, `Cursor.enclosed_eq`,
`Cursor.values_weight_le`.
-/
import CssReader.Cursor.Tokens
import CssReader.Tree

namespace CssReader

/-- What stands between an opener and its closing token, with the source text
of the whole. -/
structure Enclosed where
  text : Text
  values : List ComponentValue

namespace Enclosed

/-- The values without the blanks at either end. -/
def trimmed (e : Enclosed) : List ComponentValue :=
  trimEnds ComponentValue.isWhitespace e.values

end Enclosed

namespace Opener

/-- The mistake of not closing what was opened. -/
def mistake : Opener → Mistake
  | bracket _ => .openBlock
  | function _ => .openFunction

/-- The component value with what is enclosed. -/
def node : Opener → Enclosed → ComponentValue
  | bracket b, e => .block b e.text e.trimmed
  | function name, e => .function name e.text e.values

end Opener

namespace Cursor

/-- The tokens that a push-back displaced, as events. -/
def lostEvents : Option Token → List Event
  | none => []
  | some t => [.lost t]

/-- The warning of the tree reader about what is open at the end of the text. -/
def endWarning (m : Mistake) (c : Cursor) : Event :=
  .warning .trees ⟨m, c.position⟩

/-- An outcome that leaves less than the cursor `c` had, unless that was nothing. -/
abbrev Step (c : Cursor) (α : Type) := { o : Outcome α // o.cursor.weight ≤ c.weight - 1 }

namespace Step

variable {α β : Type} {c : Cursor}

/-- A value and the cursor behind it. -/
def done (a : α) (c' : Cursor) (h : c'.weight ≤ c.weight - 1) : Step c α :=
  ⟨⟨.ok a, c', []⟩, h⟩

/-- The step with another value. -/
def map (f : α → β) (s : Step c α) : Step c β := ⟨s.val.map f, s.property⟩

/-- A step from a cursor of no more weight. -/
def widen {c' : Cursor} (s : Step c' α) (h : c'.weight ≤ c.weight) : Step c α :=
  ⟨s.val, by have := s.property; omega⟩

/-- The step, with events that came before its own. -/
def after (events : List Event) (s : Step c α) : Step c α := ⟨s.val.after events, s.property⟩

/-- Goes on with the value and the cursor of a step; a fault ends it. -/
def bind (s : Step c α)
    (f : (a : α) → (c' : Cursor) → s.val.result = .ok a → s.val.cursor = c' → Step c β) :
    Step c β :=
  match h : s.val.result with
  | .error e => ⟨⟨.error e, s.val.cursor, s.val.events⟩, s.property⟩
  | .ok a => (f a s.val.cursor h rfl).after s.val.events

theorem bind_val {s : Step c α}
    {f : (a : α) → (c' : Cursor) → s.val.result = .ok a → s.val.cursor = c' → Step c β}
    {g : α → Cursor → Outcome β} (hfg : ∀ a c' h h', (f a c' h h').val = g a c') :
    (s.bind f).val = s.val.bind g := by
  unfold bind Outcome.bind
  split
  · rename_i e h
    simp [h]
  · rename_i a h
    simp [after, hfg, h]

end Step

/-- The next token, with the bound. -/
def pullStep (c : Cursor) : Step c (Option Token) := ⟨c.pull .trees, pull_weight_le .trees c⟩

/-- A token that was read can be handed back: its cursor then has no more weight
than before the token was read. -/
theorem weight_of_pullStep {c c' : Cursor} {t : Token} (h : c.pullStep.val.result = .ok (some t))
    (hc : c.pullStep.val.cursor = c') :
    c'.weight < c.weight ∧ (c'.pushBack t).2.weight ≤ c.weight := by
  subst hc
  have h1 : c.pullStep.val.cursor.weight < c.weight :=
    pull_weight_lt .trees c (by simp [show (c.pull .trees).result = _ from h])
  have h2 := pushBack_weight (c := c.pullStep.val.cursor) t (pull_pending .trees c)
  omega

mutual

/-- One component value, with the bound. -/
def valueStep (c : Cursor) : Step c (Option ComponentValue) :=
  c.pullStep.bind fun t? c' h hc =>
    match t?, h with
    | none, _ => .done none c' (hc ▸ c.pullStep.property)
    | some t, h =>
      match Opener.ofToken? t with
      | none => .done (some (.token t)) c' (hc ▸ c.pullStep.property)
      | some o =>
        ((enclosedStep o c').map fun e => some (o.node e)).widen
          (Nat.le_of_lt (weight_of_pullStep h hc).1)
termination_by 3 * c.weight
decreasing_by
  have := (weight_of_pullStep h hc).1
  omega

/-- What an opener encloses, with the bound. -/
def enclosedStep (o : Opener) (c : Cursor) : Step c Enclosed :=
  let inner := valuesStep (fun t => t = o.closer) c
  inner.bind fun (values, stop) c' _ hc =>
    (Step.done ⟨c.slice c.tokenStart c'.position, values⟩ c' (hc ▸ inner.property)).after
      (if stop.isNone then [c'.endWarning o.mistake] else [])
termination_by 3 * c.weight + 2

/-- Component values up to a token that stops them, with the bound. -/
def valuesStep (stops : Token → Bool) (c : Cursor) :
    Step c (List ComponentValue × Option Token) :=
  c.pullStep.bind fun t? c' h hc =>
    match t?, h with
    | none, _ => .done ([], none) c' (hc ▸ c.pullStep.property)
    | some t, h =>
      if stops t then .done ([], some t) c' (hc ▸ c.pullStep.property)
      else
        let first := valueStep (c'.pushBack t).2
        ((first.bind fun value c'' _ hv =>
          ((valuesStep stops c'').map fun (values, stop) => (value.toList ++ values, stop)).widen
            (Nat.le_trans (hv ▸ first.property) (Nat.sub_le _ _))).widen
          (weight_of_pullStep h hc).2).after (lostEvents (c'.pushBack t).1)
termination_by 3 * c.weight + 1
decreasing_by
  · have := (weight_of_pullStep h hc).2
    omega
  · have := (weight_of_pullStep h hc).2
    have h0 := (weight_of_pullStep h hc).1
    have : c''.weight ≤ (c'.pushBack t).2.weight - 1 := hv ▸ first.property
    omega

end

/-- One component value, or none at the end of the text. -/
def value (c : Cursor) : Outcome (Option ComponentValue) := (valueStep c).val

/-- What the opener `o`, which has just been read, encloses. -/
def enclosed (o : Opener) (c : Cursor) : Outcome Enclosed := (enclosedStep o c).val

/-- The component values up to a token that stops them, and that token, or none
if the text ended first. -/
def values (stops : Token → Bool) (c : Cursor) : Outcome (List ComponentValue × Option Token) :=
  (valuesStep stops c).val

/-! ### Equations -/

theorem value_weight_le (c : Cursor) : c.value.cursor.weight ≤ c.weight - 1 :=
  (valueStep c).property

theorem enclosed_weight_le (o : Opener) (c : Cursor) :
    (c.enclosed o).cursor.weight ≤ c.weight - 1 :=
  (enclosedStep o c).property

theorem values_weight_le (stops : Token → Bool) (c : Cursor) :
    (c.values stops).cursor.weight ≤ c.weight - 1 :=
  (valuesStep stops c).property

/-- A component value is the next token, or what it opens. -/
theorem value_eq (c : Cursor) :
    c.value = (c.pull .trees).bind fun t? c' =>
      match t? with
      | none => ⟨.ok none, c', []⟩
      | some t => match Opener.ofToken? t with
        | none => ⟨.ok (some (.token t)), c', []⟩
        | some o => (c'.enclosed o).map fun e => some (o.node e) := by
  rw [value, valueStep]
  refine Step.bind_val fun t? c' h hc => ?_
  split
  · rfl
  · dsimp only
    split <;> rfl

/-- What an opener encloses are the values up to its closing token. -/
theorem enclosed_eq (o : Opener) (c : Cursor) :
    c.enclosed o = (c.values fun t => t = o.closer).bind fun (values, stop) c' =>
      { result := .ok ⟨c.slice c.tokenStart c'.position, values⟩
        cursor := c'
        events := if stop.isNone then [c'.endWarning o.mistake] else [] } := by
  rw [enclosed, enclosedStep]
  refine Step.bind_val fun p c' h hc => ?_
  simp [Step.after, Step.done, Outcome.after]

/-- Component values are read one after the other, each from its own first
token on. -/
theorem values_eq (stops : Token → Bool) (c : Cursor) :
    c.values stops = (c.pull .trees).bind fun t? c' =>
      match t? with
      | none => ⟨.ok ([], none), c', []⟩
      | some t =>
        if stops t then ⟨.ok ([], some t), c', []⟩
        else ((c'.pushBack t).2.value.bind fun value c'' =>
          (c''.values stops).map fun (values, stop) => (value.toList ++ values, stop)).after
            (lostEvents (c'.pushBack t).1) := by
  rw [values, valuesStep]
  refine Step.bind_val fun t? c' h hc => ?_
  split
  · rfl
  · dsimp only
    split
    · rfl
    · rename_i t _ _
      have hv : ((valueStep (c'.pushBack t).2).bind fun value c'' _ hv =>
          ((valuesStep stops c'').map fun (values, stop) => (value.toList ++ values, stop)).widen
            (Nat.le_trans (hv ▸ (valueStep (c'.pushBack t).2).property) (Nat.sub_le _ _))).val =
          (c'.pushBack t).2.value.bind fun value c'' =>
            (c''.values stops).map fun (values, stop) => (value.toList ++ values, stop) :=
        Step.bind_val fun value c'' h hv => rfl
      exact congrArg (Outcome.after _) hv

/-! ### Blocks -/

/-- The block whose opening bracket has just been read. -/
def block (b : Bracket) (c : Cursor) : Outcome Block :=
  (c.enclosed (.bracket b)).map fun e => ⟨b, e.text, e.trimmed⟩

/-- All component values up to the end of the text. -/
def componentValues (c : Cursor) : Outcome (List ComponentValue) :=
  (c.values fun _ => false).map Prod.fst

end Cursor
end CssReader
