/-
# Rules behind a cursor

A rule begins at its first token that is neither blank nor, at the top level of
a style sheet, a mark of a surrounding document. An at-keyword begins an at-rule,
and so does such a mark below the top level; everything else begins a qualified
rule. Either runs up to its block; an at-rule may end at a semicolon instead. At
the end of the text an at-rule is kept without a block, and a qualified rule is
dropped.

The three entry points `Cursor.stylesheet`, `Cursor.rules` and
`Cursor.componentValues` read everything up to the end of the text, or to the
first fault that cannot be skipped. The cursor of their outcome can be asked
again.

Key definitions: `Cursor.atRule`, `Cursor.qualifiedRule`, `Cursor.ruleList`,
`Cursor.rules`, `Cursor.stylesheet`.
Key theorems: `Cursor.ruleList_eq`, `Cursor.atRule_weight_le`,
`Cursor.qualifiedRule_weight_le`.
-/
import CssReader.Tree.Values

namespace CssReader

namespace Outcome

/-- What follows a value leaves no more than its cursor had, so the whole does not either. -/
theorem bind_weight_le {α β : Type} {o : Outcome α} {f : α → Cursor → Outcome β} {n : Nat}
    (ho : o.cursor.weight ≤ n) (hf : ∀ a, (f a o.cursor).cursor.weight ≤ n) :
    (o.bind f).cursor.weight ≤ n := by
  unfold bind
  split
  · exact ho
  · exact hf _

end Outcome

namespace Cursor

/-- Whether a token ends the header of an at-rule. -/
def endsAtRule (t : Token) : Bool := t = .semicolon || t = .opening .curly

/-- Whether a token ends the header of a qualified rule. -/
def endsQualified (t : Token) : Bool := t = .opening .curly

/-- The name of an at-rule that begins with a token. -/
def atRuleName : Option Token → Text
  | some (.atKeyword name) => name
  | some t => t.text
  | none => []

/-- An at-rule. -/
def atRule (c : Cursor) : Outcome Rule :=
  (c.pull .trees).bind fun first c =>
    (c.values endsAtRule).bind fun (header, stop) c =>
      match stop with
      | some (.opening .curly) =>
        (c.block .curly).map fun b => .atRule (atRuleName first) header (some b)
      | some _ => ⟨.ok (.atRule (atRuleName first) header none), c, []⟩
      | none => ⟨.ok (.atRule (atRuleName first) header none), c, [c.endWarning .openAtRule]⟩

/-- A qualified rule; none if the text ends before its block. -/
def qualifiedRule (c : Cursor) : Outcome (Option Rule) :=
  (c.values endsQualified).bind fun (header, stop) c =>
    match stop with
    | some _ => (c.block .curly).map fun b => some (.qualified header b)
    | none => ⟨.ok none, c, [c.endWarning .openQualifiedRule]⟩

theorem block_weight_le (b : Bracket) (c : Cursor) : (c.block b).cursor.weight ≤ c.weight - 1 :=
  enclosed_weight_le _ c

theorem atRule_weight_le (c : Cursor) : c.atRule.cursor.weight ≤ c.weight - 1 := by
  have h0 := pull_weight_le .trees c
  refine Outcome.bind_weight_le h0 fun first => ?_
  have h1 := values_weight_le endsAtRule (c.pull .trees).cursor
  refine Outcome.bind_weight_le (by omega) fun ⟨header, stop⟩ => ?_
  dsimp only
  split
  · have := block_weight_le .curly ((c.pull .trees).cursor.values endsAtRule).cursor
    simp only [Outcome.map_cursor]
    omega
  · dsimp only
    omega
  · dsimp only
    omega

theorem qualifiedRule_weight_le (c : Cursor) : c.qualifiedRule.cursor.weight ≤ c.weight - 1 := by
  have h1 := values_weight_le endsQualified c
  refine Outcome.bind_weight_le (by omega) fun ⟨header, stop⟩ => ?_
  dsimp only
  split
  · have := block_weight_le .curly (c.values endsQualified).cursor
    simp only [Outcome.map_cursor]
    omega
  · exact h1

/-! ### Lists of rules -/

/-- What a token does at the beginning of a rule. -/
inductive RuleStart
  /-- It is passed over. -/
  | skip
  | atRule
  | qualified
deriving DecidableEq

/-- What a token does at the beginning of a rule, at the top level or below. -/
def RuleStart.ofToken (top : Bool) : Token → RuleStart
  | .whitespace => .skip
  | .cdo | .cdc => if top then .skip else .atRule
  | .atKeyword _ => .atRule
  | _ => .qualified

/-- The rule that begins with the next token; none if it is dropped. -/
def rule (start : RuleStart) (c : Cursor) : Outcome (Option Rule) :=
  match start with
  | .skip => ⟨.ok none, c, []⟩
  | .atRule => c.atRule.map some
  | .qualified => c.qualifiedRule

theorem rule_weight_le {start : RuleStart} (h : start ≠ .skip) (c : Cursor) :
    (c.rule start).cursor.weight ≤ c.weight - 1 := by
  cases start with
  | skip => exact absurd rfl h
  | atRule => exact atRule_weight_le c
  | qualified => exact qualifiedRule_weight_le c

/-- All rules up to the end of the text, with the bound. -/
def rulesStep (top : Bool) (c : Cursor) : Step c (List Rule) :=
  c.pullStep.bind fun t? c' h hc =>
    match t?, h with
    | none, _ => .done [] c' (hc ▸ c.pullStep.property)
    | some t, h =>
      if hs : RuleStart.ofToken top t = .skip then
        (rulesStep top c').widen (Nat.le_of_lt (weight_of_pullStep h hc).1)
      else
        let first : Step (c'.pushBack t).2 (Option Rule) :=
          ⟨(c'.pushBack t).2.rule (.ofToken top t), rule_weight_le hs _⟩
        ((first.bind fun rule c'' _ hv =>
          ((rulesStep top c'').map fun rules => rule.toList ++ rules).widen
            (Nat.le_trans (hv ▸ first.property) (Nat.sub_le _ _))).widen
          (weight_of_pullStep h hc).2).after (lostEvents (c'.pushBack t).1)
termination_by c.weight
decreasing_by
  · exact (weight_of_pullStep h hc).1
  · have := (weight_of_pullStep h hc).1
    have := (weight_of_pullStep h hc).2
    have : c''.weight ≤ (c'.pushBack t).2.weight - 1 := hv ▸ first.property
    omega

/-- All rules up to the end of the text, at the top level of a style sheet or
below. -/
def ruleList (top : Bool) (c : Cursor) : Outcome (List Rule) := (rulesStep top c).val

/-- Rules are read one after the other, each from its own first token on. -/
theorem ruleList_eq (top : Bool) (c : Cursor) :
    c.ruleList top = (c.pull .trees).bind fun t? c' =>
      match t? with
      | none => ⟨.ok [], c', []⟩
      | some t =>
        if RuleStart.ofToken top t = .skip then c'.ruleList top
        else (((c'.pushBack t).2.rule (.ofToken top t)).bind fun rule c'' =>
          (c''.ruleList top).map fun rules => rule.toList ++ rules).after
            (lostEvents (c'.pushBack t).1) := by
  rw [ruleList, rulesStep]
  refine Step.bind_val fun t? c' h hc => ?_
  split
  · rfl
  · dsimp only
    split
    · rfl
    · rename_i t _ hs
      have hv : (Step.bind (c := (c'.pushBack t).2)
          ⟨(c'.pushBack t).2.rule (.ofToken top t), rule_weight_le hs _⟩ fun rule c'' _ hv =>
            ((rulesStep top c'').map fun rules => rule.toList ++ rules).widen
              (Nat.le_trans (hv ▸ rule_weight_le hs _) (Nat.sub_le _ _))).val =
          ((c'.pushBack t).2.rule (.ofToken top t)).bind fun rule c'' =>
            (c''.ruleList top).map fun rules => rule.toList ++ rules :=
        Step.bind_val fun value c'' h hv => rfl
      exact congrArg (Outcome.after _) hv

/-! ### Entry points -/

/-- The rules of a style sheet. -/
def stylesheet (c : Cursor) : Outcome Stylesheet := (c.ruleList true).map Stylesheet.mk

/-- The rules in the contents of a block. -/
def rules (c : Cursor) : Outcome (List Rule) := c.ruleList false

end Cursor

/-- The style sheet that a text is. -/
def Stylesheet.ofText (s : Text) : Outcome Stylesheet := (Cursor.ofText s).stylesheet

end CssReader
