/-
# The tokens tile the text

Walking over a text, faults and all, gives a span for each token and fault. The
spans are not empty and follow each other; between them, in front of the first
and behind the last are only whole comments; and the span of a token shows it.
So the text is the comments and the spans, in their order, and nothing else.

Key definition: `Cursor.Tiles`.
Key theorem: `Cursor.walk_tiles`.
-/
import CssReader.Proofs.Reading
import CssReader.Proofs.Lexeme.Shown

namespace CssReader
namespace Cursor

/-- The outcomes of a walk tile the text `rest`, which has `before` in front of
it. The constructors cut off a gap of comments and, unless the text ends there,
the span of the next outcome, at the byte positions of the outcome's cursor. -/
inductive Tiles : (before rest : Text) → List (Outcome (Option Token)) → Prop
  /-- Only comments are left, and the walk meets the end. -/
  | finish {before gap : Text} {o : Outcome (Option Token)} :
    Comment.Sequence gap → o.result = .ok none →
    o.cursor.tokenStart = Text.size (before ++ gap) →
    o.cursor.position = Text.size (before ++ gap) →
    Tiles before gap [o]
  /-- A token or a fault takes a span behind a gap. -/
  | span {before gap span after : Text} {o : Outcome (Option Token)}
      {os : List (Outcome (Option Token))} :
    Comment.Sequence gap → span ≠ [] → o.result ≠ .ok none →
    o.cursor.tokenStart = Text.size (before ++ gap) →
    o.cursor.position = Text.size (before ++ gap ++ span) →
    o.cursor.slice o.cursor.tokenStart o.cursor.position = span →
    (∀ t, o.result = .ok (some t) → t.ShownBy span after) →
    Tiles (before ++ gap ++ span) after os →
    Tiles before (gap ++ (span ++ after)) (o :: os)

/-- A cursor tiles what it has not read. -/
theorem Behind.tiles {c : Cursor} {before last : Text} (h : c.Behind before last)
    (hp : c.pending = none) : Tiles (before ++ last) c.rest c.walk := by
  fun_induction walk c generalizing before last with
  | case1 c hend =>
    rw [Outcome.isEnd_iff] at hend
    rcases h.next_cases hp with ⟨hnil, -, -, -, hc⟩ | ⟨l, -, hres, -⟩
    · refine .finish ?_ hend hc.tokenStart (by simpa using hc.position)
      have := Comment.run_sequence c.rest
      rwa [← Comment.run_split c.rest, hnil, List.append_nil]
    · exact absurd (hres.symm.trans hend) (l.resultAt_ne_none _)
  | case2 c hend ih =>
    rw [Outcome.isEnd_iff] at hend
    rcases h.next_cases hp with ⟨-, hres, -⟩ | ⟨l, hl, hres, hrest, -, hc⟩
    · exact absurd hres hend
    · obtain ⟨hl1, hl2⟩ := Lexeme.read_split hl
      have ih := ih hc (next_pending c)
      rw [hrest] at ih
      rw [← Comment.run_split c.rest, ← hl1]
      refine .span (Comment.run_sequence _) hl2 hend hc.tokenStart hc.position hc.slice_eq ?_ ih
      intro t ht
      rw [hres, Lexeme.resultAt_eq_some] at ht
      exact Lexeme.read_shows hl t ht

/-- **The walk over a text tiles it.** -/
theorem walk_tiles (s : Text) : Tiles [] s (ofText s).walk :=
  (ofText_behind s).tiles rfl

end Cursor
end CssReader
