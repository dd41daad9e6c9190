/-
# A cursor gets on

Whatever a cursor has been asked and handed, its two positions are between
characters of its text, and in their order. So no text is lost to a position that
is inside of a character, where `Text.slice` would give nothing. A comment
remembered as open begins in front of the cursor, and nothing closes it.

Asking for a token moves neither position back. With no token handed back it
comes to the end of the text, or it takes something: a token, or a fault, which
ends a fixed number of bytes behind the place that the fault is reported at. So
asking again and again comes to the end of the text, after no more steps than
there are bytes, one step at the end, and one for a token handed back.

A cursor is a value: what is read with one of two copies does not move the other.

Key definitions: `Cursor.Placed`, `Cursor.Advances`.
Key theorems: `Cursor.Kept.advances`, `Cursor.Trace.le`, `Cursor.Kept.walk_length_le`,
`Cursor.Reachable.gets_on`.
-/
import CssReader.Proofs.Lexeme.Reports
import CssReader.Proofs.Restart
import CssReader.Proofs.Trace

namespace CssReader
namespace Cursor

variable {s : Text} {c c' : Cursor}

/-! ### Where a cursor is -/

/-- Where the cursor is in the text `s`. -/
structure Placed (s : Text) (c : Cursor) : Prop where
  source : c.source = s
  tokenStart_le : c.tokenStart ≤ c.position
  position_le : c.position ≤ Text.size s
  /-- From the beginning of the token read last on, there are that token and the rest. -/
  tokenStart : Text.dropBytes? c.tokenStart s =
    some (c.slice c.tokenStart c.position ++ c.rest)
  position : Text.dropBytes? c.position s = some c.rest
  /-- An open comment is in front of the cursor, and no star and slash are behind its opening. -/
  openComment : ∀ q, c.openComment = some q → q ≤ c.position ∧
    ∃ body, Text.dropBytes? q s = some ('/' :: '*' :: body) ∧ ¬['*', '/'] <:+: body

theorem Kept.placed (h : c.Kept s) : c.Placed s := by
  have hdrop := h.dropBytes?_position
  obtain ⟨hs, before, last, hb⟩ := h
  have hsize : Text.size s = c.position + Text.size c.rest := by
    rw [← hs, hb.source, Text.size_append, hb.position]
  have hpos : c.position = c.tokenStart + Text.size last := by
    rw [hb.position, hb.tokenStart, Text.size_append]
  refine ⟨hs, by omega, by omega, ?_, hdrop, fun q hq => ⟨?_, ?_⟩⟩
  · rw [hb.slice_eq, hb.tokenStart, ← hs, hb.source, List.append_assoc]
    exact Text.dropBytes?_size_append before (last ++ c.rest)
  · have hbehind := hb.isBehindOpenComment_eq
    simpa [isBehindOpenComment, hq] using hbehind
  · obtain ⟨body, ⟨front, hfront, hsize, hclose⟩, -⟩ := hb.openComment q hq
    refine ⟨body, ?_, Comment.close?_eq_none.1 hclose⟩
    rw [← hs, hfront, ← hsize]
    exact Text.dropBytes?_size_append front ('/' :: '*' :: body)

/-! ### What a step does -/

/-- What asking for a token does to the positions of the cursor. -/
inductive Advances (s : Text) (c : Cursor) : Prop
  /-- A token that was handed back is given, and nothing is read. -/
  | handedBack {t : Token} : c.pending = some t → c.next.result = .ok (some t) →
    c.next.cursor.tokenStart = c.tokenStart → c.next.cursor.position = c.position →
    Advances s c
  /-- The text ends. -/
  | finish : c.pending = none → c.next.result = .ok none →
    c.next.cursor.tokenStart = Text.size s → c.next.cursor.position = Text.size s →
    Advances s c
  /-- A token is taken. -/
  | token {t : Token} : c.pending = none → c.next.result = .ok (some t) →
    c.position ≤ c.next.cursor.tokenStart →
    c.next.cursor.tokenStart < c.next.cursor.position → Advances s c
  /-- A fault is found, and what it takes ends behind where it is reported. -/
  | fault {f : Fault} : c.pending = none → c.next.result = .error f →
    c.position ≤ c.next.cursor.tokenStart →
    c.next.cursor.tokenStart < c.next.cursor.position →
    c.next.cursor.tokenStart ≤ f.position →
    c.next.cursor.position = f.position + f.kind.width →
    (f.kind = .unicodeRange → f.position = c.next.cursor.tokenStart) → Advances s c

/-- **A step goes on in the text**, to its end or over something. -/
theorem Kept.advances (h : c.Kept s) : Advances s c := by
  rcases hp : c.pending with _ | t
  · obtain ⟨hs, before, last, hb⟩ := h
    rcases hb.next_cases hp with ⟨-, hres, -, -, hb'⟩ | ⟨l, hl, hres, -, -, hb'⟩
    · have hend : Text.size (before ++ last ++ c.rest) = Text.size s := by
        rw [← hb.source, hs]
      exact .finish hp hres (hb'.tokenStart.trans hend)
        (by rw [hb'.position, List.append_nil, hend])
    · have hstart : c.position ≤ c.next.cursor.tokenStart := by
        rw [hb.position, hb'.tokenStart, Text.size_append _ (Comment.run c.rest).1]
        omega
      have hpos : c.next.cursor.position = c.next.cursor.tokenStart + Text.size l.text := by
        rw [hb'.position, hb'.tokenStart, Text.size_append]
      have htaken : 0 < Text.size l.text := Text.size_pos (Lexeme.read_split hl).2
      rw [← hb'.tokenStart] at hres
      rcases hr : l.result with f | t
      · obtain ⟨hwidth, hrange⟩ := (Lexeme.read_reports hl).fault f hr
        have hf : c.next.result = .error (f.shift c.next.cursor.tokenStart) :=
          hres.trans (Lexeme.resultAt_eq_error.2 ⟨f, hr, rfl⟩)
        apply Advances.fault hp hf hstart (by omega)
        · show c.next.cursor.tokenStart ≤ c.next.cursor.tokenStart + f.position
          omega
        · show c.next.cursor.position = c.next.cursor.tokenStart + f.position + f.kind.width
          omega
        · intro hkind
          show c.next.cursor.tokenStart + f.position = c.next.cursor.tokenStart
          have h0 := hrange hkind
          omega
      · have ht : c.next.result = .ok (some t) := hres.trans (Lexeme.resultAt_eq_some.2 hr)
        exact .token hp ht hstart (by omega)
  · apply Advances.handedBack hp
    all_goals simp [Cursor.next, hp]

/-- Neither position is moved back. -/
theorem Kept.next_le (h : c.Kept s) :
    c.tokenStart ≤ c.next.cursor.tokenStart ∧ c.position ≤ c.next.cursor.position := by
  have hplace := h.placed
  have h1 := hplace.tokenStart_le
  have h2 := hplace.position_le
  cases h.advances with
  | handedBack _ _ hstart hpos => omega
  | finish _ _ hstart hpos => omega
  | token _ _ hstart hlt => omega
  | fault _ _ hstart hlt => omega

/-! ### What a run of steps does -/

theorem tokens_traced (c : Cursor) : c.tokens.Traced c := by
  fun_induction tokens c with
  | case1 c f hf => exact pull_traced .tokens c
  | case2 c hp => exact pull_traced .tokens c
  | case3 c t ht ih => exact .append (.append (pull_traced .tokens c) (.report _ _)) ih

/-- Steps keep the cursor in its text, and move neither position back. -/
theorem Trace.le {es : List Event} (h : Trace c es c') (hk : c.Kept s) :
    c'.Kept s ∧ c.tokenStart ≤ c'.tokenStart ∧ c.position ≤ c'.position := by
  induction h with
  | done c | report e c => exact ⟨hk, Nat.le_refl _, Nat.le_refl _⟩
  | pushBack t c => exact ⟨hk.withPending (some t), Nat.le_refl _, Nat.le_refl _⟩
  | next c => exact ⟨hk.next, hk.next_le⟩
  | append _ _ ih ih₁ =>
    obtain ⟨hk₁, hstart, hpos⟩ := ih hk
    obtain ⟨hk₂, hstart₁, hpos₁⟩ := ih₁ hk₁
    exact ⟨hk₂, hstart.trans hstart₁, hpos.trans hpos₁⟩

/-- The walk is as long as there are steps to the end of the text: each one takes
a byte at least, or the token handed back, or is the last. -/
theorem Kept.walk_length_le (h : c.Kept s) :
    c.position + c.walk.length ≤ Text.size s + 1 + c.pending.toList.length := by
  fun_induction walk c with
  | case1 c hend =>
    have hle := h.placed.position_le
    rw [List.length_singleton]
    omega
  | case2 c hend ih =>
    have ih := ih h.next
    rw [next_pending, Option.toList_none, List.length_nil] at ih
    rw [List.length_cons]
    cases h.advances with
    | handedBack hp _ _ hpos =>
      rw [hp, Option.toList_some, List.length_singleton]
      omega
    | finish _ hres => exact absurd (Outcome.isEnd_iff.2 hres) hend
    | token _ _ hstart hlt => omega
    | fault _ _ hstart hlt => omega

/-- The walk meets the end of the text once, in its last step. -/
theorem walk_ends (c : Cursor) : ∃ os o, c.walk = os ++ [o] ∧ o.result = .ok none ∧
    ∀ o' ∈ os, o'.result ≠ .ok none := by
  fun_induction walk c with
  | case1 c hend => exact ⟨[], c.next, rfl, Outcome.isEnd_iff.1 hend, by simp⟩
  | case2 c hend ih =>
    obtain ⟨os, o, hwalk, hres, hos⟩ := ih
    refine ⟨c.next :: os, o, by rw [hwalk, List.cons_append], hres, fun o' ho' => ?_⟩
    rcases List.mem_cons.1 ho' with rfl | ho'
    · exact fun h => hend (Outcome.isEnd_iff.2 h)
    · exact hos o' ho'

namespace Reachable

/-- **A cursor that a text can be asked with is in place and gets on**, faults or
not: a step advances it, no steps move it back, and a walk comes to the end of the
text in no more steps than there are bytes left, and one, and one for a token
handed back. -/
theorem gets_on (h : Reachable s c) :
    c.Placed s ∧ Advances s c ∧
      (∀ es c', Trace c es c' → c.tokenStart ≤ c'.tokenStart ∧ c.position ≤ c'.position) ∧
      Trace c c.tokens.events c.tokens.cursor ∧
      (∃ os o, c.walk = os ++ [o] ∧ o.result = .ok none ∧ ∀ o' ∈ os, o'.result ≠ .ok none) ∧
      c.position + c.walk.length ≤ Text.size s + 1 + c.pending.toList.length :=
  ⟨h.kept.placed, h.kept.advances, fun _ _ ht => (ht.le h.kept).2, c.tokens_traced, c.walk_ends,
    h.kept.walk_length_le⟩

/-- A cursor behind the slash of an open comment, with a letter of two bytes in
front of it, and with a token handed back. -/
theorem gets_on_open_comment :
    let c := ((Cursor.ofText ['é', '/', '*']).next.cursor.next.cursor.pushBack .comma).2
    Reachable ['é', '/', '*'] c ∧ c.tokenStart = 2 ∧ c.position = 3 ∧ c.openComment = some 2 ∧
      c.Placed ['é', '/', '*'] ∧ Advances ['é', '/', '*'] c ∧
      (∀ es c', Trace c es c' → c.tokenStart ≤ c'.tokenStart ∧ c.position ≤ c'.position) ∧
      Trace c c.tokens.events c.tokens.cursor ∧
      (∃ os o, c.walk = os ++ [o] ∧ o.result = .ok none ∧ ∀ o' ∈ os, o'.result ≠ .ok none) ∧
      c.position + c.walk.length ≤
        Text.size ['é', '/', '*'] + 1 + c.pending.toList.length := by
  intro c
  have h : Reachable ['é', '/', '*'] c := .pushBack .comma (.next (.next .ofText))
  have hstart : c.tokenStart = 2 := by with_unfolding_all rfl
  have hpos : c.position = 3 := by with_unfolding_all rfl
  have hopen : c.openComment = some 2 := by with_unfolding_all rfl
  exact ⟨h, hstart, hpos, hopen, h.gets_on⟩

end Reachable
end Cursor
end CssReader
