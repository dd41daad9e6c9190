/-
# What a cursor has read

A cursor that was put in front of a text and asked for tokens has the text
behind it in two parts: what came before the token it read last, and that token
itself. `Cursor.Behind` says so, and that a comment which the cursor remembers
as open really has no end, so that nothing left to read begins with a comment.

From such a cursor the next token is read off the rest of the text alone: the
comments in front are passed over, and then one lexeme is read, or the text
ends. `Cursor.Behind.next_cases` is all that a step can do.

Key definitions: `Comment.IsWhole`, `Comment.Sequence`, `Lexeme.resultAt`, `Cursor.Behind`.
Key theorems: `Comment.run_sequence`, `Comment.read?_run`, `Cursor.Behind.next_cases`.
-/
import CssReader.Cursor.Tokens

namespace CssReader

namespace Comment

/-! ### Comments as texts -/

/-- All of one comment: from a slash and a star to the first star and slash
that begin behind them. -/
def IsWhole (s : Text) : Prop :=
  ∃ body, s = ['/', '*'] ++ body ++ ['*', '/'] ∧ ¬['*', '/'] <:+: body ++ ['*']

/-- Whole comments, one after the other, possibly none. -/
inductive Sequence : Text → Prop
  | nil : Sequence []
  | cons {c s : Text} : IsWhole c → Sequence s → Sequence (c ++ s)

/-- Where a text does not begin with a star and a slash, it has them only
further on. -/
theorem infix_cons_iff {c : Char} {s : Text} (h : ∀ r, c = '*' → s = '/' :: r → False) :
    ['*', '/'] <:+: c :: s ↔ ['*', '/'] <:+: s := by
  rw [List.infix_cons_iff]
  refine or_iff_right fun ⟨r, hr⟩ => ?_
  simp only [List.cons_append, List.nil_append, List.cons.injEq] at hr
  exact h r hr.1.symm hr.2.symm

/-- A comment is not closed exactly where no star and slash follow. -/
theorem close?_eq_none {s : Text} : close? s = none ↔ ¬['*', '/'] <:+: s := by
  fun_induction close? s with
  | case1 => simp
  | case2 s => exact iff_of_false (by simp) fun h => h ⟨[], s, rfl⟩
  | case3 c s hne ih =>
    rw [Option.map_eq_none_iff, ih, infix_cons_iff fun r hc hs => hne r hc hs]

/-- What closes a comment ends with the first star and slash. -/
theorem close?_first {s l r : Text} (h : close? s = some (l, r)) :
    ∃ body, l = body ++ ['*', '/'] ∧ ¬['*', '/'] <:+: body ++ ['*'] := by
  fun_induction close? s generalizing l r with
  | case1 => simp at h
  | case2 s =>
    obtain ⟨rfl, -⟩ := Prod.mk.inj (Option.some.inj h)
    refine ⟨[], rfl, fun h => ?_⟩
    have hle := h.length_le
    simp at hle
  | case3 c s hne ih =>
    obtain ⟨⟨l', r'⟩, h', he⟩ := Option.map_eq_some_iff.1 h
    obtain ⟨rfl, rfl⟩ := Prod.mk.inj he
    obtain ⟨body, rfl, hb⟩ := ih h'
    refine ⟨c :: body, rfl, ?_⟩
    rw [List.cons_append, infix_cons_iff]
    · exact hb
    · -- the body cannot begin with a slash behind a star: it would have closed there
      intro t hc ht
      have hs := close?_split h'
      rcases body with _ | ⟨d, body⟩
      · simp at ht
      · obtain ⟨rfl, -⟩ := List.cons.inj ht
        exact hne _ hc hs.symm

theorem read?_isWhole {s l r : Text} (h : read? s = some (l, r)) : IsWhole l := by
  unfold read? at h
  by_cases ho : opens s = true
  · rw [if_pos ho] at h
    obtain ⟨⟨l', r'⟩, h', he⟩ := Option.map_eq_some_iff.1 h
    obtain ⟨rfl, rfl⟩ := Prod.mk.inj he
    obtain ⟨body, rfl, hb⟩ := close?_first h'
    exact ⟨body, by simp, hb⟩
  · rw [if_neg ho] at h
    simp at h

theorem run_sequence (s : Text) : Sequence (run s).1 := by
  fun_induction run s with
  | case1 => exact .nil
  | case2 s l r h ih => exact .cons (read?_isWhole h) ih

/-- Behind a run of comments there is no further one. -/
theorem read?_run (s : Text) : read? (run s).2 = none := by
  fun_induction run s with
  | case1 s h => exact h
  | case2 s l r h ih => exact ih

theorem run_of_read?_none {s : Text} (h : read? s = none) : run s = ([], s) := by
  rw [run]
  split
  · rfl
  · simp_all

theorem run_of_read?_some {s l r : Text} (h : read? s = some (l, r)) :
    run s = (l ++ (run r).1, (run r).2) := by
  rw [run]
  split
  · simp_all
  · rename_i h'
    obtain ⟨rfl, rfl⟩ := Prod.mk.inj (Option.some.inj (h.symm.trans h'))
    rfl

theorem read?_opens (s : Text) :
    read? ('/' :: '*' :: s) = (close? s).map fun (l, r) => ('/' :: '*' :: l, r) := rfl

theorem read?_eq_none_of_opens {body : Text} :
    read? ('/' :: '*' :: body) = none ↔ close? body = none := by
  rw [read?_opens, Option.map_eq_none_iff]

/-- At byte `q` of the source begins a comment that is never closed; `body` is
all that follows its opening. -/
def OpenAt (source : Text) (q : Nat) (body : Text) : Prop :=
  ∃ front, source = front ++ '/' :: '*' :: body ∧ Text.size front = q ∧ close? body = none

/-- No comment can be read anywhere behind the slash of an open one. -/
theorem OpenAt.read?_none {source s body : Text} {q : Nat} (h : OpenAt source q body)
    (hs : s <:+ '*' :: body) : read? s = none := by
  obtain ⟨-, -, -, hb⟩ := h
  unfold read?
  split
  · rename_i ho
    obtain ⟨r, rfl⟩ := opens_iff.1 ho
    have hr : r <:+ body := by
      rcases List.suffix_cons_iff.1 hs with he | hs
      · cases he
      · exact (List.suffix_cons _ _).trans ((List.suffix_cons _ _).trans hs)
    have : close? r = none := by
      rw [close?_eq_none] at hb ⊢
      exact fun h => hb (h.trans hr.isInfix)
    simp [this]
  · rfl

end Comment

/-! ### What a step gives -/

namespace Lexeme

/-- What a lexeme gives that begins at byte `n`. -/
def resultAt (n : Nat) (l : Lexeme) : Except Fault (Option Token) :=
  match l.result with
  | .ok t => .ok (some t)
  | .error f => .error (f.shift n)

theorem resultAt_ne_none (n : Nat) (l : Lexeme) : l.resultAt n ≠ .ok none := by
  unfold resultAt
  split <;> simp

theorem resultAt_eq_some {n : Nat} {l : Lexeme} {t : Token} :
    l.resultAt n = .ok (some t) ↔ l.result = .ok t := by
  unfold resultAt
  split <;> simp_all

theorem resultAt_eq_error {n : Nat} {l : Lexeme} {f : Fault} :
    l.resultAt n = .error f ↔ ∃ f', l.result = .error f' ∧ f'.shift n = f := by
  unfold resultAt
  split <;> simp_all

end Lexeme

theorem Outcome.isEnd_iff {o : Outcome (Option Token)} : o.isEnd = true ↔ o.result = .ok none := by
  unfold isEnd
  split <;> simp_all

namespace Cursor

/-! ### A cursor behind what it has read -/

/-- The cursor has read `before`, and behind it `last`, which the token or fault
read last was taken from; it is empty if there was none. A comment remembered as
open has no end, and its slash has been read. -/
structure Behind (c : Cursor) (before last : Text) : Prop where
  source : c.source = before ++ last ++ c.rest
  tokenStart : c.tokenStart = Text.size before
  position : c.position = Text.size (before ++ last)
  openComment : ∀ q, c.openComment = some q →
    ∃ body, Comment.OpenAt c.source q body ∧ c.rest <:+ '*' :: body

theorem ofText_behind (s : Text) : (ofText s).Behind [] [] :=
  ⟨rfl, rfl, rfl, fun _ h => by simp [ofText] at h⟩

namespace Behind

variable {c : Cursor} {before last : Text}

/-- What was read last is the slice of the source between its two positions. -/
theorem slice_eq (h : c.Behind before last) : c.slice c.tokenStart c.position = last := by
  have := Text.slice_append before last c.rest
  rw [slice, h.source, h.tokenStart, h.position, Text.size_append, List.append_assoc, this]

/-- A comment remembered as open begins in front of the cursor. -/
theorem isBehindOpenComment_eq (h : c.Behind before last) :
    c.isBehindOpenComment = c.openComment.isSome := by
  rcases hq : c.openComment with _ | q
  · simp [isBehindOpenComment, hq]
  · obtain ⟨body, ⟨front, hs, rfl, -⟩, t, ht⟩ := h.openComment q hq
    -- the source ends with the rest both ways, so the front of it ends with the slash
    have hcut : before ++ last = front ++ '/' :: t := by
      have := hs.symm.trans h.source
      rw [← ht, ← List.cons_append, ← List.append_assoc] at this
      exact (List.append_cancel_right this).symm
    have hle : Text.size front ≤ c.position := by
      rw [h.position, hcut, Text.size_append]
      exact Nat.le_add_right _ _
    simp [isBehindOpenComment, hq, hle]

/-- Remembered or not, the comments in front of the cursor are those of the text. -/
theorem skipComments_eq (h : c.Behind before last) :
    c.skipComments = { c with
      rest := (Comment.run c.rest).2
      position := c.position + Text.size (Comment.run c.rest).1
      tokenStart := c.position + Text.size (Comment.run c.rest).1 } := by
  unfold skipComments
  rw [h.isBehindOpenComment_eq]
  rcases hq : c.openComment with _ | q
  · rfl
  · obtain ⟨body, ho, hr⟩ := h.openComment q hq
    have hrun := Comment.run_of_read?_none (ho.read?_none hr)
    simp [hrun]

/-- The cursor with the comments in front of it passed over, where the next
lexeme is read. A comment it now remembers may begin right there. -/
theorem start (h : c.Behind before last) :
    ∃ events openComment,
      c.skipComments.noteOpenComment = ({ c with
        rest := (Comment.run c.rest).2
        position := Text.size (before ++ last ++ (Comment.run c.rest).1)
        tokenStart := Text.size (before ++ last ++ (Comment.run c.rest).1)
        openComment }, events) ∧
      ∀ q, openComment = some q → ∃ body, Comment.OpenAt c.source q body ∧
        ((Comment.run c.rest).2 <:+ '*' :: body ∨ (Comment.run c.rest).2 = '/' :: '*' :: body) := by
  have hsplit := Comment.run_split c.rest
  have hread := Comment.read?_run c.rest
  rw [h.skipComments_eq, h.position, ← Text.size_append]
  unfold noteOpenComment
  split
  · -- an open comment is met for the first time
    rename_i ho
    rw [Bool.and_eq_true] at ho
    obtain ⟨body, hbody⟩ := Comment.opens_iff.1 ho.2
    simp only at hbody
    refine ⟨_, _, rfl, fun q hq => ?_⟩
    obtain rfl := Option.some.inj hq
    rw [hbody, Comment.read?_eq_none_of_opens] at hread
    refine ⟨body, ⟨before ++ last ++ (Comment.run c.rest).1, ?_, rfl, hread⟩, .inr hbody⟩
    rw [← hbody, h.source, List.append_assoc _ _ (Comment.run c.rest).2, hsplit]
  · refine ⟨_, _, rfl, fun q hq => ?_⟩
    obtain ⟨body, ho, hr⟩ := h.openComment q hq
    exact ⟨body, ho, .inl ((List.suffix_append _ _).trans (hsplit ▸ hr))⟩

/-- **All that a step can do**, when no token was handed back. Either only
comments are left and the text ends, or a lexeme is read behind the comments in
front of the cursor. -/
theorem next_cases (h : c.Behind before last) (hp : c.pending = none) :
    ((Comment.run c.rest).2 = [] ∧ c.next.result = .ok none ∧ c.next.cursor.rest = [] ∧
      c.next.cursor.source = c.source ∧ c.next.cursor.Behind (before ++ last ++ c.rest) []) ∨
    ∃ l, Lexeme.read (Comment.run c.rest).2 = some l ∧
      c.next.result = l.resultAt (Text.size (before ++ last ++ (Comment.run c.rest).1)) ∧
      c.next.cursor.rest = l.rest ∧ c.next.cursor.source = c.source ∧
      c.next.cursor.Behind (before ++ last ++ (Comment.run c.rest).1) l.text := by
  have hsplit := Comment.run_split c.rest
  obtain ⟨events, openComment, hstart, hopen⟩ := h.start
  simp only [next, hp, hstart]
  rcases hl : Lexeme.read (Comment.run c.rest).2 with _ | l
  · have hnil := Lexeme.read_eq_none.1 hl
    rw [hnil, List.append_nil] at hsplit
    refine .inl ⟨hnil, rfl, hnil, rfl, ⟨?_, ?_, ?_, fun q hq => ?_⟩⟩
    · simp [h.source, hnil]
    · simp [hsplit]
    · simp [hsplit]
    · obtain ⟨body, ho, -⟩ := hopen q hq
      exact ⟨body, ho, by simp [hnil]⟩
  · obtain ⟨hl1, hl2⟩ := Lexeme.read_split hl
    refine .inr ⟨l, rfl, rfl, rfl, rfl, ⟨?_, rfl, ?_, fun q hq => ?_⟩⟩
    · show c.source = before ++ last ++ (Comment.run c.rest).1 ++ l.text ++ l.rest
      calc c.source = before ++ last ++ c.rest := h.source
        _ = before ++ last ++ ((Comment.run c.rest).1 ++ (l.text ++ l.rest)) := by
            rw [hl1, hsplit]
        _ = _ := by simp only [List.append_assoc]
    · simp [outcomeOf, advance, Nat.add_assoc]
    · obtain ⟨body, ho, hr⟩ := hopen q hq
      refine ⟨body, ho, ?_⟩
      -- the lexeme takes at least the slash of an open comment that begins here
      have hsuf : l.rest <:+ (Comment.run c.rest).2 := ⟨l.text, hl1⟩
      rcases hr with hr | hr
      · exact hsuf.trans hr
      · rw [hr] at hsuf hl1
        rcases List.suffix_cons_iff.1 hsuf with he | hr'
        · rw [he] at hl1
          exact absurd (List.append_left_eq_self.1 hl1) hl2
        · exact hr'

end Behind
end Cursor
end CssReader
