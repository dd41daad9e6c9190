/-
# A text, lexeme by lexeme

What a cursor makes of a text can be said without the cursor. The tokens of a text
are what the lexeme behind the comments in front of it is, and then the tokens of
what that lexeme leaves, with their faults as many bytes further on
(`Lexeme.prepend`). And what the lexeme tolerates is in the log of the step that
reads it.

Comments in front of a text are passed over: it has the same tokens without them.

Key definition: `Lexeme.prepend`.
Key theorems: `Cursor.tokens_ofText`, `Cursor.tokens_comment`, `Cursor.Behind.next_warning`.
-/
import CssReader.Proofs.Boundary

namespace CssReader

namespace Comment

/-- A comment is whole if no star and slash are between its ends. -/
theorem isWhole_of_not_infix {body : Text} (h : ¬['*', '/'] <:+: body) :
    IsWhole (['/', '*'] ++ body ++ ['*', '/']) := by
  refine ⟨body, rfl, fun hc => ?_⟩
  rcases List.infix_concat_iff.1 hc with ⟨front, hfront⟩ | hbody
  · have hlast := congrArg List.getLast? hfront
    simp at hlast
  · exact h hbody

/-- The first star and slash close a comment, whatever follows them. -/
theorem close?_of_first {body : Text} (s : Text) (h : ¬['*', '/'] <:+: body ++ ['*']) :
    close? (body ++ ['*', '/'] ++ s) = some (body ++ ['*', '/'], s) := by
  induction body with
  | nil => rfl
  | cons c body ih =>
    rw [List.cons_append] at h
    have hc : ∀ r, c = '*' → body ++ ['*', '/'] ++ s = '/' :: r → False := by
      rintro r rfl hr
      rcases body with _ | ⟨d, body⟩
      · simp at hr
      · obtain ⟨rfl, -⟩ := List.cons.inj hr
        exact h ⟨[], body ++ ['*'], rfl⟩
    have hbody : ¬['*', '/'] <:+: body ++ ['*'] := fun hi =>
      h (hi.trans (List.suffix_cons c _).isInfix)
    rw [List.cons_append, List.cons_append, close?_cons hc, ih hbody]
    rfl

/-- A whole comment is read off the front of any text. -/
theorem IsWhole.run_append {k : Text} (h : IsWhole k) (s : Text) :
    run (k ++ s) = (k ++ (run s).1, (run s).2) := by
  obtain ⟨body, rfl, hbody⟩ := h
  apply run_of_read?_some
  calc read? (['/', '*'] ++ body ++ ['*', '/'] ++ s)
      = read? ('/' :: '*' :: (body ++ ['*', '/'] ++ s)) := by simp
    _ = some ('/' :: '*' :: (body ++ ['*', '/']), s) := by
        rw [read?_opens, close?_of_first s hbody]
        rfl
    _ = some (['/', '*'] ++ body ++ ['*', '/'], s) := by simp

end Comment

namespace Lexeme

/-- The tokens of a text that begins with `n` bytes of comments and the lexeme, if
what the lexeme leaves has the tokens `later`. -/
def prepend (n : Nat) (l : Lexeme) (later : Except Fault (List Token)) :
    Except Fault (List Token) :=
  match l.result with
  | .ok t => (later.mapError (Fault.shift (n + Text.size l.text))).map (t :: ·)
  | .error f =>
    if f.isRecoverable then later.mapError (Fault.shift (n + Text.size l.text))
    else .error (f.shift n)

theorem prepend_add (m n : Nat) (l : Lexeme) (later : Except Fault (List Token)) :
    l.prepend (m + n) later = (l.prepend n later).mapError (Fault.shift m) := by
  have hlater : later.mapError (Fault.shift (m + n + Text.size l.text)) =
      (later.mapError (Fault.shift (n + Text.size l.text))).mapError (Fault.shift m) := by
    rw [Except.mapError_shift_shift, Nat.add_assoc]
  unfold prepend
  rcases l.result with f | t
  · by_cases hr : f.isRecoverable = true
    · simp only [if_pos hr, hlater]
    · simp only [if_neg hr, Except.mapError, Fault.shift_shift]
  · simp only [hlater]
    cases later <;> rfl

/-- Where the tokens are found, the lexeme is the first of them or a fault that is skipped. -/
theorem prepend_eq_ok {n : Nat} {l : Lexeme} {later : Except Fault (List Token)}
    {ts : List Token} (h : l.prepend n later = .ok ts) :
    (∃ t ts', l.result = .ok t ∧ later = .ok ts' ∧ ts = t :: ts') ∨
      ∃ f, l.result = .error f ∧ f.isRecoverable = true ∧ later = .ok ts := by
  unfold prepend at h
  rcases hl : l.result with f | t
  · rw [hl] at h
    dsimp only at h
    by_cases hr : f.isRecoverable = true
    · rw [if_pos hr] at h
      rcases later with f' | ts'
      · simp [Except.mapError] at h
      · exact .inr ⟨f, rfl, hr, h⟩
    · rw [if_neg hr] at h
      simp at h
  · rw [hl] at h
    rcases later with f' | ts'
    · simp [Except.mapError, Except.map] at h
    · exact .inl ⟨t, ts', rfl, rfl, (Except.ok.inj h).symm⟩

end Lexeme

namespace Cursor

variable {c : Cursor} {s before last : Text} {l : Lexeme}

/-- What a step tolerates it reports, at the place where the lexeme begins. -/
theorem Behind.next_warning (h : c.Behind before last) (hp : c.pending = none)
    (hl : Lexeme.read (Comment.run c.rest).2 = some l) {w : Warning} (hw : w ∈ l.warnings) :
    .warning .tokens (w.shift c.next.cursor.tokenStart) ∈ c.next.events := by
  obtain ⟨events, openComment, hstart, -⟩ := h.start
  have hnext : c.next = c.skipComments.noteOpenComment.1.outcomeOf events l := by
    rw [next_of_pending hp, hstart, hl]
  rw [hnext, hstart]
  exact List.mem_append_right _ (List.mem_map_of_mem hw)

/-! ### Tokens -/

theorem tokens_ofText_nil (h : (Comment.run s).2 = []) : (ofText s).tokens.result = .ok [] := by
  have hres : (ofText s).next.result = .ok none := by
    rcases (ofText_behind s).next_cases rfl with ⟨-, hres, -⟩ | ⟨l, hl, -⟩
    · exact hres
    · rw [show (ofText s).rest = s from rfl, h, Lexeme.read_eq_none.2 rfl] at hl
      simp at hl
  rw [tokens_eq, Outcome.bind, pull_of_ok .tokens hres, hres]
  rfl

/-- **The tokens of a text are a lexeme, and then the tokens of what it leaves.** -/
theorem tokens_ofText (hl : Lexeme.read (Comment.run s).2 = some l) :
    (ofText s).tokens.result =
      l.prepend (Text.size (Comment.run s).1) (ofText l.rest).tokens.result := by
  rcases (ofText_behind s).next_cases rfl with ⟨hrun, -⟩ | ⟨l', hl', hres, hrest, -, hb⟩
  · rw [show (ofText s).rest = s from rfl] at hrun
    rw [hrun, Lexeme.read_eq_none.2 rfl] at hl
    simp at hl
  · obtain rfl : l = l' := Option.some.inj (hl.symm.trans hl')
    have hlater := (Shifted.ofText (Kept.ofText s).next (next_pending _)).tokens.1.result
    rw [hrest, hb.position, Text.size_append] at hlater
    simp only [List.nil_append, show (ofText s).rest = s from rfl] at hres hlater
    unfold Lexeme.prepend
    rcases hr : l.result with f | t
    · have hf := hres.trans (Lexeme.resultAt_eq_error.2 ⟨f, hr, rfl⟩)
      by_cases hrec : f.isRecoverable = true
      · simp only [if_pos hrec, ← hlater]
        rw [tokens_eq, pull_of_skipped .tokens hf hrec, tokens_eq (ofText s).next.cursor,
          Outcome.bind, Outcome.bind, Outcome.after_result, Outcome.after_cursor]
        rcases ((ofText s).next.cursor.pull .tokens).result with f' | _ | t <;> rfl
      · simp only [if_neg hrec]
        rw [tokens_eq, Outcome.bind, pull_of_fault .tokens hf hrec, hf]
    · have ht := hres.trans (Lexeme.resultAt_eq_some.2 hr)
      simp only [← hlater]
      rw [tokens_eq, Outcome.bind, pull_of_ok .tokens ht, ht]
      rfl

/-- **A comment in front of a text is no token of it.** -/
theorem tokens_comment {k : Text} (hk : Comment.IsWhole k) (s : Text) :
    (ofText (k ++ s)).tokens.result =
      (ofText s).tokens.result.mapError (Fault.shift (Text.size k)) := by
  have hrun := hk.run_append s
  rcases hl : Lexeme.read (Comment.run s).2 with _ | l
  · have hnil : (Comment.run s).2 = [] := Lexeme.read_eq_none.1 hl
    rw [tokens_ofText_nil hnil, tokens_ofText_nil (by rw [hrun]; exact hnil)]
    rfl
  · have hl' : Lexeme.read (Comment.run (k ++ s)).2 = some l := by rw [hrun]; exact hl
    rw [tokens_ofText hl, tokens_ofText hl', hrun, Text.size_append, Lexeme.prepend_add]

end Cursor
end CssReader
