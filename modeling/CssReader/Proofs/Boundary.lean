/-
# Where one text ends and the next begins

In front of a rule, comments and blanks may be left out: the rules are those of
the rest, as many bytes further on. So it does not matter whether they belong to
one text or to the next: blanks at the end of a text and at the beginning of the
next are one token, but stand for nothing all the same.

`Cursor.ruleList_extend_end` puts this together for a cursor that has nothing
left but comments, malformed urls and blanks: behind it are the rules of the
text that follows.

Key theorems: `Cursor.Kept.ruleList_result`, `Cursor.ruleList_blanks`,
`Cursor.ruleList_comments`, `Cursor.ruleList_extend_end`.
-/
import CssReader.Proofs.Extend
import CssReader.Proofs.Restart

namespace CssReader

open Text

theorem Except.mapError_shift_shift {α : Type} (n m : Nat) (x : Except Fault α) :
    (x.mapError (Fault.shift m)).mapError (Fault.shift n) = x.mapError (Fault.shift (n + m)) := by
  cases x with
  | ok => rfl
  | error f => exact congrArg Except.error (Fault.shift_shift n m f)

theorem Except.mapError_shift_zero {α : Type} (x : Except Fault α) :
    x.mapError (Fault.shift 0) = x := by
  cases x with
  | ok => rfl
  | error f => simp [Except.mapError, Fault.shift]

namespace Lexeme

/-- Blanks in front of a text are one lexeme. -/
theorem read_blanks {s : Text} (h : s.takeWhile isBlank ≠ []) :
    read s = some (plain .whitespace (s.takeWhile isBlank) (s.dropWhile isBlank)) := by
  obtain ⟨c, s, rfl⟩ : ∃ c t, s = c :: t := List.exists_cons_of_ne_nil (by rintro rfl; simp at h)
  have hc : isBlank c = true := by
    by_contra hc
    simp [hc] at h
  have hother : ¬(c = 'u' || c = 'U') = true ∧ isQuote c = false ∧ markOf? c = none :=
    of_isBlank hc (by decide)
  have hrange := unicodeRange?_none hother.1 s
  have hstring : string? (c :: s) = none := by simp [string?, hother.2.1]
  have hmark : mark? (c :: s) = none := by simp [mark?, hother.2.2]
  have hblanks : whitespace? (c :: s) =
      some (plain .whitespace ((c :: s).takeWhile isBlank) ((c :: s).dropWhile isBlank)) := by
    simp [whitespace?, hc]
  simp only [read, productions, List.findSome?_cons, hrange, hstring, hmark, hblanks]

end Lexeme

/-- No comment begins with a blank. -/
theorem Comment.opens_of_blank {s : Text} (h : s.takeWhile isBlank ≠ []) : opens s = false := by
  rw [← Bool.not_eq_true, opens_iff]
  rintro ⟨r, rfl⟩
  simp [isBlank] at h

/-- A text with nothing in it up to its end but blanks and what is passed over is
tied, unless it is empty. -/
theorem NextToken.tied_of_whitespace {s span rest : Text} {t? : Option Token}
    (h : NextToken s t? span rest) (ht : t? = none ∨ t? = some .whitespace) (hs : s ≠ []) :
    Tied s := by
  obtain ⟨gap, rfl, hgap⟩ := h.passed
  rcases ht with rfl | rfl
  · obtain rfl := h.span_of_none
    obtain rfl := h.rest_of_none
    rw [List.append_nil, List.append_nil] at hs ⊢
    exact hgap.tied hs
  · obtain ⟨hne, hall, -⟩ : span ≠ [] ∧ (∀ c ∈ span, isBlank c) ∧ _ := by
      simpa only [Token.ShownBy, if_true] using h.shown
    obtain ⟨c, hc, hl⟩ := tied_of_blank hne hall
    exact ⟨c, List.mem_append_right _ (List.mem_append_left _ hc), hl⟩

namespace Cursor

variable {c c' d : Cursor} {source last : Text} {top : Bool}

/-! ### Rules of the rest of a text -/

/-- The rules behind a cursor are those of what it has left. -/
theorem Kept.ruleList_result {s : Text} (h : c.Kept s) (hp : c.pending = none) (top : Bool) :
    (c.ruleList top).result =
      ((Cursor.ofText c.rest).ruleList top).result.mapError (Fault.shift c.position) := by
  rw [Cursor.ruleList_result, Cursor.ruleList_result, (Shifted.ofText h hp).componentValues]
  cases (Cursor.ofText c.rest).componentValues.result <;> rfl

/-- Rules depend on the cursor only by the token behind it. -/
theorem ruleList_of_pull (hr : (c.pull .trees).result = (d.pull .trees).result)
    (hc : (c.pull .trees).cursor = (d.pull .trees).cursor) :
    (c.ruleList top).result = (d.ruleList top).result := by
  rw [ruleList_eq top c, ruleList_eq top d, Outcome.bind, Outcome.bind, hr, hc]
  cases (d.pull .trees).result <;> rfl

/-- In front of a rule blanks are passed over. -/
theorem ruleList_of_whitespace (h : (c.pull .trees).Gives (some .whitespace) c') :
    (c.ruleList top).result = (c'.ruleList top).result := by
  rw [ruleList_eq, Outcome.bind, h.result, h.cursor]
  rfl

/-- Blanks in front of a text are a token. -/
theorem ruleList_dropWhile (top : Bool) (s : Text) :
    ((ofText s).ruleList top).result = ((ofText (s.dropWhile isBlank)).ruleList top).result.mapError
      (Fault.shift (Text.size (s.takeWhile isBlank))) := by
  by_cases h : s.takeWhile isBlank = []
  · have hs := List.takeWhile_append_dropWhile (p := isBlank) (l := s)
    rw [h, List.nil_append] at hs
    rw [h, hs, Text.size_nil, Except.mapError_shift_zero]
  · have hopens := Comment.opens_of_blank h
    have hrun : Comment.run s = ([], s) :=
      Comment.run_of_read?_none (by simp [Comment.read?, hopens])
    have hnext := next_of_not_opens (c := ofText s) rfl rfl (by rw [ofText, hrun]; exact hopens)
    rw [show (ofText s).rest = s from rfl, hrun, Lexeme.read_blanks h] at hnext
    have hres : (ofText s).next.result = .ok (some .whitespace) := by rw [hnext]; rfl
    have hrest : (ofText s).next.cursor.rest = s.dropWhile isBlank := by rw [hnext]; rfl
    have hpos : (ofText s).next.cursor.position = Text.size (s.takeWhile isBlank) := by
      rw [hnext, skipComments_of_openComment rfl]
      simp [outcomeOf, advance, ofText, hrun, Lexeme.plain]
    have hpull := Outcome.gives_of_result ((congrArg _ (pull_of_ok .trees hres)).trans hres)
    rw [ruleList_of_whitespace hpull, pull_of_ok .trees hres,
      (Kept.ofText s).next.ruleList_result (next_pending _), hrest, hpos]

/-- **Blanks in front of a text do not matter to its rules.** -/
theorem ruleList_blanks (top : Bool) {b : Text} (hb : ∀ c ∈ b, isBlank c) (s : Text) :
    ((ofText (b ++ s)).ruleList top).result =
      ((ofText s).ruleList top).result.mapError (Fault.shift (Text.size b)) := by
  rw [ruleList_dropWhile top (b ++ s), ruleList_dropWhile top s, Except.mapError_shift_shift,
    List.dropWhile_append_of_pos hb, List.takeWhile_append_of_pos hb, Text.size_append]

/-- **Comments in front of a cursor do not matter to the rules behind it**, when
the text goes on. -/
theorem ruleList_comments (r : Text) (hc : Reached source last c) (ho : c.openComment = none) :
    ((c.extend r).ruleList top).result =
      ((ofText ((Comment.run c.rest).2 ++ r)).ruleList top).result.mapError
        (Fault.shift (c.position + Text.size (Comment.run c.rest).1)) := by
  obtain ⟨before, hb⟩ := hc.behind
  -- the cursor behind the comments gives the same token
  let d : Cursor := { c.extend r with
    rest := (Comment.run c.rest).2 ++ r
    position := c.position + Text.size (Comment.run c.rest).1 }
  have hkept : Kept (source ++ r) d := by
    refine ⟨congrArg (· ++ r) hc.source, before, last ++ (Comment.run c.rest).1, ?_,
      hb.tokenStart, ?_, fun q hq => ?_⟩
    · have hsplit := Comment.run_split c.rest
      show c.source ++ r =
        before ++ (last ++ (Comment.run c.rest).1) ++ ((Comment.run c.rest).2 ++ r)
      rw [hb.source]
      nth_rewrite 1 [← hsplit]
      simp only [List.append_assoc]
    · show c.position + _ = _
      rw [hb.position]
      simp only [Text.size_append, Nat.add_assoc]
    · rw [show c.openComment = some q from hq] at ho
      simp at ho
  have hskip : (c.extend r).skipComments = d.skipComments := by
    rw [skipComments_of_openComment (c := c.extend r) ho, skipComments_of_openComment (c := d) ho]
    show Cursor.mk _ _ _ _ _ _ = Cursor.mk _ _ _ _ _ _
    simp only [d, extend, Comment.run_append c.rest r, Text.size_append, Nat.add_assoc]
  have hnext : (c.extend r).next = d.next := by
    rw [next_of_pending (c := c.extend r) hc.pending, next_of_pending (c := d) hc.pending, hskip]
  have hpull : (c.extend r).pull .trees = d.pull .trees := by
    rw [pull.eq_def .trees (c.extend r), pull.eq_def .trees d, hnext]
  rw [ruleList_of_pull (congrArg Outcome.result hpull) (congrArg Outcome.cursor hpull),
    hkept.ruleList_result hc.pending]

/-! ### The end of a text -/

theorem Reached.position_add (h : Reached source last c) :
    c.position + Text.size c.rest = Text.size source := by
  obtain ⟨before, hb⟩ := h.behind
  rw [← h.source, hb.source, hb.position, Text.size_append _ c.rest]

/-- Where a step comes to the end of the text with no token but blanks, there was
nothing but blanks behind the comments. -/
theorem Reached.run_blank {t? : Option Token} (hc : Reached source last c)
    (h : c.next.Gives t? c') (ht : t? = none ∨ t? = some .whitespace) (hrest : c'.rest = []) :
    ∀ x ∈ (Comment.run c.rest).2, isBlank x := by
  rcases hc.next_cases with ⟨hrun, -⟩ | ⟨l, n, hl, hres, hlrest, -⟩
  · simp [hrun]
  · rw [h.result] at hres
    rcases ht with rfl | rfl
    · exact absurd hres.symm (l.resultAt_ne_none n)
    · have htoken : l.result = .ok .whitespace := Lexeme.resultAt_eq_some.1 hres.symm
      have hshown := Lexeme.read_shows hl _ htoken
      rw [← (Lexeme.read_split hl).1, ← hlrest, h.cursor, hrest, List.append_nil]
      exact hshown.2.1

/-- **Behind the end of a text come the rules of the text that follows**, as many
bytes further on as the text takes. -/
theorem ruleList_extend_end {t? : Option Token} (r : Text) (hc : Reached source last c)
    (h : (c.pull .trees).Gives t? c') (ht : t? = none ∨ t? = some .whitespace)
    (hrest : c'.rest = []) (hopen : c'.openComment = none) :
    ((c.extend r).ruleList top).result =
      ((ofText r).ruleList top).result.mapError (Fault.shift (Text.size source)) := by
  fun_induction pull Layer.trees c generalizing last with
  | case1 c a ha =>
    have hopen' : c.next.cursor.openComment = none := by rw [h.cursor]; exact hopen
    have hblank := hc.run_blank h ht hrest
    have hsize := congrArg Text.size (Comment.run_split c.rest)
    rw [Text.size_append] at hsize
    rw [ruleList_comments r hc (not_opens_of_next hc.pending hopen').1, ruleList_blanks top hblank,
      Except.mapError_shift_shift, Nat.add_assoc, hsize, hc.position_add]
  | case2 c f hf hrec ih =>
    have h : (c.next.cursor.pull .trees).Gives t? c' := h
    obtain ⟨last₁, hc₁⟩ := hc.next
    have hopen₁ := openComment_of_traced (pull_traced .trees c.next.cursor) h hopen
    -- the malformed url has left something, which ties the text behind it
    have hne : c.next.cursor.rest ≠ [] := by
      rcases hc.next_cases with ⟨-, hres, -⟩ | ⟨l, n, hl, hres, hlrest, -⟩
      · rw [hf] at hres
        simp at hres
      · obtain ⟨f', hf', rfl⟩ := Lexeme.resultAt_eq_error.1 (hres.symm.trans hf)
        rw [hlrest]
        exact (Lexeme.read_leavesUrl hl f' hf' hrec).2
    obtain ⟨span, hn, -⟩ := hc₁.nextToken h
    have hnext := next_extend r hopen₁ (.inl (hn.tied_of_whitespace ht hne))
    have hfault : (c.extend r).next.result = .error f := by rw [hnext]; exact hf
    have hpull := pull_of_skipped .trees hfault hrec
    rw [hnext] at hpull
    rw [ruleList_of_pull (d := c.next.cursor.extend r) (by rw [hpull]; rfl) (by rw [hpull]; rfl)]
    exact ih hc₁ h
  | case3 c f hf hrec =>
    have hres := h.result
    rw [hf] at hres
    simp at hres

end Cursor
end CssReader
