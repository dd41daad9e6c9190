/-
# Tokens written out again

The tokens of a text, written out one after the other, are read again as the same
tokens, although all blanks of a run are then one space. A hexadecimal escape takes
one blank at most, whichever it is, and no other lexeme but a string or a url goes
on over a blank; a number or a name that could go on behind a space could have gone
on behind the blank. So a lexeme looks as before to what it leaves
(`Lexeme.read_shrunk`).

Three things must not have been in the text, because the tokens do not tell of them:
comments, malformed urls, and strings that were cut off by a line break. A comment
that is never closed does no harm, since a star and a slash do not come together by
blanks that are left out.

Key definitions: `Cursor.Seamless`, `Outcome.BreaksString`, `Text.Shrunk`, `Spells`.
Key theorems: `Lexeme.read_shrunk`, `Spells.written`, `Cursor.tokens_written`.
-/
import CssReader.Proofs.Lexing

namespace CssReader

/-! ### Fewer blanks -/

namespace Text

/-- The text `w` is `s` with some runs of blanks written as one space. -/
inductive Shrunk : (s w : Text) → Prop
  | nil : Shrunk [] []
  | keep {s w : Text} (c : Char) : Shrunk s w → Shrunk (c :: s) (c :: w)
  | blanks {run s w : Text} : run ≠ [] → (∀ c ∈ run, isBlank c) → Shrunk s w →
    Shrunk (run ++ s) (' ' :: w)

namespace Shrunk

variable {s w : Text}

theorem append_left (h : Shrunk s w) : ∀ u : Text, Shrunk (u ++ s) (u ++ w)
  | [] => h
  | c :: u => .keep c (append_left h u)

/-- Up to the first difference the texts are the same; there a space stands for a blank. -/
theorem eq_or_blank (h : Shrunk s w) :
    s = w ∨ ∃ m b z z', s = m ++ b :: z ∧ w = m ++ ' ' :: z' ∧ isBlank b = true := by
  induction h with
  | nil => exact .inl rfl
  | keep c _ ih =>
    rcases ih with rfl | ⟨m, b, z, z', rfl, rfl, hb⟩
    · exact .inl rfl
    · exact .inr ⟨c :: m, b, z, z', rfl, rfl, hb⟩
  | @blanks run s w hne hall _ =>
    obtain ⟨b, run, rfl⟩ := List.exists_cons_of_ne_nil hne
    exact .inr ⟨[], b, run ++ s, w, rfl, rfl, hall b List.mem_cons_self⟩

/-- A character that is not a space is in the text from before. -/
theorem of_cons {c : Char} (h : Shrunk s (c :: w)) (hc : c ≠ ' ') :
    ∃ s', s = c :: s' ∧ Shrunk s' w := by
  cases h with
  | keep _ h => exact ⟨_, rfl, h⟩
  | blanks => exact absurd rfl hc

theorem head?_not_blank (h : Shrunk s w) (hs : ∀ c ∈ s.head?, isBlank c = false) :
    ∀ c ∈ w.head?, isBlank c = false := by
  cases h with
  | nil => exact hs
  | keep c _ => exact hs
  | @blanks run s w hne hall _ =>
    obtain ⟨b, run, rfl⟩ := List.exists_cons_of_ne_nil hne
    have hb : isBlank b = false := hs b rfl
    simp [hall b List.mem_cons_self] at hb

/-- No star comes in front of a slash where it did not before. -/
theorem closes (h : Shrunk s w) (hw : ['*', '/'] <:+: w) : ['*', '/'] <:+: s := by
  induction h with
  | nil => exact hw
  | keep c h ih =>
    rcases List.infix_cons_iff.1 hw with ⟨w', hw'⟩ | hw
    · obtain ⟨rfl, rfl⟩ := List.cons.inj hw'
      obtain ⟨s', rfl, -⟩ := h.of_cons (by decide)
      exact ⟨[], s', rfl⟩
    · exact (ih hw).trans (List.suffix_cons _ _).isInfix
  | @blanks run s w _ _ h ih =>
    have hne : ∀ r, (' ' : Char) = '*' → w = '/' :: r → False := fun r hspace => by
      simp at hspace
    exact (ih ((Comment.infix_cons_iff hne).1 hw)).trans (List.suffix_append run s).isInfix

/-- No comment comes about by leaving out blanks. -/
theorem read?_none (h : Shrunk s w) (hs : Comment.read? s = none) : Comment.read? w = none := by
  by_cases ho : Comment.opens w = true
  · obtain ⟨w', rfl⟩ := Comment.opens_iff.1 ho
    obtain ⟨s₁, rfl, h₁⟩ := h.of_cons (by decide)
    obtain ⟨s₂, rfl, h₂⟩ := h₁.of_cons (by decide)
    rw [Comment.read?_eq_none_of_opens, Comment.close?_eq_none] at hs ⊢
    exact fun hw => hs (h₂.closes hw)
  · rw [Comment.read?, if_neg ho]

end Shrunk
end Text

open Text

namespace Lexeme

/-- The lexeme is a string that was cut off by a line break. -/
def BreaksString (l : Lexeme) : Prop :=
  (∃ v, l.result = .ok (.string v)) ∧ (∃ n, ⟨.openString, n⟩ ∈ l.warnings) ∧
    ∃ c ∈ l.rest.head?, isLineBreak c = true

/-- A lexeme with a blank somewhere behind it tolerates nothing that depends on what
follows up to that blank, unless it is a string that a line break cut off. -/
theorem clear_of_blank {l : Lexeme} {m z : Text} {b : Char} (h : l.Reports)
    (hrest : l.rest = m ++ b :: z) (hb : isBlank b = true) (hbreak : ¬l.BreaksString) (x' : Text) :
    l.Clear (b :: z) x' := by
  have hmem : b ∈ l.rest := by simp [hrest]
  refine ⟨fun n hn => ?_, fun front q s hw hs => ?_⟩
  · rw [h.openUrl n hn] at hmem
    simp at hmem
  · obtain ⟨hopen, hcut⟩ := h.openString front q s hw hs
    have hbrest : b ∈ (Quoted.read q s).rest := hcut.suffix.subset hmem
    rcases Quoted.rest_of_open hopen with h0 | hlone | ⟨c, r, hr, hc⟩
    · simp [h0] at hbrest
    · obtain rfl : b = '\\' := by simpa [hlone] using hbrest
      simp [isBlank] at hb
    · refine ⟨fun hx => ?_, ?_⟩
      · -- the string is cut off in front of that blank: it is the target of a url, which goes on
        exfalso
        rw [hr] at hx
        obtain ⟨rfl, rfl⟩ := List.cons.inj hx
        rcases hcut with ⟨hv, heq⟩ | ⟨hsuf, -⟩
        · exact hbreak ⟨hv, ⟨_, hw⟩, c, by rw [heq, hr]; rfl, hc⟩
        · rw [hr, List.dropWhile_cons_of_pos hb, hrest] at hsuf
          have hlen := (hsuf.trans (List.dropWhile_suffix isBlank)).length_le
          simp only [List.length_append, List.length_cons] at hlen
          omega
      · rw [hr]
        rintro heq
        obtain ⟨rfl, -⟩ := List.cons.inj heq
        simp [isLineBreak] at hc

/-- **A lexeme is the same when runs of blanks behind it are written as one space.** -/
theorem read_shrunk {s w : Text} {l : Lexeme} (h : read s = some l) (hw : Shrunk l.rest w)
    (hbreak : ¬l.BreaksString) : read (l.text ++ w) = some { l with rest := w } := by
  have hs := (read_split h).1
  rcases hw.eq_or_blank with heq | ⟨m, b, z, z', hrest, rfl, hb⟩
  · rw [← heq, hs]
    exact h
  · have hl : l = before { l with rest := m } (b :: z) := by rw [before, ← hrest]
    have hclear := clear_of_blank (read_reports h) hrest hb hbreak (' ' :: z')
    rw [← hs, hrest, ← List.append_assoc, hl] at h
    rw [hl] at hclear
    rw [← List.append_assoc]
    exact read_swap h (.blank hb) hclear

end Lexeme

/-! ### Texts that are nothing but tokens -/

/-- The text is the tokens `ts` and nothing else, one lexeme for each. -/
inductive Spells : (s : Text) → (ts : List Token) → Prop
  | nil : Spells [] []
  | cons {s : Text} {l : Lexeme} {t : Token} {ts : List Token} : Comment.read? s = none →
    Lexeme.read s = some l → l.result = .ok t → ¬l.BreaksString → Spells l.rest ts →
    Spells s (t :: ts)

namespace Spells

variable {s : Text} {ts : List Token}

/-- What is written is the text with its runs of blanks as spaces. -/
theorem shrunk (h : Spells s ts) : Shrunk s (ts.flatMap Token.text) := by
  induction h with
  | nil => exact .nil
  | @cons s l t ts _ hl ht _ _ ih =>
    have hshown := Lexeme.read_shows hl t ht
    rw [← (Lexeme.read_split hl).1, List.flatMap_cons]
    by_cases hw : t = .whitespace
    · subst hw
      obtain ⟨hne, hall, -⟩ : l.text ≠ [] ∧ (∀ c ∈ l.text, isBlank c) ∧ _ := hshown
      exact .blanks hne hall ih
    · rw [Token.ShownBy, if_neg hw] at hshown
      rw [hshown]
      exact ih.append_left t.text

/-- **A text that is nothing but tokens still is when its tokens are written out.** -/
theorem written (h : Spells s ts) : Spells (ts.flatMap Token.text) ts := by
  induction h with
  | nil => exact .nil
  | @cons s l t ts hnone hl ht hbreak hts ih =>
    have hs := (Lexeme.read_split hl).1
    have hshown := Lexeme.read_shows hl t ht
    have hrest := hts.shrunk
    rw [List.flatMap_cons]
    generalize ts.flatMap Token.text = w at ih hrest ⊢
    by_cases hw : t = .whitespace
    · subst hw
      obtain ⟨-, -, hafter⟩ : _ ∧ _ ∧ ∀ c ∈ l.rest.head?, isBlank c = false := hshown
      have hstop := hrest.head?_not_blank hafter
      have htake : (' ' :: w).takeWhile isBlank = [' '] ∧ (' ' :: w).dropWhile isBlank = w := by
        rcases w with _ | ⟨c, w⟩
        · exact ⟨rfl, rfl⟩
        · have hc : isBlank c = false := hstop c rfl
          have hspace : isBlank ' ' = true := rfl
          simp [hc, hspace]
      have hread := Lexeme.read_blanks (s := ' ' :: w) (by simp [htake.1])
      rw [htake.1, htake.2] at hread
      exact .cons rfl hread rfl (fun hb => by simp [Lexeme.BreaksString, Lexeme.plain] at hb) ih
    · have htext : l.text = t.text := by rwa [Token.ShownBy, if_neg hw] at hshown
      have hread := Lexeme.read_shrunk hl hrest hbreak
      have hall : Shrunk s (l.text ++ w) := by
        rw [← hs]
        exact hrest.append_left l.text
      rw [← htext]
      refine .cons (hall.read?_none hnone) hread ht (fun hb => hbreak ?_) ih
      obtain ⟨hv, hn, c, hc, hline⟩ := hb
      obtain ⟨w', rfl⟩ := List.head?_eq_some_iff.1 hc
      obtain ⟨r, hr, -⟩ := hrest.of_cons (c := c) (by rintro rfl; simp [isLineBreak] at hline)
      exact ⟨hv, hn, c, by rw [hr]; rfl, hline⟩

/-- A text that is nothing but tokens has these tokens. -/
theorem tokens (h : Spells s ts) : (Cursor.ofText s).tokens.result = .ok ts := by
  induction h with
  | nil => exact Cursor.tokens_ofText_nil (congrArg Prod.snd (Comment.run_of_read?_none rfl))
  | @cons s l t ts hnone hl ht _ _ ih =>
    have hrun := Comment.run_of_read?_none hnone
    rw [Cursor.tokens_ofText (l := l) (by rw [hrun]; exact hl), ih, Lexeme.prepend, ht]
    rfl

end Spells

/-! ### Walks over such texts -/

/-- The step gave a string that was cut off by a line break. -/
def Outcome.BreaksString (o : Outcome (Option Token)) : Prop :=
  (∃ v, o.result = .ok (some (.string v))) ∧
    (∃ n, .warning .tokens ⟨.openString, n⟩ ∈ o.events) ∧
    ∃ c ∈ o.cursor.rest.head?, isLineBreak c = true

namespace Cursor

/-- From byte `n` on nothing is passed over between the steps of a walk, in front of
the first, or at the end: each begins where the one in front of it ended. -/
def Seamless : (n : Nat) → List (Outcome (Option Token)) → Prop
  | _, [] => True
  | n, o :: os => o.cursor.tokenStart = n ∧ Seamless o.cursor.position os

/-- A seamless walk without malformed urls and broken strings is over a text that is
nothing but tokens. -/
theorem Behind.spells {c : Cursor} {before last : Text} {ts : List Token}
    (h : c.Behind before last) (hp : c.pending = none)
    (hts : (ofText c.rest).tokens.result = .ok ts) (hseam : Seamless c.position c.walk)
    (hurl : ∀ o ∈ c.walk, ∀ f, o.result = .error f → f.kind ≠ .malformedUrl)
    (hbreak : ∀ o ∈ c.walk, ¬o.BreaksString) : Spells c.rest ts := by
  have hnil : ∀ {s : Text}, Text.size s = 0 → s = [] := fun {s} hs => by
    by_contra hne
    have hpos := Text.size_pos hne
    omega
  fun_induction walk c generalizing before last ts with
  | case1 c hend =>
    have hstart : c.next.cursor.tokenStart = c.position := hseam.1
    rcases h.next_cases hp with ⟨hrun, -, -, -, hb⟩ | ⟨l, -, hres, -⟩
    · rw [hb.tokenStart, h.position, Text.size_append] at hstart
      have hrest : c.rest = [] := hnil (by omega)
      rw [tokens_ofText_nil hrun] at hts
      obtain rfl := Except.ok.inj hts
      rw [hrest]
      exact .nil
    · exact absurd (hres.symm.trans (Outcome.isEnd_iff.1 hend)) (l.resultAt_ne_none _)
  | case2 c hend ih =>
    have hstart : c.next.cursor.tokenStart = c.position := hseam.1
    rcases h.next_cases hp with ⟨-, hres, -⟩ | ⟨l, hl, hres, hrest, -, hb⟩
    · exact absurd (Outcome.isEnd_iff.2 hres) hend
    · rw [hb.tokenStart, h.position, Text.size_append] at hstart
      have hrun : (Comment.run c.rest).2 = c.rest := by
        have hsplit := Comment.run_split c.rest
        rwa [hnil (s := (Comment.run c.rest).1) (by omega), List.nil_append] at hsplit
      rw [tokens_ofText hl] at hts
      rcases Lexeme.prepend_eq_ok hts with ⟨t, ts', ht, hts', rfl⟩ | ⟨f, hf, hrec, -⟩
      · have ih := ih hb (next_pending c) (by rw [hrest]; exact hts') hseam.2
          (fun o ho => hurl o (List.mem_cons_of_mem _ ho))
          fun o ho => hbreak o (List.mem_cons_of_mem _ ho)
        rw [hrest] at ih
        have hnone := Comment.read?_run c.rest
        rw [hrun] at hnone
        have hl' := hl
        rw [hrun] at hl'
        refine .cons hnone hl' ht (fun ⟨⟨v, hv⟩, ⟨n, hn⟩, hline⟩ => ?_) ih
        apply hbreak c.next List.mem_cons_self
        refine ⟨⟨v, hres.trans (Lexeme.resultAt_eq_some.2 hv)⟩, ⟨_, h.next_warning hp hl hn⟩, ?_⟩
        rwa [hrest]
      · have hf' := hres.trans (Lexeme.resultAt_eq_error.2 ⟨f, hf, rfl⟩)
        exact absurd (of_decide_eq_true hrec) (hurl c.next List.mem_cons_self (f.shift _) hf')

/-- **Tokens that are written out are read again as the same tokens**, if their text
held no comments, no malformed urls and no strings that a line break cut off. -/
theorem tokens_written {s : Text} {ts : List Token} (h : (ofText s).tokens.result = .ok ts)
    (hseam : Seamless 0 (ofText s).walk)
    (hurl : ∀ o ∈ (ofText s).walk, ∀ f, o.result = .error f → f.kind ≠ .malformedUrl)
    (hbreak : ∀ o ∈ (ofText s).walk, ¬o.BreaksString) :
    (ofText (ts.flatMap Token.text)).tokens.result = .ok ts :=
  ((ofText_behind s).spells rfl h hseam hurl hbreak).written.tokens

/-- Two blanks that become one space, in front of an open comment and an open string. -/
theorem tokens_written_open :
    (ofText ['a', '\t', '\n', '/', '*', '"', 'b']).tokens.result =
        .ok [.ident ['a'], .whitespace, .delim '/', .delim '*', .string ['"', 'b']] ∧
      Seamless 0 (ofText ['a', '\t', '\n', '/', '*', '"', 'b']).walk ∧
      (∀ o ∈ (ofText ['a', '\t', '\n', '/', '*', '"', 'b']).walk, ∀ f, o.result = .error f →
        f.kind ≠ .malformedUrl) ∧
      (∀ o ∈ (ofText ['a', '\t', '\n', '/', '*', '"', 'b']).walk, ¬o.BreaksString) ∧
      (ofText ['a', ' ', '/', '*', '"', 'b']).tokens.result =
        .ok [.ident ['a'], .whitespace, .delim '/', .delim '*', .string ['"', 'b']] := by
  have h : (ofText ['a', '\t', '\n', '/', '*', '"', 'b']).tokens.result =
      .ok [.ident ['a'], .whitespace, .delim '/', .delim '*', .string ['"', 'b']] := by
    with_unfolding_all rfl
  have hseam : Seamless 0 (ofText ['a', '\t', '\n', '/', '*', '"', 'b']).walk := by
    with_unfolding_all exact ⟨rfl, rfl, rfl, rfl, rfl, rfl, trivial⟩
  have hwalk : (ofText ['a', '\t', '\n', '/', '*', '"', 'b']).walk.map
      (fun o => (o.result, o.cursor.rest)) =
      [(.ok (some (.ident ['a'])), ['\t', '\n', '/', '*', '"', 'b']),
        (.ok (some .whitespace), ['/', '*', '"', 'b']),
        (.ok (some (.delim '/')), ['*', '"', 'b']), (.ok (some (.delim '*')), ['"', 'b']),
        (.ok (some (.string ['"', 'b'])), []), (.ok none, [])] := by
    with_unfolding_all rfl
  have hurl : ∀ o ∈ (ofText ['a', '\t', '\n', '/', '*', '"', 'b']).walk, ∀ f,
      o.result = .error f → f.kind ≠ .malformedUrl := fun o ho f hf => by
    have hmem := List.mem_map_of_mem (f := fun o => (o.result, o.cursor.rest)) ho
    simp [hwalk, hf] at hmem
  have hbreak : ∀ o ∈ (ofText ['a', '\t', '\n', '/', '*', '"', 'b']).walk, ¬o.BreaksString := by
    rintro o ho ⟨⟨v, hv⟩, -, c, hc, -⟩
    have hmem := List.mem_map_of_mem (f := fun o => (o.result, o.cursor.rest)) ho
    obtain ⟨-, hrest⟩ : v = ['"', 'b'] ∧ o.cursor.rest = [] := by simpa [hwalk, hv] using hmem
    simp [hrest] at hc
  exact ⟨h, hseam, hurl, hbreak, tokens_written h hseam hurl hbreak⟩

end Cursor
end CssReader
