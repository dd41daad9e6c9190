/-
# Where a string ends

A string ends at the first quote of its own kind that is not escaped, or in front of
the first line break that is not escaped, whichever comes first; without either it
goes on to the end of the text. A character is escaped if an odd number of backslashes
is in front of it. `Quoted.Ends` says so of the text behind the opening quote, and does
not say how to find the place.

There is one exception. A backslash at the end of the text has nothing to escape, and
the string ends in front of it.

Key definitions: `Text.Escapes`, `Quoted.Plain`, `Quoted.Ends`.
Key theorem: `Quoted.ends_iff`.
-/
import Mathlib.Data.List.Induction
import CssReader.Proofs.Lexeme.Reports

namespace CssReader

/-! ### Escapes -/

/-- A character behind the text is escaped: the backslashes at the end of the text are
an odd number. -/
def Text.Escapes (u : Text) : Prop := (u.reverse.takeWhile (· = '\\')).length % 2 = 1

namespace Text

instance (u : Text) : Decidable (Escapes u) := inferInstanceAs (Decidable (_ = 1))

theorem not_escapes_nil : ¬Escapes [] := by decide

/-- A backslash escapes what is behind it, unless it is escaped itself. -/
theorem escapes_concat {u : Text} {c : Char} : Escapes (u ++ [c]) ↔ c = '\\' ∧ ¬Escapes u := by
  unfold Escapes
  rw [List.reverse_append]
  by_cases hc : c = '\\'
  · subst hc
    simp only [List.reverse_cons, List.reverse_nil, List.nil_append, List.cons_append,
      List.takeWhile_cons, decide_true, ↓reduceIte, List.length_cons, true_and]
    omega
  · simp [hc]

theorem escapes_cons {c : Char} (hc : c ≠ '\\') (u : Text) : Escapes (c :: u) ↔ Escapes u := by
  induction u using List.reverseRecOn with
  | nil => simp [Escapes, hc]
  | append_singleton u d ih => rw [← List.cons_append, escapes_concat, escapes_concat, ih]

theorem escapes_pair (c : Char) (u : Text) : Escapes ('\\' :: c :: u) ↔ Escapes u := by
  induction u using List.reverseRecOn with
  | nil =>
    have hone : Escapes ['\\'] := by decide
    have hpair : Escapes (['\\'] ++ [c]) ↔ c = '\\' ∧ ¬Escapes ['\\'] := escapes_concat
    exact iff_of_false (fun h => (hpair.1 h).2 hone) not_escapes_nil
  | append_singleton u d ih =>
    rw [← List.cons_append, ← List.cons_append, escapes_concat, escapes_concat, ih]

end Text

namespace Quoted

/-! ### Ends -/

/-- Neither the quote `q` nor a line break is in the text, unless it is escaped. -/
def Plain (q : Char) (u : Text) : Prop :=
  ∀ front c behind, u = front ++ c :: behind → c = q ∨ isLineBreak c = true → Text.Escapes front

/-- Behind the quote `q` that opens a string comes the text `s`: the string takes
`taken` of it, with the quote that closes it if it is closed, and leaves `rest`. -/
inductive Ends (q : Char) : (s taken : Text) → (closed : Bool) → (rest : Text) → Prop
  | quote {u r : Text} : Plain q u → ¬Text.Escapes u → Ends q (u ++ q :: r) (u ++ [q]) true r
  | lineBreak {u r : Text} {c : Char} : Plain q u → ¬Text.Escapes u → isLineBreak c = true →
    Ends q (u ++ c :: r) u false (c :: r)
  | finish {u : Text} : Plain q u → ¬Text.Escapes u → Ends q u u false []
  /-- The text ends with a backslash that is not escaped and that has nothing to escape. -/
  | backslash {u : Text} : Plain q u → ¬Text.Escapes u → Ends q (u ++ ['\\']) u false ['\\']

/-- A string takes the beginning of the text and leaves the rest. -/
theorem Ends.split {q : Char} {s taken rest : Text} {closed : Bool}
    (h : Ends q s taken closed rest) : s = taken ++ rest := by
  cases h with
  | quote => rw [List.append_assoc, List.singleton_append]
  | lineBreak | backslash => rfl
  | finish => exact (List.append_nil s).symm

theorem isLineBreak_not_quote {c : Char} (h : isLineBreak c = true) : isQuote c = false := by
  simp only [isLineBreak, Bool.or_eq_true, decide_eq_true_eq] at h
  rcases h with (rfl | rfl) | rfl <;> rfl

theorem isQuote_not_blank {c : Char} (h : isQuote c = true) : isBlank c = false := by
  simp only [isQuote, Bool.or_eq_true, decide_eq_true_eq] at h
  rcases h with rfl | rfl <;> rfl

theorem plain_nil (q : Char) : Plain q [] := by
  intro front c behind h
  simp at h

theorem plain_cons {q c : Char} (hc : c ≠ '\\') (u : Text) :
    Plain q (c :: u) ↔ ¬(c = q ∨ isLineBreak c = true) ∧ Plain q u := by
  constructor
  · intro h
    refine ⟨fun hstop => Text.not_escapes_nil (h [] c u rfl hstop), fun front d behind hu hd => ?_⟩
    have hfront := h (c :: front) d behind (by rw [hu, List.cons_append]) hd
    rwa [Text.escapes_cons hc] at hfront
  · rintro ⟨hstop, h⟩ front d behind hu hd
    rcases front with _ | ⟨e, front⟩
    · obtain ⟨rfl, -⟩ := List.cons.inj hu
      exact absurd hd hstop
    · simp only [List.cons_append, List.cons.injEq] at hu
      obtain ⟨rfl, hu⟩ := hu
      exact (Text.escapes_cons hc front).2 (h front d behind hu hd)

theorem plain_pair {q : Char} (hq : q ≠ '\\') (c : Char) (u : Text) :
    Plain q ('\\' :: c :: u) ↔ Plain q u := by
  constructor
  · intro h front d behind hu hd
    have hfront := h ('\\' :: c :: front) d behind (by rw [hu, List.cons_append, List.cons_append]) hd
    rwa [Text.escapes_pair] at hfront
  · intro h front d behind hu hd
    rcases front with _ | ⟨e, _ | ⟨e', front⟩⟩
    · obtain ⟨rfl, -⟩ := List.cons.inj hu
      rcases hd with hd | hd
      · exact absurd hd.symm hq
      · simp [isLineBreak] at hd
    · obtain ⟨rfl, -⟩ := List.cons.inj hu
      decide
    · simp only [List.cons_append, List.cons.injEq] at hu
      obtain ⟨rfl, rfl, hu⟩ := hu
      exact (Text.escapes_pair _ _).2 (h front d behind hu hd)

/-- What the body of a string takes is plain, and escapes nothing behind it. -/
theorem bodyOf_plain {q : Char} (hq : q ≠ '\\') (s : Text) :
    Plain q (bodyOf q s).1 ∧ ¬Text.Escapes (bodyOf q s).1 := by
  fun_induction bodyOf q s with
  | case1 | case2 | case4 => exact ⟨plain_nil q, Text.not_escapes_nil⟩
  | case3 c s ih => rwa [plain_pair hq, Text.escapes_pair]
  | case5 c s hlast hpair hc ih =>
    have hne := ne_backslash hlast hpair
    rw [plain_cons hne, Text.escapes_cons hne]
    exact ⟨⟨by simpa using hc, ih.1⟩, ih.2⟩

/-- The body of a string goes on over plain text that escapes nothing behind it. -/
theorem bodyOf_append {q : Char} {u : Text} (hq : q ≠ '\\') (h : Plain q u)
    (he : ¬Text.Escapes u) (r : Text) :
    bodyOf q (u ++ r) = (u ++ (bodyOf q r).1, (bodyOf q r).2) := by
  fun_induction bodyOf q u with
  | case1 => rfl
  | case2 => exact absurd (by decide) he
  | case3 c u ih =>
    rw [plain_pair hq] at h
    rw [Text.escapes_pair] at he
    rw [List.cons_append, List.cons_append, bodyOf, ih h he]
    rfl
  | case4 c u hlast hpair hc =>
    rw [plain_cons (ne_backslash hlast hpair)] at h
    exact absurd (by simpa using hc) h.1
  | case5 c u hlast hpair hc ih =>
    have hne := ne_backslash hlast hpair
    rw [plain_cons hne] at h
    rw [Text.escapes_cons hne] at he
    rw [List.cons_append, bodyOf_cons hne, if_neg hc, ih h.2 he]
    rfl

/-- **A string ends where its text says.** What the reader takes behind the quote, whether
it meets the closing quote, and what it leaves are determined by that. -/
theorem ends_iff {q : Char} (hq : isQuote q = true) {s taken rest : Text} {closed : Bool} :
    Ends q s taken closed rest ↔
      (read q s).text = q :: taken ∧ (read q s).closed = closed ∧ (read q s).rest = rest := by
  have hne : q ≠ '\\' := by
    rintro rfl
    simp [isQuote] at hq
  constructor
  · intro h
    -- the body takes all that is plain, and stops at what comes behind it
    cases h with
    | @quote u _ hp he =>
      have hbody := bodyOf_append hne hp he (q :: rest)
      rw [bodyOf_cons hne, if_pos (by simp)] at hbody
      simp [read, hbody, text]
    | @lineBreak u r c hp he hc =>
      have hback : c ≠ '\\' := by
        rintro rfl
        simp [isLineBreak] at hc
      have hcq : c ≠ q := by
        rintro rfl
        exact absurd hq (by rw [isLineBreak_not_quote hc]; simp)
      have hbody := bodyOf_append hne hp he (c :: r)
      rw [bodyOf_cons hback, if_pos (by simp [hc])] at hbody
      simp [read, hbody, text, hcq]
    | finish hp he =>
      have hbody := bodyOf_append hne hp he []
      rw [List.append_nil] at hbody
      simp [read, hbody, text, bodyOf]
    | @backslash u hp he =>
      have hbody := bodyOf_append hne hp he ['\\']
      simp [read, hbody, text, bodyOf, hne.symm]
  · rintro ⟨htaken, rfl, rfl⟩
    obtain ⟨hp, he⟩ := bodyOf_plain hne s
    have hsplit := bodyOf_split q s
    have hrest := rest_of_bodyOf q s
    unfold read at htaken ⊢
    rcases hb : bodyOf q s with ⟨body, left⟩
    rw [hb] at hp he hsplit hrest htaken
    subst hsplit
    rcases hrest with rfl | rfl | ⟨c, r, rfl, hc⟩
    · obtain rfl : body = taken := by simpa [text] using htaken
      simpa using Ends.finish hp he
    · obtain rfl : body = taken := by simpa [text, hne.symm] using htaken
      simpa [hne.symm] using Ends.backslash hp he
    · by_cases hcq : c = q
      · subst hcq
        obtain rfl : body ++ [c] = taken := by simpa [text] using htaken
        simpa using Ends.quote (r := r) hp he
      · obtain rfl : body = taken := by simpa [text, hcq] using htaken
        simpa [hcq] using Ends.lineBreak (r := r) hp he (hc.resolve_left hcq)

/-- Every text behind a quote has an end of the string in it. -/
theorem exists_ends {q : Char} (hq : isQuote q = true) (s : Text) :
    ∃ taken, Ends q s taken (read q s).closed (read q s).rest ∧ (read q s).text = q :: taken := by
  have htext : (read q s).text = q :: ((read q s).text).tail := by
    rw [text, read_quote, List.cons_append, List.tail_cons]
  exact ⟨_, (ends_iff hq).2 ⟨htext, rfl, rfl⟩, htext⟩

end Quoted
end CssReader
