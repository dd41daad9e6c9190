/-
# A lexeme shows its token

What a token takes from a text is the text of the token, and nothing else.
Blanks are the exception: their token is written as one space, and takes all
blanks up to the next character that is none.

Each production is shown to do so on its own, the ends of a url first.

Functions and malformed urls begin with a name and a parenthesis, and a malformed
url ends in front of the character that is wrong.

Key definitions: `Token.ShownBy`, `Lexeme.Shows`, `Lexeme.NamesFunction`, `Lexeme.LeavesUrl`.
Key theorems: `Lexeme.read_shows`, `Lexeme.read_namesFunction`, `Lexeme.read_leavesUrl`.
-/
import Mathlib.Data.List.TakeWhile
import CssReader.Lexeme

namespace CssReader

/-- The span that a token takes from a text, with `after` behind it: the text of
the token, or all the blanks there are. -/
def Token.ShownBy (t : Token) (span after : Text) : Prop :=
  if t = .whitespace then
    span ≠ [] ∧ (∀ c ∈ span, isBlank c) ∧ ∀ c ∈ after.head?, isBlank c = false
  else span = t.text

namespace Lexeme

/-- The lexeme, if it is a token, shows it. -/
def Shows (l : Lexeme) : Prop :=
  ∀ t, l.result = .ok t → t.ShownBy l.text l.rest

theorem shows_plain {t : Token} {text rest : Text} (ht : t ≠ .whitespace) (h : text = t.text) :
    (plain t text rest).Shows := by
  rintro _ ⟨rfl⟩
  rw [Token.ShownBy, if_neg ht]
  exact h

theorem shows_of_error {text rest : Text} {f : Fault} {ws : List Warning} :
    Shows ⟨text, rest, .error f, ws⟩ := by
  rintro _ ⟨⟩

/-- The head of what `dropWhile` leaves is not of the class dropped. -/
theorem head?_dropWhile_false {p : Char → Bool} {s : Text} {c : Char}
    (h : c ∈ (s.dropWhile p).head?) : p c = false := by
  have := List.head?_dropWhile_not p s
  rw [Option.mem_def.1 h] at this
  simpa using this

theorem unicodeRange?_shows {s : Text} {l : Lexeme} (h : unicodeRange? s = some l) : l.Shows := by
  unfold unicodeRange? at h
  split at h
  · split at h <;> cases h
    exact shows_of_error
  · simp at h

theorem string?_shows {s : Text} {l : Lexeme} (h : string? s = some l) : l.Shows := by
  unfold string? at h
  split at h
  · simp at h
  · split at h <;> cases h
    rintro _ ⟨rfl⟩
    simp [Token.ShownBy, Token.text]

theorem markOf?_text {c : Char} {t : Token} (h : markOf? c = some t) :
    t ≠ .whitespace ∧ t.text = [c] := by
  have hc := List.find?_some h
  have hm := List.mem_of_find?_eq_some h
  refine ⟨?_, by simpa using hc⟩
  rintro rfl
  simp at hm

theorem mark?_shows {s : Text} {l : Lexeme} (h : mark? s = some l) : l.Shows := by
  unfold mark? at h
  split at h
  · simp at h
  · obtain ⟨t, ht, rfl⟩ := Option.map_eq_some_iff.1 h
    exact shows_plain (markOf?_text ht).1 (markOf?_text ht).2.symm

theorem whitespace?_shows {s : Text} {l : Lexeme} (h : whitespace? s = some l) : l.Shows := by
  simp only [whitespace?] at h
  split at h
  · simp at h
  · rename_i hne
    cases h
    rintro _ ⟨rfl⟩
    refine ⟨by simpa [plain] using hne, fun c hc => List.mem_takeWhile_imp hc, fun c hc => ?_⟩
    exact head?_dropWhile_false hc

theorem hash?_shows {s : Text} {l : Lexeme} (h : hash? s = some l) : l.Shows := by
  unfold hash? at h
  split at h
  · obtain ⟨⟨name, r⟩, -, rfl⟩ := Option.map_eq_some_iff.1 h
    exact shows_plain (by simp) rfl
  · simp at h

theorem atKeyword?_shows {s : Text} {l : Lexeme} (h : atKeyword? s = some l) : l.Shows := by
  unfold atKeyword? at h
  split at h
  · obtain ⟨⟨name, r⟩, -, rfl⟩ := Option.map_eq_some_iff.1 h
    exact shows_plain (by simp) rfl
  · simp at h

theorem numeric?_shows {s : Text} {l : Lexeme} (h : numeric? s = some l) : l.Shows := by
  obtain ⟨⟨n, r⟩, -, rfl⟩ := Option.map_eq_some_iff.1 h
  dsimp only
  split
  · exact shows_plain (by simp) rfl
  · split <;> exact shows_plain (by simp) rfl

theorem endUrl_shows (text rest : Text) (ws : List Warning) : (endUrl text rest ws).Shows := by
  unfold endUrl
  split
  · rintro _ ⟨rfl⟩
    simp [Token.ShownBy, Token.text]
  · split
    · rintro _ ⟨rfl⟩
      simp [Token.ShownBy, Token.text]
    · exact shows_of_error

theorem readBareUrl_shows (text rest : Text) : (readBareUrl text rest).Shows := by
  unfold readBareUrl
  dsimp only
  split
  · exact endUrl_shows _ _ _
  · split
    · exact shows_of_error
    · split
      · exact shows_of_error
      · exact endUrl_shows _ _ _

theorem readUrl_shows (text rest : Text) : (readUrl text rest).Shows := by
  unfold readUrl
  dsimp only
  split
  · exact endUrl_shows _ _ _
  · split
    · exact endUrl_shows _ _ _
    · exact readBareUrl_shows _ _

theorem identLike?_shows {s : Text} {l : Lexeme} (h : identLike? s = some l) : l.Shows := by
  obtain ⟨⟨name, r⟩, -, rfl⟩ := Option.map_eq_some_iff.1 h
  dsimp only
  split
  · split
    · exact readUrl_shows _ _
    · exact shows_plain (by simp) rfl
  · exact shows_plain (by simp) rfl

theorem attrMatch?_shows {s : Text} {l : Lexeme} (h : attrMatch? s = some l) : l.Shows := by
  unfold attrMatch? at h
  split at h
  · obtain ⟨m, hm, rfl⟩ := Option.map_eq_some_iff.1 h
    have hc := List.find?_some hm
    simp only [decide_eq_true_eq] at hc
    exact shows_plain (by simp) (by simp [Token.text, hc])
  · simp at h

theorem cdo?_shows {s : Text} {l : Lexeme} (h : cdo? s = some l) : l.Shows := by
  unfold cdo? at h
  split at h <;> cases h
  exact shows_plain (by simp) rfl

theorem cdc?_shows {s : Text} {l : Lexeme} (h : cdc? s = some l) : l.Shows := by
  unfold cdc? at h
  split at h <;> cases h
  exact shows_plain (by simp) rfl

theorem delim?_shows {s : Text} {l : Lexeme} (h : delim? s = some l) : l.Shows := by
  unfold delim? at h
  split at h <;> cases h
  exact shows_plain (by simp) rfl

/-- **Every token is shown by the lexeme that it is.** -/
theorem read_shows {s : Text} {l : Lexeme} (h : read s = some l) : l.Shows := by
  obtain ⟨p, hp, h⟩ := List.exists_of_findSome?_eq_some h
  simp only [productions, List.mem_cons, List.not_mem_nil, or_false] at hp
  rcases hp with rfl | rfl | rfl | rfl | rfl | rfl | rfl | rfl | rfl | rfl | rfl | rfl
  · exact unicodeRange?_shows h
  · exact string?_shows h
  · exact mark?_shows h
  · exact whitespace?_shows h
  · exact hash?_shows h
  · exact atKeyword?_shows h
  · exact numeric?_shows h
  · exact identLike?_shows h
  · exact attrMatch?_shows h
  · exact cdo?_shows h
  · exact cdc?_shows h
  · exact delim?_shows h

/-! ### Names, functions and urls -/

/-- The lexeme, if it opens a function, is a name and a parenthesis. -/
def NamesFunction (l : Lexeme) : Prop :=
  ∀ name text, l.result = .ok (.function name text) → text = name ++ ['(']

/-- The lexeme, if it is a malformed url, has a parenthesis in it and leaves what
is wrong. -/
def LeavesUrl (l : Lexeme) : Prop :=
  ∀ f, l.result = .error f → f.isRecoverable = true → '(' ∈ l.text ∧ l.rest ≠ []

/-- The lexeme is a token without mistakes, and opens no function. -/
def IsOther (l : Lexeme) : Prop :=
  ∃ t, l = plain t l.text l.rest ∧ ∀ name text, t ≠ .function name text

theorem isOther_plain {t : Token} {text rest : Text} (h : ∀ name text, t ≠ .function name text) :
    (plain t text rest).IsOther := ⟨t, rfl, h⟩

theorem mark?_isOther {s : Text} {l : Lexeme} (h : mark? s = some l) : l.IsOther := by
  unfold mark? at h
  split at h
  · simp at h
  · obtain ⟨t, ht, rfl⟩ := Option.map_eq_some_iff.1 h
    refine isOther_plain fun name text hf => ?_
    have hm := List.mem_of_find?_eq_some ht
    simp [hf] at hm

theorem numeric?_isOther {s : Text} {l : Lexeme} (h : numeric? s = some l) : l.IsOther := by
  obtain ⟨⟨n, r⟩, -, rfl⟩ := Option.map_eq_some_iff.1 h
  dsimp only
  split
  · exact isOther_plain (by simp)
  · split <;> exact isOther_plain (by simp)

/-- Names, strings and ranges of characters apart, a lexeme is a token without mistakes. -/
theorem read_cases {s : Text} {l : Lexeme} (h : read s = some l) :
    identLike? s = some l ∨ string? s = some l ∨ unicodeRange? s = some l ∨ l.IsOther := by
  obtain ⟨p, hp, h⟩ := List.exists_of_findSome?_eq_some h
  simp only [productions, List.mem_cons, List.not_mem_nil, or_false] at hp
  rcases hp with rfl | rfl | rfl | rfl | rfl | rfl | rfl | rfl | rfl | rfl | rfl | rfl
  · exact .inr (.inr (.inl h))
  · exact .inr (.inl h)
  · exact .inr (.inr (.inr (mark?_isOther h)))
  · simp only [whitespace?] at h
    split at h <;> cases h
    exact .inr (.inr (.inr (isOther_plain (by simp))))
  · unfold hash? at h
    split at h
    · obtain ⟨_, -, rfl⟩ := Option.map_eq_some_iff.1 h
      exact .inr (.inr (.inr (isOther_plain (by simp))))
    · simp at h
  · unfold atKeyword? at h
    split at h
    · obtain ⟨_, -, rfl⟩ := Option.map_eq_some_iff.1 h
      exact .inr (.inr (.inr (isOther_plain (by simp))))
    · simp at h
  · exact .inr (.inr (.inr (numeric?_isOther h)))
  · exact .inl h
  · unfold attrMatch? at h
    split at h
    · obtain ⟨_, -, rfl⟩ := Option.map_eq_some_iff.1 h
      exact .inr (.inr (.inr (isOther_plain (by simp))))
    · simp at h
  · unfold cdo? at h
    split at h <;> cases h
    exact .inr (.inr (.inr (isOther_plain (by simp))))
  · unfold cdc? at h
    split at h <;> cases h
    exact .inr (.inr (.inr (isOther_plain (by simp))))
  · unfold delim? at h
    split at h <;> cases h
    exact .inr (.inr (.inr (isOther_plain (by simp))))

/-- A string is the text that it takes. -/
theorem string?_eq_some {s : Text} {l : Lexeme} (h : string? s = some l) :
    ∃ c r, s = c :: r ∧ isQuote c = true ∧ l = ⟨(Quoted.read c r).text, (Quoted.read c r).rest,
      .ok (.string (Quoted.read c r).text), openString 0 (Quoted.read c r)⟩ := by
  unfold string? at h
  split at h
  · simp at h
  · rename_i c r
    by_cases hc : isQuote c = true
    · rw [if_pos hc] at h
      exact ⟨c, r, rfl, hc, (Option.some.inj h).symm⟩
    · rw [if_neg hc] at h
      simp at h

/-- Whether the characters in front of a plus and behind it begin a range. -/
def beginsRange (u c : Char) : Bool := (u = 'u' || u = 'U') && (isHex c || c = '?')

/-- A range of characters is a fault at its first character. The character behind the
plus, which makes it a range, is not taken. -/
theorem unicodeRange?_eq_some {s : Text} {l : Lexeme} (h : unicodeRange? s = some l) :
    ∃ u c t, s = u :: '+' :: c :: t ∧ beginsRange u c = true ∧
      l = ⟨[u, '+'], c :: t, .error ⟨.unicodeRange, 0⟩, []⟩ := by
  unfold unicodeRange? at h
  split at h
  · rename_i u c t
    by_cases hc : beginsRange u c = true
    · exact ⟨u, c, t, rfl, hc, Option.some.inj (h.symm.trans (if_pos hc))⟩
    · exact absurd ((if_neg hc).symm.trans h) (by simp)
  · simp at h

/-- A range begins with a letter of one byte. -/
theorem utf8Size_of_beginsRange {u c : Char} (h : beginsRange u c = true) : u.utf8Size = 1 := by
  rw [beginsRange, Bool.and_eq_true, Bool.or_eq_true, decide_eq_true_eq, decide_eq_true_eq] at h
  rcases h.1 with rfl | rfl <;> rfl

theorem endUrl_shape {text rest : Text} {ws : List Warning} (h : '(' ∈ text) :
    (endUrl text rest ws).NamesFunction ∧ (endUrl text rest ws).LeavesUrl := by
  unfold endUrl NamesFunction LeavesUrl
  split
  · simp
  · split <;> simp [h]

theorem readBareUrl_shape {text rest : Text} (h : '(' ∈ text) :
    (readBareUrl text rest).NamesFunction ∧ (readBareUrl text rest).LeavesUrl := by
  unfold readBareUrl
  dsimp only
  split
  · exact endUrl_shape (List.mem_append_left _ h)
  · split
    · simp [NamesFunction, LeavesUrl, Fault.isRecoverable]
    · split
      · simp [NamesFunction, LeavesUrl, Fault.isRecoverable]
      · exact endUrl_shape (List.mem_append_left _ (List.mem_append_left _ h))

theorem readUrl_shape {text rest : Text} (h : '(' ∈ text) :
    (readUrl text rest).NamesFunction ∧ (readUrl text rest).LeavesUrl := by
  have htaken : '(' ∈ text ++ rest.takeWhile isBlank := List.mem_append_left _ h
  unfold readUrl
  dsimp only
  split
  · exact endUrl_shape htaken
  · split
    · exact endUrl_shape (List.mem_append_left _ (List.mem_append_left _ htaken))
    · exact readBareUrl_shape htaken

theorem identLike?_shape {s : Text} {l : Lexeme} (h : identLike? s = some l) :
    l.NamesFunction ∧ l.LeavesUrl := by
  obtain ⟨⟨name, r⟩, -, rfl⟩ := Option.map_eq_some_iff.1 h
  dsimp only
  split
  · split
    · exact readUrl_shape (by simp)
    · simp [NamesFunction, LeavesUrl, plain]
  · simp [NamesFunction, LeavesUrl, plain]

/-- **What opens a function is its name and a parenthesis.** -/
theorem read_namesFunction {s : Text} {l : Lexeme} (h : read s = some l) : l.NamesFunction := by
  rcases read_cases h with h | h | h | ⟨t, ht, hf⟩
  · exact (identLike?_shape h).1
  · obtain ⟨c, r, -, -, rfl⟩ := string?_eq_some h
    simp [NamesFunction]
  · obtain ⟨u, c, t, -, -, rfl⟩ := unicodeRange?_eq_some h
    simp [NamesFunction]
  · intro name text heq
    rw [ht] at heq
    exact absurd (Except.ok.inj heq) (hf name text)

/-- **A malformed url leaves what is wrong with it.** -/
theorem read_leavesUrl {s : Text} {l : Lexeme} (h : read s = some l) : l.LeavesUrl := by
  rcases read_cases h with h | h | h | ⟨t, ht, -⟩
  · exact (identLike?_shape h).2
  · obtain ⟨c, r, -, -, rfl⟩ := string?_eq_some h
    simp [LeavesUrl]
  · obtain ⟨u, c, t, -, -, rfl⟩ := unicodeRange?_eq_some h
    simp [LeavesUrl, Fault.isRecoverable]
  · rw [ht]
    simp [LeavesUrl, plain]

end Lexeme
end CssReader
