/-
# Lexemes

A lexeme is what one token, or one fault, takes from the front of a text. Which
lexeme it is depends on that text alone. The ways to begin a token are tried in
a fixed order, and at most one of them begins with any given character, except
that a hyphen may begin a number, a name or a closing mark and a `u` a range of
characters or a name; a character that begins nothing else is a token by itself.

Positions in a lexeme count from its first character.

Comments are no lexemes: they are taken away before a lexeme is read. The slash
of a comment that is never closed is a token by itself.

Key definitions: `Lexeme`, `Lexeme.readUrl`, `Lexeme.read`.
Key theorems: `Lexeme.read_split`, `Lexeme.read_eq_none`.
-/
import CssReader.Report
import CssReader.Lexis.Name
import CssReader.Lexis.Numeral
import CssReader.Lexis.Quoted

namespace CssReader

/-- What a token or a fault takes from the front of a text. -/
structure Lexeme where
  /-- The text taken. -/
  text : Text
  /-- The text left. -/
  rest : Text
  /-- The token it is, or what is wrong with it. -/
  result : Except Fault Token
  /-- What is tolerated in it. -/
  warnings : List Warning

namespace Lexeme

/-- A lexeme that is a token without mistakes. -/
def plain (token : Token) (text rest : Text) : Lexeme :=
  ⟨text, rest, .ok token, []⟩

/-! ### Productions -/

/-- A range of characters: `u`, a plus and a hexadecimal digit or a question
mark. The first two characters are taken. -/
def unicodeRange? : Text → Option Lexeme
  | u :: '+' :: c :: s =>
    if (u = 'u' || u = 'U') && (isHex c || c = '?') then
      some ⟨[u, '+'], c :: s, .error ⟨.unicodeRange, 0⟩, []⟩
    else none
  | _ => none

/-- The warning about a string that begins at `position`, if it is open. -/
def openString (position : Nat) (q : Quoted) : List Warning :=
  if q.closed then [] else [⟨.openString, position⟩]

/-- A string. -/
def string? : Text → Option Lexeme
  | [] => none
  | c :: s =>
    if isQuote c then
      let q := Quoted.read c s
      some ⟨q.text, q.rest, .ok (.string q.text), openString 0 q⟩
    else none

/-- The tokens that are one character of their own. -/
def markOf? (c : Char) : Option Token :=
  [.opening .round, .closing .round, .comma, .colon, .semicolon, .opening .square,
    .closing .square, .opening .curly, .closing .curly].find? fun t => t.text = [c]

/-- A bracket, a comma, a colon or a semicolon. -/
def mark? : Text → Option Lexeme
  | [] => none
  | c :: s => (markOf? c).map fun t => plain t [c] s

/-- All blanks up to the next character that is none. -/
def whitespace? (s : Text) : Option Lexeme :=
  let blanks := s.takeWhile isBlank
  if blanks.isEmpty then none else some (plain .whitespace blanks (s.dropWhile isBlank))

/-- A hash sign and what may follow it. -/
def hash? : Text → Option Lexeme
  | '#' :: s => (hashName? s).map fun (name, r) => plain (.hash ('#' :: name)) ('#' :: name) r
  | _ => none

/-- An at sign and a name. -/
def atKeyword? : Text → Option Lexeme
  | '@' :: s => (name? s).map fun (name, r) => plain (.atKeyword name) ('@' :: name) r
  | _ => none

/-- A numeral with a percent sign, a unit, or nothing behind it. -/
def numeric? (s : Text) : Option Lexeme :=
  (Numeral.read? s).map fun (n, r) => match r with
    | '%' :: r' => plain (.percentage (n.text ++ ['%'])) (n.text ++ ['%']) r'
    | _ => match name? r with
      | some (unit, r') => plain (.dimension (n.text ++ unit)) (n.text ++ unit) r'
      | none => plain (.number n.text) n.text r

/-- The end of a url: `text` is what has been taken of it, blanks included. It
has to be closed here, unless the text ends. -/
def endUrl (text rest : Text) (warnings : List Warning) : Lexeme :=
  match rest with
  | [] => ⟨text, [], .ok (.url text), warnings ++ [⟨.openUrl, text.size⟩]⟩
  | c :: r =>
    if c = ')' then ⟨text ++ [c], r, .ok (.url (text ++ [c])), warnings⟩
    else ⟨text, c :: r, .error ⟨.malformedUrl, text.size⟩, warnings⟩

/-- A character that may stand in a url without quotes. -/
def isUrlChar (c : Char) : Bool :=
  !(c = ')' || isBlank c || isQuote c || c = '\\')

/-- A url whose target has no quotes: `text` is what has been taken of it. A
quote or a backslash in the target is a fault, and is taken. -/
def readBareUrl (text rest : Text) : Lexeme :=
  let text := text ++ rest.takeWhile isUrlChar
  match rest.dropWhile isUrlChar with
  | [] => endUrl text [] []
  | c :: r =>
    if isQuote c then ⟨text ++ [c], r, .error ⟨.urlQuote, text.size⟩, []⟩
    else if c = '\\' then ⟨text ++ [c], r, .error ⟨.urlEscape, text.size⟩, []⟩
    else endUrl (text ++ (c :: r).takeWhile isBlank) ((c :: r).dropWhile isBlank) []

/-- A url whose name and opening parenthesis, `text`, have been taken. -/
def readUrl (text rest : Text) : Lexeme :=
  let text := text ++ rest.takeWhile isBlank
  match rest.dropWhile isBlank with
  | [] => endUrl text [] []
  | c :: r =>
    if isQuote c then
      let q := Quoted.read c r
      endUrl (text ++ q.text ++ q.rest.takeWhile isBlank) (q.rest.dropWhile isBlank)
        (openString text.size q)
    else readBareUrl text (c :: r)

/-- Whether a name is `url` in any mixture of cases. -/
def isUrlName (name : Text) : Bool :=
  name.map Char.toLower = ['u', 'r', 'l']

/-- A name, a function or a url. -/
def identLike? (s : Text) : Option Lexeme :=
  (name? s).map fun (name, r) => match r with
    | '(' :: r' =>
      if isUrlName name then readUrl (name ++ ['(']) r'
      else plain (.function name (name ++ ['('])) (name ++ ['(']) r'
    | _ => plain (.ident name) name r

/-- A comparison of an attribute with a value. -/
def attrMatch? : Text → Option Lexeme
  | c :: '=' :: s => (AttrMatch.ofSign? c).map fun m => plain (.attrMatch m) [c, '='] s
  | _ => none

/-- The mark that opens a comment of a surrounding document. -/
def cdo? : Text → Option Lexeme
  | '<' :: '!' :: '-' :: '-' :: s => some (plain .cdo Token.cdo.text s)
  | _ => none

/-- The mark that closes a comment of a surrounding document. -/
def cdc? : Text → Option Lexeme
  | '-' :: '-' :: '>' :: s => some (plain .cdc Token.cdc.text s)
  | _ => none

/-- Any character at all. -/
def delim? : Text → Option Lexeme
  | [] => none
  | c :: s => some (plain (.delim c) [c] s)

/-- The ways to begin a token, in the order in which they are tried. -/
def productions : List (Text → Option Lexeme) :=
  [unicodeRange?, string?, mark?, whitespace?, hash?, atKeyword?, numeric?, identLike?,
    attrMatch?, cdo?, cdc?, delim?]

/-- The lexeme at the front of a text; there is none only at its end. -/
def read (s : Text) : Option Lexeme :=
  productions.findSome? fun p => p s

/-! ### Nothing is lost -/

/-- A production splits a text into a non-empty lexeme and the rest. -/
def Splits (p : Text → Option Lexeme) : Prop :=
  ∀ {s : Text} {l : Lexeme}, p s = some l → l.text ++ l.rest = s ∧ l.text ≠ []

theorem unicodeRange?_splits : Splits unicodeRange? := by
  intro s l h
  unfold unicodeRange? at h
  split at h
  · split at h <;> cases h
    simp
  · simp at h

theorem string?_splits : Splits string? := by
  intro s l h
  unfold string? at h
  split at h
  · simp at h
  · split at h <;> cases h
    exact ⟨Quoted.read_split _ _, Quoted.text_ne_nil _⟩

theorem mark?_splits : Splits mark? := by
  intro s l h
  unfold mark? at h
  split at h
  · simp at h
  · obtain ⟨t, -, rfl⟩ := Option.map_eq_some_iff.1 h
    simp [plain]

theorem whitespace?_splits : Splits whitespace? := by
  intro s l h
  simp only [whitespace?] at h
  split at h
  · simp at h
  · rename_i hne
    cases h
    simpa [plain, List.takeWhile_append_dropWhile] using hne

theorem hash?_splits : Splits hash? := by
  intro s l h
  unfold hash? at h
  split at h
  · obtain ⟨⟨name, r⟩, hn, rfl⟩ := Option.map_eq_some_iff.1 h
    simp [plain, (hashName?_split hn).1]
  · simp at h

theorem atKeyword?_splits : Splits atKeyword? := by
  intro s l h
  unfold atKeyword? at h
  split at h
  · obtain ⟨⟨name, r⟩, hn, rfl⟩ := Option.map_eq_some_iff.1 h
    simp [plain, (name?_split hn).1]
  · simp at h

theorem numeric?_splits : Splits numeric? := by
  intro s l h
  obtain ⟨⟨n, r⟩, hn, rfl⟩ := Option.map_eq_some_iff.1 h
  obtain ⟨hs, hne⟩ := Numeral.read?_split hn
  dsimp only
  split
  · simp [plain, ← hs]
  · split
    · rename_i unit r' hu
      have hu' := name?_split hu
      simp [plain, ← hs, ← hu'.1, hu'.2]
    · simp [plain, hs, hne]

theorem endUrl_split {text rest s : Text} (ws : List Warning) (hs : text ++ rest = s)
    (h : text ≠ []) :
    (endUrl text rest ws).text ++ (endUrl text rest ws).rest = s ∧
      (endUrl text rest ws).text ≠ [] := by
  unfold endUrl
  split
  · simp_all
  · split <;> simp_all

theorem readBareUrl_split {text rest s : Text} (hs : text ++ rest = s) (h : text ≠ []) :
    (readBareUrl text rest).text ++ (readBareUrl text rest).rest = s ∧
      (readBareUrl text rest).text ≠ [] := by
  have hr := List.takeWhile_append_dropWhile (p := isUrlChar) (l := rest)
  unfold readBareUrl
  dsimp only
  generalize rest.takeWhile isUrlChar = taken at *
  generalize rest.dropWhile isUrlChar = left at *
  subst hr hs
  split
  · exact endUrl_split _ (by simp) (by simp [h])
  · split
    · simp
    · split
      · simp
      · refine endUrl_split _ ?_ (by simp [h])
        rw [List.append_assoc, List.takeWhile_append_dropWhile, List.append_assoc]

theorem readUrl_split {text rest s : Text} (hs : text ++ rest = s) (h : text ≠ []) :
    (readUrl text rest).text ++ (readUrl text rest).rest = s ∧ (readUrl text rest).text ≠ [] := by
  have hr := List.takeWhile_append_dropWhile (p := isBlank) (l := rest)
  unfold readUrl
  dsimp only
  generalize rest.takeWhile isBlank = taken at *
  generalize rest.dropWhile isBlank = left at *
  subst hr hs
  split
  · exact endUrl_split _ (by simp) (by simp [h])
  · rename_i c r
    split
    · refine endUrl_split _ ?_ (by simp [h])
      rw [List.append_assoc, List.takeWhile_append_dropWhile, List.append_assoc,
        Quoted.read_split, List.append_assoc]
    · exact readBareUrl_split (by simp) (by simp [h])

theorem identLike?_splits : Splits identLike? := by
  intro s l h
  obtain ⟨⟨name, r⟩, hn, rfl⟩ := Option.map_eq_some_iff.1 h
  obtain ⟨hs, hne⟩ := name?_split hn
  dsimp only
  split
  · split
    · exact readUrl_split (by simp [← hs]) (by simp)
    · simp [plain, ← hs]
  · simp [plain, hs, hne]

theorem attrMatch?_splits : Splits attrMatch? := by
  intro s l h
  unfold attrMatch? at h
  split at h
  · obtain ⟨m, -, rfl⟩ := Option.map_eq_some_iff.1 h
    simp [plain]
  · simp at h

theorem cdo?_splits : Splits cdo? := by
  intro s l h
  unfold cdo? at h
  split at h <;> cases h
  simp [plain, Token.text]

theorem cdc?_splits : Splits cdc? := by
  intro s l h
  unfold cdc? at h
  split at h <;> cases h
  simp [plain, Token.text]

theorem delim?_splits : Splits delim? := by
  intro s l h
  unfold delim? at h
  split at h <;> cases h
  simp [plain]

/-- **A lexeme takes a non-empty beginning of the text.** -/
theorem read_split {s : Text} {l : Lexeme} (h : read s = some l) :
    l.text ++ l.rest = s ∧ l.text ≠ [] := by
  obtain ⟨p, hp, h⟩ := List.exists_of_findSome?_eq_some h
  simp only [productions, List.mem_cons, List.not_mem_nil, or_false] at hp
  rcases hp with rfl | rfl | rfl | rfl | rfl | rfl | rfl | rfl | rfl | rfl | rfl | rfl
  · exact unicodeRange?_splits h
  · exact string?_splits h
  · exact mark?_splits h
  · exact whitespace?_splits h
  · exact hash?_splits h
  · exact atKeyword?_splits h
  · exact numeric?_splits h
  · exact identLike?_splits h
  · exact attrMatch?_splits h
  · exact cdo?_splits h
  · exact cdc?_splits h
  · exact delim?_splits h

/-- There is a lexeme at the front of every text that is not empty. -/
theorem read_eq_none {s : Text} : read s = none ↔ s = [] := by
  constructor
  · intro h
    cases s with
    | nil => rfl
    | cons c s =>
      have := List.findSome?_eq_none_iff.1 h delim? (by simp [productions])
      simp [delim?] at this
  · rintro rfl
    decide

end Lexeme
end CssReader
