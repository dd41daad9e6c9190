/-
# Lexemes of a text with other characters outside ASCII

The lexeme at the front of the image of a text is the image of the lexeme at the
front of the text: its text, what it leaves, the texts in its token, and its faults
and warnings, at the characters in the image that are in their place.

A position is a number of bytes, and the image of a character may have more of them
or fewer; `Text.recodedAt` finds the character again.

Key definitions: `Text.recodedAt`, `Token.recode`, `Lexeme.recode`.
Key theorems: `Text.recodedAt_append`, `Lexeme.isUrlName_ascii`, `Recoding.read`,
`Recoding.read_run`.
-/
import Mathlib.Data.List.Basic
import CssReader.Proofs.Lexis.Recode
import CssReader.Proofs.Lexeme.Swap

namespace CssReader

/-! ### Images -/

/-- The byte of the image at which the character is that is at byte `n` of the text. -/
def Text.recodedAt (f : Char → Char) : Text → Nat → Nat
  | [], _ => 0
  | c :: s, n => if c.utf8Size ≤ n then (f c).utf8Size + recodedAt f s (n - c.utf8Size) else 0

namespace Text

variable {f : Char → Char}

@[simp] theorem recodedAt_zero (s : Text) : recodedAt f s 0 = 0 := by
  cases s with
  | nil => rfl
  | cons c s =>
    have hc := c.utf8Size_pos
    exact if_neg (by omega)

/-- Behind a text the image of that text is in front. -/
theorem recodedAt_append (s t : Text) (n : Nat) :
    recodedAt f (s ++ t) (size s + n) = size (s.map f) + recodedAt f t n := by
  induction s with
  | nil => simp
  | cons c s ih =>
    have hle : c.utf8Size ≤ size (c :: s) + n := by rw [size_cons]; omega
    have hsub : size (c :: s) + n - c.utf8Size = size s + n := by rw [size_cons]; omega
    rw [List.cons_append, recodedAt, if_pos hle, hsub, ih, List.map_cons, size_cons, Nat.add_assoc]

@[simp] theorem recodedAt_size (s t : Text) : recodedAt f (s ++ t) (size s) = size (s.map f) := by
  have h := recodedAt_append (f := f) s t 0
  simpa using h

end Text

/-- The fault at the character that is in the place of its own. -/
def Fault.recode (f : Char → Char) (s : Text) (e : Fault) : Fault :=
  ⟨e.kind, Text.recodedAt f s e.position⟩

/-- The warning about the character that is in the place of its own. -/
def Warning.recode (f : Char → Char) (s : Text) (w : Warning) : Warning :=
  ⟨w.mistake, Text.recodedAt f s w.position⟩

/-- The image of a token. -/
def Token.recode (f : Char → Char) : Token → Token
  | ident value => ident (value.map f)
  | function name text => function (name.map f) (text.map f)
  | atKeyword value => atKeyword (value.map f)
  | hash value => hash (value.map f)
  | string value => string (value.map f)
  | url value => url (value.map f)
  | delim value => delim (f value)
  | number value => number (value.map f)
  | percentage value => percentage (value.map f)
  | dimension value => dimension (value.map f)
  | t => t

/-- The image of what was found in the text `s`: of a value by `g`, or a fault. -/
def Except.recode {α β : Type} (f : Char → Char) (s : Text) (g : α → β) :
    Except Fault α → Except Fault β
  | .ok a => .ok (g a)
  | .error e => .error (e.recode f s)

/-- The image of a lexeme; its positions are in the text that it begins. -/
def Lexeme.recode (f : Char → Char) (l : Lexeme) : Lexeme where
  text := l.text.map f
  rest := l.rest.map f
  result := Except.recode f (l.text ++ l.rest) (Token.recode f) l.result
  warnings := l.warnings.map (Warning.recode f (l.text ++ l.rest))

theorem Fault.isRecoverable_recode (f : Char → Char) (s : Text) (e : Fault) :
    (e.recode f s).isRecoverable = e.isRecoverable := rfl

namespace Recoding

open Lexeme

variable {f : Char → Char}

/-! ### Urls -/

theorem endUrl (h : Recoding f) (text rest : Text) (ws : List Warning) :
    endUrl (text.map f) (rest.map f) (ws.map (Warning.recode f (text ++ rest))) =
      (endUrl text rest ws).recode f := by
  rcases rest with _ | ⟨c, r⟩
  · have hend : Text.recodedAt f text (Text.size text) = Text.size (text.map f) := by
      have hsize := Text.recodedAt_size (f := f) text []
      rwa [List.append_nil] at hsize
    simp [Lexeme.endUrl, Lexeme.recode, Except.recode, Token.recode, Warning.recode, hend]
  · have hc : f c = ')' ↔ c = ')' := h.eq_iff (by decide) c
    by_cases hclose : c = ')'
    · simp [Lexeme.endUrl, Lexeme.recode, Except.recode, Token.recode, hclose,
        h.ascii ')' (by decide)]
    · have hclose' : f c ≠ ')' := mt hc.1 hclose
      simp [Lexeme.endUrl, Lexeme.recode, Except.recode, Fault.recode, hclose, hclose']

/-- The end of a url behind blanks. -/
theorem endUrl_blanks (h : Recoding f) (text rest : Text) {ws ws' : List Warning}
    (hws : ws' = ws.map (Warning.recode f (text ++ rest))) :
    Lexeme.endUrl (text.map f ++ (rest.map f).takeWhile isBlank) ((rest.map f).dropWhile isBlank)
        ws' =
      (Lexeme.endUrl (text ++ rest.takeWhile isBlank) (rest.dropWhile isBlank) ws).recode f := by
  obtain ⟨htake, hdrop⟩ := h.while_eq .isBlank rest
  have hall : text ++ rest.takeWhile isBlank ++ rest.dropWhile isBlank = text ++ rest := by
    rw [List.append_assoc, List.takeWhile_append_dropWhile]
  rw [htake, hdrop, ← List.map_append, hws, ← hall]
  exact h.endUrl _ _ _

theorem readBareUrl (h : Recoding f) (text rest : Text) :
    readBareUrl (text.map f) (rest.map f) = (readBareUrl text rest).recode f := by
  obtain ⟨htake, hdrop⟩ := h.while_eq .isUrlChar rest
  unfold Lexeme.readBareUrl
  dsimp only
  rw [htake, hdrop, ← List.map_append]
  generalize text ++ rest.takeWhile isUrlChar = taken
  rcases rest.dropWhile isUrlChar with _ | ⟨c, r⟩
  · exact h.endUrl taken [] []
  · have hquote : isQuote (f c) = isQuote c := congrFun (h.class_eq .isQuote) c
    have hback : f c = '\\' ↔ c = '\\' := h.eq_iff (by decide) c
    rw [List.map_cons]
    dsimp only
    by_cases hq : isQuote c = true
    · rw [if_pos (hquote.trans hq), if_pos hq]
      simp [Lexeme.recode, Except.recode, Fault.recode]
    · rw [if_neg (by rwa [hquote]), if_neg hq]
      by_cases hb : c = '\\'
      · rw [if_pos (hback.2 hb), if_pos hb]
        simp [Lexeme.recode, Except.recode, Fault.recode]
      · rw [if_neg (mt hback.1 hb), if_neg hb]
        exact h.endUrl_blanks taken (c :: r) rfl

/-- An open string is told of at the same character. -/
theorem openString_recode (taken : Text) (q : Quoted) :
    openString (Text.size (taken.map f)) (q.recode f) =
      (openString (Text.size taken) q).map (Warning.recode f (taken ++ (q.text ++ q.rest))) := by
  unfold openString
  cases hclosed : q.closed with
  | true => simp [Quoted.recode, hclosed]
  | false => simp [Quoted.recode, hclosed, Warning.recode]

theorem quotedUrlEnd (h : Recoding f) (taken : Text) (q : Quoted) :
    quotedUrlEnd (taken.map f) (q.recode f) = (quotedUrlEnd taken q).recode f := by
  have hopen := openString_recode (f := f) taken q
  rw [← List.append_assoc] at hopen
  have hend := h.endUrl_blanks (taken ++ q.text) q.rest hopen
  rw [List.map_append, ← Quoted.text_recode] at hend
  exact hend

theorem readUrl (h : Recoding f) (text rest : Text) :
    readUrl (text.map f) (rest.map f) = (readUrl text rest).recode f := by
  obtain ⟨htake, hdrop⟩ := h.while_eq .isBlank rest
  have hhead : ∀ c ∈ (rest.dropWhile isBlank).head?, isQuote (f c) = isQuote c := fun c _ =>
    congrFun (h.class_eq .isQuote) c
  rcases hr : rest.dropWhile isBlank with _ | ⟨c, r⟩
  · have hnone : ∀ c ∈ (rest.dropWhile isBlank).head?, isQuote c = false := by simp [hr]
    have hnone' : ∀ c ∈ ((rest.map f).dropWhile isBlank).head?, isQuote c = false := by
      simp [hdrop, hr]
    rw [readUrl_bare hnone, readUrl_bare hnone', htake, hdrop, ← List.map_append]
    exact h.readBareUrl _ _
  · have hr' : (rest.map f).dropWhile isBlank = f c :: r.map f := by rw [hdrop, hr, List.map_cons]
    have hquote : isQuote (f c) = isQuote c := congrFun (h.class_eq .isQuote) c
    by_cases hq : isQuote c = true
    · rw [readUrl_quote hr hq, readUrl_quote hr' (hquote.trans hq), htake, ← List.map_append]
      rw [h.ascii c (isQuote_ascii hq), h.quoted hq r]
      exact h.quotedUrlEnd _ _
    · have hbare : ∀ c ∈ (rest.dropWhile isBlank).head?, isQuote c = false := by
        simpa [hr] using hq
      have hbare' : ∀ c ∈ ((rest.map f).dropWhile isBlank).head?, isQuote c = false := by
        simpa [hr', hquote] using hq
      rw [readUrl_bare hbare, readUrl_bare hbare', htake, hdrop, ← List.map_append]
      exact h.readBareUrl _ _

end Recoding

/-! ### Names of urls -/

/-- A letter from `A` to `Z`. -/
def IsUpper (c : Char) : Prop := c.val ≥ 'A'.val ∧ c.val ≤ 'Z'.val

instance (c : Char) : Decidable (IsUpper c) := inferInstanceAs (Decidable (_ ∧ _))

theorem IsUpper.val_toLower {c : Char} (h : IsUpper c) :
    c.toLower.val = c.val + ('a'.val - 'A'.val) :=
  congrArg Char.val (dif_pos h : c.toLower = _)

/-- Nothing else has a lower case. -/
theorem toLower_of_not_isUpper {c : Char} (h : ¬IsUpper c) : c.toLower = c := dif_neg h

/-- A character that is an ASCII letter in lower case is an ASCII character. -/
theorem toNat_lt_of_toLower {c a : Char} (h : c.toLower = a) (ha : a.toNat < 128) :
    c.toNat < 128 := by
  by_cases hc : IsUpper c
  · exact Nat.lt_of_le_of_lt hc.2 (by decide)
  · rw [toLower_of_not_isUpper hc] at h
    rwa [h]

/-- **The name of a url is three ASCII characters.** -/
theorem Lexeme.isUrlName_ascii {name : Text} (h : isUrlName name = true) :
    (∃ u r l, name = [u, r, l]) ∧ ∀ c ∈ name, c.toNat < 128 := by
  rw [isUrlName, decide_eq_true_eq] at h
  refine ⟨?_, fun c hc => ?_⟩
  · have hlen := congrArg List.length h
    rw [List.length_map] at hlen
    exact List.length_eq_three.1 hlen
  · have hlow : c.toLower ∈ ['u', 'r', 'l'] := h ▸ List.mem_map_of_mem hc
    simp only [List.mem_cons, List.not_mem_nil, or_false] at hlow
    rcases hlow with hlow | hlow | hlow <;> exact toNat_lt_of_toLower hlow (by decide)

namespace Recoding

open Lexeme

variable {f : Char → Char}

theorem isUrlName_eq (h : Recoding f) (name : Text) : isUrlName (name.map f) = isUrlName name := by
  rw [Bool.eq_iff_iff]
  constructor
  · intro hn
    have happ : name.map f = name.map f ++ [] := (List.append_nil _).symm
    obtain ⟨t, hname, ht⟩ := h.map_eq_append (isUrlName_ascii hn).2 happ
    obtain rfl := List.map_eq_nil_iff.1 ht
    rw [List.append_nil] at hname
    rwa [hname]
  · intro hn
    rwa [h.map_ascii (isUrlName_ascii hn).2]

/-! ### Productions -/

/-- The production finds in the image of a text the image of what it finds in the text. -/
def Images (f : Char → Char) (p : Text → Option Lexeme) : Prop :=
  ∀ s, p (s.map f) = (p s).map (Lexeme.recode f)

theorem recode_plain (t : Token) (text rest : Text) :
    (plain t text rest).recode f = plain (t.recode f) (text.map f) (rest.map f) := rfl

theorem unicodeRange? (h : Recoding f) : Images f unicodeRange? := by
  intro s
  rcases s with _ | ⟨u, s⟩
  · rfl
  · by_cases hp : s.head? = some '+'
    · obtain ⟨s, rfl⟩ := List.head?_eq_some_iff.1 hp
      rw [List.map_cons, List.map_cons, h.ascii '+' (by decide)]
      rcases s with _ | ⟨c, s⟩
      · rfl
      · have hletter : (f u = 'u' || f u = 'U') = (u = 'u' || u = 'U') :=
          congrFun (h.class_eq ((IsBlind.one (by decide)).or (.one (by decide)))) u
        have hdigit : (isHex (f c) || f c = '?') = (isHex c || c = '?') :=
          congrFun (h.class_eq (IsBlind.isHex.or (.one (by decide)))) c
        have hbegins : beginsRange (f u) (f c) = beginsRange u c := by
          rw [beginsRange, hletter, hdigit, beginsRange]
        rw [List.map_cons, unicodeRange?_plus, unicodeRange?_plus, hbegins]
        by_cases hb : beginsRange u c = true
        · rw [if_pos hb, if_pos hb]
          simp [Lexeme.recode, Except.recode, Fault.recode, h.ascii '+' (by decide)]
        · rw [if_neg hb, if_neg hb]
          rfl
    · have hp' : (s.map f).head? ≠ some '+' := mt (h.head?_iff (by decide) s).1 hp
      rw [List.map_cons, unicodeRange?_other hp, unicodeRange?_other hp']
      rfl

theorem string? (h : Recoding f) : Images f string? := by
  intro s
  rcases s with _ | ⟨c, s⟩
  · rfl
  · have hquote : isQuote (f c) = isQuote c := congrFun (h.class_eq .isQuote) c
    rw [List.map_cons, Lexeme.string?, Lexeme.string?, hquote]
    by_cases hq : isQuote c = true
    · have hopen : openString 0 ((Quoted.read c s).recode f) =
          (openString 0 (Quoted.read c s)).map
            (Warning.recode f ((Quoted.read c s).text ++ (Quoted.read c s).rest)) :=
        openString_recode [] (Quoted.read c s)
      rw [if_pos hq, if_pos hq, h.ascii c (isQuote_ascii hq), h.quoted hq s]
      dsimp only
      rw [hopen, Quoted.text_recode]
      rfl
    · rw [if_neg hq, if_neg hq]
      rfl

/-- The marks are ASCII characters, and their tokens have no other ones. -/
theorem markOf?_ascii {c : Char} {t : Token} (h : markOf? c = some t) :
    c.toNat < 128 ∧ ∀ f : Char → Char, t.recode f = t := by
  have hmem := List.mem_of_find?_eq_some h
  have htext := List.find?_some h
  rw [decide_eq_true_eq] at htext
  simp only [List.mem_cons, List.not_mem_nil, or_false] at hmem
  rcases hmem with rfl | rfl | rfl | rfl | rfl | rfl | rfl | rfl | rfl <;>
    (cases htext; exact ⟨by decide, fun _ => rfl⟩)

theorem markOf?_eq (h : Recoding f) (c : Char) : markOf? (f c) = markOf? c := by
  rcases Nat.lt_or_ge c.toNat 128 with hc | hc
  · rw [h.ascii c hc]
  · have hnone : ∀ d : Char, 128 ≤ d.toNat → markOf? d = none := by
      intro d hd
      by_contra hsome
      obtain ⟨t, ht⟩ := Option.ne_none_iff_exists'.1 hsome
      have hlt := (markOf?_ascii ht).1
      omega
    rw [hnone c hc, hnone (f c) (h.other c hc)]

theorem mark? (h : Recoding f) : Images f mark? := by
  intro s
  rcases s with _ | ⟨c, s⟩
  · rfl
  · rw [List.map_cons, Lexeme.mark?, Lexeme.mark?, h.markOf?_eq c]
    rcases hm : markOf? c with _ | t
    · rfl
    · have ht := (markOf?_ascii hm).2 f
      simp [recode_plain, ht]

theorem whitespace? (h : Recoding f) : Images f whitespace? := by
  intro s
  obtain ⟨htake, hdrop⟩ := h.while_eq .isBlank s
  simp only [Lexeme.whitespace?, htake, hdrop, List.isEmpty_map]
  split <;> rfl

/-- A sign with something behind it. -/
theorem signed (h : Recoding f) (sign : Char) (token : Text → Token)
    {p : Text → Option Lexeme} {q : Text → Option (Text × Text)} (hsign : sign.toNat < 128) (hq : Lifts f q)
    (htoken : ∀ name : Text, (token name).recode f = token (name.map f))
    (hcons : ∀ s, p (sign :: s) = (q s).map fun x => plain (token x.1) (sign :: x.1) x.2)
    (hother : ∀ s, s.head? ≠ some sign → p s = none) : Images f p := by
  intro s
  by_cases hs : s.head? = some sign
  · obtain ⟨s, rfl⟩ := List.head?_eq_some_iff.1 hs
    rw [List.map_cons, h.ascii sign hsign, hcons, hcons, hq s]
    rcases q s with _ | ⟨name, r⟩
    · rfl
    · simp [both, recode_plain, htoken, h.ascii sign hsign]
  · have hs' : (s.map f).head? ≠ some sign := mt (h.head?_iff hsign s).1 hs
    rw [hother s hs, hother _ hs']
    rfl

theorem hash? (h : Recoding f) : Images f hash? := by
  refine h.signed '#' (fun name => .hash ('#' :: name)) (by decide) h.hashName?
    (fun name => ?_) (fun _ => rfl) fun s hs => ?_
  · simp [Token.recode, h.ascii '#' (by decide)]
  · unfold Lexeme.hash?
    split
    · simp at hs
    · rfl

theorem atKeyword? (h : Recoding f) : Images f atKeyword? := by
  refine h.signed '@' .atKeyword (by decide) h.name?
    (fun name => rfl) (fun _ => rfl) fun s hs => ?_
  unfold Lexeme.atKeyword?
  split
  · simp at hs
  · rfl

theorem numericEnd (h : Recoding f) (n : Numeral) (r : Text) :
    numericEnd (n.recode f) (r.map f) = (numericEnd n r).recode f := by
  by_cases hp : r.head? = some '%'
  · obtain ⟨r, rfl⟩ := List.head?_eq_some_iff.1 hp
    rw [List.map_cons, h.ascii '%' (by decide), numericEnd_percent, numericEnd_percent]
    simp [recode_plain, Token.recode, Numeral.text_recode, h.ascii '%' (by decide)]
  · have hp' : (r.map f).head? ≠ some '%' := mt (h.head?_iff (by decide) r).1 hp
    rw [numericEnd_other hp, numericEnd_other hp', h.name? r]
    rcases CssReader.name? r with _ | ⟨unit, r'⟩
    · simp [recode_plain, Token.recode, Numeral.text_recode]
    · simp [recode_plain, Token.recode, Numeral.text_recode]

theorem numeric? (h : Recoding f) : Images f numeric? := by
  intro s
  show (Numeral.read? (s.map f)).map (fun x => Lexeme.numericEnd x.1 x.2) =
    ((Numeral.read? s).map fun x => Lexeme.numericEnd x.1 x.2).map (Lexeme.recode f)
  rw [h.numeral s]
  rcases Numeral.read? s with _ | ⟨n, r⟩
  · rfl
  · exact congrArg some (h.numericEnd n r)

theorem identEnd (h : Recoding f) (name r : Text) :
    identEnd (name.map f) (r.map f) = (identEnd name r).recode f := by
  have hparen := h.ascii '(' (by decide)
  by_cases hp : r.head? = some '('
  · obtain ⟨r, rfl⟩ := List.head?_eq_some_iff.1 hp
    have htext : (name ++ ['(']).map f = name.map f ++ ['('] := by simp [hparen]
    rw [List.map_cons, hparen, identEnd_paren, identEnd_paren, h.isUrlName_eq, ← htext]
    by_cases hn : isUrlName name = true
    · rw [if_pos hn, if_pos hn]
      exact h.readUrl _ _
    · rw [if_neg hn, if_neg hn]
      rfl
  · have hp' : (r.map f).head? ≠ some '(' := mt (h.head?_iff (by decide) r).1 hp
    rw [identEnd_other hp, identEnd_other hp']
    rfl

theorem identLike? (h : Recoding f) : Images f identLike? := by
  intro s
  show (CssReader.name? (s.map f)).map (fun x => Lexeme.identEnd x.1 x.2) =
    ((CssReader.name? s).map fun x => Lexeme.identEnd x.1 x.2).map (Lexeme.recode f)
  rw [h.name? s]
  rcases CssReader.name? s with _ | ⟨name, r⟩
  · rfl
  · exact congrArg some (h.identEnd name r)

theorem attrMatch? (h : Recoding f) : Images f attrMatch? := by
  intro s
  rcases s with _ | ⟨c, s⟩
  · rfl
  · by_cases hs : s.head? = some '='
    · obtain ⟨s, rfl⟩ := List.head?_eq_some_iff.1 hs
      have hsign : ∀ m : AttrMatch, m.sign = f c ↔ m.sign = c := fun m => by
        rw [eq_comm, h.eq_iff (by cases m <;> decide) c, eq_comm]
      rw [List.map_cons, List.map_cons, h.ascii '=' (by decide), Lexeme.attrMatch?,
        Lexeme.attrMatch?]
      simp only [AttrMatch.ofSign?, hsign, Option.map_map]
      refine Option.map_congr fun m hm => ?_
      obtain rfl : m.sign = c := by simpa using List.find?_some hm
      have hm' : f m.sign = m.sign := h.ascii _ (by cases m <;> decide)
      simp [recode_plain, Token.recode, hm', h.ascii '=' (by decide)]
    · have hs' : (s.map f).head? ≠ some '=' := mt (h.head?_iff (by decide) s).1 hs
      rw [List.map_cons, attrMatch?_other hs, attrMatch?_other hs']
      rfl

/-- A production of one word of ASCII characters. -/
theorem word (h : Recoding f) {p : Text → Option Lexeme} {t : Token} {w : Text}
    (hw : ∀ c ∈ w, c.toNat < 128) (ht : t.recode f = t)
    (hsome : ∀ s, p (w ++ s) = some (plain t w s))
    (hnone : ∀ s, (∀ r, s ≠ w ++ r) → p s = none) : Images f p := by
  intro s
  by_cases hs : ∃ r, s = w ++ r
  · obtain ⟨r, rfl⟩ := hs
    rw [List.map_append, h.map_ascii hw, hsome, hsome, Option.map_some, recode_plain, ht,
      h.map_ascii hw]
  · have hs' : ∀ r, s.map f ≠ w ++ r := by
      intro r hr
      obtain ⟨r', hr', -⟩ := h.map_eq_append hw hr
      exact hs ⟨r', hr'⟩
    rw [hnone s fun r hr => hs ⟨r, hr⟩, hnone _ hs']
    rfl

theorem cdo? (h : Recoding f) : Images f cdo? := by
  refine h.word (w := ['<', '!', '-', '-']) (t := .cdo) (by simp) rfl (fun _ => rfl) fun s hs => ?_
  unfold Lexeme.cdo?
  split
  · rename_i r
    exact absurd rfl (hs r)
  · rfl

theorem cdc? (h : Recoding f) : Images f cdc? := by
  refine h.word (w := ['-', '-', '>']) (t := .cdc) (by simp) rfl (fun _ => rfl) fun s hs => ?_
  unfold Lexeme.cdc?
  split
  · rename_i r
    exact absurd rfl (hs r)
  · rfl

theorem delim? : Images f delim? := by
  intro s
  cases s <;> rfl

/-- **The lexeme of the image is the image of the lexeme.** -/
theorem read (h : Recoding f) : Images f read := by
  intro s
  have hfirst : ∀ ps : List (Text → Option Lexeme), (∀ p ∈ ps, Images f p) →
      ps.findSome? (fun p => p (s.map f)) = (ps.findSome? fun p => p s).map (Lexeme.recode f) := by
    intro ps hps
    induction ps with
    | nil => rfl
    | cons p ps ih =>
      obtain ⟨hp, hps⟩ := List.forall_mem_cons.1 hps
      rw [List.findSome?_cons, List.findSome?_cons, hp s]
      rcases p s with _ | l
      · exact ih hps
      · rfl
  refine hfirst productions fun p hp => ?_
  simp only [productions, List.mem_cons, List.not_mem_nil, or_false] at hp
  rcases hp with rfl | rfl | rfl | rfl | rfl | rfl | rfl | rfl | rfl | rfl | rfl | rfl
  · exact h.unicodeRange?
  · exact h.string?
  · exact h.mark?
  · exact h.whitespace?
  · exact h.hash?
  · exact h.atKeyword?
  · exact h.numeric?
  · exact h.identLike?
  · exact h.attrMatch?
  · exact h.cdo?
  · exact h.cdc?
  · exact delim?

/-- The lexeme behind the comments. -/
theorem read_run (h : Recoding f) (s : Text) : Lexeme.read (Comment.run (s.map f)).2 =
    (Lexeme.read (Comment.run s).2).map (Lexeme.recode f) := by
  rw [h.run_rest, h.read]

end Recoding
end CssReader
