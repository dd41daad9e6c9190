/-
# The patterns of names, numerals, blanks, strings and comments

Each reader does what a pattern says that is tried in order: what it finds is the first
match in the sense of `Pattern.first?`, not just some match. A reader never goes back over
what it has taken. A pattern may have to, for it gives a repetition or an optional part up
again if what comes behind it cannot match. That this makes no difference is shown for each
pattern on the way.

Key definitions: `Pattern.escape`, `Pattern.name`, `Pattern.hashName`, `Pattern.numeral`,
`Pattern.blanks`, `Pattern.string`, `Pattern.comment`.
Key theorems: `Pattern.first?_name`, `Pattern.first?_numeral`, `Pattern.first?_strings`,
`Pattern.first?_comment`.
-/
import CssReader.Proofs.Lexis.Longest
import CssReader.Proofs.Lexis.Pattern

open scoped Computability

namespace CssReader
namespace Pattern

open Grammar

/-! ### Patterns -/

def char (c : Char) : Pattern := one (· = c)

def any : Pattern := one fun _ => true

/-- What may be left out, but is not if it is there. -/
def opt (a : Pattern) : Pattern := alt a empty

/-- Once or more, as often as possible. -/
def plus (a : Pattern) : Pattern := seq a (many a)

/-- Up to `n` times, as often as possible. -/
def upTo : Nat → Pattern → Pattern
  | 0, _ => empty
  | n + 1, a => opt (seq a (upTo n a))

def escape : Pattern :=
  seq (char '\\')
    (alt (char '$')
      (alt (char '\n') (seq (seq (one isHex) (upTo 5 (one isHex))) (opt (one isBlank)))))

/-- A character of a class of ASCII, a character outside ASCII, or an escape. -/
def unit (p : Char → Bool) : Pattern := alt (one p) (alt (one fun c => 128 ≤ c.toNat) escape)

def nameHead : Pattern := unit fun c => c.isAlpha || c = '_'

def nameUnit : Pattern := unit fun c => c.isAlpha || c.isDigit || c = '_' || c = '-'

def name : Pattern := seq (opt (char '-')) (seq nameHead (many nameUnit))

def hashName : Pattern := plus nameUnit

def sign : Pattern := one fun c => c = '+' || c = '-'

def digits : Pattern := plus (one Char.isDigit)

def fraction : Pattern := seq (char '.') digits

def exponent : Pattern := seq (one fun c => c = 'e' || c = 'E') (seq (opt sign) digits)

def mantissa : Pattern := alt (seq digits fraction) (alt digits fraction)

def numeral : Pattern := seq (opt sign) (seq mantissa (opt exponent))

def blanks : Pattern := plus (one isBlank)

def comment : Pattern :=
  seq (char '/') (seq (char '*') (seq (few any) (seq (char '*') (char '/'))))

/-- A character of a string, or a backslash and any character. -/
def piece (q : Char) : Pattern :=
  alt (one fun c => !(isLineBreak c || c = q || c = '\\')) (seq (char '\\') any)

def string (q : Char) : Pattern := seq (char q) (seq (many (piece q)) (opt (char q)))

/-! ### Parts -/

section
variable {a b : Pattern} {p : Char → Bool} {c : Char} {s u r t : Text}

@[simp] theorem first?_empty (s : Text) : empty.first? s = some ([], s) := rfl

@[simp] theorem first?_one_nil (p : Char → Bool) : (one p).first? [] = none := rfl

theorem first?_one_cons (p : Char → Bool) (c : Char) (s : Text) :
    (one p).first? (c :: s) = if p c then some ([c], s) else none := by
  by_cases hc : p c = true <;> simp [first?, splits, hc]

@[simp] theorem first?_one_seq_nil (p : Char → Bool) (b : Pattern) :
    (seq (one p) b).first? [] = none := rfl

theorem first?_one_seq_cons (p : Char → Bool) (b : Pattern) (c : Char) (s : Text) :
    (seq (one p) b).first? (c :: s) =
      if p c then (b.first? s).map fun x => (c :: x.1, x.2) else none := by
  by_cases hc : p c = true <;> simp [first?, splits, andThen, hc]

@[simp] theorem first?_char_nil (d : Char) : (char d).first? [] = none := rfl

theorem first?_char_cons (d c : Char) (s : Text) :
    (char d).first? (c :: s) = if c = d then some ([c], s) else none := by
  rw [char, first?_one_cons]
  simp

@[simp] theorem first?_char_seq_nil (d : Char) (b : Pattern) :
    (seq (char d) b).first? [] = none := rfl

theorem first?_char_seq_cons (d : Char) (b : Pattern) (c : Char) (s : Text) :
    (seq (char d) b).first? (c :: s) =
      if c = d then (b.first? s).map fun x => (c :: x.1, x.2) else none := by
  rw [char, first?_one_seq_cons]
  simp

theorem first?_opt (a : Pattern) (s : Text) :
    (opt a).first? s = some ((a.first? s).getD ([], s)) := by
  rw [opt, first?_alt, first?_empty]
  cases a.first? s <;> rfl

/-- What may be left out is left out if nothing can follow it. -/
theorem first?_opt_seq (a b : Pattern) (s : Text) :
    (seq (opt a) b).first? s = ((seq a b).first? s).or (b.first? s) := by
  simp [first?, splits, opt, andThen, List.head?_append]

theorem first?_many_one (p : Char → Bool) (s : Text) :
    (many (one p)).first? s = some (s.takeWhile p, s.dropWhile p) := by
  refine first?_many (f := fun s => (s.takeWhile p, s.dropWhile p)) (fun s => ?_) s
  rcases s with _ | ⟨c, s⟩
  · exact .inl ⟨rfl, rfl⟩
  · rw [first?_one_cons]
    by_cases hc : p c = true
    · exact .inr ⟨[c], s, by rw [if_pos hc], List.cons_ne_nil _ _, by simp [hc]⟩
    · exact .inl ⟨by rw [if_neg hc], by simp [hc]⟩

theorem first?_plus_one (p : Char → Bool) (s : Text) : (plus (one p)).first? s =
    if (s.takeWhile p).isEmpty then none else some (s.takeWhile p, s.dropWhile p) := by
  rcases s with _ | ⟨c, s⟩
  · rfl
  · rw [plus, first?_one_seq_cons, first?_many_one]
    by_cases hc : p c = true <;> simp [hc]

theorem first?_upTo_one (p : Char → Bool) (n : Nat) (s : Text) : (upTo n (one p)).first? s =
    some ((s.take n).takeWhile p, s.drop ((s.take n).takeWhile p).length) := by
  induction n generalizing s with
  | zero => simp [upTo]
  | succ n ih =>
    rw [upTo, first?_opt]
    rcases s with _ | ⟨c, s⟩
    · rfl
    · rw [first?_one_seq_cons, ih]
      by_cases hc : p c = true <;> simp [hc]

end

/-! ### Names -/

section
variable {c : Char} {s : Text}

theorem first?_oneBlank (s : Text) : (opt (one isBlank)).first? s = some (oneBlank s) := by
  rw [first?_opt]
  rcases s with _ | ⟨c, s⟩
  · rfl
  · rw [first?_one_cons, oneBlank]
    split <;> rfl

theorem first?_hexDigits (c : Char) (s : Text) :
    (seq (one isHex) (upTo 5 (one isHex))).first? (c :: s) =
      if isHex c then some (CssReader.hexDigits (c :: s),
        (c :: s).drop (CssReader.hexDigits (c :: s)).length) else none := by
  rw [first?_one_seq_cons, first?_upTo_one]
  by_cases hc : isHex c = true <;> simp [hexDigits, hc]

theorem first?_escape (s : Text) : escape.first? s = escape? s := by
  rcases s with _ | ⟨c, s⟩
  · rfl
  rw [escape, first?_char_seq_cons]
  by_cases hc : c = '\\'
  · subst hc
    rw [if_pos rfl]
    rcases s with _ | ⟨d, s⟩
    · rfl
    rw [first?_alt, first?_alt, first?_char_cons, first?_char_cons,
      first?_seq_of_total first?_oneBlank, first?_hexDigits]
    by_cases hd : (d = '$' || d = '\n') = true
    · rw [escape?, if_pos hd]
      simp only [Bool.or_eq_true, decide_eq_true_eq] at hd
      rcases hd with rfl | rfl <;> rfl
    · have hmark := hd
      simp only [Bool.or_eq_true, decide_eq_true_eq, not_or] at hmark
      rw [if_neg hmark.1, if_neg hmark.2, Option.none_or, Option.none_or]
      by_cases hx : isHex d = true
      · rw [escape?_hex hd hx, if_pos hx]
        rfl
      · rw [escape?_none hd (by simpa using hx), if_neg hx]
        rfl
  · rw [if_neg hc, escape?.eq_def]
    simp [hc]

/-- A unit is read by its class, and behind a backslash as an escape. -/
theorem first?_unit {p q : Char → Bool} {f : Text → Option (Text × Text)}
    (hp : ∀ c, (p c || 128 ≤ c.toNat) = q c) (hnil : f [] = none)
    (hcons : ∀ c s, f (c :: s) = if q c then some ([c], s) else escape? (c :: s)) (s : Text) :
    (unit p).first? s = f s := by
  rw [unit, first?_alt, first?_alt, first?_escape]
  rcases s with _ | ⟨c, s⟩
  · rw [hnil]
    rfl
  · rw [first?_one_cons, first?_one_cons, hcons, ← hp]
    by_cases hc : p c = true
    · simp [hc]
    · by_cases hn : 128 ≤ c.toNat <;> simp [hc, hn]

theorem first?_nameHead (s : Text) : nameHead.first? s = nameHead? s :=
  first?_unit (fun _ => rfl) rfl (fun _ _ => rfl) s

theorem first?_nameUnit (s : Text) : nameUnit.first? s = nameUnit? s := by
  refine first?_unit (q := isNameChar) (fun c => ?_) rfl (fun _ _ => rfl) s
  rw [Bool.eq_iff_iff]
  simp only [isNameChar, isNameStart, Bool.or_eq_true]
  tauto

theorem first?_nameTail (s : Text) : (many nameUnit).first? s = some (nameTail s) := by
  refine first?_many (fun s => ?_) s
  rw [first?_nameUnit]
  rcases h : nameUnit? s with _ | ⟨u, r⟩
  · exact .inl ⟨rfl, nameTail_none h⟩
  · exact .inr ⟨u, r, rfl, (nameUnit?_split h).2, nameTail_some h⟩

theorem first?_hashName (s : Text) : hashName.first? s = hashName? s := by
  rw [hashName, plus, first?_seq_of_total first?_nameTail, first?_nameUnit, hashName?_eq]
  rcases h : nameUnit? s with _ | ⟨u, r⟩
  · rfl
  · rw [nameTail_some h]
    rfl

/-- **Names are what their pattern finds.** A hyphen would be given up again, but then a
name had to begin with it. -/
theorem first?_name (s : Text) : name.first? s = name? s := by
  have hbody (s : Text) : (seq nameHead (many nameUnit)).first? s =
      (nameHead? s).map fun x => (x.1 ++ (nameTail x.2).1, (nameTail x.2).2) := by
    rw [first?_seq_of_total first?_nameTail, first?_nameHead]
  rw [name, first?_opt_seq, hbody]
  rcases s with _ | ⟨c, s⟩
  · rfl
  rw [first?_char_seq_cons, hbody]
  by_cases hc : c = '-'
  · subst hc
    rw [if_pos rfl, name?_hyphen]
    have hnone : nameHead? ('-' :: s) = none := rfl
    rw [hnone]
    exact Option.or_none
  · rw [if_neg hc, name?_cons hc]
    rfl

end

/-! ### Numerals and blanks -/

section
open Numeral
variable {c : Char} {s : Text}

theorem first?_blanks (s : Text) :
    blanks.first? s = (Lexeme.whitespace? s).map fun l => (l.text, l.rest) := by
  rw [blanks, first?_plus_one]
  simp only [Lexeme.whitespace?]
  split <;> rfl

theorem first?_digits (s : Text) :
    digits.first? s = if (readDigits s).1.isEmpty then none else some (readDigits s) :=
  first?_plus_one _ s

theorem first?_fraction (s : Text) :
    fraction.first? s = if (readFraction s).1.isEmpty then none else some (readFraction s) := by
  rcases s with _ | ⟨c, s⟩
  · rfl
  rw [fraction, first?_char_seq_cons, first?_digits, readFraction]
  by_cases hc : c = '.' <;> by_cases hd : (readDigits s).1.isEmpty = true <;> simp [hc, hd]

/-- A sign would be given up again, but then nothing could begin with it. -/
theorem first?_signed {b : Pattern} (hb : ∀ c s, (c = '+' || c = '-') = true →
    b.first? (c :: s) = none) (s : Text) : (seq (opt sign) b).first? s =
      (b.first? (readSign s).2).map fun x => ((readSign s).1 ++ x.1, x.2) := by
  rw [first?_opt_seq]
  rcases s with _ | ⟨c, s⟩
  · simp [sign, readSign]
  · rw [sign, first?_one_seq_cons, readSign]
    by_cases hc : (c = '+' || c = '-') = true
    · rw [if_pos hc, if_pos hc, hb c s hc, Option.or_none]
      rfl
    · rw [if_neg hc, if_neg hc]
      simp

theorem readDigits_of_sign (h : (c = '+' || c = '-') = true) :
    readDigits (c :: s) = ([], c :: s) := by
  simp only [Bool.or_eq_true, decide_eq_true_eq] at h
  rcases h with rfl | rfl <;> rfl

theorem first?_exponent (s : Text) : (opt exponent).first? s = some (readExponent s) := by
  have hdigits (c : Char) (s : Text) (hc : (c = '+' || c = '-') = true) :
      digits.first? (c :: s) = none := by
    rw [first?_digits, readDigits_of_sign hc]
    rfl
  rw [first?_opt, exponent]
  rcases s with _ | ⟨c, s⟩
  · rfl
  rw [first?_one_seq_cons, first?_signed hdigits, first?_digits, readExponent]
  by_cases hc : (c = 'e' || c = 'E') = true <;>
    by_cases hd : (readDigits (readSign s).2).1.isEmpty = true <;> simp [hc, hd]

theorem language_digits : digits.language = Grammar.digits := by
  simp only [digits, plus, language, isDigit_iff]
  rfl

theorem language_fraction : fraction.language = Grammar.fraction := by
  simp only [fraction, char, language, language_digits, decide_eq_true_eq]
  rw [Grammar.fraction, exactly_singleton]

/-- Digits are never given up for a point: behind fewer of them comes a digit. -/
theorem first?_mantissa (s : Text) : mantissa.first? s =
    if (readDigits s).1.isEmpty && (readFraction (readDigits s).2).1.isEmpty then none
    else some ((readDigits s).1 ++ (readFraction (readDigits s).2).1,
      (readFraction (readDigits s).2).2) := by
  have hdsplit := readDigits_split s
  have hfsplit := readFraction_split (readDigits s).2
  rw [mantissa, first?_alt, first?_alt]
  by_cases hd : (readDigits s).1.isEmpty = true
  · -- no digits: only the point and the digits behind it are left to be tried
    have hdigits : digits.first? s = none := by rw [first?_digits, if_pos hd]
    have hboth : (seq digits fraction).first? s = none :=
      first?_seq_eq_none fun u r hs hu => absurd ⟨r, hs⟩ (first?_eq_none.1 hdigits u hu)
    rw [List.isEmpty_iff] at hd
    rw [hd, List.nil_append] at hdsplit
    rw [hdigits, hboth, first?_fraction, hd, hdsplit]
    rfl
  · have hdigits : digits.first? s = some (readDigits s) := by rw [first?_digits, if_neg hd]
    by_cases hf : (readFraction (readDigits s).2).1.isEmpty = true
    · -- digits only: with fewer of them there is no point behind them either
      have hboth : (seq digits fraction).first? s = none := by
        refine first?_seq_eq_none fun u r hs hu => ?_
        by_contra hne
        obtain ⟨⟨v, t⟩, hv⟩ := Option.ne_none_iff_exists'.1 hne
        obtain ⟨rfl, hvmem⟩ := first?_mem hv
        rw [language_digits] at hu
        rw [language_fraction] at hvmem
        have hle := takes_mantissa.longest (Language.append_mem_mul (mem_kstar_iff.2 (.inr hu))
          (.inr hvmem)) ⟨t, by rw [List.append_assoc, hs]⟩
        rw [List.isEmpty_iff.1 hf, List.append_nil] at hle
        obtain ⟨_, rfl, d, -, rfl⟩ := hvmem
        have hdot : '.' ∈ (readDigits s).1 := hle.subset (by simp)
        exact absurd (isDigit_iff.2 (mem_kstar_oneOf.1 (takes_readDigits.mem s) _ hdot)) (by decide)
      rw [List.isEmpty_iff] at hf
      rw [hf, List.nil_append] at hfsplit
      rw [hboth, hdigits, if_neg (by simp [hd]), hf, hfsplit, List.append_nil]
      rfl
    · have hfraction : fraction.first? (readDigits s).2 = some (readFraction (readDigits s).2) := by
        rw [first?_fraction, if_neg hf]
      rw [if_neg (by simp [hd]), first?_seq hdigits hfraction]
      rfl

theorem first?_numeral (s : Text) :
    numeral.first? s = (Numeral.read? s).map fun x => (x.1.text, x.2) := by
  have hmantissa (c : Char) (s : Text) (hc : (c = '+' || c = '-') = true) :
      (seq mantissa (opt exponent)).first? (c :: s) = none := by
    rw [first?_seq_of_total first?_exponent, first?_mantissa, readDigits_of_sign hc]
    simp only [Bool.or_eq_true, decide_eq_true_eq] at hc
    rcases hc with rfl | rfl <;> rfl
  rw [numeral, first?_signed hmantissa, first?_seq_of_total first?_exponent, first?_mantissa]
  simp only [Numeral.read?]
  split <;> simp [text]

end

/-! ### Comments and strings -/

section
variable {q c : Char} {s : Text}

theorem splits_any_cons (c : Char) (s : Text) : any.splits (c :: s) = [([c], s)] := rfl

/-- What is behind as few characters as possible is tried at each place in turn. -/
theorem first?_few_seq (b : Pattern) (c : Char) (s : Text) :
    (seq (few any) b).first? (c :: s) =
      (b.first? (c :: s)).or (((seq (few any) b).first? s).map fun x => (c :: x.1, x.2)) := by
  have hrest : andThen (andThen any.splits (fewRounds any.splits s.length)) b.splits (c :: s) =
      ((seq (few any) b).splits s).map fun x => (c :: x.1, x.2) := by
    simp [splits, andThen, splits_any_cons, List.flatMap_map, List.map_flatMap,
      Function.comp_def]
  have hsplits : (seq (few any) b).splits (c :: s) =
      b.splits (c :: s) ++ ((seq (few any) b).splits s).map fun x => (c :: x.1, x.2) := by
    rw [← hrest]
    simp [splits, fewRounds, andThen]
  rw [first?, hsplits, List.head?_append, List.head?_map]
  rfl

theorem first?_close (s : Text) :
    (seq (few any) (seq (char '*') (char '/'))).first? s = Comment.close? s := by
  fun_induction Comment.close? s with
  | case1 => rfl
  | case2 s => simp [first?_few_seq, first?_char_seq_cons, first?_char_cons]
  | case3 c s hne ih =>
    have hnone : (seq (char '*') (char '/')).first? (c :: s) = none := by
      rw [first?_char_seq_cons]
      by_cases hc : c = '*'
      · rcases s with _ | ⟨d, s⟩
        · simp
        · have hd : d ≠ '/' := fun hd => hne s hc (by rw [hd])
          simp [first?_char_cons, hd]
      · rw [if_neg hc]
    rw [first?_few_seq, hnone, ih]
    rfl

theorem first?_comment (s : Text) : comment.first? s = Comment.read? s := by
  rcases s with _ | ⟨c, s⟩
  · rfl
  rw [comment, first?_char_seq_cons]
  by_cases hc : c = '/'
  · subst hc
    rcases s with _ | ⟨d, s⟩
    · rfl
    rw [if_pos rfl, first?_char_seq_cons, first?_close]
    by_cases hd : d = '*'
    · subst hd
      rw [if_pos rfl, Comment.read?_opens, Option.map_map]
      rfl
    · simp [hd, Comment.read?, Comment.opens]
  · simp [hc, Comment.read?, Comment.opens]

/-- A backslash takes the character behind it, and others stand for themselves. -/
theorem first?_piece_pair (q c : Char) (s : Text) :
    (piece q).first? ('\\' :: c :: s) = some (['\\', c], s) := by
  rw [piece, first?_alt, first?_one_cons, first?_char_seq_cons, any, first?_one_cons]
  simp

theorem first?_piece_cons (hc : c ≠ '\\') (s : Text) : (piece q).first? (c :: s) =
    if c = q || isLineBreak c then none else some ([c], s) := by
  rw [piece, first?_alt, first?_one_cons, first?_char_seq_cons, if_neg hc, Option.or_none]
  by_cases hq : c = q <;> by_cases hb : isLineBreak c = true <;> simp [hc, hq, hb]

theorem first?_bodyOf (q : Char) (s : Text) :
    (many (piece q)).first? s = some (Quoted.bodyOf q s) := by
  refine first?_many (fun s => ?_) s
  rcases s with _ | ⟨c, s⟩
  · exact .inl ⟨rfl, rfl⟩
  by_cases hc : c = '\\'
  · subst hc
    rcases s with _ | ⟨d, s⟩
    · refine .inl ⟨?_, rfl⟩
      simp [piece, first?_alt, first?_one_cons, first?_char_seq_cons, any]
    · exact .inr ⟨_, s, first?_piece_pair q d s, List.cons_ne_nil _ _, by rw [Quoted.bodyOf]; rfl⟩
  · rw [first?_piece_cons hc, Quoted.bodyOf_cons hc]
    by_cases hstop : (c = q || isLineBreak c) = true
    · exact .inl ⟨by rw [if_pos hstop], by rw [if_pos hstop]⟩
    · exact .inr ⟨[c], s, by rw [if_neg hstop], List.cons_ne_nil _ _, by rw [if_neg hstop]; rfl⟩

theorem first?_string (q : Char) (s : Text) :
    (string q).first? (q :: s) = some ((Quoted.read q s).text, (Quoted.read q s).rest) := by
  have hclosing (s : Text) : (opt (char q)).first? s = some (closing q s) := by
    rw [first?_opt]
    rcases s with _ | ⟨c, s⟩
    · rfl
    · rw [first?_char_cons, closing]
      split <;> rfl
  have hrest : (Quoted.read q s).rest = (closing q (Quoted.bodyOf q s).2).2 := by
    unfold Quoted.read
    rcases Quoted.bodyOf q s with ⟨body, _ | ⟨c, r⟩⟩
    · rfl
    · by_cases hc : c = q <;> simp [closing, hc]
  rw [string, first?_char_seq_cons, if_pos rfl, first?_seq_of_total hclosing, first?_bodyOf,
    read_text_eq, hrest]
  rfl

/-- The character in front says which kind of string is looked for. -/
theorem first?_strings (s : Text) : (alt (string '"') (string '\'')).first? s =
    (Lexeme.string? s).map fun l => (l.text, l.rest) := by
  rw [first?_alt]
  rcases s with _ | ⟨c, s⟩
  · rfl
  have hother {q c : Char} (hc : c ≠ q) : (string q).first? (c :: s) = none := by
    rw [string, first?_char_seq_cons, if_neg hc]
  by_cases hd : c = '"'
  · subst hd
    rw [first?_string, hother (by decide)]
    rfl
  · rw [hother hd]
    by_cases hs : c = '\''
    · subst hs
      rw [first?_string]
      rfl
    · rw [hother hs]
      simp [Lexeme.string?, isQuote, hd, hs]

end

end Pattern
end CssReader
