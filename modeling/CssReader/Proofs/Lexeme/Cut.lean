/-
# Lexemes of a text cut short

The lexeme at the front of a text is still there when the text is cut short
somewhere behind it. There is one exception: a fault is noticed at the character
that is wrong, and where that is not part of the lexeme, the fault is gone with
it. So nothing is said of a fault that is left with nothing behind it.

Each production is shown to stay on its own. An order of productions that all
stay, tried one after the other, stays.

Key definitions: `Lexeme.before`, `Lexeme.Settled`, `Lexeme.Stays`.
Key theorems: `Lexeme.stays_behind`, `Lexeme.readUrl_before`, `Lexeme.read_stays`.
-/
import CssReader.Proofs.Lexis.Cut

namespace CssReader
namespace Lexeme

/-- The lexeme in front of a longer text: `r` follows what it leaves. -/
def before (l : Lexeme) (r : Text) : Lexeme := { l with rest := l.rest ++ r }

theorem before_rest (l : Lexeme) (r : Text) : (l.before r).rest = l.rest ++ r := rfl

theorem before_inj {l l' : Lexeme} {r : Text} (h : l.before r = l'.before r) : l = l' := by
  cases l
  cases l'
  simpa [before] using h

@[simp] theorem before_nil (l : Lexeme) : l.before [] = l := by
  simp [before]

/-- No lexeme in front of `r` leaves less than `r`. -/
theorem not_before {l l' : Lexeme} {r : Text} (hl : l'.rest.length < r.length) :
    l' ≠ l.before r := by
  rintro rfl
  rw [before_rest, List.length_append] at hl
  omega

/-- The lexeme is a token, or a fault with something behind it. -/
def Settled (l : Lexeme) : Prop := l.rest = [] → ∃ t, l.result = .ok t

/-- A production that finds nothing in a text finds nothing in a beginning of it,
and what it finds in front of `r` it finds without `r`, unless that is a fault
with nothing behind it. -/
structure Stays (p : Text → Option Lexeme) : Prop where
  none : ∀ {s r : Text}, p (s ++ r) = none → p s = none
  some : ∀ {s r : Text} {l : Lexeme}, p (s ++ r) = some (l.before r) → l.Settled → p s = some l

/-- A production is judged by the lexemes that it gives. -/
theorem Stays.of_splits {p : Text → Option Lexeme} (hp : Splits p)
    (none : ∀ {s r : Text}, p (s ++ r) = Option.none → p s = Option.none)
    (some : ∀ {text rest r : Text} {result : Except Fault Token} {ws : List Warning},
      p (text ++ rest ++ r) = Option.some ⟨text, rest ++ r, result, ws⟩ →
      Settled ⟨text, rest, result, ws⟩ →
      p (text ++ rest) = Option.some ⟨text, rest, result, ws⟩) : Stays p where
  none := none
  some {s r l} h hl := by
    have hs := (hp h).1
    simp only [before, ← List.append_assoc] at hs
    obtain rfl := List.append_cancel_right hs
    exact some h hl

/-- A production that looks at nothing behind its lexeme. -/
theorem Stays.of_text {p : Text → Option Lexeme} (hp : Splits p)
    (h : ∀ {s : Text} {l : Lexeme}, p s = Option.some l →
      ∀ rest, p (l.text ++ rest) = Option.some { l with rest }) : Stays p := by
  refine .of_splits hp (fun {s r} hn => ?_) fun {text rest r result ws} hl _ => h hl rest
  by_contra hne
  obtain ⟨l, hs⟩ := Option.ne_none_iff_exists'.1 hne
  have hlong := h hs (l.rest ++ r)
  rw [← List.append_assoc, (hp hs).1, hn] at hlong
  simp at hlong

/-- What a reader takes, and what then comes behind it. -/
theorem stays_behind {α : Type} {q : Text → Option (α × Text)} {f : α → Text → Lexeme}
    (hq : Cuts q) (hsuf : ∀ a r, (f a r).rest <:+ r)
    (hf : ∀ {a : α} {s r : Text} {l : Lexeme}, f a (s ++ r) = l.before r → l.Settled → f a s = l) :
    Stays fun s => (q s).map fun x => f x.1 x.2 where
  none h := by
    rw [Option.map_eq_none_iff] at h ⊢
    exact hq.none h
  some {s r l} h hl := by
    obtain ⟨⟨a, t⟩, ha, he⟩ := Option.map_eq_some_iff.1 h
    have ht : r.length ≤ t.length := by
      have := (hsuf a t).length_le
      rw [show f a t = l.before r from he, before_rest, List.length_append] at this
      omega
    obtain ⟨m, rfl, hm⟩ := hq.cut ha ht
    rw [hm]
    exact congrArg Option.some (hf he hl)

/-! ### Short productions -/

theorem unicodeRange?_stays : Stays unicodeRange? := by
  refine .of_splits unicodeRange?_splits (fun {s r} h => ?_) fun {text rest r result ws} h hl => ?_
  · unfold unicodeRange?
    split
    · rename_i u c s
      simp only [List.cons_append, unicodeRange?] at h
      by_cases hc : ((u = 'u' || u = 'U') && (isHex c || c = '?')) = true
      · rw [if_pos hc] at h
        simp at h
      · rw [if_neg hc]
    · rfl
  · unfold unicodeRange? at h
    split at h
    · rename_i u c s heq
      by_cases hc : ((u = 'u' || u = 'U') && (isHex c || c = '?')) = true
      · rw [if_pos hc, Option.some.injEq, mk.injEq] at h
        obtain ⟨rfl, hr, rfl, rfl⟩ := h
        rcases rest with _ | ⟨d, rest⟩
        · -- the character that makes it a range is cut off
          obtain ⟨t, ht⟩ := hl rfl
          simp at ht
        · obtain ⟨rfl, -⟩ := List.cons.inj hr
          simp [unicodeRange?, hc]
      · rw [if_neg hc] at h
        simp at h
    · simp at h

theorem string?_stays : Stays string? := by
  refine .of_splits string?_splits (fun {s r} h => ?_) fun {text rest r result ws} h hl => ?_
  · rcases s with _ | ⟨c, s⟩
    · rfl
    · by_cases hc : isQuote c = true
      · simp [string?, hc] at h
      · simp [string?, hc]
  · have hne : text ≠ [] := (string?_splits h).2
    rcases text with _ | ⟨c, text⟩
    · exact absurd rfl hne
    · simp only [List.cons_append, string?] at h ⊢
      by_cases hc : isQuote c = true
      · rw [if_pos hc, Option.some.injEq, mk.injEq] at h
        obtain ⟨ht, hr, hres, hws⟩ := h
        rw [if_pos hc, Quoted.read_cut hr, ← ht, ← hres, ← hws]
        rfl
      · rw [if_neg hc] at h
        simp at h

theorem mark?_stays : Stays mark? := by
  refine .of_text mark?_splits fun {s l} h rest => ?_
  unfold mark? at h
  split at h
  · simp at h
  · obtain ⟨t, ht, rfl⟩ := Option.map_eq_some_iff.1 h
    simp [mark?, plain, ht]

theorem whitespace?_stays : Stays whitespace? := by
  refine .of_splits whitespace?_splits (fun {s r} h => ?_) fun {text rest r result ws} h hl => ?_
  · rcases s with _ | ⟨c, s⟩
    · rfl
    · by_cases hc : isBlank c = true
      · simp [whitespace?, hc] at h
      · simp [whitespace?, hc]
  · simp only [whitespace?] at h ⊢
    by_cases he : ((text ++ rest ++ r).takeWhile isBlank).isEmpty = true
    · rw [if_pos he] at h
      simp at h
    · rw [if_neg he, plain, Option.some.injEq, mk.injEq] at h
      obtain ⟨ht, hr, hres, hws⟩ := h
      have hcut := while_cut (p := isBlank) (s := text ++ rest) (r := r) (by rw [hr]; simp)
      rw [hcut.1] at hr
      rw [hcut.2] at ht he
      rw [if_neg he, plain, ht, List.append_cancel_right hr, hres, hws]

/-- A sign with something behind it. -/
theorem stays_signed {p : Text → Option Lexeme} {q : Text → Option (Text × Text)} (sign : Char)
    (token : Text → Token) (hs : Splits p) (hq : Cuts q)
    (hcons : ∀ s, p (sign :: s) = (q s).map fun x => plain (token x.1) (sign :: x.1) x.2)
    (hother : ∀ s, s.head? ≠ some sign → p s = none) : Stays p := by
  refine .of_splits hs (fun {s r} h => ?_) fun {text rest r result ws} h hl => ?_
  · by_cases hc : s.head? = some sign
    · obtain ⟨s, rfl⟩ := List.head?_eq_some_iff.1 hc
      rw [List.cons_append, hcons, Option.map_eq_none_iff] at h
      rw [hcons, hq.none h]
      rfl
    · exact hother s hc
  · have hne : text ≠ [] := (hs h).2
    by_cases hc : text.head? = some sign
    · obtain ⟨text, rfl⟩ := List.head?_eq_some_iff.1 hc
      rw [List.cons_append, List.cons_append, hcons, Option.map_eq_some_iff] at h
      obtain ⟨⟨a, t⟩, ha, he⟩ := h
      rw [plain, mk.injEq] at he
      obtain ⟨ht, rfl, hres, hws⟩ := he
      obtain rfl : a = text := (List.cons.inj ht).2
      rw [List.cons_append, hcons, hq.some ha, ← hres, ← hws]
      rfl
    · have hc' : (text ++ rest ++ r).head? ≠ some sign := by
        rcases text with _ | ⟨c, text⟩
        · exact absurd rfl hne
        · simpa using hc
      rw [hother _ hc'] at h
      simp at h

theorem hash?_stays : Stays hash? := by
  refine stays_signed '#' (fun name => .hash ('#' :: name)) hash?_splits cuts_hashName?
    (fun _ => rfl) fun s hs => ?_
  unfold hash?
  split
  · simp at hs
  · rfl

theorem atKeyword?_stays : Stays atKeyword? := by
  refine stays_signed '@' .atKeyword atKeyword?_splits cuts_name? (fun _ => rfl) fun s hs => ?_
  unfold atKeyword?
  split
  · simp at hs
  · rfl

theorem attrMatch?_stays : Stays attrMatch? := by
  refine .of_text attrMatch?_splits fun {s l} h rest => ?_
  unfold attrMatch? at h
  split at h
  · obtain ⟨m, hm, rfl⟩ := Option.map_eq_some_iff.1 h
    simp [attrMatch?, plain, hm]
  · simp at h

theorem cdo?_stays : Stays cdo? := by
  refine .of_text cdo?_splits fun {s l} h rest => ?_
  unfold cdo? at h
  split at h <;> cases h
  rfl

theorem cdc?_stays : Stays cdc? := by
  refine .of_text cdc?_splits fun {s l} h rest => ?_
  unfold cdc? at h
  split at h <;> cases h
  rfl

theorem delim?_stays : Stays delim? := by
  refine .of_text delim?_splits fun {s l} h rest => ?_
  unfold delim? at h
  split at h <;> cases h
  rfl

/-! ### Numbers -/

/-- What a numeral gives with the text `r` behind it. -/
def numericEnd (n : Numeral) (r : Text) : Lexeme :=
  match r with
  | '%' :: r' => plain (.percentage (n.text ++ ['%'])) (n.text ++ ['%']) r'
  | _ => match name? r with
    | some (unit, r') => plain (.dimension (n.text ++ unit)) (n.text ++ unit) r'
    | none => plain (.number n.text) n.text r

theorem numericEnd_percent (n : Numeral) (r : Text) :
    numericEnd n ('%' :: r) = plain (.percentage (n.text ++ ['%'])) (n.text ++ ['%']) r := rfl

theorem numericEnd_other {n : Numeral} {r : Text} (h : r.head? ≠ some '%') :
    numericEnd n r = match name? r with
      | some (unit, r') => plain (.dimension (n.text ++ unit)) (n.text ++ unit) r'
      | none => plain (.number n.text) n.text r := by
  unfold numericEnd
  split
  · simp at h
  · rfl

theorem numericEnd_suffix (n : Numeral) (t : Text) : (numericEnd n t).rest <:+ t := by
  by_cases hp : t.head? = some '%'
  · obtain ⟨t, rfl⟩ := List.head?_eq_some_iff.1 hp
    exact List.suffix_cons '%' t
  · rw [numericEnd_other hp]
    rcases hu : name? t with _ | ⟨unit, t'⟩
    · exact List.suffix_refl t
    · exact cuts_name?.suffix hu

theorem head?_ne_of_append {s r : Text} {c : Char} (h : (s ++ r).head? ≠ some c) :
    s.head? ≠ some c := by
  intro hs
  obtain ⟨s, rfl⟩ := List.head?_eq_some_iff.1 hs
  simp at h

theorem numericEnd_before {n : Numeral} {s r : Text} {l : Lexeme}
    (h : numericEnd n (s ++ r) = l.before r) : numericEnd n s = l := by
  by_cases hp : (s ++ r).head? = some '%'
  · rcases s with _ | ⟨c, s⟩
    · obtain ⟨r', rfl⟩ := List.head?_eq_some_iff.1 hp
      exact absurd h (not_before (by simp [numericEnd_percent, plain]))
    · obtain rfl : c = '%' := by simpa using hp
      exact before_inj h
  · rw [numericEnd_other hp] at h
    rw [numericEnd_other (head?_ne_of_append hp)]
    rcases hu : name? (s ++ r) with _ | ⟨unit, t⟩
    · rw [hu] at h
      rw [cuts_name?.none hu]
      exact before_inj h
    · rw [hu] at h
      obtain rfl : t = l.rest ++ r := congrArg Lexeme.rest h
      rw [cuts_name?.some hu]
      exact before_inj h

theorem numeric?_stays : Stays numeric? :=
  stays_behind (f := numericEnd) Numeral.cuts_read? numericEnd_suffix fun h _ =>
    numericEnd_before h

/-! ### Urls -/

theorem endUrl_suffix (text t : Text) (ws : List Warning) : (endUrl text t ws).rest <:+ t := by
  rcases t with _ | ⟨c, t⟩
  · exact List.suffix_refl []
  · by_cases hc : c = ')'
    · simp [endUrl, hc]
    · simp [endUrl, hc]

/-- Only the fault of a url that goes on where it has to end takes nothing, and
leaves everything. -/
theorem endUrl_before {text s r : Text} {ws : List Warning} {l : Lexeme}
    (h : endUrl text (s ++ r) ws = l.before r) (hl : l.Settled) : endUrl text s ws = l := by
  rcases s with _ | ⟨c, s⟩
  · rcases r with _ | ⟨c, r⟩
    · simpa using h
    · rw [List.nil_append, endUrl] at h
      by_cases hc : c = ')'
      · rw [if_pos hc] at h
        exact absurd h (not_before (by simp))
      · rw [if_neg hc] at h
        have hr : l.rest = [] := List.append_left_eq_self.1 (congrArg Lexeme.rest h).symm
        obtain ⟨t, ht⟩ := hl hr
        have hres := congrArg Lexeme.result h
        simp [before, ht] at hres
  · simp only [List.cons_append, endUrl] at h ⊢
    by_cases hc : c = ')'
    · rw [if_pos hc] at h ⊢
      exact before_inj h
    · rw [if_neg hc] at h ⊢
      exact before_inj h

/-- A class of characters in front of a lexeme that has `r` behind it. -/
theorem while_cut_before {p : Char → Bool} {s r : Text} {l : Lexeme}
    (h : (l.before r).rest.length ≤ ((s ++ r).dropWhile p).length) :
    (s ++ r).dropWhile p = s.dropWhile p ++ r ∧ (s ++ r).takeWhile p = s.takeWhile p := by
  rw [before_rest, List.length_append] at h
  exact while_cut (by omega)

/-- The blanks in front of the end of a url stay, and so does the end. -/
theorem endUrl_blanks_before {text s r : Text} {ws : List Warning} {l : Lexeme}
    (h : endUrl (text ++ (s ++ r).takeWhile isBlank) ((s ++ r).dropWhile isBlank) ws = l.before r)
    (hl : l.Settled) : endUrl (text ++ s.takeWhile isBlank) (s.dropWhile isBlank) ws = l := by
  have hle := (endUrl_suffix (text ++ (s ++ r).takeWhile isBlank) ((s ++ r).dropWhile isBlank)
    ws).length_le
  rw [h] at hle
  obtain ⟨hd, ht⟩ := while_cut_before hle
  rw [hd, ht] at h
  exact endUrl_before h hl

theorem readBareUrl_suffix (text t : Text) :
    (readBareUrl text t).rest <:+ t.dropWhile isUrlChar := by
  unfold readBareUrl
  rcases t.dropWhile isUrlChar with _ | ⟨c, left⟩
  · exact endUrl_suffix _ _ _
  · dsimp only
    by_cases hq : isQuote c = true
    · simp [hq]
    · by_cases hb : c = '\\'
      · rw [if_neg hq, if_pos hb]
        exact List.suffix_cons c left
      · rw [if_neg hq, if_neg hb]
        exact (endUrl_suffix _ _ _).trans (List.dropWhile_suffix isBlank)

theorem readBareUrl_before {text s r : Text} {l : Lexeme}
    (h : readBareUrl text (s ++ r) = l.before r) (hl : l.Settled) : readBareUrl text s = l := by
  have hle := (readBareUrl_suffix text (s ++ r)).length_le
  rw [h] at hle
  obtain ⟨hd, ht⟩ := while_cut_before hle
  unfold readBareUrl at h ⊢
  dsimp only at h ⊢
  rw [hd, ht] at h
  generalize text ++ s.takeWhile isUrlChar = taken at *
  generalize s.dropWhile isUrlChar = left at *
  rcases left with _ | ⟨c, left⟩
  · rcases r with _ | ⟨c, r⟩
    · simpa using h
    · dsimp only [List.nil_append] at h
      by_cases hq : isQuote c = true
      · rw [if_pos hq] at h
        exact absurd h (not_before (by simp))
      · by_cases hb : c = '\\'
        · rw [if_neg hq, if_pos hb] at h
          exact absurd h (not_before (by simp))
        · rw [if_neg hq, if_neg hb] at h
          simpa using endUrl_blanks_before (s := []) h hl
  · dsimp only [List.cons_append] at h ⊢
    by_cases hq : isQuote c = true
    · rw [if_pos hq] at h ⊢
      exact before_inj h
    · by_cases hb : c = '\\'
      · rw [if_neg hq, if_pos hb] at h ⊢
        exact before_inj h
      · rw [if_neg hq, if_neg hb] at h ⊢
        exact endUrl_blanks_before (s := c :: left) h hl

/-- The end of a url with a string as its target. -/
def quotedUrlEnd (taken : Text) (q : Quoted) : Lexeme :=
  endUrl (taken ++ q.text ++ q.rest.takeWhile isBlank) (q.rest.dropWhile isBlank)
    (openString taken.size q)

theorem quotedUrlEnd_suffix (taken : Text) (q : Quoted) : (quotedUrlEnd taken q).rest <:+ q.rest :=
  (endUrl_suffix _ _ _).trans (List.dropWhile_suffix isBlank)

theorem quotedUrlEnd_before {taken s r : Text} {c : Char} {l : Lexeme}
    (h : quotedUrlEnd taken (Quoted.read c (s ++ r)) = l.before r) (hl : l.Settled) :
    quotedUrlEnd taken (Quoted.read c s) = l := by
  have hle := (quotedUrlEnd_suffix taken (Quoted.read c (s ++ r))).length_le
  rw [h, before_rest, List.length_append] at hle
  have hsuf : r <:+ (Quoted.read c (s ++ r)).rest :=
    List.suffix_of_suffix_length_le (List.suffix_append s r) (Quoted.read_rest_suffix c _)
      (by omega)
  obtain ⟨m, hm⟩ := hsuf
  rw [quotedUrlEnd, ← hm] at h
  rw [Quoted.read_cut hm.symm]
  exact endUrl_blanks_before h hl

theorem readUrl_suffix (text t : Text) : (readUrl text t).rest <:+ t.dropWhile isBlank := by
  unfold readUrl
  rcases t.dropWhile isBlank with _ | ⟨c, left⟩
  · exact endUrl_suffix _ _ _
  · dsimp only
    by_cases hq : isQuote c = true
    · rw [if_pos hq]
      have hend := quotedUrlEnd_suffix (text ++ t.takeWhile isBlank) (Quoted.read c left)
      exact (hend.trans (Quoted.read_rest_suffix c left)).trans (List.suffix_cons c left)
    · rw [if_neg hq]
      exact (readBareUrl_suffix _ _).trans (List.dropWhile_suffix isUrlChar)

theorem readUrl_before {text s r : Text} {l : Lexeme}
    (h : readUrl text (s ++ r) = l.before r) (hl : l.Settled) : readUrl text s = l := by
  have hle := (readUrl_suffix text (s ++ r)).length_le
  rw [h] at hle
  obtain ⟨hd, ht⟩ := while_cut_before hle
  unfold readUrl at h ⊢
  dsimp only at h ⊢
  rw [hd, ht] at h
  generalize text ++ s.takeWhile isBlank = taken at *
  generalize s.dropWhile isBlank = left at *
  rcases left with _ | ⟨c, left⟩
  · rcases r with _ | ⟨c, r⟩
    · simpa using h
    · dsimp only [List.nil_append] at h
      by_cases hq : isQuote c = true
      · rw [if_pos hq] at h
        have hle := (quotedUrlEnd_suffix taken (Quoted.read c r)).length_le
        have hr := (Quoted.read_rest_suffix c r).length_le
        exact absurd h (not_before (Nat.lt_succ_of_le (hle.trans hr)))
      · rw [if_neg hq] at h
        simpa [readBareUrl] using readBareUrl_before (s := []) h hl
  · dsimp only [List.cons_append] at h ⊢
    by_cases hq : isQuote c = true
    · rw [if_pos hq] at h ⊢
      exact quotedUrlEnd_before h hl
    · rw [if_neg hq] at h ⊢
      exact readBareUrl_before (s := c :: left) h hl

/-! ### Names and functions -/

/-- What a name gives with the text `r` behind it. -/
def identEnd (name r : Text) : Lexeme :=
  match r with
  | '(' :: r' =>
    if isUrlName name then readUrl (name ++ ['(']) r'
    else plain (.function name (name ++ ['('])) (name ++ ['(']) r'
  | _ => plain (.ident name) name r

theorem identEnd_paren (name r : Text) : identEnd name ('(' :: r) =
    if isUrlName name then readUrl (name ++ ['(']) r
    else plain (.function name (name ++ ['('])) (name ++ ['(']) r := rfl

theorem identEnd_other {name r : Text} (h : r.head? ≠ some '(') :
    identEnd name r = plain (.ident name) name r := by
  unfold identEnd
  split
  · simp at h
  · rfl

theorem identEnd_paren_suffix (name t : Text) : (identEnd name ('(' :: t)).rest <:+ t := by
  rw [identEnd_paren]
  by_cases hn : isUrlName name = true
  · rw [if_pos hn]
    exact (readUrl_suffix _ t).trans (List.dropWhile_suffix isBlank)
  · rw [if_neg hn]
    exact List.suffix_refl t

theorem identEnd_suffix (name t : Text) : (identEnd name t).rest <:+ t := by
  by_cases hp : t.head? = some '('
  · obtain ⟨t, rfl⟩ := List.head?_eq_some_iff.1 hp
    exact (identEnd_paren_suffix name t).trans (List.suffix_cons '(' t)
  · rw [identEnd_other hp]
    exact List.suffix_refl t

theorem identEnd_before {name s r : Text} {l : Lexeme}
    (h : identEnd name (s ++ r) = l.before r) (hl : l.Settled) : identEnd name s = l := by
  by_cases hp : (s ++ r).head? = some '('
  · rcases s with _ | ⟨c, s⟩
    · obtain ⟨r', rfl⟩ := List.head?_eq_some_iff.1 hp
      exact absurd h (not_before (Nat.lt_succ_of_le (identEnd_paren_suffix name r').length_le))
    · obtain rfl : c = '(' := by simpa using hp
      rw [List.cons_append, identEnd_paren] at h
      rw [identEnd_paren]
      by_cases hn : isUrlName name = true
      · rw [if_pos hn] at h ⊢
        exact readUrl_before h hl
      · rw [if_neg hn] at h ⊢
        exact before_inj h
  · rw [identEnd_other hp] at h
    rw [identEnd_other (head?_ne_of_append hp)]
    exact before_inj h

theorem identLike?_stays : Stays identLike? :=
  stays_behind (f := identEnd) cuts_name? identEnd_suffix identEnd_before

/-! ### All productions -/

theorem findSome?_stays {ps : List (Text → Option Lexeme)} (h : ∀ p ∈ ps, Stays p) :
    Stays fun s => ps.findSome? fun p => p s where
  none {s r} hn := by
    rw [List.findSome?_eq_none_iff] at hn ⊢
    exact fun p hp => (h p hp).none (hn p hp)
  some {s r l} hs hl := by
    induction ps with
    | nil => simp at hs
    | cons p ps ih =>
      have hp : Stays p := h p (List.mem_cons_self)
      rw [List.findSome?_cons] at hs ⊢
      rcases hl' : p (s ++ r) with _ | l'
      · rw [hl'] at hs
        rw [hp.none hl']
        exact ih (fun q hq => h q (List.mem_cons_of_mem p hq)) hs
      · rw [hl'] at hs
        obtain rfl : l' = l.before r := Option.some.inj hs
        rw [hp.some hl' hl]

/-- **A lexeme stays when the text is cut short behind it**, except for a fault
with nothing behind it. -/
theorem read_stays : Stays read := by
  refine findSome?_stays fun p hp => ?_
  simp only [productions, List.mem_cons, List.not_mem_nil, or_false] at hp
  rcases hp with rfl | rfl | rfl | rfl | rfl | rfl | rfl | rfl | rfl | rfl | rfl | rfl
  · exact unicodeRange?_stays
  · exact string?_stays
  · exact mark?_stays
  · exact whitespace?_stays
  · exact hash?_stays
  · exact atKeyword?_stays
  · exact numeric?_stays
  · exact identLike?_stays
  · exact attrMatch?_stays
  · exact cdo?_stays
  · exact cdc?_stays
  · exact delim?_stays

end Lexeme
end CssReader
