/-
# Lexemes and the end of a text

The lexeme at the front of a text stays the same when the end of the text, which
it leaves, is exchanged for another that looks alike from the front. Two kinds of
lexeme are excepted, those that would have gone on into the end if they could: a
url that came to the end of the text, and a string that was cut off right there,
or in front of a backslash with nothing behind it. What a lexeme tolerates says
whether it is one of them, so it is enough to look at that (`Lexeme.Clear`).

Each production is shown to hold its lexemes on its own. An order of productions
that all do, tried one after the other, does so too.

Key definitions: `Lexeme.Clear`, `Lexeme.Holds`.
Key theorems: `Lexeme.holds_behind`, `Lexeme.readUrl_swap`, `Lexeme.read_swap`.
-/
import CssReader.Proofs.Lexeme.Cut
import CssReader.Proofs.Lexeme.Shown
import CssReader.Proofs.Lexis.Swap

namespace CssReader

open Text

namespace Lexeme

/-- Nothing that the lexeme tolerates depends on whether the end of its text is
`x` or `x'`. -/
structure Clear (l : Lexeme) (x x' : Text) : Prop where
  url : ∀ n, ⟨.openUrl, n⟩ ∉ l.warnings
  string : ∀ front q s, ⟨.openString, Text.size front⟩ ∈ l.warnings →
    l.text ++ l.rest = front ++ q :: s →
    ((Quoted.read q s).rest = x → x.head? = x'.head?) ∧ (Quoted.read q s).rest ≠ ['\\']

/-- A production that finds nothing behind a first character finds nothing with
another end, and what it finds in front of an end it finds in front of the other. -/
structure Holds (p : Text → Option Lexeme) : Prop where
  none : ∀ {s x x' : Text}, p (s ++ x) = none → s ≠ [] → Alike x x' → p (s ++ x') = none
  some : ∀ {s x x' : Text} {l : Lexeme}, p (s ++ x) = some (l.before x) → Alike x x' →
    (l.before x).Clear x x' → p (s ++ x') = some (l.before x')

/-- Nothing that takes something leaves all. -/
theorem not_before_self {l l' : Lexeme} {c : Char} {x : Text} (h : l'.rest <:+ x) :
    l' ≠ l.before (c :: x) :=
  not_before (Nat.lt_succ_of_le h.length_le)

/-- A lexeme that leaves one end leaves the other in its place. -/
theorem before_swap {text m x x' : Text} {result : Except Fault Token} {ws : List Warning}
    {l : Lexeme} (h : (⟨text, m ++ x, result, ws⟩ : Lexeme) = l.before x) :
    (⟨text, m ++ x', result, ws⟩ : Lexeme) = l.before x' := by
  obtain rfl : ⟨text, m, result, ws⟩ = l := before_inj h
  rfl

/-- A production whose first character says whether it finds something. -/
theorem Holds.of_head {p : Text → Option Lexeme} {q : Char → Bool}
    (hcons : ∀ c s, p (c :: s) = Option.none ↔ q c = false) (hsplit : Splits p)
    (some : ∀ {c : Char} {s x x' : Text} {l : Lexeme}, p (c :: s ++ x) = Option.some (l.before x) →
      Alike x x' → (l.before x).Clear x x' → p (c :: s ++ x') = Option.some (l.before x')) :
    Holds p where
  none {s x x'} h hs _ := by
    obtain ⟨c, t, rfl⟩ := List.exists_cons_of_ne_nil hs
    exact (hcons c _).2 ((hcons c _).1 h)
  some {s x x' l} h hx hl := by
    rcases s with _ | ⟨c, s⟩
    · have hself := hsplit h
      exact (not_split_self hself).elim
    · exact some h hx hl

/-- Whether a text begins with a character that is neither a slash nor a blank. -/
theorem head?_swap {s x x' : Text} {c : Char} (hx : Alike x x') (hc : c ≠ '/')
    (hb : isBlank c = false) : (s ++ x').head? = some c ↔ (s ++ x).head? = some c := by
  rcases s with _ | ⟨d, s⟩
  · cases hx with
    | same => rfl
    | @blank b _ _ hblank =>
      have hspace : ' ' ≠ c := by
        rintro rfl
        simp [isBlank] at hb
      have hne : b ≠ c := by
        rintro rfl
        simp [hb] at hblank
      simp [hspace, hne]
    | slash => simp [Ne.symm hc]
  · rfl

/-- Whether a text begins with a word of which all but the end is loose. -/
theorem prefix_swap {x x' : Text} (hx : Alike x x') : ∀ {w : Text} (s : Text),
    (∀ c ∈ w.dropLast, isLoose c = true ∧ c ≠ '/') →
    (∀ c ∈ w.getLast?, c ≠ '/' ∧ isBlank c = false) → (w <+: s ++ x' ↔ w <+: s ++ x)
  | [], _, _, _ => by simp
  | c :: w, d :: s, hw, hlast => by
    have htail : ∀ c ∈ w.dropLast, isLoose c = true ∧ c ≠ '/' := fun c hc =>
      hw c (by rw [List.dropLast_cons_of_ne_nil (by rintro rfl; simp at hc)]; simp [hc])
    have hlast' : ∀ c ∈ w.getLast?, c ≠ '/' ∧ isBlank c = false := fun e he =>
      hlast e (by rw [List.getLast?_cons]; simp [Option.mem_def.1 he])
    rw [List.cons_append, List.cons_append, List.cons_prefix_cons, List.cons_prefix_cons,
      prefix_swap hx s htail hlast']
  | [c], [], _, hlast => by
    obtain ⟨hslash, hblank⟩ := hlast c rfl
    have hhead := head?_swap (s := []) hx hslash hblank
    have hone : ∀ y : Text, [c] <+: y ↔ y.head? = some c := fun y => by
      rcases y with _ | ⟨d, y⟩
      · simp
      · simp [List.cons_prefix_cons, eq_comm]
    rw [hone, hone]
    exact hhead
  | c :: d :: w, [], hw, _ => by
    obtain ⟨hloose, hslash⟩ := hw c (by simp)
    obtain ⟨hx1, hx2⟩ := hx.head?_ne hloose hslash
    have hno : ∀ {y : Text}, y.head? ≠ some c → ¬c :: d :: w <+: y := by
      rintro y hy ⟨z, rfl⟩
      exact hy rfl
    exact iff_of_false (hno hx2) (hno hx1)

/-- A production that finds one word, of which all but the two ends is loose. -/
theorem holds_word {p : Text → Option Lexeme} {t : Token} {c : Char} (w : Text)
    (hsome : ∀ z, p (c :: w ++ z) = some (plain t (c :: w) z))
    (hnone : ∀ s, p s = none ↔ ¬c :: w <+: s)
    (hw : ∀ c ∈ w.dropLast, isLoose c = true ∧ c ≠ '/')
    (hlast : ∀ c ∈ w.getLast?, c ≠ '/' ∧ isBlank c = false) : Holds p where
  none {s x x'} h hs hx := by
    obtain ⟨d, s, rfl⟩ := List.exists_cons_of_ne_nil hs
    rw [hnone, List.cons_append, List.cons_prefix_cons] at h ⊢
    rwa [prefix_swap hx s hw hlast]
  some {s x x' l} h _ _ := by
    obtain ⟨z, hz⟩ : c :: w <+: s ++ x := by
      by_contra hno
      rw [(hnone _).2 hno] at h
      simp at h
    rw [← hz, hsome, Option.some.injEq] at h
    obtain rfl : z = l.rest ++ x := congrArg Lexeme.rest h
    rw [← List.append_assoc] at hz
    rw [← List.append_cancel_right hz, List.append_assoc, hsome]
    exact congrArg some (before_swap h)

/-! ### Short productions -/

/-- A range of characters begins with a letter of its own. -/
theorem unicodeRange?_none {c : Char} (h : ¬(c = 'u' || c = 'U') = true) (s : Text) :
    unicodeRange? (c :: s) = none := by
  unfold unicodeRange?
  split
  · rename_i heq
    obtain rfl := (List.cons.inj heq).1
    rw [if_neg (by simp only [Bool.and_eq_true]; exact fun hu => h hu.1)]
  · rfl

/-- It has a plus there. -/
theorem unicodeRange?_other {c : Char} {s : Text} (h : s.head? ≠ some '+') :
    unicodeRange? (c :: s) = none := by
  unfold unicodeRange?
  split
  · rename_i heq
    obtain rfl := (List.cons.inj heq).2
    simp at h
  · rfl

theorem unicodeRange?_plus {u c : Char} {s : Text} : unicodeRange? (u :: '+' :: c :: s) =
    if beginsRange u c then some ⟨[u, '+'], c :: s, .error ⟨.unicodeRange, 0⟩, []⟩ else none := rfl

theorem unicodeRange?_eq_none {u c : Char} {s : Text} :
    unicodeRange? (u :: '+' :: c :: s) = none ↔ beginsRange u c = false := by
  by_cases hc : beginsRange u c = true <;> simp [unicodeRange?_plus, hc]

theorem beginsRange_blank {b : Char} (u : Char) (hb : isBlank b = true) :
    beginsRange u b = false := by
  have hno : (isHex b || b = '?') = false := of_isBlank hb (by decide)
  rw [beginsRange, hno, Bool.and_false]

theorem unicodeRange?_holds : Holds unicodeRange? where
  none {s x x'} h hs hx := by
    obtain ⟨-, hplus⟩ := hx.head?_ne (c := '+') rfl (by decide)
    rcases s with _ | ⟨u, _ | ⟨d, s⟩⟩
    · exact absurd rfl hs
    · exact unicodeRange?_other hplus
    · by_cases hd : d = '+'
      · subst hd
        rcases s with _ | ⟨c, s⟩
        · cases hx with
          | same => exact unicodeRange?_eq_none.2 (unicodeRange?_eq_none.1 h)
          | blank => exact unicodeRange?_eq_none.2 (beginsRange_blank u rfl)
          | slash => exact unicodeRange?_eq_none.2 (by simp [beginsRange, isHex])
        · exact unicodeRange?_eq_none.2 (unicodeRange?_eq_none.1 h)
      · exact unicodeRange?_other (by simpa using hd)
  some {s x x' l} h hx _ := by
    obtain ⟨u, c, t, hs, hc, he⟩ := unicodeRange?_eq_some h
    have hrest : c :: t = l.rest ++ x := (congrArg Lexeme.rest he).symm
    obtain rfl : s = u :: '+' :: l.rest := by
      rw [hrest] at hs
      exact List.append_cancel_right hs
    -- whatever the end, the same character comes behind the plus
    obtain ⟨t', ht'⟩ : ∃ t', l.rest ++ x' = c :: t' := by
      rcases hm : l.rest with _ | ⟨d, m⟩
      · rw [hm] at hrest
        cases hx with
        | same => exact ⟨_, congrArg (· :: _) (List.cons.inj hrest).1.symm⟩
        | blank hb =>
          rw [(List.cons.inj hrest).1, beginsRange_blank u hb] at hc
          simp at hc
        | slash => simp at hrest
      · rw [hm] at hrest
        exact ⟨m ++ x', congrArg (· :: (m ++ x')) (List.cons.inj hrest).1.symm⟩
    rw [List.cons_append, List.cons_append, ht', unicodeRange?_plus, if_pos hc, ← ht']
    rw [hrest] at he
    exact congrArg some (before_swap he.symm)

theorem string?_holds : Holds string? := by
  refine .of_head (q := isQuote) (fun c s => ?_) string?_splits fun {c s x x' l} h hx hl => ?_
  · by_cases hc : isQuote c = true <;> simp [string?, hc]
  · by_cases hc : isQuote c = true
    · simp only [List.cons_append, string?, if_pos hc, Option.some.injEq] at h ⊢
      have hrest : (Quoted.read c (s ++ x)).rest = l.rest ++ x := congrArg Lexeme.rest h
      have hopen : (Quoted.read c (s ++ x)).closed = false →
          (l.rest = [] → x.head? = x'.head?) ∧ l.rest ++ x ≠ ['\\'] := fun hopen => by
        have hw : ⟨.openString, 0⟩ ∈ (l.before x).warnings := by
          rw [← h]
          simp [openString, hopen]
        have hall : (l.before x).text ++ (l.before x).rest = [] ++ c :: (s ++ x) := by
          rw [← h]
          exact Quoted.read_split c (s ++ x)
        obtain ⟨hsame, hlone⟩ := hl.string [] c (s ++ x) hw hall
        rw [hrest] at hsame hlone
        exact ⟨fun hm => hsame (by rw [hm]; rfl), hlone⟩
      rw [Quoted.read_swap hc hrest hopen]
      rw [before, mk.injEq] at h
      obtain ⟨ht, -, hres, hws⟩ := h
      rw [before, ← ht, ← hres, ← hws]
      rfl
    · simp [string?, hc] at h

theorem mark?_holds : Holds mark? := by
  refine .of_head (q := fun c => (markOf? c).isSome) (fun c s => ?_) mark?_splits
    fun {c s x x' l} h _ _ => ?_
  · simp [mark?]
  · obtain ⟨t, ht, he⟩ := Option.map_eq_some_iff.1 h
    have hrest : s = l.rest := List.append_cancel_right (congrArg Lexeme.rest he)
    obtain rfl : plain t [c] s = l := before_inj (r := x) he
    simp [mark?, ht, plain, before]

theorem whitespace?_holds : Holds whitespace? := by
  refine .of_head (q := isBlank) (fun c s => ?_) whitespace?_splits fun {c s x x' l} h hx _ => ?_
  · by_cases hc : isBlank c = true <;> simp [whitespace?, hc]
  · simp only [whitespace?] at h ⊢
    by_cases he : ((c :: s ++ x).takeWhile isBlank).isEmpty = true
    · rw [if_pos he] at h
      simp at h
    · rw [if_neg he, Option.some.injEq] at h
      have hrest : (c :: s ++ x).dropWhile isBlank = l.rest ++ x := congrArg Lexeme.rest h
      obtain ⟨hd, ht⟩ := while_swap hrest fun _ => hx.stops uniform_isBlank
      rw [hd, ht, if_neg he]
      rw [hrest] at h
      exact congrArg some (before_swap h)

/-- A sign with something behind it. -/
theorem holds_signed {p : Text → Option Lexeme} {q : Text → Option (Text × Text)} (sign : Char)
    (token : Text → Token) (hq : Swaps q) (hp : Splits p)
    (hcons : ∀ s, p (sign :: s) = (q s).map fun x => plain (token x.1) (sign :: x.1) x.2)
    (hother : ∀ s, s.head? ≠ some sign → p s = none) : Holds p where
  none {s x x'} h hs hx := by
    obtain ⟨c, t, rfl⟩ := List.exists_cons_of_ne_nil hs
    by_cases hc : c = sign
    · subst hc
      rw [List.cons_append, hcons, Option.map_eq_none_iff] at h ⊢
      exact hq.none h hx
    · exact hother _ (by simpa using hc)
  some {s x x' l} h hx _ := by
    rcases s with _ | ⟨c, s⟩
    · exact (not_split_self (hp h)).elim
    · by_cases hc : c = sign
      · subst hc
        rw [List.cons_append, hcons] at h ⊢
        obtain ⟨⟨a, t⟩, ha, he⟩ := Option.map_eq_some_iff.1 h
        obtain rfl : t = l.rest ++ x := congrArg Lexeme.rest he
        rw [hq.some ha hx]
        exact congrArg some (before_swap he)
      · rw [hother _ (by simpa using hc)] at h
        simp at h

theorem hash?_holds : Holds hash? := by
  refine holds_signed '#' (fun name => .hash ('#' :: name)) swaps_hashName? hash?_splits
    (fun _ => rfl) fun s hs => ?_
  unfold hash?
  split
  · simp at hs
  · rfl

theorem atKeyword?_holds : Holds atKeyword? := by
  refine holds_signed '@' .atKeyword swaps_name? atKeyword?_splits (fun _ => rfl) fun s hs => ?_
  unfold atKeyword?
  split
  · simp at hs
  · rfl

theorem attrMatch?_other {c : Char} {s : Text} (h : s.head? ≠ some '=') :
    attrMatch? (c :: s) = none := by
  unfold attrMatch?
  split
  · rename_i heq
    obtain rfl := (List.cons.inj heq).2
    simp at h
  · rfl

theorem attrMatch?_holds : Holds attrMatch? where
  none {s x x'} h hs hx := by
    obtain ⟨c, t, rfl⟩ := List.exists_cons_of_ne_nil hs
    by_cases hd : (t ++ x').head? = some '='
    · have hd0 := (head?_swap hx (by decide) rfl).1 hd
      obtain ⟨y, hy⟩ := List.head?_eq_some_iff.1 hd
      obtain ⟨y0, hy0⟩ := List.head?_eq_some_iff.1 hd0
      rw [List.cons_append, hy0, attrMatch?, Option.map_eq_none_iff] at h
      rw [List.cons_append, hy, attrMatch?, h]
      rfl
    · exact attrMatch?_other hd
  some {s x x' l} h hx _ := by
    obtain ⟨c, y, m, hy, hm, he⟩ : ∃ c y m, s ++ x = c :: '=' :: y ∧
        AttrMatch.ofSign? c = some m ∧ plain (.attrMatch m) [c, '='] y = l.before x := by
      unfold attrMatch? at h
      split at h
      · rename_i c y heq
        obtain ⟨m, hm, he⟩ := Option.map_eq_some_iff.1 h
        exact ⟨c, y, m, heq, hm, he⟩
      · simp at h
    obtain rfl : y = l.rest ++ x := congrArg Lexeme.rest he
    have hs : s = c :: '=' :: l.rest := List.append_cancel_right hy
    rw [hs, List.cons_append, List.cons_append, attrMatch?, hm]
    exact congrArg some (before_swap he)

theorem cdo?_holds : Holds cdo? := by
  refine holds_word (t := .cdo) (c := '<') ['!', '-', '-'] (fun _ => rfl) (fun s => ?_)
    (by simp [isLoose]) (by simp [isBlank])
  unfold cdo?
  split
  · simp
  · rename_i hno
    refine iff_of_true rfl ?_
    rintro ⟨z, rfl⟩
    exact hno z rfl

theorem cdc?_holds : Holds cdc? := by
  refine holds_word (t := .cdc) (c := '-') ['-', '>'] (fun _ => rfl) (fun s => ?_)
    (by simp [isLoose]) (by simp [isBlank])
  unfold cdc?
  split
  · simp
  · rename_i hno
    refine iff_of_true rfl ?_
    rintro ⟨z, rfl⟩
    exact hno z rfl

theorem delim?_holds : Holds delim? :=
  .of_head (q := fun _ => true) (fun c s => by simp [delim?]) delim?_splits
    fun {c s x x' l} h _ _ => by
      obtain rfl : plain (.delim c) [c] s = l := before_inj (r := x) (Option.some.inj h)
      rfl

/-! ### Numbers, names and urls -/

/-- What a reader takes, and what then comes behind it. -/
theorem holds_behind {α : Type} {q : Text → Option (α × Text)} {f : α → Text → Lexeme}
    (hq : Swaps q) (hsuf : ∀ a t, (f a t).rest <:+ t)
    (hf : ∀ {a : α} {t x x' : Text} {l : Lexeme}, f a (t ++ x) = l.before x → Alike x x' →
      (l.before x).Clear x x' → f a (t ++ x') = l.before x') :
    Holds fun s => (q s).map fun x => f x.1 x.2 where
  none h _ hx := by
    rw [Option.map_eq_none_iff] at h ⊢
    exact hq.none h hx
  some {s x x' l} h hx hl := by
    obtain ⟨⟨a, t⟩, ha, he⟩ := Option.map_eq_some_iff.1 h
    obtain ⟨t, rfl⟩ : x <:+ t := by
      have hrest := hsuf a t
      rw [show f a t = l.before x from he, before_rest] at hrest
      exact (List.suffix_append l.rest x).trans hrest
    rw [hq.some ha hx]
    exact congrArg Option.some (hf he hx hl)

/-- A lexeme in front of an end begins in front of it. -/
theorem exists_append_of_before {l l' : Lexeme} {t x : Text} (h : l' = l.before x)
    (hsuf : l'.rest <:+ t) : ∃ m, t = m ++ x := by
  rw [h, before_rest] at hsuf
  obtain ⟨m, hm⟩ := (List.suffix_append l.rest x).trans hsuf
  exact ⟨m, hm.symm⟩

theorem numericEnd_swap {n : Numeral} {t x x' : Text} {l : Lexeme}
    (h : numericEnd n (t ++ x) = l.before x) (hx : Alike x x') :
    numericEnd n (t ++ x') = l.before x' := by
  have hhead := head?_swap (s := t) (c := '%') hx (by decide) rfl
  by_cases hp : (t ++ x).head? = some '%'
  · rcases t with _ | ⟨c, t⟩
    · obtain ⟨y, rfl⟩ := List.head?_eq_some_iff.1 hp
      exact absurd h (not_before_self (List.suffix_refl y))
    · obtain rfl : c = '%' := by simpa using hp
      exact before_swap h
  · rw [numericEnd_other hp] at h
    rw [numericEnd_other (fun hp' => hp (hhead.1 hp'))]
    rcases hu : name? (t ++ x) with _ | ⟨unit, r⟩
    · rw [hu] at h
      rw [swaps_name?.none hu hx]
      exact before_swap h
    · rw [hu] at h
      obtain rfl : r = l.rest ++ x := congrArg Lexeme.rest h
      rw [swaps_name?.some hu hx]
      exact before_swap h

theorem numeric?_holds : Holds numeric? :=
  holds_behind (f := numericEnd) Numeral.swaps_read? numericEnd_suffix fun h hx _ =>
    numericEnd_swap h hx

/-- The end of a url, with no blanks in front. -/
theorem endUrl_swap {text m x x' : Text} {ws : List Warning} {l : Lexeme}
    (h : endUrl text (m ++ x) ws = l.before x) (hx : Alike x x')
    (hm : m = [] → ∀ c ∈ x.head?, isBlank c = false) (hurl : ∀ n, ⟨.openUrl, n⟩ ∉ l.warnings) :
    endUrl text (m ++ x') ws = l.before x' := by
  rcases m with _ | ⟨c, m⟩
  · cases hx with
    | @same c y y' _ =>
      rw [List.nil_append, endUrl] at h ⊢
      by_cases hc : c = ')'
      · rw [if_pos hc] at h
        exact absurd h (not_before_self (List.suffix_refl y))
      · rw [if_neg hc] at h ⊢
        exact before_swap (m := []) h
    | @blank b y y' hb =>
      have hnot : isBlank b = false := hm rfl b rfl
      simp [hb] at hnot
    | slash =>
      -- the text was over, and the url open
      have hw := congrArg Lexeme.warnings h
      exfalso
      apply hurl text.size
      rw [show l.warnings = (l.before []).warnings from rfl, ← h]
      simp [endUrl]
  · rw [List.cons_append, endUrl] at h ⊢
    by_cases hc : c = ')'
    · rw [if_pos hc] at h ⊢
      exact before_swap h
    · rw [if_neg hc] at h ⊢
      exact before_swap (m := c :: m) h

/-- The blanks in front of the end of a url stay, and so does the end. -/
theorem endUrl_blanks_swap {text t x x' : Text} {ws : List Warning} {l : Lexeme}
    (h : endUrl (text ++ (t ++ x).takeWhile isBlank) ((t ++ x).dropWhile isBlank) ws = l.before x)
    (hx : Alike x x') (hurl : ∀ n, ⟨.openUrl, n⟩ ∉ l.warnings) :
    endUrl (text ++ (t ++ x').takeWhile isBlank) ((t ++ x').dropWhile isBlank) ws =
      l.before x' := by
  obtain ⟨m, hm⟩ := exists_append_of_before h (endUrl_suffix _ _ _)
  obtain ⟨hd, ht⟩ := while_swap hm fun _ => hx.stops uniform_isBlank
  rw [hd, ht]
  rw [hm] at h
  refine endUrl_swap h hx (fun h0 c hc => ?_) hurl
  rw [h0, List.nil_append] at hm
  have hnot := List.head?_dropWhile_not isBlank (t ++ x)
  rw [hm, Option.mem_def.1 hc] at hnot
  simpa using hnot

/-- A quote or a backslash where a url without quotes is not over. -/
def isWrongInUrl (c : Char) : Bool := isQuote c || c = '\\'

theorem uniform_isWrongInUrl : Uniform isWrongInUrl := uniform_of_space rfl rfl

/-- It is a fault, and is taken. -/
theorem readBareUrl_wrong {text rest r : Text} {c : Char} (h : rest.dropWhile isUrlChar = c :: r)
    (hc : isWrongInUrl c = true) :
    readBareUrl text rest = ⟨text ++ rest.takeWhile isUrlChar ++ [c], r,
      .error ⟨if isQuote c then .urlQuote else .urlEscape,
        (text ++ rest.takeWhile isUrlChar).size⟩, []⟩ := by
  unfold readBareUrl
  rw [h]
  by_cases hq : isQuote c = true
  · simp [hq]
  · have hb : c = '\\' := by simpa [isWrongInUrl, hq] using hc
    simp [hb, isQuote]

/-- Otherwise the url ends, behind blanks. -/
theorem readBareUrl_ends {text rest : Text}
    (h : ∀ c ∈ (rest.dropWhile isUrlChar).head?, isWrongInUrl c = false) :
    readBareUrl text rest =
      endUrl (text ++ rest.takeWhile isUrlChar ++ (rest.dropWhile isUrlChar).takeWhile isBlank)
        ((rest.dropWhile isUrlChar).dropWhile isBlank) [] := by
  unfold readBareUrl
  rcases hr : rest.dropWhile isUrlChar with _ | ⟨c, r⟩
  · simp
  · rw [hr] at h
    have hc := h c rfl
    rw [isWrongInUrl, Bool.or_eq_false_iff, decide_eq_false_iff_not] at hc
    simp [hc.1, hc.2]

theorem readBareUrl_swap {text t x x' : Text} {l : Lexeme}
    (h : readBareUrl text (t ++ x) = l.before x) (hx : Alike x x')
    (hurl : ∀ n, ⟨.openUrl, n⟩ ∉ l.warnings) : readBareUrl text (t ++ x') = l.before x' := by
  obtain ⟨m, hm⟩ := exists_append_of_before h (readBareUrl_suffix text (t ++ x))
  have hne : m ++ x ≠ [] := by
    intro h0
    apply hurl (text ++ (t ++ x).takeWhile isUrlChar).size
    rw [show l.warnings = (l.before x).warnings from rfl, ← h, readBareUrl, hm, h0]
    simp [endUrl]
  have hstops : m = [] → (∀ c ∈ x.head?, isUrlChar c = false) →
      ∀ c ∈ x'.head?, isUrlChar c = false := fun hnil hstop => by
    -- a slash may be part of a url, but only a url that is open comes to where it stands
    subst hnil
    cases hx with
    | same => exact hstop
    | blank =>
      intro c hc
      obtain rfl : ' ' = c := Option.some.inj hc
      rfl
    | slash => exact absurd rfl hne
  obtain ⟨hd, ht⟩ := while_swap hm hstops
  by_cases hwrong : ∀ c ∈ (m ++ x).head?, isWrongInUrl c = false
  · have hwrong' := hx.stops_append uniform_isWrongInUrl hwrong
    rw [← hm] at hwrong
    rw [← hd] at hwrong'
    rw [readBareUrl_ends hwrong, hm] at h
    rw [readBareUrl_ends hwrong', hd, ht]
    exact endUrl_blanks_swap h hx hurl
  · simp only [not_forall, Bool.not_eq_false] at hwrong
    obtain ⟨c, hc, hcw⟩ := hwrong
    rcases m with _ | ⟨d, m⟩
    · obtain ⟨y, rfl⟩ := List.head?_eq_some_iff.1 hc
      rw [readBareUrl_wrong hm hcw] at h
      exact absurd h (not_before_self (List.suffix_refl y))
    · obtain rfl : d = c := Option.some.inj hc
      rw [readBareUrl_wrong hm hcw] at h
      rw [readBareUrl_wrong hd hcw, ht]
      exact before_swap h

/-- A string as the target of a url. -/
theorem readUrl_quote {text rest r : Text} {c : Char} (h : rest.dropWhile isBlank = c :: r)
    (hc : isQuote c = true) : readUrl text rest =
      quotedUrlEnd (text ++ rest.takeWhile isBlank) (Quoted.read c r) := by
  unfold readUrl
  rw [h]
  exact if_pos hc

/-- Any other target. -/
theorem readUrl_bare {text rest : Text}
    (h : ∀ c ∈ (rest.dropWhile isBlank).head?, isQuote c = false) : readUrl text rest =
      readBareUrl (text ++ rest.takeWhile isBlank) (rest.dropWhile isBlank) := by
  unfold readUrl
  rcases hr : rest.dropWhile isBlank with _ | ⟨c, r⟩
  · simp [readBareUrl]
  · rw [hr] at h
    have hc : isQuote c = false := h c rfl
    simp [hc]

theorem uniform_isQuote : Uniform isQuote := uniform_of_space rfl rfl

/-- A url with a string as its target, if the string was not cut off where that
makes a difference. -/
theorem quotedUrlEnd_swap {taken t x x' : Text} {c : Char} {l : Lexeme} (hc : isQuote c = true)
    (h : quotedUrlEnd taken (Quoted.read c (t ++ x)) = l.before x) (hx : Alike x x')
    (hl : (l.before x).Clear x x') :
    quotedUrlEnd taken (Quoted.read c (t ++ x')) = l.before x' := by
  obtain ⟨m, hm⟩ := exists_append_of_before h (quotedUrlEnd_suffix taken _)
  have hopen : (Quoted.read c (t ++ x)).closed = false →
      (m = [] → x.head? = x'.head?) ∧ m ++ x ≠ ['\\'] := fun hopen => by
    have hw : ⟨.openString, taken.size⟩ ∈ (l.before x).warnings := by
      have hmem : ⟨.openString, taken.size⟩ ∈ openString taken.size (Quoted.read c (t ++ x)) := by
        simp [openString, hopen]
      rw [← h, quotedUrlEnd]
      unfold endUrl
      split
      · exact List.mem_append_left _ hmem
      · split <;> exact hmem
    have hall : (l.before x).text ++ (l.before x).rest = taken ++ c :: (t ++ x) := by
      rw [← h, quotedUrlEnd]
      refine (endUrl_split _ ?_ (by simp [Quoted.text_ne_nil])).1
      rw [List.append_assoc, List.takeWhile_append_dropWhile, List.append_assoc,
        Quoted.read_split]
    obtain ⟨hsame, hlone⟩ := hl.string taken c (t ++ x) hw hall
    rw [hm] at hsame hlone
    exact ⟨fun h0 => hsame (by rw [h0]; rfl), hlone⟩
  rw [quotedUrlEnd, hm] at h
  rw [Quoted.read_swap hc hm hopen, quotedUrlEnd]
  exact endUrl_blanks_swap h hx hl.url

theorem readUrl_swap {text t x x' : Text} {l : Lexeme} (h : readUrl text (t ++ x) = l.before x)
    (hx : Alike x x') (hl : (l.before x).Clear x x') : readUrl text (t ++ x') = l.before x' := by
  obtain ⟨m, hm⟩ := exists_append_of_before h (readUrl_suffix text (t ++ x))
  obtain ⟨hd, ht⟩ := while_swap hm fun _ => hx.stops uniform_isBlank
  by_cases hquote : ∀ c ∈ (m ++ x).head?, isQuote c = false
  · have hquote' := hx.stops_append uniform_isQuote hquote
    rw [← hm] at hquote
    rw [← hd] at hquote'
    rw [readUrl_bare hquote, hm] at h
    rw [readUrl_bare hquote', hd, ht]
    exact readBareUrl_swap h hx hl.url
  · simp only [not_forall, Bool.not_eq_false] at hquote
    obtain ⟨c, hc, hcq⟩ := hquote
    rcases m with _ | ⟨d, m⟩
    · obtain ⟨y, rfl⟩ := List.head?_eq_some_iff.1 hc
      rw [readUrl_quote hm hcq] at h
      have hsuf := (quotedUrlEnd_suffix (text ++ (t ++ c :: y).takeWhile isBlank) _).trans
        (Quoted.read_rest_suffix c y)
      exact absurd h (not_before_self hsuf)
    · obtain rfl : d = c := Option.some.inj hc
      rw [readUrl_quote hm hcq] at h
      rw [readUrl_quote hd hcq, ht]
      exact quotedUrlEnd_swap hcq h hx hl

theorem identEnd_swap {name t x x' : Text} {l : Lexeme} (h : identEnd name (t ++ x) = l.before x)
    (hx : Alike x x') (hl : (l.before x).Clear x x') :
    identEnd name (t ++ x') = l.before x' := by
  have hhead := head?_swap (s := t) (c := '(') hx (by decide) rfl
  by_cases hp : (t ++ x).head? = some '('
  · rcases t with _ | ⟨c, t⟩
    · obtain ⟨y, rfl⟩ := List.head?_eq_some_iff.1 hp
      exact absurd h (not_before_self (identEnd_paren_suffix name y))
    · obtain rfl : c = '(' := by simpa using hp
      rw [List.cons_append, identEnd_paren] at h ⊢
      by_cases hn : isUrlName name = true
      · rw [if_pos hn] at h ⊢
        exact readUrl_swap h hx hl
      · rw [if_neg hn] at h ⊢
        exact before_swap h
  · rw [identEnd_other hp] at h
    rw [identEnd_other (fun hp' => hp (hhead.1 hp'))]
    exact before_swap h

theorem identLike?_holds : Holds identLike? :=
  holds_behind (f := identEnd) swaps_name? identEnd_suffix identEnd_swap

/-! ### All productions -/

theorem findSome?_swap {ps : List (Text → Option Lexeme)} (h : ∀ p ∈ ps, Holds p)
    {s x x' : Text} {l : Lexeme} (hs : s ≠ []) (hx : Alike x x') (hl : (l.before x).Clear x x')
    (hp : ps.findSome? (fun p => p (s ++ x)) = some (l.before x)) :
    ps.findSome? (fun p => p (s ++ x')) = some (l.before x') := by
  induction ps with
  | nil => simp at hp
  | cons p ps ih =>
    have hhold : Holds p := h p List.mem_cons_self
    rw [List.findSome?_cons] at hp ⊢
    rcases hl' : p (s ++ x) with _ | l'
    · rw [hl'] at hp
      rw [hhold.none hl' hs hx]
      exact ih (fun q hq => h q (List.mem_cons_of_mem p hq)) hp
    · rw [hl'] at hp
      obtain rfl : l' = l.before x := Option.some.inj hp
      rw [hhold.some hl' hx hl]

/-- **A lexeme stays when the end of its text is exchanged** for one that looks
alike, if nothing that it tolerates depends on the end. -/
theorem read_swap {s x x' : Text} {l : Lexeme} (h : read (s ++ x) = some (l.before x))
    (hx : Alike x x') (hl : (l.before x).Clear x x') : read (s ++ x') = some (l.before x') := by
  have hs : s ≠ [] := by
    rintro rfl
    have hself := read_split h
    exact not_split_self hself
  refine findSome?_swap (fun p hp => ?_) hs hx hl h
  simp only [productions, List.mem_cons, List.not_mem_nil, or_false] at hp
  rcases hp with rfl | rfl | rfl | rfl | rfl | rfl | rfl | rfl | rfl | rfl | rfl | rfl
  · exact unicodeRange?_holds
  · exact string?_holds
  · exact mark?_holds
  · exact whitespace?_holds
  · exact hash?_holds
  · exact atKeyword?_holds
  · exact numeric?_holds
  · exact identLike?_holds
  · exact attrMatch?_holds
  · exact cdo?_holds
  · exact cdc?_holds
  · exact delim?_holds

end Lexeme
end CssReader
