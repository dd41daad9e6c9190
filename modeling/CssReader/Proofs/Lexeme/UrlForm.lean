/-
# The grammar of urls

What a url is depends on what follows its name and its parenthesis, in four places:
behind the blanks in front of the target, where the target ends, and behind the blanks
behind it; and the target itself may be a string. `Url.Form` lists what may be there,
and for each case what is taken of the text, what the url is found to be and what is
left; `Url.Tail` does so for what may follow a target. Every text has such a form, and
the reader of urls goes by it.

No other lexeme is a url, and none has a fault of a url: what is tried before names finds
nothing where the name of a url is, and no production gives the tokens of another one
(`Lexeme.productionOf`).

Key definitions: `Url.Tail`, `Url.Form`, `Lexeme.IsUrl`, `Lexeme.productionOf`.
Key theorems: `Url.exists_form`, `Url.Form.split`, `Url.Form.readUrl`,
`Lexeme.read_production`, `Lexeme.read_urlName`, `Lexeme.read_url`, `Lexeme.delim_ascii`.
-/
import CssReader.Token.Parts
import CssReader.Proofs.Lexis.QuotedEnd
import CssReader.Proofs.Lexeme.Recode
import CssReader.Proofs.Lexeme.Ended

namespace CssReader

/-- A beginning of a class of characters, in front of what does not begin with it. -/
theorem Text.span_append {p : Char → Bool} {b u : Text} (hb : ∀ c ∈ b, p c = true)
    (hu : ∀ c ∈ u.head?, p c = false) : (b ++ u).takeWhile p = b ∧ (b ++ u).dropWhile p = u := by
  rw [List.takeWhile_append_of_pos hb, List.dropWhile_append_of_pos hb]
  rcases u with _ | ⟨c, u⟩
  · simp
  · have hc : p c = false := hu c rfl
    simp [hc]

/-- Every text is such a beginning, and what follows it. -/
theorem Text.exists_span (p : Char → Bool) (s : Text) :
    ∃ b u, s = b ++ u ∧ (∀ c ∈ b, p c = true) ∧ ∀ c ∈ u.head?, p c = false :=
  ⟨s.takeWhile p, s.dropWhile p, List.takeWhile_append_dropWhile.symm,
    fun _ => List.mem_takeWhile_imp, fun _ => Lexeme.head?_dropWhile_false⟩

namespace Url

/-- Nothing but blanks. -/
def IsBlanks (b : Text) : Prop := ∀ c ∈ b, isBlank c = true

/-- Characters of a target without quotes: no closing parenthesis, no blank, no quote and
no backslash. -/
def IsBare (m : Text) : Prop :=
  ∀ c ∈ m, c ≠ ')' ∧ isBlank c = false ∧ isQuote c = false ∧ c ≠ '\\'

/-- Behind the target of a url comes the text `s`: the url takes `taken`, and either ends
well or has a fault there; it leaves `rest`. -/
inductive Tail : (s taken : Text) → (fault? : Option FaultKind) → (rest : Text) → Prop
  | finish {b : Text} : IsBlanks b → Tail b b none []
  | close {b r : Text} : IsBlanks b → Tail (b ++ ')' :: r) (b ++ [')']) none r
  /-- What is there instead of the parenthesis is not taken. -/
  | wrong {b r : Text} {c : Char} : IsBlanks b → isBlank c = false → c ≠ ')' →
    Tail (b ++ c :: r) b (some .malformedUrl) (c :: r)

/-- Behind the name of a url and its parenthesis comes the text `s`: the url takes `taken`,
and either ends well or has a fault there, and then takes `wrong` too; it leaves `rest`. -/
inductive Form : (s taken wrong : Text) → (fault? : Option FaultKind) → (rest : Text) → Prop
  /-- The target is a string. -/
  | quoted {b s string left tail rest : Text} {q : Char} {closed : Bool}
    {fault? : Option FaultKind} : IsBlanks b → isQuote q = true →
    Quoted.Ends q s string closed left → Tail left tail fault? rest →
    Form (b ++ q :: s) (b ++ q :: string ++ tail) [] fault? rest
  /-- The text ends, perhaps in front of the target. -/
  | finish {b m : Text} : IsBlanks b → IsBare m → Form (b ++ m) (b ++ m) [] none []
  | close {b m r : Text} : IsBlanks b → IsBare m →
    Form (b ++ m ++ ')' :: r) (b ++ m ++ [')']) [] none r
  /-- A quote in the target. -/
  | quote {b m r : Text} {c : Char} : IsBlanks b → IsBare m → m ≠ [] → isQuote c = true →
    Form (b ++ m ++ c :: r) (b ++ m) [c] (some .urlQuote) r
  | escape {b m r : Text} : IsBlanks b → IsBare m →
    Form (b ++ m ++ '\\' :: r) (b ++ m) ['\\'] (some .urlEscape) r
  /-- Blanks behind the target. -/
  | blank {b m r tail rest : Text} {c : Char} {fault? : Option FaultKind} : IsBlanks b →
    IsBare m → m ≠ [] → isBlank c = true → Tail (c :: r) tail fault? rest →
    Form (b ++ m ++ c :: r) (b ++ m ++ tail) [] fault? rest

/-- The token or the fault that a url is, if it has taken `taken` up to its end or up to
the fault. -/
def result (taken : Text) : Option FaultKind → Except Fault Token
  | none => .ok (.url taken)
  | some k => .error ⟨k, Text.size taken⟩

end Url

open Url

/-- The lexeme is a url, or a fault of one, that takes `taken` and then `wrong`. -/
structure Lexeme.IsUrl (l : Lexeme) (taken wrong : Text) (fault? : Option FaultKind)
    (rest : Text) : Prop where
  text : l.text = taken ++ wrong
  rest : l.rest = rest
  result : l.result = Url.result taken fault?

namespace Url

variable {s taken wrong rest : Text} {fault? : Option FaultKind}

theorem isUrlChar_iff {c : Char} : Lexeme.isUrlChar c = true ↔
    c ≠ ')' ∧ isBlank c = false ∧ isQuote c = false ∧ c ≠ '\\' := by
  simp [Lexeme.isUrlChar, and_assoc]

/-! ### Every text has a form -/

theorem exists_tail (s : Text) : ∃ taken fault? rest, Tail s taken fault? rest := by
  obtain ⟨b, u, rfl, hb, hu⟩ := Text.exists_span isBlank s
  rcases u with _ | ⟨c, r⟩
  · rw [List.append_nil]
    exact ⟨_, _, _, .finish hb⟩
  · by_cases hclose : c = ')'
    · subst hclose
      exact ⟨_, _, _, .close hb⟩
    · exact ⟨_, _, _, .wrong hb (hu c rfl) hclose⟩

/-- What ends a target without quotes. -/
theorem stop_cases {c : Char} (h : Lexeme.isUrlChar c = false) :
    c = ')' ∨ c = '\\' ∨ isQuote c = true ∨ isBlank c = true := by
  by_contra hc
  simp only [not_or, Bool.not_eq_true] at hc
  obtain ⟨hclose, hback, hquote, hblank⟩ := hc
  rw [isUrlChar_iff.2 ⟨hclose, hblank, hquote, hback⟩] at h
  simp at h

/-- A url whose target is no string has a form. If it ends well, its target is all that may
stand in one without quotes. -/
theorem exists_form_bare {b u : Text} (hb : IsBlanks b)
    (hu : ∀ c ∈ u.head?, isBlank c = false ∧ isQuote c = false) :
    ∃ taken wrong fault? rest, Form (b ++ u) taken wrong fault? rest ∧
      (fault? = none → ∃ left tail, Tail left tail none rest ∧
        taken = b ++ u.takeWhile Lexeme.isUrlChar ++ tail) := by
  obtain ⟨m, w, rfl, hm, hw⟩ := Text.exists_span Lexeme.isUrlChar u
  have hbare : IsBare m := fun c hc => isUrlChar_iff.1 (hm c hc)
  have hblanks : IsBlanks [] := by simp [IsBlanks]
  rw [← List.append_assoc, (Text.span_append hm hw).1]
  rcases w with _ | ⟨c, r⟩
  · rw [List.append_nil]
    refine ⟨_, _, _, _, .finish hb hbare, fun _ => ⟨[], [], .finish hblanks, ?_⟩⟩
    rw [List.append_nil]
  · -- without a target nothing but the parenthesis or a backslash can be there
    have hne : isQuote c = true ∨ isBlank c = true → m ≠ [] := by
      rintro hc rfl
      obtain ⟨hblank, hquote⟩ := hu c rfl
      simp [hblank, hquote] at hc
    rcases stop_cases (hw c rfl) with rfl | rfl | hquote | hblank
    · exact ⟨_, _, _, _, .close hb hbare, fun _ => ⟨_, [')'], .close hblanks, rfl⟩⟩
    · exact ⟨_, _, _, _, .escape hb hbare, by simp⟩
    · exact ⟨_, _, _, _, .quote hb hbare (hne (.inl hquote)) hquote, by simp⟩
    · obtain ⟨tail, fault?, rest, htail⟩ := exists_tail (c :: r)
      refine ⟨_, _, _, _, .blank hb hbare (hne (.inr hblank)) hblank htail, ?_⟩
      rintro rfl
      exact ⟨_, tail, htail, rfl⟩

/-- **Whatever follows the parenthesis of a url, it has a form.** -/
theorem exists_form (s : Text) : ∃ taken wrong fault? rest, Form s taken wrong fault? rest := by
  obtain ⟨b, u, rfl, hb, hu⟩ := Text.exists_span isBlank s
  by_cases hq : ∃ q ∈ u.head?, isQuote q = true
  · obtain ⟨q, hhead, hq⟩ := hq
    obtain ⟨v, rfl⟩ := List.head?_eq_some_iff.1 hhead
    obtain ⟨string, hends, -⟩ := Quoted.exists_ends hq v
    obtain ⟨tail, fault?, rest, htail⟩ := exists_tail (Quoted.read q v).rest
    exact ⟨_, _, _, _, .quoted hb hq hends htail⟩
  · have hhead : ∀ c ∈ u.head?, isBlank c = false ∧ isQuote c = false := by
      intro c hc
      refine ⟨hu c hc, ?_⟩
      rw [← Bool.not_eq_true]
      exact fun hquote => hq ⟨c, hc, hquote⟩
    obtain ⟨taken, wrong, fault?, rest, hform, -⟩ := exists_form_bare hb hhead
    exact ⟨taken, wrong, fault?, rest, hform⟩

/-! ### What a form says -/

theorem Tail.split (h : Tail s taken fault? rest) : s = taken ++ rest := by
  cases h with
  | finish => exact (List.append_nil s).symm
  | close => rw [List.append_assoc, List.singleton_append]
  | wrong => rfl

/-- A url takes the beginning of the text and leaves the rest. -/
theorem Form.split (h : Form s taken wrong fault? rest) : s = taken ++ (wrong ++ rest) := by
  cases h with
  | quoted _ _ hends htail =>
    rw [hends.split, htail.split]
    simp
  | finish => simp
  | close => rw [List.nil_append, List.append_assoc _ [')'], List.singleton_append]
  | quote | escape => rfl
  | blank _ _ _ _ htail => rw [htail.split, List.nil_append, List.append_assoc _ _ rest]

/-- What is taken behind the end of a url is taken of a fault. -/
theorem Form.wrong_nil (h : Form s taken wrong fault? rest) (hnone : fault? = none) :
    wrong = [] := by
  cases h with
  | quoted | finish | close | blank => rfl
  | quote | escape => simp at hnone

/-! ### The reader goes by the form -/

theorem Tail.endUrl (h : Tail s taken fault? rest) (text : Text) (ws : List Warning) :
    (Lexeme.endUrl (text ++ s.takeWhile isBlank) (s.dropWhile isBlank) ws).IsUrl
      (text ++ taken) [] fault? rest := by
  cases h with
  | finish hb =>
    obtain ⟨htake, hdrop⟩ := Text.span_append (u := []) hb (by simp)
    rw [List.append_nil] at htake hdrop
    rw [htake, hdrop]
    exact ⟨(List.append_nil _).symm, rfl, rfl⟩
  | close hb =>
    obtain ⟨htake, hdrop⟩ := Text.span_append (u := ')' :: rest) hb (by simp [isBlank])
    rw [htake, hdrop, ← List.append_assoc]
    exact ⟨(List.append_nil _).symm, rfl, rfl⟩
  | @wrong _ r c hb hc hclose =>
    obtain ⟨htake, hdrop⟩ := Text.span_append (u := c :: r) hb (by simpa using hc)
    rw [htake, hdrop, Lexeme.endUrl, if_neg hclose]
    exact ⟨(List.append_nil _).symm, rfl, rfl⟩

/-- Without a quote in front of its target a url is read without quotes. -/
theorem readUrl_bare (text : Text) {b m w : Text} (hb : IsBlanks b) (hm : IsBare m)
    (hfirst : m = [] → ∀ c ∈ w.head?, isBlank c = false ∧ isQuote c = false) :
    Lexeme.readUrl text (b ++ m ++ w) = Lexeme.readBareUrl (text ++ b) (m ++ w) := by
  have hhead : ∀ c ∈ (m ++ w).head?, isBlank c = false ∧ isQuote c = false := by
    rcases m with _ | ⟨c, m⟩
    · exact hfirst rfl
    · intro d hd
      obtain rfl : c = d := Option.some.inj hd
      obtain ⟨-, hblank, hquote, -⟩ := hm c List.mem_cons_self
      exact ⟨hblank, hquote⟩
  obtain ⟨htake, hdrop⟩ := Text.span_append hb fun c hc => (hhead c hc).1
  rw [List.append_assoc, Lexeme.readUrl_bare, htake, hdrop]
  rw [hdrop]
  exact fun c hc => (hhead c hc).2

/-- What is at the end of a target without quotes is a fault, or the end of the url is behind
the blanks there. -/
theorem readBareUrl_stop (text : Text) {m r : Text} {c : Char} (hm : IsBare m)
    (hc : Lexeme.isUrlChar c = false) : Lexeme.readBareUrl text (m ++ c :: r) =
      if Lexeme.isWrongInUrl c then
        ⟨text ++ m ++ [c], r,
          .error ⟨if isQuote c then .urlQuote else .urlEscape, (text ++ m).size⟩, []⟩
      else
        Lexeme.endUrl (text ++ m ++ (c :: r).takeWhile isBlank) ((c :: r).dropWhile isBlank) [] := by
  obtain ⟨htake, hdrop⟩ :=
    Text.span_append (u := c :: r) (fun d hd => isUrlChar_iff.2 (hm d hd)) (by simpa using hc)
  by_cases hwrong : Lexeme.isWrongInUrl c = true
  · rw [if_pos hwrong, Lexeme.readBareUrl_wrong hdrop hwrong, htake]
  · rw [if_neg hwrong, Lexeme.readBareUrl_ends, htake, hdrop]
    rw [hdrop]
    simpa using hwrong

/-- **The reader of urls goes by the form of what follows the parenthesis.** -/
theorem Form.readUrl (h : Form s taken wrong fault? rest) (text : Text) :
    (Lexeme.readUrl text s).IsUrl (text ++ taken) wrong fault? rest := by
  cases h with
  | @quoted b s string left tail _ q closed _ hb hq hends htail =>
    obtain ⟨htext, -, hleft⟩ := (Quoted.ends_iff hq).1 hends
    obtain ⟨htake, hdrop⟩ :=
      Text.span_append (u := q :: s) hb (by simpa using Quoted.isQuote_not_blank hq)
    have hend := htail.endUrl (text ++ b ++ q :: string)
      (Lexeme.openString (Text.size (text ++ b)) (Quoted.read q s))
    rw [Lexeme.readUrl_quote hdrop hq, htake, Lexeme.quotedUrlEnd, htext, hleft]
    simpa [List.append_assoc] using hend
  | @finish b m hb hm =>
    have hread := readUrl_bare text (w := []) hb hm (by simp)
    obtain ⟨htake, hdrop⟩ :=
      Text.span_append (u := []) (fun c hc => isUrlChar_iff.2 (hm c hc)) (by simp)
    rw [List.append_nil] at htake hdrop
    rw [List.append_nil, List.append_nil] at hread
    rw [hread, Lexeme.readBareUrl, htake, hdrop]
    exact ⟨by simp [Lexeme.endUrl], rfl, by simp [Lexeme.endUrl, result]⟩
  | close hb hm =>
    have hright : ¬Lexeme.isWrongInUrl ')' = true := by decide
    rw [readUrl_bare text hb hm (by simp [isBlank, isQuote]), readBareUrl_stop _ hm rfl,
      if_neg hright]
    exact ⟨by simp [Lexeme.endUrl, isBlank], rfl, by simp [Lexeme.endUrl, result, isBlank]⟩
  | quote hb hm hne hc =>
    rw [readUrl_bare text hb hm fun h => absurd h hne,
      readBareUrl_stop _ hm (by simp [Lexeme.isUrlChar, hc]),
      if_pos (by simp [Lexeme.isWrongInUrl, hc]), if_pos hc]
    exact ⟨by simp, rfl, by simp [result]⟩
  | escape hb hm =>
    have hwrong : Lexeme.isWrongInUrl '\\' = true := rfl
    rw [readUrl_bare text hb hm (by simp [isBlank, isQuote]), readBareUrl_stop _ hm rfl,
      if_pos hwrong]
    exact ⟨by simp, rfl, by simp [result, isQuote]⟩
  | @blank b m r tail _ c _ hb hm hne hc htail =>
    have hright : Lexeme.isWrongInUrl c = false := of_isBlank hc (by decide)
    have hend := htail.endUrl (text ++ b ++ m) []
    rw [readUrl_bare text hb hm fun h => absurd h hne,
      readBareUrl_stop _ hm (by simp [Lexeme.isUrlChar, hc]), if_neg (by simp [hright])]
    simpa [List.append_assoc] using hend

end Url

namespace Lexeme

variable {s : Text} {l : Lexeme}

/-! ### Where tokens come from -/

/-- The production that a token comes from. -/
def productionOf : Token → Text → Option Lexeme
  | .string _ => string?
  | .opening _ | .closing _ | .comma | .colon | .semicolon => mark?
  | .whitespace => whitespace?
  | .hash _ => hash?
  | .atKeyword _ => atKeyword?
  | .number _ | .percentage _ | .dimension _ => numeric?
  | .ident _ | .function _ _ | .url _ => identLike?
  | .attrMatch _ => attrMatch?
  | .cdo => cdo?
  | .cdc => cdc?
  | .delim _ => delim?

/-- The token is the one that the lexeme was made of. -/
theorem production_ok {tok tok' : Token} {p : Text → Option Lexeme} (hp : productionOf tok = p)
    (h : (Except.ok tok : Except Fault Token) = .ok tok') : productionOf tok' = p := by
  obtain rfl : tok = tok' := Except.ok.inj h
  exact hp

theorem markOf?_production {c : Char} {tok : Token} (h : markOf? c = some tok) :
    productionOf tok = mark? := by
  have hm := List.mem_of_find?_eq_some h
  simp only [List.mem_cons, List.not_mem_nil, or_false] at hm
  rcases hm with rfl | rfl | rfl | rfl | rfl | rfl | rfl | rfl | rfl <;> rfl

theorem numericEnd_production {n : Numeral} {r : Text} {tok : Token}
    (h : (numericEnd n r).result = .ok tok) : productionOf tok = numeric? := by
  by_cases hp : r.head? = some '%'
  · obtain ⟨r, rfl⟩ := List.head?_eq_some_iff.1 hp
    exact production_ok rfl h
  · rw [numericEnd_other hp] at h
    rcases hu : name? r with _ | ⟨unit, r'⟩
    · rw [hu] at h
      exact production_ok rfl h
    · rw [hu] at h
      exact production_ok rfl h

theorem identEnd_production {name r : Text} {tok : Token}
    (h : (identEnd name r).result = .ok tok) : productionOf tok = identLike? := by
  by_cases hp : r.head? = some '('
  · obtain ⟨r, rfl⟩ := List.head?_eq_some_iff.1 hp
    rw [identEnd_paren] at h
    by_cases hn : isUrlName name = true
    · obtain ⟨taken, wrong, fault?, rest, hform⟩ := Url.exists_form r
      rw [if_pos hn, (hform.readUrl _).result] at h
      cases fault? with
      | none => exact production_ok rfl h
      | some k => simp [Url.result] at h
    · rw [if_neg hn] at h
      exact production_ok rfl h
  · rw [identEnd_other hp] at h
    exact production_ok rfl h

/-- A production gives no tokens but its own. -/
theorem production_eq {p : Text → Option Lexeme} {tok : Token} (hp : p ∈ productions)
    (h : p s = some l) (hl : l.result = .ok tok) : productionOf tok = p := by
  simp only [productions, List.mem_cons, List.not_mem_nil, or_false] at hp
  rcases hp with rfl | rfl | rfl | rfl | rfl | rfl | rfl | rfl | rfl | rfl | rfl | rfl
  · obtain ⟨u, c, t, -, -, rfl⟩ := unicodeRange?_eq_some h
    simp at hl
  · obtain ⟨c, r, -, -, rfl⟩ := string?_eq_some h
    exact production_ok rfl hl
  · unfold mark? at h
    split at h
    · simp at h
    · obtain ⟨t, ht, rfl⟩ := Option.map_eq_some_iff.1 h
      exact production_ok (markOf?_production ht) hl
  · simp only [whitespace?] at h
    split at h <;> cases h
    exact production_ok rfl hl
  · unfold hash? at h
    split at h
    · obtain ⟨_, -, rfl⟩ := Option.map_eq_some_iff.1 h
      exact production_ok rfl hl
    · simp at h
  · unfold atKeyword? at h
    split at h
    · obtain ⟨_, -, rfl⟩ := Option.map_eq_some_iff.1 h
      exact production_ok rfl hl
    · simp at h
  · obtain ⟨⟨n, r⟩, -, rfl⟩ := Option.map_eq_some_iff.1 h
    exact numericEnd_production hl
  · obtain ⟨⟨name, r⟩, -, rfl⟩ := Option.map_eq_some_iff.1 h
    exact identEnd_production hl
  · unfold attrMatch? at h
    split at h
    · obtain ⟨_, -, rfl⟩ := Option.map_eq_some_iff.1 h
      exact production_ok rfl hl
    · simp at h
  · unfold cdo? at h
    split at h <;> cases h
    exact production_ok rfl hl
  · unfold cdc? at h
    split at h <;> cases h
    exact production_ok rfl hl
  · unfold delim? at h
    split at h <;> cases h
    exact production_ok rfl hl

/-- **A token tells which production it comes from.** -/
theorem read_production {tok : Token} (h : read s = some l) (hl : l.result = .ok tok) :
    productionOf tok s = some l := by
  obtain ⟨p, hp, h⟩ := List.exists_of_findSome?_eq_some h
  rw [production_eq hp h hl]
  exact h

/-- No production up to that of names takes whatever character there is. -/
theorem ne_delim? {p : Text → Option Lexeme} (hp : p ∈ beforeNames ++ [identLike?]) :
    p ≠ delim? := by
  have hnone : ∀ p ∈ beforeNames ++ [identLike?], p ['!'] = none := by
    simp only [beforeNames, List.cons_append, List.nil_append, List.forall_mem_cons,
      List.not_mem_nil, false_implies, implies_true, and_true]
    with_unfolding_all exact ⟨rfl, rfl, rfl, rfl, rfl, rfl, rfl, rfl⟩
  rintro rfl
  have hdelim := hnone delim? hp
  simp [delim?] at hdelim

end Lexeme

/-! ### Names of urls -/

/-- A letter is in upper case or in lower case. -/
theorem eq_or_eq_of_toLower {c b : Char} (hb : IsUpper b) (h : c.toLower = b.toLower) :
    c = b.toLower ∨ c = b := by
  by_cases hc : IsUpper c
  · right
    have hval := congrArg Char.val h
    rw [hc.val_toLower, hb.val_toLower] at hval
    exact Char.ext ((UInt32.add_left_inj _).1 hval)
  · left
    rwa [toLower_of_not_isUpper hc] at h

namespace Lexeme

variable {s name t : Text} {l : Lexeme}

theorem isUrlName_cases (h : isUrlName name = true) : ∃ u r c, name = [u, r, c] ∧
    (u = 'u' ∨ u = 'U') ∧ (r = 'r' ∨ r = 'R') ∧ (c = 'l' ∨ c = 'L') := by
  obtain ⟨u, r, c, rfl⟩ := (isUrlName_ascii h).1
  simp only [isUrlName, List.map_cons, List.map_nil, List.cons.injEq, and_true,
    decide_eq_true_eq] at h
  obtain ⟨hu, hr, hc⟩ := h
  have hu' := eq_or_eq_of_toLower (b := 'U') (by decide) hu
  have hr' := eq_or_eq_of_toLower (b := 'R') (by decide) hr
  have hc' := eq_or_eq_of_toLower (b := 'L') (by decide) hc
  exact ⟨u, r, c, rfl, hu', hr', hc'⟩

/-- Without its name and its parenthesis, which take four bytes, a url is what is between its
parentheses. -/
theorem urlBody_eq (h : isUrlName name = true) (u : Text) :
    Token.urlBody (name ++ '(' :: u) = trimEnds isBlank (stripLast ')' u) := by
  have hsize : Text.size (name ++ ['(']) = 4 := by
    obtain ⟨a, b, c, rfl, ha, hb, hc⟩ := isUrlName_cases h
    rcases ha with rfl | rfl <;> rcases hb with rfl | rfl <;> rcases hc with rfl | rfl <;> rfl
  have hdrop := Text.dropBytes?_size_append (name ++ ['(']) u
  rw [hsize, List.append_assoc, List.singleton_append] at hdrop
  rw [Token.urlBody, hdrop]
  rfl

/-- The characters of a name are read up to what is none. -/
theorem nameTail_append {m : Text} (hm : ∀ c ∈ m, isNameChar c = true) (r : Text) :
    nameTail (m ++ r) = (m ++ (nameTail r).1, (nameTail r).2) := by
  induction m with
  | nil => rfl
  | cons c m ih =>
    obtain ⟨hc, hm⟩ := List.forall_mem_cons.1 hm
    have hunit : nameUnit? (c :: (m ++ r)) = some ([c], m ++ r) := by simp [nameUnit?, hc]
    rw [List.cons_append, nameTail_some hunit, ih hm]
    rfl

/-- The name of a url is read as a name. -/
theorem name?_urlName (h : isUrlName name = true) (t : Text) :
    name? (name ++ '(' :: t) = some (name, '(' :: t) := by
  obtain ⟨u, r, c, rfl, hu, hr, hc⟩ := isUrlName_cases h
  have hrc : ∀ d ∈ [r, c], isNameChar d = true := by
    rw [List.forall_mem_cons, List.forall_mem_singleton]
    constructor
    · rcases hr with rfl | rfl <;> rfl
    · rcases hc with rfl | rfl <;> rfl
  have hstop : nameTail ('(' :: t) = ([], '(' :: t) := nameTail_none rfl
  have htail : nameTail ([r, c] ++ '(' :: t) = ([r, c], '(' :: t) := by
    rw [nameTail_append hrc, hstop]
    rfl
  have hhead : nameHead? (u :: ([r, c] ++ '(' :: t)) = some ([u], [r, c] ++ '(' :: t) := by
    rcases hu with rfl | rfl <;> rfl
  have hhyphen : u ≠ '-' := by rcases hu with rfl | rfl <;> decide
  show name? (u :: ([r, c] ++ '(' :: t)) = some ([u, r, c], '(' :: t)
  rw [name?_cons hhyphen, hhead, Option.map_some, htail]
  rfl

/-- Nothing that is tried before names begins as the name of a url does. -/
theorem beforeNames_urlName (h : isUrlName name = true) (t : Text) :
    (beforeNames.findSome? fun p => p (name ++ t)) = none := by
  obtain ⟨u, r, c, rfl, hu, hr, -⟩ := isUrlName_cases h
  rcases hu with rfl | rfl <;> rcases hr with rfl | rfl <;> rfl

/-- **A url begins where its name and a parenthesis are.** -/
theorem read_urlName (h : isUrlName name = true) (t : Text) :
    read (name ++ '(' :: t) = some (readUrl (name ++ ['(']) t) := by
  have hident : identLike? (name ++ '(' :: t) = some (identEnd name ('(' :: t)) := by
    rw [identLike?, name?_urlName h]
    rfl
  rw [read_eq, beforeNames_urlName h, Option.none_or, List.findSome?_cons, hident, identEnd_paren,
    if_pos h]

/-- Only a name can begin a fault, ranges of characters apart. -/
theorem identLike?_of_fault {f : Fault} (h : read s = some l) (hl : l.result = .error f)
    (hf : f.kind ≠ .unicodeRange) : identLike? s = some l := by
  rcases read_cases h with h | h | h | ⟨t, ht, -⟩
  · exact h
  · obtain ⟨c, r, -, -, rfl⟩ := string?_eq_some h
    simp at hl
  · obtain ⟨u, c, t, -, -, rfl⟩ := unicodeRange?_eq_some h
    obtain rfl := Except.error.inj hl
    exact absurd rfl hf
  · rw [ht] at hl
    simp [plain] at hl

/-- **Nothing else is a url, or has a fault of a url.** -/
theorem read_url (h : read s = some l) (hl : (∃ v, l.result = .ok (.url v)) ∨
    ∃ f, l.result = .error f ∧ f.kind ≠ .unicodeRange) :
    ∃ name t, isUrlName name = true ∧ s = name ++ '(' :: t := by
  have hident : identLike? s = some l := by
    rcases hl with ⟨v, hv⟩ | ⟨f, hf, hkind⟩
    · exact read_production h hv
    · exact identLike?_of_fault h hf hkind
  obtain ⟨⟨name, r⟩, hname, rfl⟩ := Option.map_eq_some_iff.1 hident
  change (∃ v, (identEnd name r).result = .ok (.url v)) ∨
    ∃ f, (identEnd name r).result = .error f ∧ f.kind ≠ .unicodeRange at hl
  have hs := (name?_split hname).1
  by_cases hp : r.head? = some '('
  · obtain ⟨t, rfl⟩ := List.head?_eq_some_iff.1 hp
    rw [identEnd_paren] at hl
    by_cases hn : isUrlName name = true
    · exact ⟨name, t, hn, hs.symm⟩
    · rw [if_neg hn] at hl
      simp [plain] at hl
  · rw [identEnd_other hp] at hl
    simp [plain] at hl

/-- **A url has its name and a parenthesis in front.** -/
theorem url_text {v : Text} (h : read s = some l) (hl : l.result = .ok (.url v)) :
    ∃ name u, isUrlName name = true ∧ v = name ++ '(' :: u := by
  obtain ⟨name, t, hn, rfl⟩ := read_url h (.inl ⟨v, hl⟩)
  obtain ⟨taken, wrong, fault?, rest, hform⟩ := Url.exists_form t
  rw [read_urlName hn] at h
  obtain rfl := Option.some.inj h
  have hres := (hform.readUrl (name ++ ['('])).result
  rw [hl] at hres
  refine ⟨name, taken, hn, ?_⟩
  cases fault? with
  | none =>
    have hv : v = name ++ ['('] ++ taken := Token.url.inj (Except.ok.inj hres)
    simpa using hv
  | some k => simp [Url.result] at hres

/-! ### Single characters -/

/-- No name begins where a character is a token by itself. -/
theorem identLike?_of_delim {c : Char} (h : read s = some l) (hl : l.result = .ok (.delim c)) :
    identLike? s = none := by
  by_contra hne
  obtain ⟨l', hl'⟩ := Option.ne_none_iff_exists'.1 hne
  have hread : ((beforeNames ++ [identLike?]).findSome? fun p => p s) = some l := by
    rw [read_eq, List.findSome?_cons, hl'] at h
    rw [List.findSome?_append, List.findSome?_cons, hl']
    exact h
  obtain ⟨p, hp, hps⟩ := List.exists_of_findSome?_eq_some hread
  have hmem : p ∈ productions := List.mem_append_left [attrMatch?, cdo?, cdc?, delim?] hp
  exact ne_delim? hp (production_eq hmem hps hl).symm

/-- **A character that is a token by itself can begin no name**, so it is an ASCII character. -/
theorem delim_ascii {c : Char} (h : read s = some l) (hl : l.result = .ok (.delim c)) :
    c.toNat < 128 := by
  have hshown := read_shows h _ hl
  have htext : l.text = [c] := by simpa [Token.ShownBy, Token.text] using hshown
  have hs := (read_split h).1
  have hi := identLike?_of_delim h hl
  by_contra hc
  have hstart : isNameStart c = true := by simp [isNameStart, Nat.not_lt.1 hc]
  have hhyphen : c ≠ '-' := by
    rintro rfl
    exact hc (by decide)
  rw [← hs, htext, List.singleton_append, identLike?, Option.map_eq_none_iff, name?_cons hhyphen,
    Option.map_eq_none_iff, nameHead?, if_pos hstart] at hi
  simp at hi

end Lexeme
end CssReader
