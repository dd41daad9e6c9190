/-
# Targets of urls

The target of a url is read off the text of its token, which does not say where the
target was found: a closing parenthesis is taken off the end, then the blanks at both
ends, and then the quotes. For a target without quotes, and for a string with both of
its quotes, nothing else is taken off, whatever is in the string and whether the url was
closed or ended with its text.

A string that was not closed may itself end with what is taken off: with a blank, with
an escaped quote, or, where the text ends with it, with a parenthesis. Its target is then
a shorter one. In all other cases it is the string.

Key definitions: `Url.At`, `Url.stripped`.
Key theorems: `Url.Tail.urlBody`, `Url.target_quoted`, `Url.target_bare`,
`Cursor.Kept.url_at`, `Cursor.Reachable.url_target_delimited`,
`Cursor.Reachable.url_target_open`.
-/
import Mathlib.Data.List.DropRight
import CssReader.Proofs.Literals

namespace CssReader

open Url (IsBlanks IsBare Tail Form)

/-! ### What is taken off the ends -/

section
variable {c d : Char} {s : Text}

theorem stripLast_concat (c : Char) (s : Text) : stripLast c (s ++ [c]) = s := by
  simp [stripLast]

/-- Nothing is taken off exactly if the character is not the last one. -/
theorem stripLast_eq_self_iff : stripLast c s = s ↔ s.getLast? ≠ some c := by
  unfold stripLast
  by_cases h : s.getLast? = some c
  · rw [if_pos h]
    have hne : s ≠ [] := by
      rintro rfl
      simp at h
    have hpos := List.length_pos_iff.2 hne
    refine iff_of_false (fun heq => ?_) fun hlast => hlast h
    have hlen := congrArg List.length heq
    rw [List.length_dropLast] at hlen
    omega
  · exact iff_of_true (if_neg h) h

theorem stripLast_isPrefix (c : Char) (s : Text) : stripLast c s <+: s := by
  unfold stripLast
  split
  · exact List.dropLast_prefix s
  · exact List.prefix_refl s

/-- Only what is behind another character is taken off. -/
theorem stripLast_append_cons (hd : d ≠ c) (u s : Text) :
    stripLast c (u ++ d :: s) = u ++ d :: stripLast c s := by
  rcases List.eq_nil_or_concat' s with rfl | ⟨s, e, rfl⟩
  · rw [stripLast_eq_self_iff.2 (by simpa using hd), stripLast_eq_self_iff.2 (by simp)]
  · have hall : u ++ d :: (s ++ [e]) = u ++ d :: s ++ [e] := by simp
    rw [hall]
    by_cases he : e = c
    · subst he
      rw [stripLast_concat, stripLast_concat]
    · have hlast : ∀ v : Text, (v ++ [e]).getLast? ≠ some c := fun v => by simpa using he
      rw [stripLast_eq_self_iff.2 (hlast _), stripLast_eq_self_iff.2 (hlast _), hall]

end

section
variable {α : Type} {p : α → Bool} {a : α} {l b : List α}

theorem rdropWhile_append_of_pos (hb : ∀ a ∈ b, p a = true) :
    (l ++ b).rdropWhile p = l.rdropWhile p := by
  rw [List.rdropWhile, List.reverse_append, List.dropWhile_append_of_pos (by simpa using hb)]
  rfl

theorem rdropWhile_cons (ha : p a = false) (l : List α) :
    (a :: l).rdropWhile p = a :: l.rdropWhile p := by
  induction l using List.reverseRecOn with
  | nil => simp [List.rdropWhile, ha]
  | append_singleton l d ih =>
    rw [← List.cons_append, List.rdropWhile_concat, List.rdropWhile_concat]
    split
    · exact ih
    · rfl

/-- Nothing is taken off exactly if the last element is not of the class. -/
theorem rdropWhile_eq_self_iff :
    l.rdropWhile p = l ↔ ∀ a ∈ l.getLast?, p a = false := by
  rcases List.eq_nil_or_concat' l with rfl | ⟨l, a, rfl⟩
  · simp
  · rw [List.rdropWhile_eq_self_iff, List.getLast?_concat]
    simp

theorem trimEnds_eq_rdropWhile (p : α → Bool) (l : List α) :
    trimEnds p l = (l.dropWhile p).rdropWhile p := rfl

/-- What has its first character in front of blanks, and behind blanks, keeps it. -/
theorem trimEnds_append_cons (hb : ∀ a ∈ b, p a = true) (ha : p a = false) (l : List α) :
    trimEnds p (b ++ a :: l) = a :: l.rdropWhile p := by
  rw [trimEnds_eq_rdropWhile, List.dropWhile_append_of_pos hb,
    List.dropWhile_cons_of_neg (by simp [ha]), rdropWhile_cons ha]

theorem trimEnds_of_pos (hb : ∀ a ∈ b, p a = true) : trimEnds p b = [] := by
  rw [trimEnds_eq_rdropWhile, List.dropWhile_eq_nil_iff.2 hb]
  rfl

theorem trimEnds_append_of_pos (hb : ∀ a ∈ b, p a = true) :
    trimEnds p (l ++ b) = trimEnds p l := by
  rw [trimEnds_eq_rdropWhile, trimEnds_eq_rdropWhile, List.dropWhile_append]
  by_cases hl : (l.dropWhile p).isEmpty = true
  · rw [if_pos hl, List.isEmpty_iff.1 hl, List.dropWhile_eq_nil_iff.2 hb]
  · rw [if_neg hl, rdropWhile_append_of_pos hb]

end

/-! ### The text of a url -/

namespace Url

variable {s before name b m t u string left tail rest : Text} {q : Char}

/-- The parenthesis that closes a url is taken off, and nothing else where the text did not
end right behind the target. -/
theorem Tail.stripLast (h : Tail left tail none rest) (front : Text) :
    ∃ b', IsBlanks b' ∧ stripLast ')' (front ++ tail) =
      (if left = [] then stripLast ')' front else front) ++ b' := by
  cases h with
  | finish hb =>
    refine ⟨left, hb, ?_⟩
    rcases List.eq_nil_or_concat' left with rfl | ⟨b', e, rfl⟩
    · simp
    · have he : isBlank e = true := hb e (by simp)
      rw [if_neg (by simp), stripLast_eq_self_iff]
      rw [← List.append_assoc, List.getLast?_concat]
      rintro heq
      obtain rfl := Option.some.inj heq
      simp [isBlank] at he
  | close hb =>
    refine ⟨_, hb, ?_⟩
    rw [if_neg (by simp), ← List.append_assoc, stripLast_concat]

/-- **What is between the parentheses of a url**, without the blanks at its ends. -/
theorem Tail.urlBody (h : Tail left tail none rest) (hn : Lexeme.isUrlName name = true)
    (front : Text) : Token.urlBody (name ++ '(' :: (front ++ tail)) =
      trimEnds isBlank (if left = [] then CssReader.stripLast ')' front else front) := by
  obtain ⟨b, hb, hstrip⟩ := h.stripLast front
  rw [Lexeme.urlBody_eq hn, hstrip, trimEnds_append_of_pos hb]

/-- What is left of a string behind its quote `q` when all is taken off that the end of a url
could be: a parenthesis, if the text ends behind the string, then blanks, and then a quote. -/
def stripped (q : Char) (string left : Text) : Text :=
  CssReader.stripLast q
    ((if left = [] then CssReader.stripLast ')' string else string).rdropWhile isBlank)

/-- The target of a url whose target is a string, with or without the closing quote. -/
theorem target_quoted (hn : Lexeme.isUrlName name = true) (hb : IsBlanks b)
    (hq : isQuote q = true) (h : Tail left tail none rest) :
    (Token.url (name ++ '(' :: (b ++ q :: string ++ tail))).urlTarget? =
      some (stripped q string left) := by
  have hblank : isBlank q = false := Quoted.isQuote_not_blank hq
  have hparen : q ≠ ')' := by
    rintro rfl
    simp [isQuote] at hq
  have hbody : Token.urlBody (name ++ '(' :: (b ++ q :: string ++ tail)) =
      q :: (if left = [] then stripLast ')' string else string).rdropWhile isBlank := by
    rw [h.urlBody hn]
    split
    · rw [stripLast_append_cons hparen, trimEnds_append_cons hb hblank]
    · rw [trimEnds_append_cons hb hblank]
  rw [Token.urlTarget?, hbody, Token.unquote, if_pos hq, stripped]

/-- From a string that was closed only its closing quote is taken off. -/
theorem stripped_concat (hq : isQuote q = true) (body left : Text) :
    stripped q (body ++ [q]) left = body := by
  have hparen : stripLast ')' (body ++ [q]) = body ++ [q] := by
    rw [stripLast_eq_self_iff, List.getLast?_concat]
    rintro heq
    obtain rfl := Option.some.inj heq
    simp [isQuote] at hq
  rw [stripped, hparen, ite_self, List.rdropWhile_concat_neg _ _ _
    (by simp [Quoted.isQuote_not_blank hq]), stripLast_concat]

theorem stripLast_of_left_isPrefix (string left : Text) :
    (if left = [] then stripLast ')' string else string) <+: string := by
  split
  · exact stripLast_isPrefix ')' string
  · exact List.prefix_refl string

/-- What is left of a string is a beginning of it. -/
theorem stripped_isPrefix (q : Char) (string left : Text) : stripped q string left <+: string :=
  ((stripLast_isPrefix q _).trans (List.rdropWhile_prefix isBlank _)).trans
    (stripLast_of_left_isPrefix string left)

/-- **All of a string is left exactly if its last character is not one that is taken off.** -/
theorem stripped_eq_self_iff : stripped q string left = string ↔
    ∀ c ∈ string.getLast?, isBlank c = false ∧ c ≠ q ∧ (left = [] → c ≠ ')') := by
  have hfirst := stripLast_of_left_isPrefix string left
  unfold stripped
  constructor
  · intro heq c hc
    -- each step leaves a beginning of what it was given, so none of them takes anything off
    generalize hx : (if left = [] then stripLast ')' string else string) = x at heq hfirst
    have hdrop : x.rdropWhile isBlank <+: x := List.rdropWhile_prefix isBlank x
    have hlast : string <+: x.rdropWhile isBlank := heq ▸ stripLast_isPrefix q _
    obtain rfl : x = string := hfirst.eq_of_length_le (hlast.trans hdrop).length_le
    have hself : x.rdropWhile isBlank = x := hdrop.eq_of_length_le hlast.length_le
    rw [hself, stripLast_eq_self_iff] at heq
    refine ⟨rdropWhile_eq_self_iff.1 hself c hc, ?_, fun hleft => ?_⟩
    · rintro rfl
      exact heq hc
    · rw [if_pos hleft, stripLast_eq_self_iff] at hx
      rintro rfl
      exact hx hc
  · intro h
    have hx : (if left = [] then stripLast ')' string else string) = string := by
      split
      · rename_i hleft
        rw [stripLast_eq_self_iff]
        exact fun hlast => (h _ hlast).2.2 hleft rfl
      · rfl
    rw [hx, rdropWhile_eq_self_iff.2 fun c hc => (h c hc).1, stripLast_eq_self_iff]
    exact fun hlast => (h _ hlast).2.1 rfl

theorem IsBare.rdropWhile (hm : IsBare m) : m.rdropWhile isBlank = m := by
  rw [rdropWhile_eq_self_iff]
  intro c hc
  exact (hm c (List.mem_of_getLast? hc)).2.1

/-- The target of a url whose target has no quotes. -/
theorem target_bare (hn : Lexeme.isUrlName name = true) (hb : IsBlanks b) (hm : IsBare m)
    (h : Tail left tail none rest) :
    (Token.url (name ++ '(' :: (b ++ m ++ tail))).urlTarget? = some m := by
  have hparen : stripLast ')' (b ++ m) = b ++ m := by
    rw [stripLast_eq_self_iff]
    intro hlast
    rcases List.mem_append.1 (List.mem_of_getLast? hlast) with hmem | hmem
    · have hblank := hb _ hmem
      simp [isBlank] at hblank
    · exact (hm _ hmem).1 rfl
  have hbody : Token.urlBody (name ++ '(' :: (b ++ m ++ tail)) = m := by
    rw [h.urlBody hn, hparen, ite_self]
    rcases m with _ | ⟨c, m⟩
    · rw [List.append_nil, trimEnds_of_pos hb]
    · have hc : isBlank c = false := (hm c List.mem_cons_self).2.1
      rw [trimEnds_append_cons hb hc, ← rdropWhile_cons hc, hm.rdropWhile]
  rw [Token.urlTarget?, hbody]
  rcases m with _ | ⟨c, m⟩
  · rfl
  · have hc : isQuote c = false := (hm c List.mem_cons_self).2.2.1
    rw [Token.unquote, hc]
    rfl

/-- In the text `s`, behind `before`, are the name of a url, its parenthesis, the blanks `b`,
and then `t`, which does not begin with a blank. -/
structure At (s before name b t : Text) : Prop where
  text : s = before ++ (name ++ '(' :: (b ++ t))
  name : Lexeme.isUrlName name = true
  blanks : IsBlanks b
  head : ∀ c ∈ t.head?, isBlank c = false

end Url

/-! ### Urls in a text -/

namespace Cursor

variable {s before name b t v : Text} {c : Cursor}

/-- **Every url has its name in front, and begins where the step does that gives it.** -/
theorem Kept.url_at (h : c.Kept s) (hp : c.pending = none)
    (hv : c.next.result = .ok (some (.url v))) :
    ∃ before name b t, Url.At s before name b t ∧
      c.next.cursor.tokenStart = Text.size before := by
  obtain ⟨before, r, hs, hstart⟩ := h.next_place
  rcases h.next_at hp hs hstart with ⟨-, hnone⟩ | ⟨l, hl, hres, -⟩
  · rw [hv] at hnone
    simp at hnone
  · obtain ⟨name, u, hn, rfl⟩ :=
      Lexeme.read_url hl (.inl ⟨v, Lexeme.resultAt_eq_some.1 (hres.symm.trans hv)⟩)
    obtain ⟨b, t, rfl, hb, ht⟩ := Text.exists_span isBlank u
    exact ⟨before, name, b, t, ⟨hs, hn, hb, ht⟩, hstart⟩

/-- A url that a step gives is what its form takes. -/
theorem Kept.url_text {u taken wrong rest : Text} {fault? : Option FaultKind} (h : c.Kept s)
    (hp : c.pending = none) (hstart : c.next.cursor.tokenStart = Text.size before)
    (hn : Lexeme.isUrlName name = true) (hs : s = before ++ (name ++ '(' :: u))
    (hv : c.next.result = .ok (some (.url v))) (hform : Form u taken wrong fault? rest) :
    fault? = none ∧ v = name ++ '(' :: taken := by
  have hres := (h.next_url hp hstart hn hs hform).1
  rw [hv] at hres
  cases fault? with
  | none => exact ⟨rfl, Token.url.inj (Option.some.inj (Except.ok.inj hres))⟩
  | some k => simp [Url.found] at hres

/-- The target of a url is the string in it, as far as that is not taken off its end. -/
theorem Kept.urlTarget?_quoted {q : Char} {u string left : Text} {closed : Bool} (h : c.Kept s)
    (hp : c.pending = none) (hstart : c.next.cursor.tokenStart = Text.size before)
    (hat : Url.At s before name b t) (hv : c.next.result = .ok (some (.url v))) (ht : t = q :: u)
    (hq : isQuote q = true) (hends : Quoted.Ends q u string closed left) :
    (Token.url v).urlTarget? = some (Url.stripped q string left) := by
  obtain ⟨tail, fault?, rest, htail⟩ := Url.exists_tail left
  obtain ⟨rfl, rfl⟩ := h.url_text hp hstart hat.name (ht ▸ hat.text) hv
    (.quoted hat.blanks hq hends htail)
  exact Url.target_quoted hat.name hat.blanks hq htail

/-- The target of a url without a string in it is all that may stand there. -/
theorem Kept.urlTarget?_bare (h : c.Kept s) (hp : c.pending = none)
    (hstart : c.next.cursor.tokenStart = Text.size before) (hat : Url.At s before name b t)
    (hv : c.next.result = .ok (some (.url v))) (ht : ∀ q ∈ t.head?, isQuote q = false) :
    (Token.url v).urlTarget? = some (t.takeWhile Lexeme.isUrlChar) := by
  obtain ⟨taken, wrong, fault?, rest, hform, hbare⟩ :=
    Url.exists_form_bare hat.blanks fun c hc => ⟨hat.head c hc, ht c hc⟩
  obtain ⟨rfl, rfl⟩ := h.url_text hp hstart hat.name hat.text hv hform
  obtain ⟨left, tail, htail, rfl⟩ := hbare rfl
  apply Url.target_bare hat.name hat.blanks _ htail
  exact fun c hc => Url.isUrlChar_iff.1 (List.mem_takeWhile_imp hc)

namespace Reachable

/-- **The target of a url is what stands in it**: the text between the quotes, if the first
character behind the blanks is a quote and the string was closed, and without a quote there
all that may stand in a url without quotes. -/
theorem url_target_delimited (h : Reachable s c) (hp : c.pending = none)
    (hv : c.next.result = .ok (some (.url v))) :
    ∃ before name b t, Url.At s before name b t ∧
      c.next.cursor.tokenStart = Text.size before ∧
      (∀ q u body left, t = q :: u → isQuote q = true →
        Quoted.Ends q u (body ++ [q]) true left → (Token.url v).urlTarget? = some body) ∧
      ((∀ q ∈ t.head?, isQuote q = false) →
        (Token.url v).urlTarget? = some (t.takeWhile Lexeme.isUrlChar)) := by
  obtain ⟨before, name, b, t, hat, hstart⟩ := h.kept.url_at hp hv
  refine ⟨before, name, b, t, hat, hstart, fun q u body left ht hq hends => ?_, fun ht => ?_⟩
  · have htarget := h.kept.urlTarget?_quoted hp hstart hat hv ht hq hends
    rwa [Url.stripped_concat hq] at htarget
  · exact h.kept.urlTarget?_bare hp hstart hat hv ht

/-- A string with a parenthesis and a quote of the other kind in it, in a url that ends with
the text. -/
theorem url_target_delimited_end :
    let s := ['u', 'R', 'l', '(', ' ', '"', ')', '\'', '"', ' ']
    let c := Cursor.ofText s
    Reachable s c ∧ c.pending = none ∧ c.next.result = .ok (some (.url s)) ∧
      (Token.url s).urlTarget? = some [')', '\''] ∧
      ∃ before name b t, Url.At s before name b t ∧
        c.next.cursor.tokenStart = Text.size before ∧
        (∀ q u body left, t = q :: u → isQuote q = true →
          Quoted.Ends q u (body ++ [q]) true left → (Token.url s).urlTarget? = some body) ∧
        ((∀ q ∈ t.head?, isQuote q = false) →
          (Token.url s).urlTarget? = some (t.takeWhile Lexeme.isUrlChar)) := by
  intro s c
  have h : Reachable s c := .ofText
  have hp : c.pending = none := rfl
  have hv : c.next.result = .ok (some (.url s)) := by with_unfolding_all rfl
  exact ⟨h, hp, hv, by with_unfolding_all rfl, h.url_target_delimited hp hv⟩

/-- **The target of a url whose string was not closed** is a beginning of that string. It is
all of it exactly if the string does not end with something that is taken off: a blank, an
escaped quote, or a parenthesis where the text ends. -/
theorem url_target_open (h : Reachable s c) (hp : c.pending = none)
    (hv : c.next.result = .ok (some (.url v))) :
    ∃ before name b t, Url.At s before name b t ∧
      c.next.cursor.tokenStart = Text.size before ∧
      ∀ q u string left, t = q :: u → isQuote q = true → Quoted.Ends q u string false left →
        (Token.url v).urlTarget? = some (Url.stripped q string left) ∧
          Url.stripped q string left <+: string ∧
          (Url.stripped q string left = string ↔ ∀ c ∈ string.getLast?,
            isBlank c = false ∧ c ≠ q ∧ (left = [] → c ≠ ')')) := by
  obtain ⟨before, name, b, t, hat, hstart⟩ := h.kept.url_at hp hv
  refine ⟨before, name, b, t, hat, hstart, fun q u string left ht hq hends => ?_⟩
  have htarget := h.kept.urlTarget?_quoted hp hstart hat hv ht hq hends
  exact ⟨htarget, Url.stripped_isPrefix q string left, Url.stripped_eq_self_iff⟩

/-- The blank at the end of a string that a line break cut off is taken for one behind it. -/
theorem url_target_open_blank :
    let s := ['u', 'r', 'l', '(', '"', 'a', ' ', '\n', ')']
    let c := Cursor.ofText s
    Reachable s c ∧ c.pending = none ∧ c.next.result = .ok (some (.url s)) ∧
      (Token.url s).urlTarget? = some ['a'] ∧
      ∃ before name b t, Url.At s before name b t ∧
        c.next.cursor.tokenStart = Text.size before ∧
        ∀ q u string left, t = q :: u → isQuote q = true → Quoted.Ends q u string false left →
          (Token.url s).urlTarget? = some (Url.stripped q string left) ∧
            Url.stripped q string left <+: string ∧
            (Url.stripped q string left = string ↔ ∀ c ∈ string.getLast?,
              isBlank c = false ∧ c ≠ q ∧ (left = [] → c ≠ ')')) := by
  intro s c
  have h : Reachable s c := .ofText
  have hp : c.pending = none := rfl
  have hv : c.next.result = .ok (some (.url s)) := by with_unfolding_all rfl
  exact ⟨h, hp, hv, by with_unfolding_all rfl, h.url_target_open hp hv⟩

/-- A quote, a character and a parenthesis: the string goes on to the end of the text, and the
parenthesis in it is not in the target. -/
theorem url_target_open_parenthesis :
    let s := ['u', 'r', 'l', '(', '"', 'a', ')']
    let c := Cursor.ofText s
    Reachable s c ∧ c.pending = none ∧ c.next.result = .ok (some (.url s)) ∧
      Url.At s [] ['u', 'r', 'l'] [] ['"', 'a', ')'] ∧ c.next.cursor.tokenStart = Text.size [] ∧
      Quoted.Ends '"' ['a', ')'] ['a', ')'] false [] ∧
      (Token.url s).urlTarget? = some ['a'] := by
  intro s c
  refine ⟨.ofText, rfl, by with_unfolding_all rfl, ⟨rfl, by decide, by simp [IsBlanks], ?_⟩,
    by with_unfolding_all rfl, ?_, by with_unfolding_all rfl⟩
  · simp [isBlank]
  · rw [Quoted.ends_iff (by decide)]
    decide

end Reachable

end Cursor
end CssReader
