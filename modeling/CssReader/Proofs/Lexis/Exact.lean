/-
# Readers find just what their grammars say

A reader is applied to a text at a byte position: it reads the text that begins there, and
gives the position behind what it found. Grammars say which slices of the text there are to
be found. `Exact` says that the two agree: something is found if and only if a slice that
begins there is in the grammar, and then it is the longest of them.

This holds of the readers of names, numerals, blanks and strings. The reader of comments
finds the shortest slice in the grammar, since a comment ends with the first star and slash.
That each reader finds what its pattern finds is no reason for this: of a pattern that is
tried in order the first match counts, whether it is the longest or not.

Key definitions: `Grammar.endAt`, `Grammar.IsLongest`, `Grammar.Exact`.
Key theorem: `Grammar.readers_exact`.
-/
import CssReader.Proofs.Lexis.Patterns

open scoped Computability

namespace CssReader

/-! ### Slices -/

namespace Text

variable {s w v : Text} {n p e : Nat}

theorem size_le_size (h : w <+: v) : size w ≤ size v := by
  obtain ⟨x, rfl⟩ := h
  rw [size_append]
  omega

theorem takeBytes?_eq_some : takeBytes? n s = some w ↔ w <+: s ∧ size w = n := by
  constructor
  · intro h
    induction s generalizing n w with
    | nil =>
      rcases n with _ | n
      · obtain rfl := Option.some.inj h
        exact ⟨List.prefix_rfl, rfl⟩
      · simp [takeBytes?] at h
    | cons c s ih =>
      rcases n with _ | n
      · obtain rfl := Option.some.inj h
        exact ⟨List.nil_prefix, rfl⟩
      · rw [takeBytes?] at h
        by_cases hc : c.utf8Size ≤ n + 1
        · rw [if_pos hc] at h
          obtain ⟨w, hw, rfl⟩ := Option.map_eq_some_iff.1 h
          obtain ⟨hpre, hsize⟩ := ih hw
          refine ⟨List.cons_prefix_cons.2 ⟨rfl, hpre⟩, ?_⟩
          rw [size_cons, hsize]
          omega
        · rw [if_neg hc] at h
          simp at h
  · rintro ⟨⟨t, rfl⟩, rfl⟩
    exact takeBytes?_size_append w t

/-- A slice that is not empty is a beginning of what is behind its first position. -/
theorem slice_eq_iff (hw : w ≠ []) :
    slice s p e = w ↔ ∃ t, dropBytes? p s = some t ∧ w <+: t ∧ e = p + size w := by
  unfold slice
  constructor
  · intro h
    by_cases hpe : p ≤ e
    · rw [if_pos hpe] at h
      rcases hd : dropBytes? p s with _ | t
      · rw [hd] at h
        exact absurd h.symm hw
      · rw [hd, Option.bind_some] at h
        rcases ht : takeBytes? (e - p) t with _ | w'
        · rw [ht] at h
          exact absurd h.symm hw
        · rw [ht] at h
          obtain rfl : w' = w := h
          obtain ⟨hpre, hsize⟩ := takeBytes?_eq_some.1 ht
          exact ⟨t, rfl, hpre, by omega⟩
    · rw [if_neg hpe] at h
      exact absurd h.symm hw
  · rintro ⟨t, hd, hpre, rfl⟩
    have ht : takeBytes? (p + size w - p) t = some w := takeBytes?_eq_some.2 ⟨hpre, by omega⟩
    rw [if_pos (Nat.le_add_right _ _), hd, Option.bind_some, ht]
    rfl

end Text

namespace Grammar

open Text

/-- The position behind what a reader finds at byte `p` of the text. -/
def endAt (read : Text → Option Text) (s : Text) (p : Nat) : Option Nat :=
  ((s.dropBytes? p).bind read).map fun l => p + l.size

/-- The text from byte `p` to byte `e` is not empty, and it is in the grammar. -/
def Matches (L : Language Char) (s : Text) (p e : Nat) : Prop :=
  s.slice p e ≠ [] ∧ s.slice p e ∈ L

/-- Of all slices from byte `p` that are in the grammar, the one to byte `e` is longest. -/
def IsLongest (L : Language Char) (s : Text) (p e : Nat) : Prop :=
  Matches L s p e ∧ ∀ e', Matches L s p e' → e' ≤ e

/-- Of all slices from byte `p` that are in the grammar, the one to byte `e` is shortest. -/
def IsShortest (L : Language Char) (s : Text) (p e : Nat) : Prop :=
  Matches L s p e ∧ ∀ e', Matches L s p e' → e ≤ e'

/-- At byte `p` of the text the reader finds something exactly if there is something to be
found, and then it finds the longest. -/
structure Exact (read : Text → Option Text) (L : Language Char) (s : Text) (p : Nat) : Prop where
  found : (∃ e, endAt read s p = some e) ↔ ∃ e, Matches L s p e
  longest : ∀ e, endAt read s p = some e ↔ IsLongest L s p e

variable {read : Text → Option Text} {L : Language Char} {s : Text} {p e : Nat}

theorem endAt_eq_some : endAt read s p = some e ↔
    ∃ t l, s.dropBytes? p = some t ∧ read t = some l ∧ p + size l = e := by
  unfold endAt
  constructor
  · intro h
    obtain ⟨l, hl, rfl⟩ := Option.map_eq_some_iff.1 h
    obtain ⟨t, ht, hread⟩ := Option.bind_eq_some_iff.1 hl
    exact ⟨t, l, ht, hread, rfl⟩
  · rintro ⟨t, l, ht, hl, rfl⟩
    rw [ht, Option.bind_some, hl, Option.map_some]

/-- What matches from a position is a beginning of the text behind it. -/
theorem matches_iff : Matches L s p e ↔
    ∃ t w, s.dropBytes? p = some t ∧ w ∈ L ∧ w ≠ [] ∧ w <+: t ∧ p + size w = e := by
  constructor
  · rintro ⟨hne, hmem⟩
    obtain ⟨t, ht, hw, he⟩ := (slice_eq_iff hne).1 rfl
    exact ⟨t, _, ht, hmem, hne, hw, he.symm⟩
  · rintro ⟨t, w, ht, hmem, hne, hw, rfl⟩
    have hslice : s.slice p (p + size w) = w := (slice_eq_iff hne).2 ⟨t, ht, hw, rfl⟩
    exact ⟨by rwa [hslice], by rwa [hslice]⟩

/-- A reader that finds the longest beginnings is exact at every position. -/
theorem Finds.exact (h : Finds read L) (s : Text) (p : Nat) : Exact read L s p where
  found := by
    constructor
    · rintro ⟨e, he⟩
      obtain ⟨t, l, ht, hl, rfl⟩ := endAt_eq_some.1 he
      obtain ⟨hmem, hne, hpre⟩ := h.mem hl
      exact ⟨_, matches_iff.2 ⟨t, l, ht, hmem, hne, hpre, rfl⟩⟩
    · rintro ⟨e, he⟩
      obtain ⟨t, w, ht, hmem, hne, hpre, -⟩ := matches_iff.1 he
      obtain ⟨l, hl, -⟩ := h.longest hmem hne hpre
      exact ⟨_, endAt_eq_some.2 ⟨t, l, ht, hl, rfl⟩⟩
  longest e := by
    constructor
    · intro he
      obtain ⟨t, l, ht, hl, rfl⟩ := endAt_eq_some.1 he
      obtain ⟨hmem, hne, hpre⟩ := h.mem hl
      refine ⟨matches_iff.2 ⟨t, l, ht, hmem, hne, hpre, rfl⟩, fun e' he' => ?_⟩
      obtain ⟨t', w, ht', hw, hwne, hwpre, rfl⟩ := matches_iff.1 he'
      obtain rfl := Option.some.inj (ht.symm.trans ht')
      obtain ⟨l', hl', hle⟩ := h.longest hw hwne hwpre
      obtain rfl := Option.some.inj (hl.symm.trans hl')
      exact Nat.add_le_add_left (size_le_size hle) p
    · rintro ⟨hm, hmax⟩
      obtain ⟨t, w, ht, hw, hwne, hwpre, rfl⟩ := matches_iff.1 hm
      obtain ⟨l, hl, hle⟩ := h.longest hw hwne hwpre
      obtain ⟨hmem, hne, hpre⟩ := h.mem hl
      have := hmax _ (matches_iff.2 ⟨t, l, ht, hmem, hne, hpre, rfl⟩)
      have hwl := size_le_size hle
      exact endAt_eq_some.2 ⟨t, l, ht, hl, by omega⟩

/-! ### Comments -/

section
variable {l r t w : Text}

theorem mem_comment : w ∈ comment ↔ ∃ body, w = '/' :: '*' :: (body ++ ['*', '/']) := by
  rw [comment, mul_assoc]
  constructor
  · rintro ⟨_, rfl, _, ⟨body, -, _, rfl, rfl⟩, rfl⟩
    exact ⟨body, rfl⟩
  · rintro ⟨body, rfl⟩
    exact ⟨['/', '*'], rfl, body ++ ['*', '/'],
      ⟨body, mem_kstar_oneOf.2 fun _ _ => trivial, ['*', '/'], rfl, rfl⟩, rfl⟩

/-- A comment ends with the first star and slash, so no beginning of the text that is
shorter has a comment's ends. -/
theorem comment_shortest (h : Comment.read? t = some (l, r)) (hw : w ∈ comment) (hpre : w <+: t) :
    l <+: w := by
  obtain ⟨hsplit, -⟩ := Comment.read?_split h
  obtain ⟨body, rfl, hfirst⟩ := Comment.read?_isWhole h
  obtain ⟨body', rfl⟩ := mem_comment.1 hw
  rcases List.prefix_or_prefix_of_prefix ⟨r, hsplit⟩ hpre with hle | ⟨x, hx⟩
  · exact hle
  · -- what is behind the shorter one is empty: it would hold the first star and slash
    simp only [List.cons_append, List.nil_append, List.cons.injEq, true_and] at hx
    rcases List.eq_nil_or_concat x with rfl | ⟨x, c, rfl⟩
    · rw [List.append_nil] at hx
      rw [hx]
      exact List.prefix_rfl
    · refine absurd ⟨body', x, ?_⟩ hfirst
      rw [List.concat_eq_append, ← List.append_assoc,
        show body ++ ['*', '/'] = body ++ ['*'] ++ ['/'] by simp] at hx
      exact (List.append_inj' hx rfl).1

theorem exists_read_comment (hw : w ∈ comment) (hpre : w <+: t) :
    ∃ l r, Comment.read? t = some (l, r) := by
  obtain ⟨body, rfl⟩ := mem_comment.1 hw
  obtain ⟨r, rfl⟩ := hpre
  have hclose : Comment.close? (body ++ ['*', '/'] ++ r) ≠ none := fun h =>
    Comment.close?_eq_none.1 h ⟨body, r, rfl⟩
  obtain ⟨⟨l, r'⟩, hl⟩ := Option.ne_none_iff_exists'.1 hclose
  refine ⟨'/' :: '*' :: l, r', ?_⟩
  rw [List.cons_append, List.cons_append, Comment.read?_opens, hl]
  rfl

theorem comment_mem (h : Comment.read? t = some (l, r)) : l ∈ comment := by
  obtain ⟨body, rfl, -⟩ := Comment.read?_isWhole h
  exact mem_comment.2 ⟨body, by simp⟩

theorem endAt_comment_iff (s : Text) (p e : Nat) :
    endAt (fun t => (Comment.read? t).map Prod.fst) s p = some e ↔ IsShortest comment s p e := by
  constructor
  · intro he
    obtain ⟨t, l, ht, hl, rfl⟩ := endAt_eq_some.1 he
    obtain ⟨⟨l, r⟩, hread, rfl⟩ := Option.map_eq_some_iff.1 hl
    obtain ⟨hsplit, hne⟩ := Comment.read?_split hread
    refine ⟨matches_iff.2 ⟨t, l, ht, comment_mem hread, hne, ⟨r, hsplit⟩, rfl⟩, fun e' he' => ?_⟩
    obtain ⟨t', w, ht', hw, -, hpre, rfl⟩ := matches_iff.1 he'
    obtain rfl := Option.some.inj (ht.symm.trans ht')
    exact Nat.add_le_add_left (size_le_size (comment_shortest hread hw hpre)) p
  · rintro ⟨hm, hmin⟩
    obtain ⟨t, w, ht, hw, -, hpre, rfl⟩ := matches_iff.1 hm
    obtain ⟨l, r, hread⟩ := exists_read_comment hw hpre
    obtain ⟨hsplit, hne⟩ := Comment.read?_split hread
    have := hmin _ (matches_iff.2 ⟨t, l, ht, comment_mem hread, hne, ⟨r, hsplit⟩, rfl⟩)
    have hle := size_le_size (comment_shortest hread hw hpre)
    exact endAt_eq_some.2 ⟨t, l, ht, by rw [hread]; rfl, by omega⟩

/-- Where there is a comment in the grammar, there is a shortest one. -/
theorem exists_endAt_comment (h : Matches comment s p e) :
    ∃ e', endAt (fun t => (Comment.read? t).map Prod.fst) s p = some e' := by
  obtain ⟨t, w, ht, hw, -, hpre, -⟩ := matches_iff.1 h
  obtain ⟨l, r, hread⟩ := exists_read_comment hw hpre
  exact ⟨_, endAt_eq_some.2 ⟨t, l, ht, by rw [hread]; rfl, rfl⟩⟩

end

/-! ### Strings -/

/-- The string at byte `p` of the text: the position behind it, and whether it is closed. -/
def stringAt (s : Text) (p : Nat) : Option (Nat × Bool) :=
  ((s.dropBytes? p).bind Lexeme.string?).map fun l => (p + l.text.size, l.warnings.isEmpty)

/-- A string comes without a warning exactly if it has both of its quotes. -/
theorem string?_warnings {t : Text} {l : Lexeme} (h : Lexeme.string? t = some l) :
    l.warnings.isEmpty = true ↔ l.text ∈ closedString '"' + closedString '\'' := by
  unfold Lexeme.string? at h
  split at h
  · simp at h
  · rename_i c t
    by_cases hc : isQuote c = true
    · rw [if_pos hc] at h
      obtain rfl := Option.some.inj h
      have hclosed := read_closed_iff (ne_backslash_of_isQuote hc) t
      have hwarn : (Lexeme.openString 0 (Quoted.read c t)).isEmpty = true ↔
          (Quoted.read c t).closed = true := by
        unfold Lexeme.openString
        split <;> simp_all
      -- the text begins with the quote `c`, and strings with the other one do not
      have hother {q : Char} (hq : (Quoted.read c t).text ∈ closedString q) : q = c := by
        rw [closedString, mul_assoc] at hq
        obtain ⟨_, rfl, b, -, he⟩ := hq
        rw [read_text_eq] at he
        exact (List.cons.inj he).1
      rw [hwarn, hclosed]
      constructor
      · intro hmem
        simp only [isQuote, Bool.or_eq_true, decide_eq_true_eq] at hc
        rcases hc with rfl | rfl
        · exact .inl hmem
        · exact .inr hmem
      · rintro (hmem | hmem)
        · obtain rfl := hother hmem
          exact hmem
        · obtain rfl := hother hmem
          exact hmem
    · rw [if_neg hc] at h
      simp at h

theorem stringAt_eq_some {s : Text} {p e : Nat} {closed : Bool} :
    stringAt s p = some (e, closed) ↔
      endAt (fun t => (Lexeme.string? t).map Lexeme.text) s p = some e ∧
        (closed = true ↔ s.slice p e ∈ closedString '"' + closedString '\'') := by
  unfold stringAt
  constructor
  · intro h
    obtain ⟨l, hl, he⟩ := Option.map_eq_some_iff.1 h
    obtain ⟨rfl, rfl⟩ := Prod.mk.inj he
    obtain ⟨t, ht, hread⟩ := Option.bind_eq_some_iff.1 hl
    obtain ⟨hsplit, hne⟩ := Lexeme.string?_splits hread
    have hslice := (slice_eq_iff hne).2 ⟨t, ht, ⟨_, hsplit⟩, rfl⟩
    rw [hslice]
    exact ⟨endAt_eq_some.2 ⟨t, l.text, ht, by rw [hread]; rfl, rfl⟩, string?_warnings hread⟩
  · rintro ⟨he, hclosed⟩
    obtain ⟨t, w, ht, hw, rfl⟩ := endAt_eq_some.1 he
    obtain ⟨l, hread, rfl⟩ := Option.map_eq_some_iff.1 hw
    obtain ⟨hsplit, hne⟩ := Lexeme.string?_splits hread
    rw [(slice_eq_iff hne).2 ⟨t, ht, ⟨_, hsplit⟩, rfl⟩, ← string?_warnings hread] at hclosed
    rw [ht, Option.bind_some, hread, Option.map_some, Bool.eq_iff_iff.2 hclosed]

/-- **The readers are exact.** They find what their patterns find, where alternatives are
tried in order and repetitions are greedy, or lazy in comments. Still, at every byte of
every text the readers of names, of what follows a hash sign, of numerals, of blanks and of
strings find the longest slice that is in their grammar, and nothing exactly where there is
none. The reader of strings also tells whether the closing quote is there. The reader of
comments finds the shortest slice. -/
theorem readers_exact (s : Text) (p : Nat) :
    (∀ t : Text,
      Pattern.name.first? t = name? t ∧
      Pattern.hashName.first? t = hashName? t ∧
      Pattern.numeral.first? t = (Numeral.read? t).map (fun x => (x.1.text, x.2)) ∧
      Pattern.blanks.first? t = (Lexeme.whitespace? t).map (fun l => (l.text, l.rest)) ∧
      (Pattern.alt (Pattern.string '"') (Pattern.string '\'')).first? t =
        (Lexeme.string? t).map (fun l => (l.text, l.rest)) ∧
      Pattern.comment.first? t = Comment.read? t) ∧
    Exact (fun t => (name? t).map Prod.fst) name s p ∧
    Exact (fun t => (hashName? t).map Prod.fst) hashName s p ∧
    Exact (fun t => (Numeral.read? t).map fun x => x.1.text) numeral s p ∧
    Exact (fun t => (Lexeme.whitespace? t).map Lexeme.text) blanks s p ∧
    (((∃ e closed, stringAt s p = some (e, closed)) ↔
        ∃ e, Matches (string '"' + string '\'') s p e) ∧
      ∀ e closed, stringAt s p = some (e, closed) ↔
        IsLongest (string '"' + string '\'') s p e ∧
          (closed = true ↔ s.slice p e ∈ closedString '"' + closedString '\'')) ∧
    (((∃ e, endAt (fun t => (Comment.read? t).map Prod.fst) s p = some e) ↔
        ∃ e, Matches comment s p e) ∧
      ∀ e, endAt (fun t => (Comment.read? t).map Prod.fst) s p = some e ↔
        IsShortest comment s p e) := by
  have hstring := finds_string.exact s p
  refine ⟨fun t => ⟨Pattern.first?_name t, Pattern.first?_hashName t, Pattern.first?_numeral t,
    Pattern.first?_blanks t, Pattern.first?_strings t, Pattern.first?_comment t⟩,
    finds_name?.exact s p, finds_hashName?.exact s p, finds_numeral.exact s p,
    finds_whitespace.exact s p, ⟨?_, fun e closed => ?_⟩, ⟨?_, endAt_comment_iff s p⟩⟩
  · rw [← hstring.found]
    constructor
    · rintro ⟨e, closed, h⟩
      exact ⟨e, (stringAt_eq_some.1 h).1⟩
    · rintro ⟨e, h⟩
      by_cases hc : s.slice p e ∈ closedString '"' + closedString '\''
      · exact ⟨e, true, stringAt_eq_some.2 ⟨h, iff_of_true rfl hc⟩⟩
      · exact ⟨e, false, stringAt_eq_some.2 ⟨h, iff_of_false Bool.false_ne_true hc⟩⟩
  · rw [stringAt_eq_some, hstring.longest]
  · constructor
    · rintro ⟨e, h⟩
      exact ⟨e, ((endAt_comment_iff s p e).1 h).1⟩
    · rintro ⟨e, h⟩
      exact exists_endAt_comment h

end Grammar
end CssReader
