/-
# Component values stand in their text

The component values that a text is read as, at any depth, have places in it:
they fill it from its beginning to its end, next to each other and inside of
each other, but for what readers pass over (`Parses.laid`).

Rules take their values from one list, so the values of a rule are laid out as
they are there, and those of one rule stand behind those of the rule before
(`Layout.InOrder`).

Key definitions: `Stopped`, `Layout.kept`, `Layout.InOrder`, `Tree.siblings`.
Key theorems: `Parses.laid`, `Layout.Laid.rules`, `Entry.siblings_laid`.
-/
import CssReader.Proofs.Layout

namespace CssReader

/-! ### Readings are laid out -/

namespace NextToken

variable {s span rest : Text} {t : Token} {o : Opener}

theorem span_of_none (h : NextToken s none span rest) : span = [] := by
  generalize hn : (none : Option Token) = t? at h
  induction h with
  | finish => rfl
  | token => simp at hn
  | skip _ _ _ _ ih => exact ih hn

theorem function_text {name text : Text} (h : NextToken s (some (.function name text)) span rest) :
    text = name ++ ['('] := by
  generalize hn : some (Token.function name text) = t? at h
  induction h with
  | finish => simp at hn
  | token hl ht =>
    obtain rfl := Option.some.inj hn
    exact Lexeme.read_namesFunction hl name text ht
  | skip _ _ _ _ ih => exact ih hn

/-- The token of an opener is written as the opener is. -/
theorem span_opener (h : NextToken s (some t) span rest) (ho : Opener.ofToken? t = some o) :
    span = o.text := by
  have hshown := h.shown
  rcases Cursor.ofToken?_eq_some ho with ⟨b, rfl, rfl⟩ | ⟨name, text, rfl, rfl⟩
  · simpa [Token.ShownBy, Token.text, Opener.text] using hshown
  · have htext := h.function_text
    simpa [Token.ShownBy, Token.text, Opener.text, htext] using hshown

end NextToken

/-- How a reading ends in front of `rest`: at a token that stops it and takes
`last`, or with the text. -/
def Stopped (stops : Token → Bool) (stop : Option Token) (last rest : Text) : Prop :=
  match stop with
  | none => last = [] ∧ rest = []
  | some t => stops t = true ∧ t.ShownBy last rest

/-- Nothing stops a reading of nothing. -/
theorem Parses.stop_of_nil {stops : Token → Bool} {rest : Text} {vs : List ComponentValue}
    {stop : Option Token} (h : Parses stops [] vs stop rest) : stop = none := by
  cases h with
  | finish => rfl
  | stop hn _ | token hn _ _ _ | node hn _ _ _ _ => exact absurd hn.length_lt (by simp)

/-- What was opened ends with its closer or with the text. -/
theorem Stopped.closer {o : Opener} {close : Option Token} {last rest : Text}
    (h : Stopped (fun t => t = o.closer) close last rest) :
    (last = if close.isSome then o.closer.text else []) ∧ (close.isSome = false → rest = []) := by
  rcases close with _ | t
  · exact ⟨h.1, fun _ => h.2⟩
  · obtain ⟨ht, hshown⟩ := h
    obtain rfl : t = o.closer := by simpa using ht
    have hne : o.closer ≠ .whitespace := by cases o <;> simp [Opener.closer]
    rw [Token.ShownBy, if_neg hne] at hshown
    exact ⟨hshown, by simp⟩

namespace Layout

theorem Gap.of_passed {before gap after : Text} {blanks : Bool} (h : Passed blanks gap after) :
    Gap (before ++ (gap ++ after)) blanks (Text.size before) (Text.size (before ++ gap)) :=
  ⟨gap, after, ⟨before, rfl, rfl, (Text.size_append _ _).symm⟩, h⟩

/-- The values that an opener keeps of those it encloses. -/
def kept (o : Opener) (ls : List Layout) : List Layout :=
  if o.trims then trimEnds isWhitespace ls else ls

theorem value_node {s text : Text} {a b : Nat} (o : Opener) (closed : Bool) (ls : List Layout)
    (h : s.slice a b = text) :
    value s (.node a b o closed (kept o ls)) = o.node ⟨text, values s ls⟩ := by
  subst h
  cases o with
  | bracket k => exact congrArg (ComponentValue.block k _) (values_trimEnds s ls)
  | function name => rfl

theorem Laid.kept {s : Text} {outer : Bool} {a b : Nat} {ls : List Layout} (o : Opener)
    (h : Laid s outer false false a b ls) : Laid s outer o.trims o.trims a b (kept o ls) := by
  cases o with
  | bracket k => exact h.trimmed
  | function name => exact h

end Layout

open Layout in
/-- **What is read off a text is laid out in it.** -/
theorem Parses.laid {stops : Token → Bool} {s rest source : Text} {vs : List ComponentValue}
    {stop : Option Token} (h : Parses stops s vs stop rest) :
    ∀ {before : Text}, source = before ++ s → ∃ body last ls,
      s = body ++ (last ++ rest) ∧ Stopped stops stop last rest ∧ vs = values source ls ∧
      ∀ outer, (outer = true → stop ≠ none) →
        Laid source outer false false (Text.size before) (Text.size (before ++ body)) ls := by
  induction h with
  | @finish stops s span rest hn =>
    intro before hs
    obtain ⟨gap, rfl, hgap⟩ := hn.passed
    obtain rfl := hn.span_of_none
    obtain rfl := hn.rest_of_none
    refine ⟨gap, [], [], rfl, ⟨rfl, rfl⟩, rfl, fun _ _ => ?_⟩
    subst hs
    rw [Laid]
    exact .of_passed hgap
  | @stop stops s span rest t hn ht =>
    intro before hs
    obtain ⟨gap, rfl, hgap⟩ := hn.passed
    refine ⟨gap, span, [], rfl, ⟨ht, hn.shown⟩, rfl, fun _ _ => ?_⟩
    subst hs
    rw [Laid]
    exact .of_passed hgap
  | @token stops s span s₁ rest t vs stop hn _ ho _ ih =>
    intro before hs
    obtain ⟨gap, rfl, hgap⟩ := hn.passed
    obtain ⟨body, last, ls, rfl, hstop, hvs, hlaid⟩ :=
      ih (show source = (before ++ gap ++ span) ++ s₁ by simp [hs])
    refine ⟨gap ++ span ++ body, last,
      .token (Text.size (before ++ gap)) (Text.size (before ++ gap ++ span)) t :: ls,
      by simp, hstop, by rw [values, value, hvs], fun outer hout => ?_⟩
    have hrest := hlaid outer hout
    rw [Laid, Fits]
    refine ⟨?_, ⟨ho, span, body ++ (last ++ rest), ⟨before ++ gap, ?_, rfl, ?_⟩, hn.shown⟩, ?_⟩
    · rw [hs]
      exact .of_passed hgap
    · simp [hs]
    · exact (Text.size_append _ _).symm
    · simpa [Layout.stop] using hrest
  | @node stops s span u s₂ rest t o inner vs close stop hn _ ho hi h ihi ih =>
    intro before hs
    obtain ⟨gap, rfl, hgap⟩ := hn.passed
    obtain rfl := hn.span_opener ho
    obtain ⟨inside, closer, lsᵢ, hu, hclose, hinner, hlaidᵢ⟩ :=
      ihi (show source = (before ++ gap ++ o.text) ++ (u ++ s₂) by simp [hs])
    obtain ⟨body, last, ls, hs₂, hstop, hvs, hlaid⟩ :=
      ih (show source = (before ++ gap ++ o.text ++ u) ++ s₂ by simp [hs])
    obtain rfl : u = inside ++ closer := by
      rw [← List.append_assoc] at hu
      exact List.append_cancel_right hu
    obtain ⟨hcloser, hend⟩ := hclose.closer
    have hbetween : source.Between (Text.size (before ++ gap))
        (Text.size (before ++ gap ++ (o.text ++ (inside ++ closer)))) (o.text ++ inside ++ closer)
        s₂ := ⟨before ++ gap, by simp [hs], rfl, by simp [Nat.add_assoc]⟩
    refine ⟨gap ++ (o.text ++ (inside ++ closer)) ++ body, last,
      .node
          (Text.size (before ++ gap)) (Text.size (before ++ gap ++ (o.text ++ (inside ++ closer))))
          o close.isSome (kept o lsᵢ) :: ls,
      by simp [hs₂], hstop, ?_, fun outer hout => ?_⟩
    · rw [values, ← hvs, hinner, value_node o _ lsᵢ hbetween.slice_eq, List.append_assoc]
    · have hin := (hlaidᵢ close.isSome (by cases close <;> simp)).kept o
      have hrest := hlaid outer hout
      rw [Laid, Fits]
      refine ⟨?_, ⟨fun h1 => ?_, inside, s₂, hcloser ▸ hbetween, hend, ?_⟩, ?_⟩
      · rw [hs]
        exact .of_passed hgap
      · -- if it were not closed, nothing would be left to stop the values behind it
        by_contra hopen
        obtain rfl := hend (by simpa using hopen)
        exact hout h1 h.stop_of_nil
      · simpa [Nat.add_assoc] using hin
      · simpa [Layout.stop, Nat.add_assoc] using hrest

/-! ### Rules are laid out -/

namespace Layout

variable {s : Text} {a a' b : Nat} {ls : List Layout} {rows : List (List Layout)}

/-- The rows stand one behind the other between the bytes `a` and `b` of the text. -/
def InOrder (s : Text) (a b : Nat) : List (List Layout) → Prop
  | [] => a ≤ b
  | row :: rows => ∃ m n, a ≤ m ∧ Laid s false false false m n row ∧ InOrder s n b rows

theorem InOrder.from_le (h : InOrder s a b rows) (ha : a' ≤ a) : InOrder s a' b rows := by
  cases rows with
  | nil => exact Nat.le_trans ha h
  | cons row rows =>
    obtain ⟨m, n, hm, h⟩ := h
    exact ⟨m, n, Nat.le_trans ha hm, h⟩

/-- A header and the block that ends it are a row, and what is behind them is another. -/
theorem Laid.header (p : ComponentValue → Bool) (h : Laid s false false false a b ls) :
    ∃ row behind m n,
      values s row = (values s ls).takeWhile p ++
        ((((values s ls).dropWhile p).head?.bind ComponentValue.curlyBlock?).map
          Block.value).toList ∧
      values s behind = ((values s ls).dropWhile p).tail ∧
      Laid s false false false a m row ∧ m ≤ n ∧ Laid s false false false n b behind := by
  rw [values_eq_map s ls, List.takeWhile_map, List.dropWhile_map]
  generalize hfront : ls.takeWhile (p ∘ value s) = front
  generalize hback : ls.dropWhile (p ∘ value s) = back
  obtain rfl : ls = front ++ back := by
    rw [← hfront, ← hback, List.takeWhile_append_dropWhile]
  obtain ⟨m, hlaid, hrest⟩ := h.split
  rcases back with _ | ⟨l, back⟩
  · exact ⟨front, [], m, m, by simp [values_eq_map], rfl, hlaid, Nat.le_refl m, hrest⟩
  · obtain ⟨n, hl, hback⟩ := Laid.split (show Laid s _ _ _ _ _ ([l] ++ back) from hrest)
    rcases hb : (value s l).curlyBlock? with _ | block
    · exact ⟨front, back, m, n, by simp [values_eq_map, hb], by simp [values_eq_map],
        hlaid, hl.le, hback⟩
    · have hv := ComponentValue.value_of_curlyBlock? hb
      have h' : Laid s false false false a b ((front ++ [l]) ++ back) := by simpa using h
      obtain ⟨n, hrow, hback⟩ := h'.split
      exact ⟨front ++ [l], back, n, n, by simp [values_eq_map, hb, hv], by simp [values_eq_map],
        hrow, Nat.le_refl n, hback⟩

/-- **The rules that a row falls into stand one behind the other.** -/
theorem Laid.rules (top : Bool) (h : Laid s false false false a b ls) :
    ∃ rows, (Rule.ofValues top (values s ls)).map Rule.values = rows.map (values s) ∧
      InOrder s a b rows := by
  generalize hvs : values s ls = vs
  fun_induction Rule.ofValues top vs generalizing a ls with
  | case1 => exact ⟨[], rfl, h.le⟩
  | case2 v vs hv ih =>
    rcases ls with _ | ⟨l, ls⟩
    · simp [values] at hvs
    · obtain ⟨rfl, rfl⟩ := List.cons.inj hvs
      obtain ⟨m, hl, hls⟩ := Laid.split (show Laid s _ _ _ _ _ ([l] ++ ls) from h)
      obtain ⟨rows, hrows, hin⟩ := ih hls rfl
      exact ⟨rows, hrows, hin.from_le hl.le⟩
  | case3 v vs name hv behind =>
    rename_i ih
    rcases ls with _ | ⟨l, ls⟩
    · simp [values] at hvs
    · obtain ⟨rfl, rfl⟩ := List.cons.inj hvs
      obtain ⟨m₀, hl, hls⟩ := Laid.split (show Laid s _ _ _ _ _ ([l] ++ ls) from h)
      obtain ⟨row, rest, m, n, hrow, hrest, hlaid, hmn, hbehind⟩ := hls.header (!·.endsAtRule)
      obtain ⟨rows, hrows, hin⟩ := ih hbehind hrest
      refine ⟨row :: rows, ?_, m₀, m, hl.le, hlaid, hin.from_le hmn⟩
      rw [List.map_cons, List.map_cons, hrows, hrow]
      rfl
  | case4 v vs hv behind =>
    rename_i ih
    obtain ⟨row, rest, m, n, hrow, hrest, hlaid, hmn, hbehind⟩ := h.header (!·.endsQualified)
    rw [hvs] at hrow hrest
    obtain ⟨rows, hrows, hin⟩ := ih hbehind hrest
    rcases hb : behind.head?.bind ComponentValue.curlyBlock? with _ | block
    · exact ⟨rows, by simpa using hrows, hin.from_le (Nat.le_trans hlaid.le hmn)⟩
    · refine ⟨row :: rows, ?_, a, m, Nat.le_refl a, hlaid, hin.from_le hmn⟩
      rw [hb] at hrow
      rw [List.map_cons, hrow, ← hrows]
      rfl

end Layout

/-! ### Trees are laid out -/

/-- The component values that follow each other at the top of a tree: those of
each rule, or all there are. -/
def Tree.siblings : Tree → List (List ComponentValue)
  | stylesheet sheet => sheet.rules.map Rule.values
  | rules rs => rs.map Rule.values
  | componentValues vs => [vs]

/-- **Whatever a text is read as stands in it**: all its component values in one
row from the beginning of the text to its end, with nothing between them but
what is passed over, and those of each rule behind those of the rule before. -/
theorem Entry.siblings_laid {e : Entry} {s : Text} {t : Tree}
    (h : (e.read (Cursor.ofText s)).result = .ok t) :
    ∃ row rows, t = e.tree (Layout.values s row) ∧
      Layout.Laid s false false false 0 (Text.size s) row ∧
      t.siblings = rows.map (Layout.values s) ∧ Layout.InOrder s 0 (Text.size s) rows := by
  rw [Entry.read_result] at h
  rcases hv : (Cursor.ofText s).componentValues.result with f | vs
  · rw [hv] at h
    simp [Except.map] at h
  · rw [hv] at h
    obtain rfl := Except.ok.inj h
    obtain ⟨rest, hp⟩ := componentValues_result_iff.1 hv
    obtain ⟨body, last, row, hs, ⟨rfl, rfl⟩, rfl, hlaid⟩ := hp.laid (List.nil_append s).symm
    have hrow : Layout.Laid s false false false 0 (Text.size s) row := by
      have hbody : body = s := by rw [hs, List.append_nil, List.append_nil]
      have h := hlaid false (by simp)
      rwa [List.nil_append, hbody] at h
    cases e with
    | stylesheet =>
      obtain ⟨rows, hrows, hin⟩ := hrow.rules true
      exact ⟨row, rows, rfl, hrow, hrows, hin⟩
    | rules =>
      obtain ⟨rows, hrows, hin⟩ := hrow.rules false
      exact ⟨row, rows, rfl, hrow, hrows, hin⟩
    | componentValues =>
      exact ⟨row, [row], rfl, hrow, rfl, 0, Text.size s, Nat.le_refl 0, hrow, Nat.le_refl _⟩

/-- A function in a block, both open at the end of the text, with a blank and a
comment in front of the function. -/
theorem Entry.siblings_laid_open :
    (Entry.componentValues.read
        (Cursor.ofText ['[', ' ', '/', '*', '*', '/', 'b', '('])).result =
      .ok (.componentValues [.block .square ['[', ' ', '/', '*', '*', '/', 'b', '(']
        [.function ['b'] ['b', '('] []]]) ∧
    ∃ row rows,
      Tree.componentValues [.block .square ['[', ' ', '/', '*', '*', '/', 'b', '(']
        [.function ['b'] ['b', '('] []]] =
        Entry.componentValues.tree
          (Layout.values ['[', ' ', '/', '*', '*', '/', 'b', '('] row) ∧
      Layout.Laid ['[', ' ', '/', '*', '*', '/', 'b', '('] false false false 0 8 row ∧
      [[ComponentValue.block .square ['[', ' ', '/', '*', '*', '/', 'b', '(']
        [.function ['b'] ['b', '('] []]]] =
        rows.map (Layout.values ['[', ' ', '/', '*', '*', '/', 'b', '(']) ∧
      Layout.InOrder ['[', ' ', '/', '*', '*', '/', 'b', '('] 0 8 rows := by
  have h : (Entry.componentValues.read
      (Cursor.ofText ['[', ' ', '/', '*', '*', '/', 'b', '('])).result =
      .ok (.componentValues [.block .square ['[', ' ', '/', '*', '*', '/', 'b', '(']
        [.function ['b'] ['b', '('] []]]) := by
    with_unfolding_all rfl
  exact ⟨h, Entry.siblings_laid h⟩

end CssReader
