/-
# Readings of a text

A cursor that came to where it is by reading gives what is in front of it in the
text, wherever it is and whatever was read before. So a reading can be said of a
text, without a cursor: `NextToken` says which token is the next one, and
`Parses` says which component values come up to a token that stops them. The
source text of a nested value is then the beginning of a text and not a slice
between positions.

Readings of a text bear being cut short: what was read in front of a text `r` is
read in the same way when nothing is there in its place. For the next token this
rests on `Lexeme.read_stays`; the fault that is lost when a text ends too early
is always one with a token behind it.

Key definitions: `Cursor.Reached`, `NextToken`, `Parses`.
Key theorems: `Cursor.Forest.parses`, `Parses.forest`, `NextToken.cut`, `Parses.cut`.
-/
import CssReader.Proofs.Forest
import CssReader.Proofs.Lexeme.Cut

namespace CssReader

/-- Behind comments and malformed urls comes the token `t?`, or the end; the token
takes `span`, and leaves `rest`. -/
inductive NextToken : (s : Text) → (t? : Option Token) → (span rest : Text) → Prop
  | finish {s : Text} : (Comment.run s).2 = [] → NextToken s none [] []
  | token {s : Text} {l : Lexeme} {t : Token} : Lexeme.read (Comment.run s).2 = some l →
    l.result = .ok t → NextToken s (some t) l.text l.rest
  | skip {s span rest : Text} {l : Lexeme} {f : Fault} {t? : Option Token} :
    Lexeme.read (Comment.run s).2 = some l → l.result = .error f → f.isRecoverable = true →
    NextToken l.rest t? span rest → NextToken s t? span rest

/-- From the text `s` on come the values `vs`, up to the token `stop` which `stops`
names, or up to the end of the text; `rest` is behind all that. -/
inductive Parses : (stops : Token → Bool) → (s : Text) → (vs : List ComponentValue) →
    (stop : Option Token) → (rest : Text) → Prop
  | finish {stops : Token → Bool} {s span rest : Text} :
    NextToken s none span rest → Parses stops s [] none rest
  | stop {stops : Token → Bool} {s span rest : Text} {t : Token} :
    NextToken s (some t) span rest → stops t = true → Parses stops s [] (some t) rest
  | token {stops : Token → Bool} {s span s₁ rest : Text} {t : Token} {vs : List ComponentValue}
      {stop : Option Token} :
    NextToken s (some t) span s₁ → stops t = false → Opener.ofToken? t = none →
    Parses stops s₁ vs stop rest → Parses stops s (.token t :: vs) stop rest
  | node {stops : Token → Bool} {s span u s₂ rest : Text} {t : Token} {o : Opener}
      {inner vs : List ComponentValue} {close stop : Option Token} :
    NextToken s (some t) span (u ++ s₂) → stops t = false → Opener.ofToken? t = some o →
    Parses (fun t => t = o.closer) (u ++ s₂) inner close s₂ → Parses stops s₂ vs stop rest →
    Parses stops s (o.node ⟨span ++ u, inner⟩ :: vs) stop rest

theorem Lexeme.read_run_split {s : Text} {l : Lexeme} (h : read (Comment.run s).2 = some l) :
    (Comment.run s).1 ++ l.text ++ l.rest = s := by
  rw [List.append_assoc, (read_split h).1, Comment.run_split]

theorem Lexeme.read_run_suffix {s : Text} {l : Lexeme} (h : read (Comment.run s).2 = some l) :
    l.rest <:+ s :=
  ⟨_, read_run_split h⟩

namespace NextToken

variable {s span rest : Text} {t : Token} {t? : Option Token}

theorem suffix (h : NextToken s t? span rest) : rest <:+ s := by
  induction h with
  | finish => exact List.nil_suffix
  | token hl _ => exact Lexeme.read_run_suffix hl
  | skip hl _ _ _ ih => exact ih.trans (Lexeme.read_run_suffix hl)

theorem rest_of_none (h : NextToken s none span rest) : rest = [] := by
  generalize hn : (none : Option Token) = t? at h
  induction h with
  | finish => rfl
  | token => simp at hn
  | skip _ _ _ _ ih => exact ih hn

/-- A token takes something. -/
theorem length_lt (h : NextToken s (some t) span rest) : rest.length < s.length := by
  generalize hn : some t = t? at h
  induction h with
  | finish => simp at hn
  | token hl _ =>
    have hne := (Lexeme.read_split hl).2
    exact Text.length_lt_of_split ⟨Lexeme.read_run_split hl, by simp [hne]⟩
  | skip hl _ _ _ ih =>
    have hle := (Lexeme.read_run_suffix hl).length_le
    exact Nat.lt_of_lt_of_le (ih hn) hle

/-! ### Cutting a text short -/

/-- What a run of comments leaves, if it is no shorter than `r`, is the same in front of `r`. -/
theorem run_cut {s r x : Text} (h : (Comment.run (s ++ r)).2 = x) (hl : r.length ≤ x.length) :
    ∃ m, x = m ++ r ∧ (Comment.run s).2 = m := by
  obtain ⟨m, hm, hs⟩ := Comment.cuts_run.cut (a := (Comment.run (s ++ r)).1) (t := x)
    (congrArg some (Prod.ext rfl h)) hl
  exact ⟨m, hm, congrArg Prod.snd (Option.some.inj hs)⟩

/-- The lexeme behind the comments in front of a text is the same in front of `r`. -/
theorem lexeme_cut {s m r : Text} {l : Lexeme} (h : Lexeme.read (Comment.run (s ++ r)).2 = some l)
    (hr : l.rest = m ++ r) (hm : m = [] → ∃ t, l.result = .ok t) :
    Lexeme.read (Comment.run s).2 = some { l with rest := m } := by
  have hle := congrArg List.length (Lexeme.read_split h).1
  rw [hr, List.length_append, List.length_append] at hle
  obtain ⟨x, hx, hs⟩ := run_cut rfl (s := s) (r := r) (by omega)
  rw [hs]
  rw [hx] at h
  refine Lexeme.read_stays.some (r := r) ?_ hm
  rw [h, Lexeme.before, ← hr]

/-- **The next token is the same when the text is cut short behind it.** -/
theorem cut {m r : Text} (h : NextToken (s ++ r) t? span (m ++ r)) : NextToken s t? span m := by
  by_cases hr : r = []
  · subst hr
    simpa using h
  generalize hs : s ++ r = s', hm : m ++ r = rest at h
  induction h generalizing s with
  | finish => exact absurd (List.append_eq_nil_iff.1 hm).2 hr
  | @token s' l t hl ht =>
    subst hs
    exact .token (lexeme_cut hl hm.symm fun _ => ⟨t, ht⟩) ht
  | @skip s' span rest l f t? hl hf hrec h ih =>
    subst hs hm
    have hsuf : r <:+ l.rest := (List.suffix_append m r).trans h.suffix
    obtain ⟨m', hm'⟩ := hsuf
    have hnil : m' ≠ [] := by
      -- the fault has a token behind it, which is in front of `r`
      rintro rfl
      rw [← hm', List.nil_append] at h
      rcases t? with _ | t
      · exact hr (List.append_eq_nil_iff.1 h.rest_of_none).2
      · have hlt := h.length_lt
        rw [List.length_append] at hlt
        omega
    exact .skip (lexeme_cut hl hm'.symm fun h0 => absurd h0 hnil) hf hrec (ih hm' rfl)

/-- The token is the next one in the text from its own beginning on. -/
theorem alone (h : NextToken s (some t) span rest) :
    NextToken (span ++ rest) (some t) span rest := by
  generalize hn : some t = t? at h
  induction h with
  | finish => simp at hn
  | @token s l t hl ht =>
    have hrun : Comment.run (l.text ++ l.rest) = ([], l.text ++ l.rest) := by
      rw [(Lexeme.read_split hl).1]
      exact Comment.run_of_read?_none (Comment.read?_run s)
    refine .token ?_ ht
    rw [hrun, (Lexeme.read_split hl).1]
    exact hl
  | skip _ _ _ _ ih => exact ih hn

end NextToken

/-! ### Readings and cursors -/

namespace Cursor

/-- The cursor came to where it is by reading, and holds no token; `last` is what
it has read last. -/
structure Reached (source last : Text) (c : Cursor) : Prop where
  source : c.source = source
  pending : c.pending = none
  behind : ∃ before, c.Behind before last

namespace Reached

variable {source last last' : Text} {c c' : Cursor}

theorem ofText (s : Text) : Reached s [] (ofText s) :=
  ⟨rfl, rfl, [], ofText_behind s⟩

/-- What was read from the beginning of one token to the end of a later one is
the source between the two. -/
theorem slice_eq {u : Text} (h : Reached source last c) (h' : Reached source last' c')
    (hu : c.rest = u ++ c'.rest) : c.slice c.tokenStart c'.position = last ++ u := by
  obtain ⟨before, hb⟩ := h.behind
  obtain ⟨before', hb'⟩ := h'.behind
  have hall : c.source = before ++ (last ++ u) ++ c'.rest := by
    rw [hb.source, hu]
    simp
  have hread : before' ++ last' = before ++ (last ++ u) := by
    have heq : before' ++ last' ++ c'.rest = before ++ (last ++ u) ++ c'.rest := by
      calc before' ++ last' ++ c'.rest = c'.source := hb'.source.symm
        _ = source := h'.source
        _ = c.source := h.source.symm
        _ = before ++ (last ++ u) ++ c'.rest := hall
    exact List.append_cancel_right heq
  rw [slice, hall, hb.tokenStart, hb'.position, hread, Text.size_append, List.append_assoc]
  exact Text.slice_append before (last ++ u) c'.rest

/-- All that a step can do. -/
theorem next_cases (h : Reached source last c) :
    ((Comment.run c.rest).2 = [] ∧ c.next.result = .ok none ∧ c.next.cursor.rest = [] ∧
      Reached source [] c.next.cursor) ∨
    ∃ l n, Lexeme.read (Comment.run c.rest).2 = some l ∧ c.next.result = l.resultAt n ∧
      c.next.cursor.rest = l.rest ∧ Reached source l.text c.next.cursor := by
  obtain ⟨before, hb⟩ := h.behind
  rcases hb.next_cases h.pending with
    ⟨hrun, hres, hrest, hsrc, hb'⟩ | ⟨l, hl, hres, hrest, hsrc, hb'⟩
  · exact .inl ⟨hrun, hres, hrest, hsrc.trans h.source, next_pending c, _, hb'⟩
  · exact .inr ⟨l, _, hl, hres, hrest, hsrc.trans h.source, next_pending c, _, hb'⟩

theorem next_of_lexeme {l : Lexeme} (h : Reached source last c)
    (hl : Lexeme.read (Comment.run c.rest).2 = some l) :
    ∃ n, c.next.result = l.resultAt n ∧ c.next.cursor.rest = l.rest ∧
      Reached source l.text c.next.cursor := by
  rcases h.next_cases with ⟨hrun, -⟩ | ⟨l', n, hl', hnext⟩
  · rw [hrun, Lexeme.read_eq_none.2 rfl] at hl
    simp at hl
  · obtain rfl : l = l' := Option.some.inj (hl.symm.trans hl')
    exact ⟨n, hnext⟩

/-- A cursor gives the next token of the text in front of it. -/
theorem nextToken {layer : Layer} {t? : Option Token} (h : Reached source last c)
    (hp : (c.pull layer).Gives t? c') :
    ∃ span, NextToken c.rest t? span c'.rest ∧ Reached source span c' := by
  fun_induction pull layer c generalizing last with
  | case1 c a ha =>
    obtain ⟨hr, rfl⟩ := hp
    rcases h.next_cases with ⟨hrun, hres, hrest, hc⟩ | ⟨l, n, hl, hres, hrest, hc⟩
    · obtain rfl : t? = none := Except.ok.inj (hr.symm.trans hres)
      rw [hrest]
      exact ⟨[], .finish hrun, hc⟩
    · rw [hres] at hr
      rcases t? with _ | t
      · exact absurd hr (l.resultAt_ne_none n)
      · have ht : l.result = .ok t := Lexeme.resultAt_eq_some.1 hr
        rw [hrest]
        exact ⟨l.text, .token hl ht, hc⟩
  | case2 c f hf hr ih =>
    rcases h.next_cases with ⟨-, hres, -⟩ | ⟨l, n, hl, hres, hrest, hc⟩
    · rw [hf] at hres
      simp at hres
    · obtain ⟨f', hf', rfl⟩ := Lexeme.resultAt_eq_error.1 (hres.symm.trans hf)
      obtain ⟨span, hn, hc'⟩ := ih hc hp
      rw [hrest] at hn
      exact ⟨span, .skip hl hf' hr hn, hc'⟩
  | case3 c f hf hr =>
    have hres := hp.result
    rw [hf] at hres
    simp at hres

end Reached

/-- The next token of a text is given by every cursor in front of it. -/
theorem pull_of_nextToken {s span rest source last : Text} {t? : Option Token} (layer : Layer)
    (h : NextToken s t? span rest) {c : Cursor} (hc : Reached source last c) (hs : c.rest = s) :
    ∃ c', (c.pull layer).Gives t? c' ∧ c'.rest = rest ∧ Reached source span c' := by
  induction h generalizing c last with
  | finish hrun =>
    subst hs
    rcases hc.next_cases with ⟨-, hres, hrest, hc'⟩ | ⟨l, n, hl, -⟩
    · rw [pull_of_ok layer hres]
      exact ⟨_, Outcome.gives_of_result hres, hrest, hc'⟩
    · rw [hrun, Lexeme.read_eq_none.2 rfl] at hl
      simp at hl
  | @token s l t hl ht =>
    subst hs
    obtain ⟨n, hres, hrest, hc'⟩ := hc.next_of_lexeme hl
    have hok : c.next.result = .ok (some t) := hres.trans (Lexeme.resultAt_eq_some.2 ht)
    rw [pull_of_ok layer hok]
    exact ⟨_, Outcome.gives_of_result hok, hrest, hc'⟩
  | @skip s span rest l f t? hl hf hr h ih =>
    subst hs
    obtain ⟨n, hres, hrest, hc'⟩ := hc.next_of_lexeme hl
    have herr : c.next.result = .error (f.shift n) :=
      hres.trans (Lexeme.resultAt_eq_error.2 ⟨f, hf, rfl⟩)
    obtain ⟨c', hp, hc'⟩ := ih hc' hrest
    exact ⟨c', (pull_of_recoverable layer herr hr).2 hp, hc'⟩

end Cursor

namespace Parses

variable {stops : Token → Bool} {s rest : Text} {vs : List ComponentValue} {stop : Option Token}

theorem suffix (h : Parses stops s vs stop rest) : rest <:+ s := by
  induction h with
  | finish hn | stop hn _ => exact hn.suffix
  | token hn _ _ _ ih => exact ih.trans hn.suffix
  | node hn _ _ _ _ ihi ih => exact (ih.trans ihi).trans hn.suffix

end Parses

/-- Component values behind a cursor are those of the text in front of it. -/
theorem Cursor.Forest.parses {stops : Token → Bool} {c c' : Cursor} {vs : List ComponentValue}
    {stop : Option Token} {source last : Text} (h : Forest stops c vs stop c')
    (hc : c.Reached source last) :
    Parses stops c.rest vs stop c'.rest ∧ ∃ last', c'.Reached source last' := by
  induction h generalizing last with
  | finish hp =>
    obtain ⟨span, hn, hc'⟩ := hc.nextToken hp
    exact ⟨.finish hn, span, hc'⟩
  | stop hp hs =>
    obtain ⟨span, hn, hc'⟩ := hc.nextToken hp
    exact ⟨.stop hn hs, span, hc'⟩
  | token hp hs ho _ ih =>
    obtain ⟨span, hn, hc₁⟩ := hc.nextToken hp
    obtain ⟨h, hc'⟩ := ih hc₁
    exact ⟨.token hn hs ho h, hc'⟩
  | @node stops c c₁ c₂ c' t o inner vs close stop hp hs ho _ _ ihi ih =>
    obtain ⟨span, hn, hc₁⟩ := hc.nextToken hp
    obtain ⟨hi, last₂, hc₂⟩ := ihi hc₁
    obtain ⟨h, hc'⟩ := ih hc₂
    obtain ⟨u, hu⟩ := hi.suffix
    rw [hc₁.slice_eq hc₂ hu.symm]
    rw [← hu] at hn hi
    exact ⟨.node hn hs ho hi h, hc'⟩

/-- The component values of a text are behind every cursor in front of it. -/
theorem Parses.forest {stops : Token → Bool} {s rest source last : Text}
    {vs : List ComponentValue} {stop : Option Token} (h : Parses stops s vs stop rest)
    {c : Cursor} (hc : c.Reached source last) (hs : c.rest = s) :
    ∃ c', c.Forest stops vs stop c' ∧ c'.rest = rest ∧ ∃ last', c'.Reached source last' := by
  induction h generalizing c last with
  | finish hn =>
    obtain ⟨c', hp, hrest, hc'⟩ := Cursor.pull_of_nextToken .trees hn hc hs
    exact ⟨c', .finish hp, hrest, _, hc'⟩
  | stop hn hstop =>
    obtain ⟨c', hp, hrest, hc'⟩ := Cursor.pull_of_nextToken .trees hn hc hs
    exact ⟨c', .stop hp hstop, hrest, _, hc'⟩
  | token hn hstop ho _ ih =>
    obtain ⟨c₁, hp, hrest, hc₁⟩ := Cursor.pull_of_nextToken .trees hn hc hs
    obtain ⟨c', hf, hc'⟩ := ih hc₁ hrest
    exact ⟨c', .token hp hstop ho hf, hc'⟩
  | @node stops s span u s₂ rest t o inner vs close stop hn hstop ho _ _ ihi ih =>
    obtain ⟨c₁, hp, hrest₁, hc₁⟩ := Cursor.pull_of_nextToken .trees hn hc hs
    obtain ⟨c₂, hi, hrest₂, last₂, hc₂⟩ := ihi hc₁ hrest₁
    obtain ⟨c', hf, hc'⟩ := ih hc₂ hrest₂
    rw [← hrest₂] at hrest₁
    rw [← hc₁.slice_eq hc₂ hrest₁]
    exact ⟨c', .node hp hstop ho hi hf, hc'⟩

/-- **The component values of a text are those that are read off it.** -/
theorem componentValues_result_iff {s : Text} {vs : List ComponentValue} :
    (Cursor.ofText s).componentValues.result = .ok vs ↔
      ∃ rest, Parses (fun _ => false) s vs none rest := by
  constructor
  · intro h
    have hf := Cursor.componentValues_gives_iff.1 (Outcome.gives_of_result h)
    exact ⟨_, (hf.parses (.ofText s)).1⟩
  · rintro ⟨rest, h⟩
    obtain ⟨c', hf, -⟩ := h.forest (.ofText s) rfl
    exact (Cursor.componentValues_gives_iff.2 hf).result

/-! ### Readings cut short -/

namespace Parses

variable {stops : Token → Bool} {s : Text} {vs : List ComponentValue} {stop : Option Token}

/-- **Component values are the same when the text is cut short behind them.** -/
theorem cut {m r : Text} (h : Parses stops (s ++ r) vs stop (m ++ r)) :
    Parses stops s vs stop m := by
  generalize hs : s ++ r = s', hm : m ++ r = rest at h
  induction h generalizing s m with
  | finish hn =>
    subst hs hm
    exact .finish hn.cut
  | stop hn hstop =>
    subst hs hm
    exact .stop hn.cut hstop
  | @token stops s' span s₁ rest t vs stop hn hstop ho h ih =>
    subst hs hm
    have hsuf : r <:+ s₁ := (List.suffix_append m r).trans h.suffix
    obtain ⟨m₁, rfl⟩ := hsuf
    exact .token hn.cut hstop ho (ih rfl rfl)
  | @node stops s' span u s₂ rest t o inner vs close stop hn hstop ho hi h ihi ih =>
    subst hs hm
    have hsuf : r <:+ s₂ := (List.suffix_append m r).trans h.suffix
    obtain ⟨m₂, rfl⟩ := hsuf
    rw [← List.append_assoc] at hn
    have hinner := ihi (List.append_assoc u m₂ r) rfl
    have hvs := ih rfl rfl
    exact .node hn.cut hstop ho hinner hvs

end Parses

end CssReader
