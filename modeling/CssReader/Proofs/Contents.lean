/-
# The contents of closed blocks

What stands between the brackets of a closed block can be read as a text of its own. It
gives the values of the block, and the blanks at either end, which the block does not keep.
The closing bracket is then gone, and the end of the text stands in its place
(`Parses.ended`): a malformed url right in front of the bracket, which is skipped in the
block, is a url in its contents, and the last of them. That is the only difference.

Whether a block was closed can be told from its own text: in the text of a closed block the
tokens close all that they open (`Text.IsBalanced`).

Key definition: `Text.IsBalanced`.
Key theorems: `Cursor.Forest.track`, `Parses.balanced_iff`, `Parses.block_inside`,
`Entry.closed_block_contents`.
-/
import CssReader.Proofs.Ended
import CssReader.Proofs.Layout
import CssReader.Proofs.Unclosed

namespace CssReader

/-- The tokens of the text close all that they open. -/
def Text.IsBalanced (s : Text) : Prop :=
  ∃ ts, (Cursor.ofText s).tokens.result = .ok ts ∧ ts.foldl Opener.track [] = []

/-! ### Open brackets -/

namespace Opener

variable {t : Token} {o : Opener} {os : List Opener}

theorem track_opener (h : ofToken? t = some o) : track os t = o :: os := by
  simp [track, h]

theorem track_closer (o : Opener) (os : List Opener) : track (o :: os) o.closer = os := by
  simp [track, o.ofToken?_closer]

/-- Inside of a bracket only its closing token closes anything. -/
theorem track_inside (o : Opener) (os : List Opener) (t : Token)
    (hc : decide (t = o.closer) = false) (h : ofToken? t = none) :
    track (o :: os) t = o :: os := by
  simp [track, h, hc]

end Opener

namespace Cursor

/-- At the end of the text nothing can stop a reading. -/
theorem Forest.stop_of_atEnd {stops : Token → Bool} {c c' : Cursor} {vs : List ComponentValue}
    {stop : Option Token} (h : Forest stops c vs stop c') (hc : c.AtEnd) : stop = none := by
  have hnone : ∀ {t c₁}, ¬(c.pull .trees).Gives (some t) c₁ := by
    rintro t c₁ ⟨hr, -⟩
    rw [hc.pull] at hr
    cases hr
  cases h with
  | finish => rfl
  | stop hp _ | token hp _ _ _ | node hp _ _ _ _ => exact absurd hp hnone

/-- Behind a reading the same brackets are open as in front of it, unless the end of the
text has stopped it: then those that it has opened are open too. -/
theorem Forest.track {stops : Token → Bool} {c c' : Cursor} {vs : List ComponentValue}
    {stop : Option Token} (h : Forest stops c vs stop c') : ∀ {os : List Opener} {ts : List Token},
    (∀ t, stops t = false → Opener.ofToken? t = none → Opener.track os t = os) →
    c.tokens.result = .ok ts →
    (∀ t, stop = some t → ∃ ts', c'.tokens.result = .ok ts' ∧
      ts.foldl Opener.track os = (t :: ts').foldl Opener.track os) ∧
    (stop = none → ∃ os', ts.foldl Opener.track os = os' ++ os) := by
  induction h with
  | finish hp =>
    intro os ts _ hts
    obtain rfl := Except.ok.inj (hts.symm.trans (tokens_of_pull_none hp).result)
    exact ⟨by simp, fun _ => ⟨[], rfl⟩⟩
  | stop hp _ =>
    intro os ts _ hts
    obtain ⟨ts', rfl, h'⟩ := tokens_cons hp hts
    refine ⟨fun t ht => ?_, by simp⟩
    obtain rfl := Option.some.inj ht
    exact ⟨ts', h', rfl⟩
  | token hp hs ho _ ih =>
    intro os ts hos hts
    obtain ⟨ts₁, rfl, h₁⟩ := tokens_cons hp hts
    rw [List.foldl_cons, hos _ hs ho]
    exact ih hos h₁
  | @node stops c c₁ c₂ c' t o inner vs close stop hp hs ho hi h ihi ih =>
    intro os ts hos hts
    obtain ⟨ts₁, rfl, h₁⟩ := tokens_cons hp hts
    obtain ⟨hclosed, hopen⟩ := ihi (o.track_inside os) h₁
    rw [List.foldl_cons, Opener.track_opener ho]
    rcases close with _ | k
    · -- the end of the text has stopped all readings
      obtain rfl := h.stop_of_atEnd (hi.atEnd rfl)
      obtain ⟨os', hos'⟩ := hopen rfl
      exact ⟨by simp, fun _ => ⟨os' ++ [o], by rw [hos']; simp⟩⟩
    · obtain rfl : k = o.closer := by simpa using hi.stops_stop rfl
      obtain ⟨ts₂, h₂, hfold⟩ := hclosed _ rfl
      rw [hfold, List.foldl_cons, Opener.track_closer]
      exact ih hos h₂

/-- Behind a reading come tokens, so they do in front of it. -/
theorem Forest.tokens_ok {stops : Token → Bool} {c c' : Cursor} {vs : List ComponentValue}
    {stop : Option Token} {ts : List Token} (h : Forest stops c vs stop c')
    (hts : c'.tokens.result = .ok ts) : ∃ ts', c.tokens.result = .ok ts' := by
  have hf := values_follows stops c
  rw [Outcome.Follows, h.values.result, h.values.cursor] at hf
  obtain ⟨front, hread⟩ := hf
  exact ⟨front ++ ts, by rw [hread.1, hts]; rfl⟩

end Cursor

/-! ### Blocks -/

namespace Parses

/-- **Whether something was closed can be told from its own text**, wherever that stands. -/
theorem balanced_iff {s span u s₂ : Text} {t : Token} {o : Opener} {inner : List ComponentValue}
    {close : Option Token} (hn : NextToken s (some t) span (u ++ s₂))
    (ho : Opener.ofToken? t = some o)
    (hi : Parses (fun t => t = o.closer) (u ++ s₂) inner close s₂) :
    (span ++ u).IsBalanced ↔ close = some o.closer := by
  have halone : NextToken (span ++ u) (some t) span u := by
    have h := hn.alone
    rw [← List.append_assoc] at h
    exact NextToken.cut (m := u) h
  obtain ⟨c₁, hp, hrest₁, hc₁⟩ := Cursor.pull_of_nextToken .trees halone (.ofText _) rfl
  obtain ⟨c₂, hf, hrest₂, last₂, hc₂⟩ := (Parses.cut (m := []) hi).forest hc₁ hrest₁
  obtain ⟨c₃, hp₃, -⟩ := Cursor.pull_of_nextToken .trees .nil hc₂ hrest₂
  have h₂ : c₂.tokens.result = .ok [] := (Cursor.tokens_of_pull_none hp₃).result
  obtain ⟨ts₁, h₁⟩ := hf.tokens_ok h₂
  have hts : (Cursor.ofText (span ++ u)).tokens.result = .ok (t :: ts₁) := by
    rw [(Cursor.reads_of_pull hp).1, h₁]
    rfl
  obtain ⟨hclosed, hopen⟩ := hf.track (o.track_inside []) h₁
  have hfold : (t :: ts₁).foldl Opener.track [] = ts₁.foldl Opener.track [o] := by
    rw [List.foldl_cons, Opener.track_opener ho]
  constructor
  · rintro ⟨ts, hts', hbal⟩
    obtain rfl := Except.ok.inj (hts'.symm.trans hts)
    rw [hfold] at hbal
    rcases close with _ | k
    · obtain ⟨os', hos'⟩ := hopen rfl
      simp [hos'] at hbal
    · have hk : k = o.closer := by simpa using hf.stops_stop rfl
      rw [hk]
  · rintro rfl
    obtain ⟨ts₂, h₂', hall⟩ := hclosed _ rfl
    obtain rfl := Except.ok.inj (h₂'.symm.trans h₂)
    refine ⟨_, hts, ?_⟩
    rw [hfold, hall, List.foldl_cons, Opener.track_closer]
    rfl

/-- What a closed block holds is read behind its opening bracket, up to its closing one. -/
theorem block_inside {text : Text} {b : Bracket} {values : List ComponentValue}
    (h : Parses (fun _ => false) text [.block b text values] none [])
    (hbal : text.IsBalanced) :
    ∃ u inner, text = b.opener :: u ∧ NextToken text (some (.opening b)) [b.opener] u ∧
      Parses (fun t => t = .closing b) u inner (some (.closing b)) [] ∧
      trimEnds ComponentValue.isWhitespace inner = values := by
  generalize hv : [ComponentValue.block b text values] = vs at h
  cases h with
  | finish | token => simp at hv
  | @node _ _ span u s₂ _ t o inner vs close _ hn _ ho hi _ =>
    have hnode := (List.cons.inj hv).1
    rcases o with b' | name
    · obtain ⟨rfl, htext, rfl⟩ := ComponentValue.block.inj hnode
      change text = span ++ u at htext
      obtain rfl : close = some (.closing b) := (balanced_iff hn ho hi).1 (htext ▸ hbal)
      obtain rfl : t = .opening b := by
        rcases Cursor.ofToken?_eq_some ho with ⟨b', rfl, hb⟩ | ⟨name, _, -, hb⟩
        · rw [Opener.bracket.inj hb]
        · cases hb
      have hspan : span = [b.opener] := by simpa [Token.ShownBy, Token.text] using hn.shown
      subst hspan
      -- the block is the whole text, so nothing is behind it
      have hnil : s₂ = [] := by
        obtain ⟨gap, hgap, -⟩ := hn.passed
        have hlen := congrArg List.length hgap
        have hlen' := congrArg List.length htext
        simp only [List.length_append] at hlen hlen'
        exact List.length_eq_zero_iff.1 (by omega)
      subst hnil
      rw [List.append_nil] at hn hi
      exact ⟨u, inner, htext, hn, hi, rfl⟩
    · cases hnode

/-- The contents of a closed block, and whatever is there in front of its closing bracket. -/
theorem block_contents {text : Text} {b : Bracket} {values : List ComponentValue}
    (h : Parses (fun _ => false) text [.block b text values] none [])
    (hbal : text.IsBalanced) :
    ∃ m inner, text = b.opener :: (m ++ [b.closer]) ∧
      trimEnds ComponentValue.isWhitespace inner = values ∧
      ((∀ v, ¬text.Skips v [b.closer]) → Parses (fun _ => false) m inner none []) ∧
      ∀ v, text.Skips v [b.closer] →
        v <:+ m ∧ Parses (fun _ => false) m (inner ++ [.token (.url v)]) none [] := by
  obtain ⟨u, inner, htext, hn, hinner, hvalues⟩ := h.block_inside hbal
  obtain ⟨m, span, rfl, hstop, hno, hyes⟩ := hinner.ended
  have hspan : span = [b.closer] := by simpa [Token.ShownBy, Token.text] using hstop.shown
  subst hspan
  rw [List.append_nil] at htext hn hno hyes
  simp only [← hn.skips_iff (List.cons_ne_nil b.closer []) (by simp)] at hno hyes
  exact ⟨m, inner, htext, hvalues, hno, hyes⟩

end Parses

/-- **The contents of a closed block are read as its values**, blanks at either end aside, at
whatever depth of what a text is read as the block is. Only a malformed url that was skipped
right in front of the closing bracket is kept: the contents end with it, and there it is a
url, behind the values. -/
theorem Entry.closed_block_contents {e : Entry} {s : Text} {vs : List ComponentValue}
    (h : e.values s = .ok vs) {b : Bracket} {text : Text} {values : List ComponentValue}
    (hv : .block b text values ∈ ComponentValue.nodesOf vs) (hbal : text.IsBalanced) :
    ∃ m ws, text = b.opener :: (m ++ [b.closer]) ∧
      (Cursor.ofText m).componentValues.result = .ok ws ∧
      ((∀ v, ¬(Cursor.ofText text).SkipsUrl v [b.closer]) →
        trimEnds ComponentValue.isWhitespace ws = values) ∧
      ∀ v, (Cursor.ofText text).SkipsUrl v [b.closer] →
        v <:+ m ∧ ∃ inner, ws = inner ++ [.token (.url v)] ∧
          trimEnds ComponentValue.isWhitespace inner = values := by
  obtain ⟨all, hall, hsub⟩ := e.values_subset h
  obtain ⟨rest, hp⟩ := componentValues_result_iff.1 hall
  have halone := hp.nodes _ (ComponentValue.nodesOf_subset hsub hv)
  obtain ⟨m, inner, htext, hvalues, hno, hyes⟩ := Parses.block_contents halone hbal
  simp only [← (Cursor.Reached.ofText text).skips_iff]
  by_cases hskip : ∃ v, text.Skips v [b.closer]
  · obtain ⟨v, hv⟩ := hskip
    obtain ⟨-, hw⟩ := hyes v hv
    have hread := componentValues_result_iff.2 ⟨[], hw⟩
    refine ⟨m, _, htext, hread, fun hn => absurd hv (hn v), fun v' hv' => ?_⟩
    obtain ⟨hsuf, hw'⟩ := hyes v' hv'
    -- the contents are read once, so there is one malformed url right in front of the bracket
    have hread' := componentValues_result_iff.2 ⟨[], hw'⟩
    exact ⟨hsuf, inner, Except.ok.inj (hread.symm.trans hread'), hvalues⟩
  · have hno' := not_exists.1 hskip
    exact ⟨m, inner, htext, componentValues_result_iff.2 ⟨[], hno hno'⟩, fun _ => hvalues,
      fun v hv => absurd hv (hno' v)⟩

/-- A malformed url that is skipped further on in front of the closing bracket. -/
theorem Entry.closed_block_contents_behind_url :
    Entry.values .stylesheet ['@', 'a', '[', 'u', 'r', 'l', '(', 'a', ' ', 'b', ']'] =
        .ok [.block .square ['[', 'u', 'r', 'l', '(', 'a', ' ', 'b', ']']
          [.token (.ident ['b'])]] ∧
      .block .square ['[', 'u', 'r', 'l', '(', 'a', ' ', 'b', ']'] [.token (.ident ['b'])] ∈
        ComponentValue.nodesOf [.block .square ['[', 'u', 'r', 'l', '(', 'a', ' ', 'b', ']']
          [.token (.ident ['b'])]] ∧
      Text.IsBalanced ['[', 'u', 'r', 'l', '(', 'a', ' ', 'b', ']'] ∧
      (∀ v, ¬(Cursor.ofText ['[', 'u', 'r', 'l', '(', 'a', ' ', 'b', ']']).SkipsUrl v [']']) ∧
      ∃ m ws, ['[', 'u', 'r', 'l', '(', 'a', ' ', 'b', ']'] = '[' :: (m ++ [']']) ∧
        (Cursor.ofText m).componentValues.result = .ok ws ∧
        trimEnds ComponentValue.isWhitespace ws = [.token (.ident ['b'])] := by
  have h : Entry.values .stylesheet ['@', 'a', '[', 'u', 'r', 'l', '(', 'a', ' ', 'b', ']'] =
      .ok [.block .square ['[', 'u', 'r', 'l', '(', 'a', ' ', 'b', ']']
        [.token (.ident ['b'])]] := by
    with_unfolding_all rfl
  have hbal : Text.IsBalanced ['[', 'u', 'r', 'l', '(', 'a', ' ', 'b', ']'] := by
    refine ⟨[.opening .square, .ident ['b'], .closing .square], ?_, rfl⟩
    with_unfolding_all rfl
  have hwalk : (Cursor.ofText ['[', 'u', 'r', 'l', '(', 'a', ' ', 'b', ']']).walk.map
      (fun o => (o.result, o.cursor.rest)) =
      [(.ok (some (.opening .square)), ['u', 'r', 'l', '(', 'a', ' ', 'b', ']']),
        (.error ⟨.malformedUrl, 7⟩, ['b', ']']), (.ok (some (.ident ['b'])), [']']),
        (.ok (some (.closing .square)), []), (.ok none, [])] := by
    with_unfolding_all rfl
  have hskip (v : Text) :
      ¬(Cursor.ofText ['[', 'u', 'r', 'l', '(', 'a', ' ', 'b', ']']).SkipsUrl v [']'] := by
    rintro ⟨o, ho, f, hf, -, -, hrest⟩
    have hmem := List.mem_map_of_mem (f := fun o => (o.result, o.cursor.rest)) ho
    rw [hwalk, hf, hrest] at hmem
    simp at hmem
  have hv : .block .square ['[', 'u', 'r', 'l', '(', 'a', ' ', 'b', ']'] [.token (.ident ['b'])] ∈
      ComponentValue.nodesOf [.block .square ['[', 'u', 'r', 'l', '(', 'a', ' ', 'b', ']']
        [.token (.ident ['b'])]] := by
    simp [ComponentValue.nodesOf, ComponentValue.nodes]
  obtain ⟨m, ws, htext, hws, hno, -⟩ := Entry.closed_block_contents h hv hbal
  exact ⟨h, hv, hbal, hskip, m, ws, htext, hws, hno hskip⟩

/-- A malformed url that is skipped right in front of the closing bracket: the block is empty,
and its contents are a url. -/
theorem Entry.contents_of_skipped_url :
    Entry.values .componentValues ['[', 'u', 'r', 'l', '(', 'a', ' ', ']'] =
        .ok [.block .square ['[', 'u', 'r', 'l', '(', 'a', ' ', ']'] []] ∧
      Text.IsBalanced ['[', 'u', 'r', 'l', '(', 'a', ' ', ']'] ∧
      (Cursor.ofText ['u', 'r', 'l', '(', 'a', ' ']).componentValues.result =
        .ok [.token (.url ['u', 'r', 'l', '(', 'a', ' '])] ∧
      trimEnds ComponentValue.isWhitespace
        [.token (.url ['u', 'r', 'l', '(', 'a', ' '])] ≠ [] := by
  refine ⟨?_, ⟨[.opening .square, .closing .square], ?_, rfl⟩, ?_, ?_⟩
  · with_unfolding_all rfl
  · with_unfolding_all rfl
  · with_unfolding_all rfl
  · simp [trimEnds, ComponentValue.isWhitespace]

end CssReader
