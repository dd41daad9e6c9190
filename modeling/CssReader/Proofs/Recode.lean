/-
# All characters outside ASCII are alike

The image of a text under a `Recoding`, which exchanges characters outside ASCII for
others, has the images of the tokens of the text, met at the same characters, and the
images of its trees; and a text that ends in a fault ends in the same one. So nothing
that is read, not even the target of a url or the unit of a number, depends on which
characters outside ASCII there are. None of them is a token by itself.

The lexeme of the image is the image of the lexeme (`Recoding.read`). Everything else
follows as the lexemes follow each other: for a cursor and its steps through
`Cursor.Recoded`, for trees through what a text parses as.

Key definitions: `Cursor.Recoded`, `ComponentValue.recode`, `Tree.recode`.
Key theorems: `Cursor.Recoded.next`, `Recoding.tokens`, `Recoding.parses`, `Recoding.entry`,
`Recoding.reads_alike`.
-/
import CssReader.Proofs.Bare
import CssReader.Proofs.Ended
import CssReader.Proofs.Lexing
import CssReader.Proofs.Lexeme.UrlForm

namespace CssReader

variable {f : Char → Char}

/-! ### Images further on -/

/-- What was found in a text is found further on in a longer one, and so are the images. -/
theorem Except.recode_shift {α β : Type} (before t : Text) (g : α → β) (r : Except Fault α) :
    Except.recode f (before ++ t) g (r.mapError (Fault.shift (Text.size before))) =
      (Except.recode f t g r).mapError (Fault.shift (Text.size (before.map f))) := by
  cases r with
  | ok a => rfl
  | error e => simp [Except.mapError, Except.recode, Fault.recode, Fault.shift,
      Text.recodedAt_append]

theorem Lexeme.resultAt_recode (before : Text) (l : Lexeme) :
    (l.recode f).resultAt (Text.size (before.map f)) =
      Except.recode f (before ++ (l.text ++ l.rest)) (Option.map (Token.recode f))
        (l.resultAt (Text.size before)) := by
  unfold resultAt Lexeme.recode
  rcases l.result with e | t
  · simp [Except.recode, Fault.recode, Fault.shift, Text.recodedAt_append]
  · rfl

/-- What a lexeme puts in front of the tokens of what it leaves. -/
theorem Lexeme.prepend_recode (k : Text) (l : Lexeme) (later : Except Fault (List Token)) :
    (l.recode f).prepend (Text.size (k.map f))
        (Except.recode f l.rest (List.map (Token.recode f)) later) =
      Except.recode f (k ++ (l.text ++ l.rest)) (List.map (Token.recode f))
        (l.prepend (Text.size k) later) := by
  have hlater := Except.recode_shift (f := f) (k ++ l.text) l.rest (List.map (Token.recode f)) later
  rw [List.append_assoc, List.map_append, Text.size_append, Text.size_append] at hlater
  unfold prepend
  rcases hr : l.result with e | t
  · have hr' : (l.recode f).result = .error (e.recode f (l.text ++ l.rest)) := by
      simp [Lexeme.recode, hr, Except.recode]
    rw [hr']
    dsimp only
    rw [Fault.isRecoverable_recode]
    by_cases hrec : e.isRecoverable = true
    · rw [if_pos hrec, if_pos hrec, hlater]
      rfl
    · rw [if_neg hrec, if_neg hrec]
      simp [Except.recode, Fault.recode, Fault.shift, Text.recodedAt_append]
  · have hr' : (l.recode f).result = .ok (t.recode f) := by
      simp [Lexeme.recode, hr, Except.recode]
    rw [hr']
    dsimp only
    rw [show (l.recode f).text = l.text.map f from rfl, ← hlater]
    cases later <;> rfl

/-! ### Steps -/

/-- The outcome of a step in the text `s`, and that of a step in its image which is at the
same character and gives the same. -/
structure Outcome.Recoded (f : Char → Char) (s : Text) (o o' : Outcome (Option Token)) : Prop where
  result : o'.result = Except.recode f s (Option.map (Token.recode f)) o.result
  tokenStart : o'.cursor.tokenStart = Text.recodedAt f s o.cursor.tokenStart
  position : o'.cursor.position = Text.recodedAt f s o.cursor.position

/-- A cursor in the text `s`, and one in its image that is at the same character. -/
structure Cursor.Recoded (f : Char → Char) (s : Text) (c c' : Cursor) : Prop where
  source : c.source = s
  pending : c.pending = none
  pending' : c'.pending = none
  rest : c'.rest = c.rest.map f
  behind : ∃ before last, c.Behind before last ∧ c'.Behind (before.map f) (last.map f)

namespace Cursor.Recoded

variable {s : Text} {c c' : Cursor}

theorem ofText (f : Char → Char) (s : Text) :
    Recoded f s (Cursor.ofText s) (Cursor.ofText (s.map f)) :=
  ⟨rfl, rfl, rfl, rfl, [], [], ofText_behind s, ofText_behind (s.map f)⟩

theorem places (h : Recoded f s c c') : c'.tokenStart = Text.recodedAt f s c.tokenStart ∧
    c'.position = Text.recodedAt f s c.position := by
  obtain ⟨before, last, hb, hb'⟩ := h.behind
  have hs : s = before ++ last ++ c.rest := h.source.symm.trans hb.source
  constructor
  · rw [hb.tokenStart, hb'.tokenStart, hs, List.append_assoc, Text.recodedAt_size]
  · rw [hb.position, hb'.position, hs, Text.recodedAt_size, List.map_append]

/-- **Steps in the text and in its image go on together.** -/
theorem next (hf : Recoding f) (h : Recoded f s c c') :
    Outcome.Recoded f s c.next c'.next ∧ Recoded f s c.next.cursor c'.next.cursor := by
  suffices hstep : c'.next.result =
      Except.recode f s (Option.map (Token.recode f)) c.next.result ∧
      Recoded f s c.next.cursor c'.next.cursor by
    obtain ⟨hstart, hpos⟩ := hstep.2.places
    exact ⟨⟨hstep.1, hstart, hpos⟩, hstep.2⟩
  obtain ⟨before, last, hb, hb'⟩ := h.behind
  have hrun : Comment.run c'.rest = Recoding.both f (Comment.run c.rest) := h.rest ▸ hf.run c.rest
  have hread : Lexeme.read (Recoding.both f (Comment.run c.rest)).2 =
      (Lexeme.read (Comment.run c.rest).2).map (Lexeme.recode f) := hf.read _
  rcases hb.next_cases h.pending with
    ⟨hnil, hres, hrest, hsrc, hc⟩ | ⟨l, hl, hres, hrest, hsrc, hc⟩
  · rcases hb'.next_cases h.pending' with ⟨-, hres', hrest', -, hc'⟩ | ⟨l', hl', -⟩
    · refine ⟨by rw [hres, hres']; rfl, hsrc.trans h.source, next_pending c, next_pending c',
        by rw [hrest, hrest']; rfl, _, _, hc, ?_⟩
      rw [h.rest, ← List.map_append, ← List.map_append] at hc'
      exact hc'
    · rw [hrun, hread, hnil, Lexeme.read_eq_none.2 rfl] at hl'
      simp at hl'
  · rw [hl, Option.map_some] at hread
    rcases hb'.next_cases h.pending' with ⟨hnil', -⟩ | ⟨l', hl', hres', hrest', -, hc'⟩
    · rw [hrun] at hnil'
      rw [hnil', Lexeme.read_eq_none.2 rfl] at hread
      simp at hread
    · rw [hrun] at hl' hres' hc'
      obtain rfl : l.recode f = l' := Option.some.inj (hread.symm.trans hl')
      have hbefore : before.map f ++ last.map f ++ (Recoding.both f (Comment.run c.rest)).1 =
          (before ++ last ++ (Comment.run c.rest).1).map f := by simp [Recoding.both]
      rw [hbefore] at hres' hc'
      have hs : s = before ++ last ++ (Comment.run c.rest).1 ++ (l.text ++ l.rest) := by
        rw [← h.source, hb.source, (Lexeme.read_split hl).1, List.append_assoc _ _
          (Comment.run c.rest).2, Comment.run_split]
      refine ⟨?_, hsrc.trans h.source, next_pending c, next_pending c',
        by rw [hrest, hrest']; rfl, _, _, hc, hc'⟩
      rw [hres, hres', hs]
      exact l.resultAt_recode _

/-- The walk over the image meets the same, step by step. -/
theorem walk (hf : Recoding f) (h : Recoded f s c c') :
    List.Forall₂ (Outcome.Recoded f s) c.walk c'.walk := by
  fun_induction Cursor.walk c generalizing c' with
  | case1 c hend =>
    obtain ⟨hstep, -⟩ := h.next hf
    rw [Outcome.isEnd_iff] at hend
    have hend' : c'.next.isEnd = true := by
      rw [Outcome.isEnd_iff, hstep.result, hend]
      rfl
    rw [Cursor.walk, dif_pos hend']
    exact .cons hstep .nil
  | case2 c hend ih =>
    obtain ⟨hstep, hnext⟩ := h.next hf
    rw [Outcome.isEnd_iff] at hend
    have hend' : ¬c'.next.isEnd = true := by
      rw [Outcome.isEnd_iff, hstep.result]
      rcases hr : c.next.result with e | _ | t
      · simp [Except.recode]
      · exact absurd hr hend
      · simp [Except.recode]
    have hwalk : c'.walk = c'.next :: c'.next.cursor.walk := by rw [Cursor.walk, dif_neg hend']
    rw [hwalk]
    exact .cons hstep (ih hnext)

end Cursor.Recoded

namespace Recoding

open Cursor (ofText)

/-- **The tokens of the image are the images of the tokens**, or the same fault ends both. -/
theorem tokens (h : Recoding f) (s : Text) : (ofText (s.map f)).tokens.result =
    Except.recode f s (List.map (Token.recode f)) (ofText s).tokens.result := by
  induction hn : s.length using Nat.strongRecOn generalizing s with
  | ind n ih =>
    subst hn
    have hread := h.read_run s
    rcases hl : Lexeme.read (Comment.run s).2 with _ | l
    · rw [hl, Option.map_none] at hread
      rw [Cursor.tokens_ofText_nil (Lexeme.read_eq_none.1 hl),
        Cursor.tokens_ofText_nil (Lexeme.read_eq_none.1 hread)]
      rfl
    · rw [hl, Option.map_some] at hread
      have hlater := ih l.rest.length (Lexeme.read_run_length_lt hl) l.rest rfl
      have hs : s = (Comment.run s).1 ++ (l.text ++ l.rest) := by
        rw [(Lexeme.read_split hl).1, Comment.run_split]
      rw [Cursor.tokens_ofText hl, Cursor.tokens_ofText hread, h.run s,
        show (l.recode f).rest = l.rest.map f from rfl, hlater]
      have hall := l.prepend_recode (f := f) (Comment.run s).1 (ofText l.rest).tokens.result
      rwa [← hs] at hall

end Recoding

/-! ### Trees -/

namespace ComponentValue

mutual

/-- The image of a value. -/
def recode (f : Char → Char) : ComponentValue → ComponentValue
  | .token t => .token (t.recode f)
  | .function name text arguments => .function (name.map f) (text.map f) (recodes f arguments)
  | .block b text values => .block b (text.map f) (recodes f values)

/-- The images of values. -/
def recodes (f : Char → Char) : List ComponentValue → List ComponentValue
  | [] => []
  | v :: vs => recode f v :: recodes f vs

end

theorem recodes_eq_map : ∀ vs : List ComponentValue, recodes f vs = vs.map (recode f)
  | [] => rfl
  | v :: vs => by rw [recodes, recodes_eq_map vs, List.map_cons]

theorem isWhitespace_recode (v : ComponentValue) :
    (v.recode f).isWhitespace = v.isWhitespace := by
  rcases v with t | ⟨name, text, arguments⟩ | ⟨b, text, values⟩
  · cases t <;> rfl
  · rfl
  · rfl

theorem recodes_trimEnds (vs : List ComponentValue) :
    recodes f (trimEnds isWhitespace vs) = trimEnds isWhitespace (recodes f vs) := by
  have hp : isWhitespace ∘ recode f = isWhitespace := funext isWhitespace_recode
  simp only [recodes_eq_map, trimEnds, List.dropWhile_map, ← List.map_reverse, hp]

end ComponentValue

/-- The image of a block. -/
def Block.recode (f : Char → Char) (b : Block) : Block :=
  ⟨b.bracket, b.text.map f, ComponentValue.recodes f b.values⟩

/-- The image of a rule. -/
def Rule.recode (f : Char → Char) : Rule → Rule
  | .atRule name header block =>
    .atRule (name.map f) (ComponentValue.recodes f header) (block.map (Block.recode f))
  | .qualified header block => .qualified (ComponentValue.recodes f header) (block.recode f)

/-- The image of a tree. -/
def Tree.recode (f : Char → Char) : Tree → Tree
  | .stylesheet sheet => .stylesheet ⟨sheet.rules.map (Rule.recode f)⟩
  | .rules rs => .rules (rs.map (Rule.recode f))
  | .componentValues vs => .componentValues (ComponentValue.recodes f vs)

/-- The image of an opener. -/
def Opener.recode (f : Char → Char) : Opener → Opener
  | .bracket b => .bracket b
  | .function name => .function (name.map f)

namespace Opener

theorem ofToken?_recode (t : Token) : ofToken? (t.recode f) = (ofToken? t).map (recode f) := by
  cases t <;> rfl

theorem node_recode (o : Opener) (text : Text) (inner : List ComponentValue) :
    (o.node ⟨text, inner⟩).recode f =
      (o.recode f).node ⟨text.map f, ComponentValue.recodes f inner⟩ := by
  cases o with
  | function name => rfl
  | bracket b =>
    simp [node, recode, ComponentValue.recode, Enclosed.trimmed, ComponentValue.recodes_trimEnds]

/-- The image of a token closes what the token closes. -/
theorem closer_recode (o : Opener) (t : Token) :
    t.recode f = (o.recode f).closer ↔ t = o.closer := by
  cases o <;> cases t <;> simp [Token.recode, closer, recode]

end Opener

namespace Recoding

open Cursor (ofText)

theorem nextToken (h : Recoding f) {s span rest : Text} {t? : Option Token}
    (hn : NextToken s t? span rest) :
    NextToken (s.map f) (t?.map (Token.recode f)) (span.map f) (rest.map f) := by
  have hread : ∀ {s : Text} {l : Lexeme}, Lexeme.read (Comment.run s).2 = some l →
      Lexeme.read (Comment.run (s.map f)).2 = some (l.recode f) := fun {s l} hl => by
    rw [h.read_run, hl, Option.map_some]
  induction hn with
  | @finish s hnil =>
    refine .finish ?_
    rw [h.run_rest, hnil, List.map_nil]
  | @token s l t hl ht =>
    exact .token (l := l.recode f) (hread hl) (by simp [Lexeme.recode, ht, Except.recode])
  | @skip s span rest l e t? hl he hrec _ ih =>
    exact .skip (l := l.recode f) (f := e.recode f (l.text ++ l.rest)) (hread hl)
      (by simp [Lexeme.recode, he, Except.recode]) hrec ih

/-- **The image of a text parses as the images of its values.** -/
theorem parses (h : Recoding f) {stops stops' : Token → Bool} {s rest : Text}
    {vs : List ComponentValue} {stop : Option Token} (hp : Parses stops s vs stop rest)
    (hstops : ∀ t, stops' (t.recode f) = stops t) :
    Parses stops' (s.map f) (ComponentValue.recodes f vs) (stop.map (Token.recode f))
      (rest.map f) := by
  induction hp generalizing stops' with
  | finish hn => exact .finish (h.nextToken hn)
  | stop hn hstop => exact .stop (h.nextToken hn) (by rw [hstops, hstop])
  | token hn hstop ho _ ih =>
    exact .token (h.nextToken hn) (by rw [hstops, hstop])
      (by rw [Opener.ofToken?_recode, ho, Option.map_none]) (ih hstops)
  | @node stops s span u s₂ rest t o inner vs close stop hn hstop ho _ _ ihi ih =>
    have hn' := h.nextToken hn
    have hcloser : ∀ t : Token, decide (t.recode f = (o.recode f).closer) = decide (t = o.closer) :=
      fun t => decide_eq_decide.2 (o.closer_recode t)
    have hinner := @ihi (fun t => t = (o.recode f).closer) hcloser
    rw [List.map_append] at hn' hinner
    rw [ComponentValue.recodes, Opener.node_recode, List.map_append]
    exact .node hn' (by rw [hstops, hstop]) (by rw [Opener.ofToken?_recode, ho, Option.map_some])
      hinner (ih hstops)

theorem componentValues (h : Recoding f) (s : Text) : (ofText (s.map f)).componentValues.result =
    Except.recode f s (ComponentValue.recodes f) (ofText s).componentValues.result := by
  have htokens := h.tokens s
  rcases hr : (ofText s).componentValues.result with e | vs
  · rw [((ofText s).componentValues_readsAll.error e).1 hr] at htokens
    exact ((ofText (s.map f)).componentValues_readsAll.error _).2 htokens
  · obtain ⟨rest, hp⟩ := componentValues_result_iff.1 hr
    exact componentValues_result_iff.2 ⟨rest.map f, h.parses hp fun _ => rfl⟩

theorem keepsRules (h : Recoding f) :
    ComponentValue.KeepsRules (ComponentValue.recode f) (List.map f) (Block.recode f) where
  start top v := by
    rcases v with t | ⟨name, text, arguments⟩ | ⟨b, text, values⟩
    · have hcdo := h.map_ascii (s := ['<', '!', '-', '-']) (by simp)
      have hcdc := h.map_ascii (s := ['-', '-', '>']) (by simp)
      cases t with
      | cdo =>
        cases top with
        | true => rfl
        | false => exact congrArg ValueStart.atRule hcdo.symm
      | cdc =>
        cases top with
        | true => rfl
        | false => exact congrArg ValueStart.atRule hcdc.symm
      | _ => rfl
    · rfl
    · rfl
  curlyBlock? v := by
    rcases v with t | ⟨name, text, arguments⟩ | ⟨b, text, values⟩
    · rfl
    · rfl
    · cases b <;> rfl
  endsAtRule v := by
    rcases v with t | ⟨name, text, arguments⟩ | ⟨b, text, values⟩
    · cases t <;> rfl
    · rfl
    · cases b <;> rfl

theorem ofValues (h : Recoding f) (top : Bool) (vs : List ComponentValue) :
    Rule.ofValues top (ComponentValue.recodes f vs) =
      (Rule.ofValues top vs).map (Rule.recode f) := by
  have hrule : ∀ r : Rule, r.recode f =
      r.mapValues (ComponentValue.recode f) (List.map f) (Block.recode f) := fun r => by
    cases r <;> simp [Rule.recode, Rule.mapValues, ComponentValue.recodes_eq_map]
  rw [ComponentValue.recodes_eq_map, Rule.ofValues_map h.keepsRules]
  exact List.map_congr_left fun r _ => (hrule r).symm

/-- **Every tree of the image is the image of the tree**, or the same fault is in its place. -/
theorem entry (h : Recoding f) (e : Entry) (s : Text) : (e.read (ofText (s.map f))).result =
    Except.recode f s (Tree.recode f) (e.read (ofText s)).result := by
  have htree : ∀ vs, e.tree (ComponentValue.recodes f vs) = (e.tree vs).recode f := fun vs => by
    cases e with
    | stylesheet => exact congrArg (fun rs => Tree.stylesheet ⟨rs⟩) (h.ofValues true vs)
    | rules => exact congrArg Tree.rules (h.ofValues false vs)
    | componentValues => rfl
  rw [e.read_result, e.read_result, h.componentValues]
  rcases (ofText s).componentValues.result with e' | vs
  · rfl
  · exact congrArg Except.ok (htree vs)

/-! ### Parts of tokens -/

theorem stripLast_eq (h : Recoding f) {c : Char} (hc : c.toNat < 128) (s : Text) :
    stripLast c (s.map f) = (stripLast c s).map f := by
  have hlast : (s.map f).getLast? = some c ↔ s.getLast? = some c := by
    rw [List.getLast?_map]
    rcases s.getLast? with _ | d
    · simp
    · simpa using h.eq_iff hc d
  unfold stripLast
  by_cases hs : s.getLast? = some c
  · rw [if_pos hs, if_pos (hlast.2 hs), List.map_dropLast]
  · rw [if_neg hs, if_neg (mt hlast.1 hs)]

theorem trimEnds_eq (h : Recoding f) {p : Char → Bool} (hp : IsBlind p) (s : Text) :
    trimEnds p (s.map f) = (trimEnds p s).map f := by
  simp only [trimEnds, List.dropWhile_map, h.class_eq hp, ← List.map_reverse]

theorem unquote_eq (h : Recoding f) (s : Text) :
    Token.unquote (s.map f) = (Token.unquote s).map f := by
  rcases s with _ | ⟨c, s⟩
  · rfl
  · have hquote : isQuote (f c) = isQuote c := congrFun (h.class_eq .isQuote) c
    rw [List.map_cons, Token.unquote, Token.unquote, hquote]
    by_cases hq : isQuote c = true
    · rw [if_pos hq, if_pos hq, h.ascii c (isQuote_ascii hq), h.stripLast_eq (isQuote_ascii hq)]
    · rw [if_neg hq, if_neg hq, List.map_cons]

/-- **The target of the image of a url is the image of its target.** -/
theorem urlTarget? (h : Recoding f) {t : Token} (hurl : ∀ v, t = .url v →
      ∃ name u, Lexeme.isUrlName name = true ∧ v = name ++ '(' :: u) :
    (t.recode f).urlTarget? = t.urlTarget?.map (List.map f) := by
  cases t with
  | url v =>
    obtain ⟨name, u, hn, rfl⟩ := hurl v rfl
    have himage : (name ++ '(' :: u).map f = name ++ '(' :: u.map f := by
      rw [List.map_append, List.map_cons, h.map_ascii (Lexeme.isUrlName_ascii hn).2,
        h.ascii '(' (by decide)]
    simp only [Token.recode, Token.urlTarget?, himage, Lexeme.urlBody_eq hn, Option.map_some]
    rw [h.stripLast_eq (by decide), h.trimEnds_eq .isBlank, h.unquote_eq]
  | _ => rfl

/-- **The unit of the image of a dimension is the image of its unit.** -/
theorem unit? (h : Recoding f) (t : Token) :
    (t.recode f).unit? = t.unit?.map (List.map f) := by
  cases t with
  | dimension v =>
    simp only [Token.recode, Token.unit?, Token.splitNumeric, Option.map_some,
      h.stripLast_eq (c := '%') (by decide), h.numeral]
    rcases Numeral.read? (stripLast '%' v) with _ | ⟨n, r⟩ <;> rfl
  | _ => rfl

/-- **Which characters outside ASCII there are does not matter to anything that is read.** -/
theorem reads_alike (h : Recoding f) (s : Text) :
    ((ofText (s.map f)).tokens.result =
        Except.recode f s (List.map (Token.recode f)) (ofText s).tokens.result) ∧
      List.Forall₂ (Outcome.Recoded f s) (ofText s).walk (ofText (s.map f)).walk ∧
      (∀ e : Entry, (e.read (ofText (s.map f))).result =
        Except.recode f s (Tree.recode f) (e.read (ofText s)).result) ∧
      ∀ c t, Cursor.Reachable s c → c.pending = none → c.next.result = .ok (some t) →
        (t.recode f).urlTarget? = t.urlTarget?.map (List.map f) ∧
          (t.recode f).unit? = t.unit?.map (List.map f) ∧
          ∀ d, t = .delim d → d.toNat < 128 := by
  refine ⟨h.tokens s, (Cursor.Recoded.ofText f s).walk h, fun e => h.entry e s,
    fun c t hc hp ht => ?_⟩
  obtain ⟨l, hl, hres⟩ : ∃ l, Lexeme.read (Comment.run c.rest).2 = some l ∧
      l.result = .ok t := by
    obtain ⟨before, last, hb⟩ := hc.kept.behind
    rcases hb.next_cases hp with ⟨-, hres, -⟩ | ⟨l, hl, hres, -⟩
    · rw [ht] at hres
      simp at hres
    · exact ⟨l, hl, Lexeme.resultAt_eq_some.1 (hres.symm.trans ht)⟩
  refine ⟨h.urlTarget? fun v hv => ?_, h.unit? t, fun d hd => ?_⟩
  · exact Lexeme.url_text hl (hv ▸ hres)
  · exact Lexeme.delim_ascii hl (hd ▸ hres)

/-- All characters outside ASCII may become the same one, of another number of bytes. -/
theorem reads_alike_one_for_all :
    let f : Char → Char := fun c => if c.toNat < 128 then c else '日'
    let s : Text := ['2', 'é', 'u', '+', '1']
    Recoding f ∧ s.map f = ['2', '日', 'u', '+', '1'] ∧
      (ofText (s.map f)).tokens.result =
        Except.recode f s (List.map (Token.recode f)) (ofText s).tokens.result ∧
      (ofText s).next.result = .ok (some (.dimension ['2', 'é', 'u'])) ∧
      (Token.recode f (.dimension ['2', 'é', 'u'])).unit? = some ['日', 'u'] := by
  intro f s
  have hf : Recoding f := by
    refine ⟨fun c hc => if_pos hc, fun c hc => ?_⟩
    rw [show f c = '日' from if_neg (Nat.not_lt.2 hc)]
    decide
  have hnext : (ofText s).next.result = .ok (some (.dimension ['2', 'é', 'u'])) := by
    with_unfolding_all rfl
  obtain ⟨htokens, -, -, hparts⟩ := hf.reads_alike s
  have hunit := (hparts (ofText s) _ .ofText rfl hnext).2.1
  refine ⟨hf, by decide, htokens, hnext, hunit.trans ?_⟩
  with_unfolding_all rfl

end Recoding
end CssReader
