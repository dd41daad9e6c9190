/-
# Matching brackets

One pass over a list of tokens, with the open brackets on a stack, builds a list
of nests: tokens, and what stands between an opening token and the token that
closed it, or the end. Only the innermost open bracket can be closed, and only
by its own closing token; every other token is kept where it stands. Nothing is
lost on the way: the nests, written out, are the tokens (`Nest.ofTokens_tokens`).

The readers of component values, which call each other and hand tokens back,
build the same trees from a text as this pass does from its tokens, except that
they note the source texts, which the pass does not see.

Key definitions: `Nest`, `Matcher.step`, `Nest.ofTokens`, `Nest.value`,
`ComponentValue.bare`.
Key theorems: `Nest.ofTokens_tokens`, `Cursor.Forest.nests`,
`Cursor.componentValues_eq_nests`.
-/
import CssReader.Proofs.Follows

namespace CssReader

/-! ### One pass over the tokens -/

/-- What a pass over tokens builds. -/
inductive Nest
  | token (t : Token)
  /-- What `first` opened, with the nests in it, and whether it was closed. -/
  | node (first : Token) (opener : Opener) (inside : List Nest) (closed : Bool)

namespace Nest

mutual

/-- The tokens of a nest, with those that open and close it. -/
def tokens : Nest → List Token
  | .token t => [t]
  | .node first o inside closed =>
    first :: tokensOf inside ++ if closed then [o.closer] else []

/-- The tokens of nests. -/
def tokensOf : List Nest → List Token
  | [] => []
  | n :: ns => tokens n ++ tokensOf ns

end

theorem tokensOf_append : ∀ ns ns' : List Nest,
    tokensOf (ns ++ ns') = tokensOf ns ++ tokensOf ns'
  | [], _ => rfl
  | n :: ns, ns' => by
    rw [List.cons_append, tokensOf, tokensOf, tokensOf_append ns ns', List.append_assoc]

end Nest

/-- An open bracket, and what stands behind it so far. -/
structure Frame where
  first : Token
  opener : Opener
  inside : List Nest

/-- The nest that a frame becomes, by its closing token or by the end. -/
def Frame.close (closed : Bool) (f : Frame) : Nest := .node f.first f.opener f.inside closed

/-- A pass over tokens, under way. -/
structure Matcher where
  /-- What stands outside of all open brackets. -/
  outside : List Nest
  /-- The open brackets, the innermost first. -/
  frames : List Frame

namespace Matcher

/-- Puts nests into the innermost open bracket, or outside of all. -/
def add (ns : List Nest) : Matcher → Matcher
  | ⟨outside, []⟩ => ⟨outside ++ ns, []⟩
  | ⟨outside, f :: fs⟩ => ⟨outside, { f with inside := f.inside ++ ns } :: fs⟩

/-- Opens a bracket. -/
def push (f : Frame) (m : Matcher) : Matcher := { m with frames := f :: m.frames }

/-- Closes the innermost open bracket, by its closing token or not. -/
def pop (closed : Bool) : Matcher → Matcher
  | ⟨outside, []⟩ => ⟨outside, []⟩
  | ⟨outside, f :: fs⟩ => add [f.close closed] ⟨outside, fs⟩

/-- Whether a token closes the innermost open bracket. -/
def closes (m : Matcher) (t : Token) : Bool := m.frames.head?.any fun f => t = f.opener.closer

/-- Takes a token. -/
def step (m : Matcher) (t : Token) : Matcher :=
  match Opener.ofToken? t with
  | some o => m.push ⟨t, o, []⟩
  | none => if m.closes t then m.pop true else m.add [.token t]

/-- What has been built when the tokens end: all open brackets end there too,
the innermost first, each inside of the next. -/
def finish (m : Matcher) : List Nest :=
  m.outside ++
    m.frames.foldl (fun ns f => [{ f with inside := f.inside ++ ns }.close false]) []

@[simp] theorem add_nil (m : Matcher) : m.add [] = m := by
  rcases m with ⟨outside, _ | ⟨f, fs⟩⟩ <;> simp [add]

@[simp] theorem add_add (m : Matcher) (ns ns' : List Nest) :
    (m.add ns).add ns' = m.add (ns ++ ns') := by
  rcases m with ⟨outside, _ | ⟨f, fs⟩⟩ <;> simp [add]

@[simp] theorem closes_add (m : Matcher) (ns : List Nest) (t : Token) :
    (m.add ns).closes t = m.closes t := by
  rcases m with ⟨outside, _ | ⟨f, fs⟩⟩ <;> rfl

@[simp] theorem closes_push (m : Matcher) (f : Frame) (t : Token) :
    (m.push f).closes t = decide (t = f.opener.closer) := rfl

theorem pop_push (m : Matcher) (f : Frame) (closed : Bool) :
    (m.push f).pop closed = m.add [f.close closed] := rfl

/-- At the end the innermost open bracket may as well be closed first. -/
theorem finish_pop (m : Matcher) : (m.pop false).finish = m.finish := by
  rcases m with ⟨outside, _ | ⟨f, _ | ⟨g, fs⟩⟩⟩ <;> simp [pop, add, finish]

theorem step_opener {m : Matcher} {t : Token} {o : Opener} (h : Opener.ofToken? t = some o) :
    m.step t = m.push ⟨t, o, []⟩ := by
  simp [step, h]

theorem step_closer (m : Matcher) (f : Frame) :
    (m.push f).step f.opener.closer = m.add [f.close true] := by
  have ho : Opener.ofToken? f.opener.closer = none := by cases f.opener <;> rfl
  simp [step, ho, pop_push]

theorem step_token {m : Matcher} {t : Token} (h : Opener.ofToken? t = none)
    (hc : m.closes t = false) : m.step t = m.add [.token t] := by
  simp [step, h, hc]

/-! ### Nothing is lost -/

/-- The tokens taken so far. -/
def tokens (m : Matcher) : List Token :=
  Nest.tokensOf m.outside ++
    m.frames.foldr (fun f ts => ts ++ f.first :: Nest.tokensOf f.inside) []

theorem tokens_add (m : Matcher) (ns : List Nest) :
    (m.add ns).tokens = m.tokens ++ Nest.tokensOf ns := by
  rcases m with ⟨outside, _ | ⟨f, fs⟩⟩ <;> simp [add, tokens, Nest.tokensOf_append]

theorem tokens_push (m : Matcher) (f : Frame) :
    (m.push f).tokens = m.tokens ++ f.first :: Nest.tokensOf f.inside := by
  simp [push, tokens]

theorem tokens_step (m : Matcher) (t : Token) : (m.step t).tokens = m.tokens ++ [t] := by
  unfold step
  split
  · exact tokens_push m _
  · split
    · rename_i hc
      rcases m with ⟨outside, _ | ⟨f, fs⟩⟩
      · simp [closes] at hc
      · have hc : t = f.opener.closer := by simpa [closes] using hc
        change ((push f ⟨outside, fs⟩).pop true).tokens = (push f ⟨outside, fs⟩).tokens ++ [t]
        rw [pop_push, tokens_add, tokens_push]
        simp [Frame.close, Nest.tokensOf, Nest.tokens, hc]
    · exact tokens_add m _

theorem tokens_foldl (ts : List Token) (m : Matcher) :
    (ts.foldl step m).tokens = m.tokens ++ ts := by
  induction ts generalizing m with
  | nil => simp
  | cons t ts ih => rw [List.foldl_cons, ih, tokens_step, List.append_assoc, List.singleton_append]

/-- Brackets that are never closed keep their tokens. -/
theorem tokensOf_finish (m : Matcher) : Nest.tokensOf m.finish = m.tokens := by
  induction hn : m.frames.length generalizing m with
  | zero =>
    have hf := List.length_eq_zero_iff.1 hn
    simp [finish, tokens, hf]
  | succ n ih =>
    rcases m with ⟨outside, _ | ⟨f, fs⟩⟩
    · simp at hn
    · change Nest.tokensOf (push f ⟨outside, fs⟩).finish = (push f ⟨outside, fs⟩).tokens
      have hl : ((push f ⟨outside, fs⟩).pop false).frames.length = n := by
        rcases fs with _ | ⟨g, fs⟩ <;> simp [pop, push, add] at hn ⊢ <;> omega
      rw [← finish_pop, ih _ hl, pop_push, tokens_add, tokens_push]
      simp [Frame.close, Nest.tokensOf, Nest.tokens]

end Matcher

namespace Nest

/-- The nests that a pass over the tokens builds. -/
def ofTokens (ts : List Token) : List Nest := (ts.foldl Matcher.step ⟨[], []⟩).finish

/-- **The nests built from tokens, written out, are the tokens.** -/
theorem ofTokens_tokens (ts : List Token) : tokensOf (ofTokens ts) = ts := by
  rw [ofTokens, Matcher.tokensOf_finish, Matcher.tokens_foldl]
  rfl

/-! ### Nests as component values -/

mutual

/-- The component value that a nest is, without source texts. A block loses the
blanks at either end, a function does not. -/
def value : Nest → ComponentValue
  | .token t => .token t
  | .node _ (.function name) inside _ => .function name [] (values inside)
  | .node _ (.bracket b) inside _ =>
    .block b [] (trimEnds ComponentValue.isWhitespace (values inside))

/-- The component values that nests are. -/
def values : List Nest → List ComponentValue
  | [] => []
  | n :: ns => value n :: values ns

end

end Nest

namespace ComponentValue

mutual

/-- The value without source texts. -/
def bare : ComponentValue → ComponentValue
  | .token t => .token t
  | .function name _ arguments => .function name [] (bares arguments)
  | .block b _ values => .block b [] (bares values)

/-- The values without source texts. -/
def bares : List ComponentValue → List ComponentValue
  | [] => []
  | v :: vs => bare v :: bares vs

end

theorem bares_eq_map : ∀ vs : List ComponentValue, bares vs = vs.map bare
  | [] => rfl
  | v :: vs => by rw [bares, bares_eq_map vs, List.map_cons]

@[simp] theorem isWhitespace_bare (v : ComponentValue) : v.bare.isWhitespace = v.isWhitespace := by
  cases v <;> rfl

theorem bares_trimEnds (vs : List ComponentValue) :
    bares (trimEnds isWhitespace vs) = trimEnds isWhitespace (bares vs) := by
  have hp : isWhitespace ∘ bare = isWhitespace := funext isWhitespace_bare
  simp only [bares_eq_map, trimEnds, List.dropWhile_map, ← List.map_reverse, hp]

end ComponentValue

namespace Cursor

/-! ### Readings and nests -/

/-- What an opener and values make is the nest of the opening token and the
nests that the values are. -/
theorem bare_node {o : Opener} {text : Text} {inner : List ComponentValue} {ins : List Nest}
    (t : Token) (closed : Bool) (h : ComponentValue.bares inner = Nest.values ins) :
    (o.node ⟨text, inner⟩).bare = Nest.value (.node t o ins closed) := by
  cases o with
  | function name => simp [Opener.node, ComponentValue.bare, Nest.value, h]
  | bracket b =>
    simp [Opener.node, Enclosed.trimmed, ComponentValue.bare, Nest.value,
      ComponentValue.bares_trimEnds, h]

/-- Where the values in an open bracket end, the pass closes the bracket, or the
tokens end too. -/
theorem Forest.finish_close {c c' : Cursor} {inner : List ComponentValue} {close : Option Token}
    {t : Token} {o : Opener} {ins : List Nest} {ts : List Token} (m : Matcher)
    (h : Forest (fun t => t = o.closer) c inner close c') (hts : c'.tokens.result = .ok ts) :
    ((close.toList ++ ts).foldl Matcher.step (m.push ⟨t, o, ins⟩)).finish =
      (ts.foldl Matcher.step (m.add [.node t o ins close.isSome])).finish := by
  rcases hclose : close with _ | k
  · have hend := congrArg Outcome.result (h.atEnd hclose).tokens
    obtain rfl : ts = [] := Except.ok.inj (hts.symm.trans hend)
    exact (Matcher.finish_pop _).symm
  · obtain rfl : k = o.closer := by simpa using h.stops_stop hclose
    have hstep := Matcher.step_closer m ⟨t, o, ins⟩
    exact congrArg (fun m => (ts.foldl Matcher.step m).finish) hstep

/-- A reading takes the tokens that it has read out of a pass, and puts the nests
that its values are into the innermost open bracket, if that is the one which
the reading stops at. A bracket that a reading leaves open is closed by the end
of the pass. -/
theorem Forest.nests {stops : Token → Bool} {c c' : Cursor} {vs : List ComponentValue}
    {stop : Option Token} (h : Forest stops c vs stop c') :
    ∀ {ts : List Token}, c.tokens.result = .ok ts →
    ∃ ns ts', ComponentValue.bares vs = Nest.values ns ∧ c'.tokens.result = .ok ts' ∧
      ∀ m : Matcher, (∀ t, m.closes t = stops t) →
        (ts.foldl Matcher.step m).finish =
          ((stop.toList ++ ts').foldl Matcher.step (m.add ns)).finish := by
  induction h with
  | finish hp =>
    intro ts hts
    obtain rfl := Except.ok.inj (hts.symm.trans (tokens_of_pull_none hp).result)
    exact ⟨[], [], rfl, by rw [(pull_atEnd hp).tokens], fun m _ => by simp⟩
  | stop hp _ =>
    intro ts hts
    obtain ⟨ts₁, rfl, h₁⟩ := tokens_cons hp hts
    exact ⟨[], ts₁, rfl, h₁, fun m _ => by simp⟩
  | @token stops _ _ _ t _ _ hp hs ho _ ih =>
    intro ts hts
    obtain ⟨ts₁, rfl, h₁⟩ := tokens_cons hp hts
    obtain ⟨ns, ts', hns, h', hm⟩ := ih h₁
    refine ⟨.token t :: ns, ts', ?_, h', fun m hc => ?_⟩
    · rw [ComponentValue.bares, Nest.values, hns]
      rfl
    · have hadd : ∀ u, (m.add [.token t]).closes u = stops u := fun u => by
        rw [Matcher.closes_add, hc]
      rw [List.foldl_cons, Matcher.step_token ho ((hc t).trans hs), hm _ hadd,
        Matcher.add_add, List.singleton_append]
  | @node stops _ c₁ c₂ _ t o inner _ close _ hp hs ho hi _ ihi ih =>
    intro ts hts
    obtain ⟨ts₁, rfl, h₁⟩ := tokens_cons hp hts
    obtain ⟨ins, ts₂, hins, h₂, hmi⟩ := ihi h₁
    obtain ⟨ns, ts', hns, h', hm⟩ := ih h₂
    refine ⟨.node t o ins close.isSome :: ns, ts', ?_, h', fun m hc => ?_⟩
    · rw [ComponentValue.bares, Nest.values, hns, bare_node t close.isSome hins]
    · -- inside of the bracket, and then behind it as if it had been there at once
      have hadd : ∀ u, (m.add [.node t o ins close.isSome]).closes u = stops u := fun u => by
        rw [Matcher.closes_add, hc]
      calc ((t :: ts₁).foldl Matcher.step m).finish
          = (ts₁.foldl Matcher.step (m.push ⟨t, o, []⟩)).finish := by
            rw [List.foldl_cons, Matcher.step_opener ho]
        _ = ((close.toList ++ ts₂).foldl Matcher.step (m.push ⟨t, o, ins⟩)).finish :=
            hmi _ fun _ => rfl
        _ = (ts₂.foldl Matcher.step (m.add [.node t o ins close.isSome])).finish :=
            hi.finish_close m h₂
        _ = ((_ ++ ts').foldl Matcher.step (m.add (.node t o ins close.isSome :: ns))).finish := by
            rw [hm _ hadd, Matcher.add_add, List.singleton_append]

/-- **The component values of a text are the nests of its tokens**, source texts
aside; and no token is lost or moved in building them. -/
theorem componentValues_eq_nests (s : Text) :
    (ofText s).componentValues.result.map ComponentValue.bares =
        (ofText s).tokens.result.map (fun ts => Nest.values (Nest.ofTokens ts)) ∧
      ∀ ts, Nest.tokensOf (Nest.ofTokens ts) = ts := by
  refine ⟨?_, Nest.ofTokens_tokens⟩
  have hf := componentValues_follows (ofText s)
  rcases hv : (ofText s).componentValues.result with f | vs
  · rw [hf.of_error hv]
    rfl
  · have h := componentValues_gives_iff.1 (Outcome.gives_of_result hv)
    have hend := h.atEnd rfl
    obtain ⟨ts, hts⟩ := hf.of_atEnd hv hend
    obtain ⟨ns, ts', hns, h', hm⟩ := h.nests hts
    obtain rfl := Except.ok.inj (h'.symm.trans (congrArg Outcome.result hend.tokens))
    have hrun : Nest.ofTokens ts = ns := by
      rw [Nest.ofTokens, hm ⟨[], []⟩ fun _ => rfl]
      simp [Matcher.add, Matcher.finish]
    rw [hts, Except.map, Except.map, hns, hrun]

end Cursor
end CssReader
