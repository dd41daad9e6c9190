/-
# Rules are split component values

The rules of a text can be had from its component values alone: they are what
the list of values falls into when it is split, from left to right, at the
places where a rule ends. `Rule.ofValues` splits a list so, without looking at
any text. Reading the rules reads the very same values on the way, with all that
is nested in them and with their source texts.

The readers of rules look at the token in front of a rule, and stop a list of
values at the tokens that end a header. In the list of values these are the
values that such a token is, or that it opens (`Cursor.Forest.header`).

Key definitions: `ComponentValue.start`, `Rule.ofValues`, `Cursor.HeaderEnd`.
Key theorems: `Cursor.Forest.header`, `Cursor.Forest.ruleList`, `Cursor.rules_split`.
-/
import CssReader.Proofs.Follows

namespace CssReader

/-! ### Splitting values into rules -/

/-- What a value does where a rule may begin. -/
inductive ValueStart
  /-- It is passed over. -/
  | skip
  /-- It begins an at-rule of this name. -/
  | atRule (name : Text)
  | qualified
deriving DecidableEq

namespace ComponentValue

/-- What a value does where a rule may begin, at the top level or below. -/
def start (top : Bool) : ComponentValue → ValueStart
  | .token .whitespace => .skip
  | .token .cdo => if top then .skip else .atRule ['<', '!', '-', '-']
  | .token .cdc => if top then .skip else .atRule ['-', '-', '>']
  | .token (.atKeyword name) => .atRule name
  | _ => .qualified

/-- The block that a value is, if it is one in curly brackets. -/
def curlyBlock? : ComponentValue → Option Block
  | .block .curly text values => some ⟨.curly, text, values⟩
  | _ => none

/-- Whether a value ends the header of a qualified rule. -/
def endsQualified (v : ComponentValue) : Bool := v.curlyBlock?.isSome

/-- Whether a value ends the header of an at-rule. -/
def endsAtRule : ComponentValue → Bool
  | .token .semicolon => true
  | v => v.endsQualified

end ComponentValue

theorem length_tail_dropWhile_le {α : Type} (p : α → Bool) (l : List α) :
    (l.dropWhile p).tail.length ≤ l.length - 1 := by
  have := (List.dropWhile_suffix (l := l) p).length_le
  rw [List.length_tail]
  omega

/-- The rules that a list of values falls into. A rule has a header, which ends
in front of the first value that ends it; that value is the rule's block, if it
is a block, and belongs to no other rule. An at-rule may do without a block. -/
def Rule.ofValues (top : Bool) : List ComponentValue → List Rule
  | [] => []
  | v :: vs =>
    match v.start top with
    | .skip => ofValues top vs
    | .atRule name =>
      let behind := vs.dropWhile (!·.endsAtRule)
      .atRule name (vs.takeWhile (!·.endsAtRule)) (behind.head?.bind ComponentValue.curlyBlock?) ::
        ofValues top behind.tail
    | .qualified =>
      let behind := (v :: vs).dropWhile (!·.endsQualified)
      ((behind.head?.bind ComponentValue.curlyBlock?).map
          (.qualified ((v :: vs).takeWhile (!·.endsQualified)))).toList ++
        ofValues top behind.tail
termination_by vs => vs.length
decreasing_by
  · simp
  · exact Nat.lt_succ_of_le (Nat.le_trans (length_tail_dropWhile_le _ vs) (Nat.sub_le _ _))
  · exact Nat.lt_succ_of_le (length_tail_dropWhile_le _ (v :: vs))

namespace Cursor

variable {c c' : Cursor} {vs : List ComponentValue}

/-! ### Headers -/

/-- The tokens that end a header do so as values: a token is such a value, or it
opens one, which is a block in curly brackets. -/
structure EndsAlike (ends : Token → Bool) (ends' : ComponentValue → Bool) : Prop where
  token : ∀ t, Opener.ofToken? t = none → ends' (.token t) = ends t
  node : ∀ t o e, Opener.ofToken? t = some o → ends' (o.node e) = ends t
  opening : ∀ t o, Opener.ofToken? t = some o → ends t = true → o = .bracket .curly

theorem ofToken?_eq_some {t : Token} {o : Opener} (h : Opener.ofToken? t = some o) :
    (∃ b, t = .opening b ∧ o = .bracket b) ∨
      ∃ name text, t = .function name text ∧ o = .function name := by
  unfold Opener.ofToken? at h
  split at h <;> cases h
  · exact .inl ⟨_, rfl, rfl⟩
  · exact .inr ⟨_, _, rfl, rfl⟩

theorem endsAlike_qualified : EndsAlike endsQualified ComponentValue.endsQualified where
  token t h := by cases t <;> simp_all [endsQualified, Opener.ofToken?,
    ComponentValue.endsQualified, ComponentValue.curlyBlock?]
  node t o e h := by
    rcases ofToken?_eq_some h with ⟨b, rfl, rfl⟩ | ⟨name, text, rfl, rfl⟩
    · cases b <;> rfl
    · rfl
  opening t o h he := by
    rw [endsQualified, decide_eq_true_eq] at he
    subst he
    exact (Option.some.inj h).symm

theorem endsAlike_atRule : EndsAlike endsAtRule ComponentValue.endsAtRule where
  token t h := by cases t <;> simp_all [endsAtRule, Opener.ofToken?,
    ComponentValue.endsAtRule, ComponentValue.endsQualified, ComponentValue.curlyBlock?]
  node t o e h := by
    rcases ofToken?_eq_some h with ⟨b, rfl, rfl⟩ | ⟨name, text, rfl, rfl⟩
    · cases b <;> rfl
    · rfl
  opening t o h he := by
    rcases ofToken?_eq_some h with ⟨b, rfl, rfl⟩ | ⟨name, text, rfl, rfl⟩
    · cases b <;> simp_all [endsAtRule]
    · simp [endsAtRule] at he

/-- What follows a header whose reading ends at `c₁`: behind an opening curly
bracket the block it opens, up to `c₂`, and otherwise nothing. -/
inductive HeaderEnd (c₁ : Cursor) : Option Token → Option Block → (c₂ : Cursor) → Prop
  | block {b : Block} {c₂ : Cursor} :
    (c₁.block .curly).Gives b c₂ → HeaderEnd c₁ (some (.opening .curly)) (some b) c₂
  | bare {stop : Option Token} : stop ≠ some (.opening .curly) → HeaderEnd c₁ stop none c₁

/-- A token that ends a header is no opening curly bracket, if it opens nothing. -/
theorem HeaderEnd.of_token {t : Token} (ho : Opener.ofToken? t = none) (c₁ : Cursor) :
    HeaderEnd c₁ (some t) none c₁ := by
  apply HeaderEnd.bare
  intro ht
  obtain rfl := Option.some.inj ht
  simp [Opener.ofToken?] at ho

/-- What is read inside of an opening curly bracket is the block behind a header. -/
theorem HeaderEnd.of_inner {c₁ c₂ : Cursor} {inner : List ComponentValue} {close : Option Token}
    (h : Forest (fun t => t = Token.closing .curly) c₁ inner close c₂) :
    HeaderEnd c₁ (some (.opening .curly)) (ComponentValue.curlyBlock?
      ((Opener.bracket .curly).node ⟨c₁.slice c₁.tokenStart c₂.position, inner⟩)) c₂ := by
  apply HeaderEnd.block
  have hg : (c₁.enclosed (.bracket .curly)).Gives
      ⟨c₁.slice c₁.tokenStart c₂.position, inner⟩ c₂ :=
    enclosed_gives_iff.2 ⟨_, _, h.values, rfl⟩
  exact Outcome.map_gives.2 ⟨_, hg, rfl⟩

/-- The values up to the end of the text are those of a header, then perhaps one
that ends it, and then values up to the end of the text. The header's reading
stops at the token of the value that ends it; if that is a block, it is read
next. -/
theorem Forest.header {ends never : Token → Bool} {ends' : ComponentValue → Bool}
    {last : Option Token} (he : EndsAlike ends ends') (hn : ∀ t, never t = false)
    (h : Forest never c vs last c') :
    ∃ stop c₁ c₂, Forest ends c (vs.takeWhile (!ends' ·)) stop c₁ ∧
      HeaderEnd c₁ stop ((vs.dropWhile (!ends' ·)).head?.bind ComponentValue.curlyBlock?) c₂ ∧
      Forest never c₂ (vs.dropWhile (!ends' ·)).tail last c' := by
  induction h with
  | finish hp =>
    have hend := pull_atEnd hp
    refine ⟨none, _, _, .finish hp, .bare (by simp), .finish ?_⟩
    rw [hend.pull]
    exact ⟨rfl, rfl⟩
  | stop _ hs => simp [hn] at hs
  | @token _ c c₁ _ t vs _ hp _ ho h ih =>
    have hv : ends' (.token t) = ends t := he.token t ho
    by_cases ht : ends t = true
    · rw [ht] at hv
      refine ⟨some t, c₁, c₁, ?_, ?_, ?_⟩
      · simpa [hv] using Forest.stop hp ht
      · simpa [hv, ComponentValue.curlyBlock?] using HeaderEnd.of_token ho c₁
      · simpa [hv] using h
    · rw [Bool.not_eq_true] at ht
      rw [ht] at hv
      obtain ⟨stop, c₂, c₃, hh, hend, hrest⟩ := ih hn
      refine ⟨stop, c₂, c₃, ?_, ?_, ?_⟩
      · simpa [hv] using Forest.token hp ht ho hh
      · simpa [hv] using hend
      · simpa [hv] using hrest
  | @node _ c c₁ c₂ _ t o inner vs close _ hp _ ho hi h _ ih =>
    have hv : ∀ e, ends' (o.node e) = ends t := fun e => he.node t o e ho
    by_cases ht : ends t = true
    · rw [ht] at hv
      obtain rfl : o = .bracket .curly := he.opening t o ho ht
      obtain rfl : t = .opening .curly := by
        rcases ofToken?_eq_some ho with ⟨b, rfl, hb⟩ | ⟨name, text, rfl, hb⟩
        · rw [Opener.bracket.inj hb]
        · simp at hb
      refine ⟨some (.opening .curly), c₁, c₂, ?_, ?_, ?_⟩
      · simpa [hv] using Forest.stop hp ht
      · simpa [hv] using HeaderEnd.of_inner hi
      · simpa [hv] using h
    · rw [Bool.not_eq_true] at ht
      rw [ht] at hv
      obtain ⟨stop, c₃, c₄, hh, hend, hrest⟩ := ih hn
      refine ⟨stop, c₃, c₄, ?_, ?_, ?_⟩
      · simpa [hv] using Forest.node hp ht ho hi hh
      · simpa [hv] using hend
      · simpa [hv] using hrest

/-! ### Rules -/

/-- A reading begins in the same way with its first token handed back. -/
theorem Forest.pushBack {stops : Token → Bool} {c₁ : Cursor} {t : Token} {stop : Option Token}
    (h : Forest stops c vs stop c') (hp : (c.pull .trees).Gives (some t) c₁) :
    Forest stops (c₁.pushBack t).2 vs stop c' := by
  refine h.of_pull fun t? c₂ hp' => ?_
  obtain ⟨rfl, rfl⟩ := hp'.unique hp
  exact pull_pushBack_gives hp

/-- What a value does at the beginning of a rule, its first token does. -/
theorem ruleStart_token (top : Bool) (t : Token) :
    RuleStart.ofToken top t = match (ComponentValue.token t).start top with
      | .skip => .skip
      | .atRule _ => .atRule
      | .qualified => .qualified := by
  cases t <;> cases top <;> rfl

theorem atRuleName_token {top : Bool} {t : Token} {name : Text}
    (h : (ComponentValue.token t).start top = .atRule name) : atRuleName (some t) = name := by
  cases t <;> cases top <;> cases h <;> rfl

theorem ruleStart_opener {top : Bool} {t : Token} {o : Opener} (h : Opener.ofToken? t = some o) :
    RuleStart.ofToken top t = .qualified := by
  rcases ofToken?_eq_some h with ⟨b, rfl, -⟩ | ⟨name, text, rfl, -⟩ <;> rfl

theorem start_node (top : Bool) (o : Opener) (e : Enclosed) :
    (o.node e).start top = .qualified := by
  cases o <;> rfl

/-- An at-rule is read off the values behind its first token. -/
theorem Forest.atRule {c₁ : Cursor} {t : Token} {never : Token → Bool} {last : Option Token}
    (hn : ∀ t, never t = false) (h : Forest never c₁ vs last c')
    (hp : (c.pull .trees).Gives (some t) c₁) :
    ∃ c₂, c.atRule.Gives (.atRule (atRuleName (some t)) (vs.takeWhile (!·.endsAtRule))
        ((vs.dropWhile (!·.endsAtRule)).head?.bind ComponentValue.curlyBlock?)) c₂ ∧
      Forest never c₂ (vs.dropWhile (!·.endsAtRule)).tail last c' := by
  obtain ⟨stop, c₂, c₃, hh, hend, hrest⟩ := h.header endsAlike_atRule hn
  refine ⟨c₃, Outcome.bind_gives.2 ⟨_, _, hp, Outcome.bind_gives.2 ⟨_, _, hh.values, ?_⟩⟩, hrest⟩
  generalize (vs.dropWhile _).head?.bind _ = block? at hend ⊢
  cases hend with
  | block hg => exact Outcome.map_gives.2 ⟨_, hg, rfl⟩
  | bare hne =>
    dsimp only
    split
    · exact absurd rfl hne
    · exact ⟨rfl, rfl⟩
    · exact ⟨rfl, rfl⟩

/-- A qualified rule is read off the values from its first one on. -/
theorem Forest.qualifiedRule {never : Token → Bool} {last : Option Token}
    (hn : ∀ t, never t = false) (h : Forest never c vs last c') :
    ∃ c₂, c.qualifiedRule.Gives (((vs.dropWhile (!·.endsQualified)).head?.bind
        ComponentValue.curlyBlock?).map (.qualified (vs.takeWhile (!·.endsQualified)))) c₂ ∧
      Forest never c₂ (vs.dropWhile (!·.endsQualified)).tail last c' := by
  obtain ⟨stop, c₂, c₃, hh, hend, hrest⟩ := h.header endsAlike_qualified hn
  refine ⟨c₃, Outcome.bind_gives.2 ⟨_, _, hh.values, ?_⟩, hrest⟩
  generalize (vs.dropWhile _).head?.bind _ = block? at hend ⊢
  cases hend with
  | block hg => exact Outcome.map_gives.2 ⟨_, hg, rfl⟩
  | bare hne =>
    rcases stop with _ | t
    · exact ⟨rfl, rfl⟩
    · have ht : endsQualified t = true := hh.stops_stop rfl
      rw [endsQualified, decide_eq_true_eq] at ht
      exact absurd (congrArg some ht) hne

/-- A qualified rule, and the rules behind it. -/
theorem Forest.qualifiedRule_rules {top : Bool} {never : Token → Bool}
    (hn : ∀ t, never t = false) (h : Forest never c vs none c')
    (ih : ∀ {c₂ : Cursor}, Forest never c₂ (vs.dropWhile (!·.endsQualified)).tail none c' →
      (c₂.ruleList top).Gives (Rule.ofValues top (vs.dropWhile (!·.endsQualified)).tail) c') :
    (c.qualifiedRule.bind fun rule? c₂ =>
        (c₂.ruleList top).map fun rules => rule?.toList ++ rules).Gives
      ((((vs.dropWhile (!·.endsQualified)).head?.bind ComponentValue.curlyBlock?).map
          (.qualified (vs.takeWhile (!·.endsQualified)))).toList ++
        Rule.ofValues top (vs.dropWhile (!·.endsQualified)).tail) c' := by
  obtain ⟨c₂, hr, hrest⟩ := h.qualifiedRule hn
  exact Outcome.bind_gives.2 ⟨_, _, hr, Outcome.map_gives.2 ⟨_, ih hrest, rfl⟩⟩

/-- **The rules up to the end of the text are the values up to there, split.** -/
theorem Forest.ruleList (top : Bool) {never : Token → Bool} (hn : ∀ t, never t = false)
    (h : Forest never c vs none c') : (c.ruleList top).Gives (Rule.ofValues top vs) c' := by
  induction hl : vs.length using Nat.strongRecOn generalizing c vs with
  | ind n ih =>
    subst hl
    rw [ruleList_eq, Outcome.bind_gives]
    cases h with
    | finish hp =>
      refine ⟨_, _, hp, ?_⟩
      rw [Rule.ofValues]
      exact ⟨rfl, rfl⟩
    | @token _ _ c₁ _ t vs _ hp hs ho h =>
      refine ⟨_, _, hp, ?_⟩
      rw [Rule.ofValues]
      dsimp only
      rw [ruleStart_token top]
      cases hstart : (ComponentValue.token t).start top with
      | skip => exact ih _ (by simp) h rfl
      | atRule name =>
        obtain ⟨c₂, hr, hrest⟩ := h.atRule hn (pull_pushBack_gives hp)
        rw [atRuleName_token hstart] at hr
        have hlt := Nat.lt_succ_of_le
          (Nat.le_trans (length_tail_dropWhile_le (!·.endsAtRule) vs) (Nat.sub_le _ _))
        have hrules := ih _ hlt hrest rfl
        refine Outcome.bind_gives.2 ⟨_, _, Outcome.map_gives.2 ⟨_, hr, rfl⟩, ?_⟩
        exact Outcome.map_gives.2 ⟨_, hrules, rfl⟩
      | qualified =>
        have hback := (Forest.token hp hs ho h).pushBack hp
        have hlt := Nat.lt_succ_of_le (length_tail_dropWhile_le (!·.endsQualified) (.token t :: vs))
        exact hback.qualifiedRule_rules hn fun hrest => ih _ hlt hrest rfl
    | @node _ _ c₁ c₂ _ t o inner vs close _ hp hs ho hi h =>
      refine ⟨_, _, hp, ?_⟩
      rw [Rule.ofValues, start_node]
      dsimp only
      rw [ruleStart_opener ho]
      have hback := (Forest.node hp hs ho hi h).pushBack hp
      have hlt := Nat.lt_succ_of_le (length_tail_dropWhile_le (!·.endsQualified)
        (o.node ⟨c₁.slice c₁.tokenStart c₂.position, inner⟩ :: vs))
      exact hback.qualifiedRule_rules hn fun hrest => ih _ hlt hrest rfl

/-- The values of a text are read without a fault exactly where its rules are,
and the fault is the same. -/
theorem ruleList_result (top : Bool) (c : Cursor) :
    (c.ruleList top).result = c.componentValues.result.map (Rule.ofValues top) := by
  rcases hv : c.componentValues.result with f | vs
  · -- the tokens end with the same fault, and so do the rules
    have hf : c.tokens.result = .error f := (componentValues_follows c).of_error hv
    rcases hr : (c.ruleList top).result with f' | rs
    · have hf' : c.tokens.result = .error f' := (ruleList_follows top c).of_error hr
      rw [Except.error.inj (hf.symm.trans hf')]
      rfl
    · have hend := ruleList_atEnd (Outcome.gives_of_result hr)
      obtain ⟨ts, ht⟩ := (ruleList_follows top c).of_atEnd hr hend
      rw [hf] at ht
      simp at ht
  · have h := componentValues_gives_iff.1 (Outcome.gives_of_result hv)
    exact (h.ruleList top fun _ => rfl).result

/-- **The style sheet and the rules of a text are its component values, split.** -/
theorem rules_split (s : Text) :
    (ofText s).stylesheet.result =
        (ofText s).componentValues.result.map (fun vs => ⟨Rule.ofValues true vs⟩) ∧
      (ofText s).rules.result = (ofText s).componentValues.result.map (Rule.ofValues false) := by
  refine ⟨?_, ruleList_result false _⟩
  rw [stylesheet, Outcome.map, ruleList_result]
  cases (ofText s).componentValues.result <;> rfl

end Cursor
end CssReader
