/-
# Style sheets behind one another

A style sheet that does not end too early may be followed by another one: the
text of both is read as the rules of the first and then those of the second,
each with the source texts that it has on its own. A fault in the second is the
same fault, as many bytes further on as the first takes.

A text ends too early if something is open at its end: a rule, a block, a
function or a comment. Each of these is reported, so whether a text ends too
early can be told from the log (`Outcome.Finishes`). A string or a url may be
open too, but only inside of a rule that is.

A rule ends with a semicolon or a closing bracket, and these are firm: every
token of the rule is read in the same way whatever follows.

Key definitions: `Mistake.endsEarly`, `Outcome.Finishes`.
Key theorems: `Cursor.rule_extend`, `Cursor.ruleList_extend`, `Stylesheet.ofText_append`.
-/
import CssReader.Proofs.Boundary

namespace CssReader

open Text

/-! ### Texts that end too early -/

/-- Whether the mistake is that a text ends too early for something that is open.
Strings and urls are left out. -/
def Mistake.endsEarly : Mistake → Bool
  | .openComment | .openAtRule | .openQualifiedRule | .openBlock | .openFunction => true
  | .openString | .openUrl | .skippedUrl => false

/-- Nothing that was open at the end of the text was reported. -/
def Outcome.Finishes {α : Type} (o : Outcome α) : Prop :=
  ∀ layer w, Event.warning layer w ∈ o.events → w.mistake.endsEarly = false

namespace Outcome

variable {α β : Type} {o : Outcome α}

theorem Finishes.of_after {es : List Event} (h : (o.after es).Finishes) : o.Finishes :=
  fun layer w hw => h layer w (List.mem_append_right _ hw)

theorem Finishes.of_bind {f : α → Cursor → Outcome β} {a : α} {c : Cursor}
    (h : (o.bind f).Finishes) (ho : o.Gives a c) : o.Finishes ∧ (f a c).Finishes := by
  obtain ⟨hr, rfl⟩ := ho
  rw [bind, hr] at h
  exact ⟨fun layer w hw => h layer w (List.mem_append_left _ hw), h.of_after⟩

theorem Finishes.of_map {f : α → β} (h : (o.map f).Finishes) : o.Finishes := h

theorem bind_result {f : α → Cursor → Outcome β} {a : α} {c : Cursor} (h : o.Gives a c) :
    (o.bind f).result = (f a c).result := by
  rw [bind, h.result, h.cursor]
  rfl

end Outcome

namespace Cursor

variable {c c₁ c' : Cursor} {source last : Text} {t : Token}

theorem closer_isFirm (o : Opener) : o.closer.isFirm = true := by
  cases o <;> rfl

theorem isFirm_of_endsAtRule (h : endsAtRule t = true) : t.isFirm = true := by
  rw [endsAtRule, Bool.or_eq_true, decide_eq_true_eq, decide_eq_true_eq] at h
  rcases h with rfl | rfl <;> rfl

/-- What was opened in a text that does not end too early was closed. -/
theorem stop_of_finishes {o : Opener} {vs : List ComponentValue} {stop : Option Token}
    (hfin : (c.enclosed o).Finishes) (h : Forest (fun t => t = o.closer) c vs stop c') :
    stop = some o.closer := by
  rw [enclosed_eq] at hfin
  have hend := (hfin.of_bind h.values).2
  rcases stop with _ | t
  · have hearly := hend .trees ⟨o.mistake, c'.position⟩ (by simp [endWarning])
    cases o <;> simp [Opener.mistake, Mistake.endsEarly] at hearly
  · have ht := h.stops_stop rfl
    rw [decide_eq_true_eq] at ht
    rw [ht]

/-! ### Blocks and rules -/

/-- From the cursor `c` on, up to `c'`, the reader reads `a`, and it does so too when
the text goes on with `r`. What it reads has something in it that ties the text. -/
structure Extends {α : Type} (read : Cursor → Outcome α) (source r : Text) (c : Cursor) (a : α)
    (c' : Cursor) : Prop where
  tied : Tied c.rest
  reached : ∃ last, Reached source last c'
  gives : (read (c.extend r)).Gives a (c'.extend r)

/-- **A block that is closed is the same when the text goes on.** -/
theorem block_extend {b : Bracket} {bl : Block} (r : Text) (hc : Reached source last c)
    (h : (c.block b).Gives bl c') (hfin : (c.block b).Finishes) (hopen : c'.openComment = none) :
    Extends (block b) source r c bl c' := by
  obtain ⟨e, he, rfl⟩ := Outcome.map_gives.1 h
  obtain ⟨vs, stop, hv, rfl⟩ := enclosed_gives_iff.1 he
  have hf : Forest _ c vs stop c' := values_gives_iff.1 hv
  obtain rfl := stop_of_finishes hfin.of_map hf
  have hfixed : Fixed (some (Opener.bracket b).closer) c'.rest :=
    .inr ⟨_, rfl, closer_isFirm (.bracket b)⟩
  have hf' := hf.extend r hc hopen hfixed
  refine ⟨hf.tied hc hfixed, (hf.parses hc).2,
    Outcome.map_gives.2 ⟨_, enclosed_gives_iff.2 ?_, rfl⟩⟩
  exact ⟨vs, _, hf'.values, by rw [hf.slice_extend r hc hopen]⟩

/-- What follows the header of an at-rule. -/
def atRuleEnd (name : Text) (header : List ComponentValue) (stop : Option Token) (c : Cursor) :
    Outcome Rule :=
  match stop with
  | some (.opening .curly) => (c.block .curly).map fun b => .atRule name header (some b)
  | some _ => ⟨.ok (.atRule name header none), c, []⟩
  | none => ⟨.ok (.atRule name header none), c, [c.endWarning .openAtRule]⟩

theorem atRule_pushBack (t : Token) (hp : c.pending = none) :
    (c.pushBack t).2.atRule = (c.values endsAtRule).bind fun p c' =>
      atRuleEnd (atRuleName (some t)) p.1 p.2 c' := by
  rw [atRule, pull_pushBack t .trees hp]
  rfl

/-- An at-rule that ends is the same when the text goes on. -/
theorem atRule_extend {rule : Rule} (r : Text) (hc : Reached source last c)
    (h : ((c.pushBack t).2.atRule).Gives rule c') (hfin : ((c.pushBack t).2.atRule).Finishes)
    (hopen : c'.openComment = none) :
    Extends (fun c => (c.pushBack t).2.atRule) source r c rule c' := by
  rw [atRule_pushBack t hc.pending] at h hfin
  obtain ⟨⟨header, stop⟩, c₂, hv, h⟩ := Outcome.bind_gives.1 h
  have hfin := (hfin.of_bind hv).2
  have hf : Forest endsAtRule c header stop c₂ := values_gives_iff.1 hv
  obtain ⟨-, last₂, hc₂⟩ := hf.parses hc
  rcases stop with _ | stop
  · have hearly := hfin .trees ⟨.openAtRule, c₂.position⟩ (by simp [atRuleEnd, endWarning])
    simp [Mistake.endsEarly] at hearly
  · have hends : endsAtRule stop = true := hf.stops_stop rfl
    have hfixed : Fixed (some stop) c₂.rest := .inr ⟨_, rfl, isFirm_of_endsAtRule hends⟩
    have heq := atRule_pushBack (c := c.extend r) t hc.pending
    rw [endsAtRule, Bool.or_eq_true, decide_eq_true_eq, decide_eq_true_eq] at hends
    rcases hends with rfl | rfl
    · obtain ⟨rfl, rfl⟩ := Outcome.gives_ok.1 h
      have hf' := hf.extend r hc hopen hfixed
      refine ⟨hf.tied hc hfixed, ⟨_, hc₂⟩, heq ▸ ?_⟩
      exact Outcome.bind_gives.2 ⟨_, _, hf'.values, Outcome.gives_ok.2 ⟨rfl, rfl⟩⟩
    · obtain ⟨b, hb, rfl⟩ := Outcome.map_gives.1 h
      have hblock := block_extend r hc₂ hb hfin.of_map hopen
      have hopen₂ := openComment_of_traced (block_traced .curly c₂) hb hopen
      have hf' := hf.extend r hc hopen₂ hfixed
      refine ⟨hf.tied hc hfixed, hblock.reached, heq ▸ ?_⟩
      exact Outcome.bind_gives.2 ⟨_, _, hf'.values, Outcome.map_gives.2 ⟨b, hblock.gives, rfl⟩⟩

/-- A qualified rule that ends is the same when the text goes on. -/
theorem qualifiedRule_extend {c₀ : Cursor} {rule? : Option Rule} (r : Text)
    (hc₀ : Reached source last c₀) (hp : (c₀.pull .trees).Gives (some t) c)
    (h : ((c.pushBack t).2.qualifiedRule).Gives rule? c')
    (hfin : ((c.pushBack t).2.qualifiedRule).Finishes) (hopen : c'.openComment = none) :
    Extends (fun c => (c.pushBack t).2.qualifiedRule) source r c rule? c' := by
  obtain ⟨⟨header, stop⟩, c₂, hv, h⟩ := Outcome.bind_gives.1 h
  have hfin := (hfin.of_bind hv).2
  rcases stop with _ | stop
  · have hearly := hfin .trees ⟨.openQualifiedRule, c₂.position⟩ (by simp [endWarning])
    simp [Mistake.endsEarly] at hearly
  · obtain ⟨b, hb, rfl⟩ := Outcome.map_gives.1 h
    -- the header is read from in front of its first token
    have hf : Forest endsQualified c₀ header (some stop) c₂ := by
      refine (values_gives_iff.1 hv).of_pull fun t? c₃ hp' => ?_
      obtain ⟨rfl, rfl⟩ := hp'.unique (pull_pushBack_gives hp)
      exact hp
    obtain ⟨-, last₂, hc₂⟩ := hf.parses hc₀
    have hblock := block_extend r hc₂ hb hfin.of_map hopen
    have hopen₂ := openComment_of_traced (block_traced .curly c₂) hb hopen
    have htied := hf.first_tied hc₀ hp hblock.tied
    have hopen₁ : c.openComment = none := (values_gives_iff.1 hv).openComment_none hopen₂
    have hp' := pull_extend r hc₀ hp hopen₁ (.inl htied)
    have hf' := (hf.extend r hc₀ hopen₂ (.inl hblock.tied)).pushBack hp'
    refine ⟨htied, hblock.reached, Outcome.bind_gives.2 ⟨_, _, hf'.values, ?_⟩⟩
    exact Outcome.map_gives.2 ⟨b, hblock.gives, rfl⟩

/-- **A rule that ends is the same when the text goes on.** -/
theorem rule_extend {c₀ : Cursor} {rule? : Option Rule} {start : RuleStart} (r : Text)
    (hs : start ≠ .skip) (hc₀ : Reached source last c₀) (hp : (c₀.pull .trees).Gives (some t) c)
    (h : ((c.pushBack t).2.rule start).Gives rule? c')
    (hfin : ((c.pushBack t).2.rule start).Finishes) (hopen : c'.openComment = none) :
    Extends (fun c => (c.pushBack t).2.rule start) source r c rule? c' := by
  cases start with
  | skip => exact absurd rfl hs
  | atRule =>
    obtain ⟨rule, hr, rfl⟩ := Outcome.map_gives.1 h
    obtain ⟨span, -, hc⟩ := hc₀.nextToken hp
    have hrule := atRule_extend r hc hr hfin.of_map hopen
    exact ⟨hrule.tied, hrule.reached, Outcome.map_gives.2 ⟨_, hrule.gives, rfl⟩⟩
  | qualified => exact qualifiedRule_extend r hc₀ hp h hfin hopen

/-! ### Lists of rules -/

variable {top : Bool} {rs : List Rule}

/-- What is skipped in front of a rule is blank or firm. -/
theorem skip_cases (h : RuleStart.ofToken top t = .skip) : t = .whitespace ∨ t.isFirm = true := by
  cases t <;> simp_all [RuleStart.ofToken, Token.isFirm]

/-- A text that does not end too early is tied, unless it is empty. -/
theorem tied_of_ruleList (hc : Reached source last c) (h : (c.ruleList top).Gives rs c')
    (hfin : (c.ruleList top).Finishes) (hopen : c'.openComment = none) (hne : c.rest ≠ []) :
    Tied c.rest := by
  rw [ruleList_eq] at h hfin
  obtain ⟨t?, c₁, hp, h⟩ := Outcome.bind_gives.1 h
  have hfin := (hfin.of_bind hp).2
  obtain ⟨span, hn, hc₁⟩ := hc.nextToken hp
  rcases t? with _ | t
  · exact hn.tied_of_whitespace (.inl rfl) hne
  · dsimp only at h hfin
    by_cases hs : RuleStart.ofToken top t = .skip
    · rcases skip_cases hs with rfl | hfirm
      · exact hn.tied_of_whitespace (.inr rfl) hne
      · exact hn.tied (.inr ⟨t, rfl, hfirm⟩)
    · rw [if_neg hs] at h hfin
      obtain ⟨rule?, c₂, hr, h⟩ := Outcome.bind_gives.1 (Outcome.after_gives.1 h)
      obtain ⟨rs', hrs, rfl⟩ := Outcome.map_gives.1 h
      have hopen₂ := openComment_of_traced (ruleList_traced top c₂) hrs hopen
      have hrule := rule_extend [] hs hc hp hr (hfin.of_after.of_bind hr).1 hopen₂
      exact hn.tied (.inl hrule.tied)

/-- There are no rules in nothing. -/
theorem ruleList_nil (hc : Reached source last c) (h : (c.ruleList top).Gives rs c')
    (hrest : c.rest = []) : rs = [] := by
  rw [ruleList_eq] at h
  obtain ⟨t?, c₁, hp, h⟩ := Outcome.bind_gives.1 h
  obtain ⟨span, hn, -⟩ := hc.nextToken hp
  rcases t? with _ | t
  · exact (Outcome.gives_ok.1 h).1.symm
  · rw [hrest] at hn
    exact absurd hn.length_lt (by simp)

/-- **The rules of a text that does not end too early are read in the same way when
the text goes on**, and behind them come the rules of what follows. -/
theorem ruleList_extend (r : Text) (hc : Reached source last c) (h : (c.ruleList top).Gives rs c')
    (hfin : (c.ruleList top).Finishes) (hopen : c'.openComment = none) :
    ((c.extend r).ruleList top).result = (((ofText r).ruleList top).result.mapError
      (Fault.shift (Text.size source))).map (rs ++ ·) := by
  induction hw : c.weight using Nat.strongRecOn generalizing c rs last with
  | ind n ih =>
    subst hw
    rw [ruleList_eq] at h hfin
    obtain ⟨t?, c₁, hp, h⟩ := Outcome.bind_gives.1 h
    have hfin := (hfin.of_bind hp).2
    obtain ⟨span, hn, hc₁⟩ := hc.nextToken hp
    rcases t? with _ | t
    · obtain ⟨rfl, rfl⟩ := Outcome.gives_ok.1 h
      rw [ruleList_extend_end r hc hp (.inl rfl) (pull_atEnd hp).rest hopen]
      cases (((ofText r).ruleList top).result) <;> rfl
    · have hlt : c₁.weight < c.weight := hp.cursor ▸ pull_weight_lt .trees c (by simp [hp.result])
      dsimp only at h hfin
      by_cases hs : RuleStart.ofToken top t = .skip
      · rw [if_pos hs] at h hfin
        have hopen₁ := openComment_of_traced (ruleList_traced top c₁) h hopen
        by_cases hfixed : Fixed (some t) c₁.rest
        · have hp' := pull_extend r hc hp hopen₁ hfixed
          rw [ruleList_eq, Outcome.bind_result hp']
          dsimp only
          rw [if_pos hs]
          exact ih _ hlt hc₁ h hfin rfl
        · -- only blanks at the end of the text are not fixed
          have hrest : c₁.rest = [] := by
            by_contra hne
            exact hfixed (.inl (tied_of_ruleList hc₁ h hfin hopen hne))
          obtain rfl : t = .whitespace := (skip_cases hs).resolve_right fun hfirm =>
            hfixed (.inr ⟨t, rfl, hfirm⟩)
          obtain rfl := ruleList_nil hc₁ h hrest
          rw [ruleList_extend_end r hc hp (.inr rfl) hrest hopen₁]
          cases (((ofText r).ruleList top).result) <;> rfl
      · rw [if_neg hs] at h hfin
        obtain ⟨rule?, c₂, hr, h⟩ := Outcome.bind_gives.1 (Outcome.after_gives.1 h)
        obtain ⟨rs', hrs, rfl⟩ := Outcome.map_gives.1 h
        obtain ⟨hfin₁, hfin₂⟩ := hfin.of_after.of_bind hr
        have hopen₂ := openComment_of_traced (ruleList_traced top c₂) hrs hopen
        have hrule := rule_extend r hs hc hp hr hfin₁ hopen₂
        have hback := openComment_of_traced (rule_traced _ (c₁.pushBack t).2) hr hopen₂
        have hopen₁ : c₁.openComment = none := hback
        have hp' := pull_extend r hc hp hopen₁ (.inl hrule.tied)
        obtain ⟨last₂, hc₂⟩ := hrule.reached
        have hlt₂ : c₂.weight < c.weight := by
          obtain ⟨hp, rfl⟩ := hp
          exact hr.cursor ▸ rule_pushBack_weight_lt hp hs
        have hrest := ih _ hlt₂ hc₂ hrs hfin₂.of_map rfl
        rw [ruleList_eq, Outcome.bind_result hp']
        dsimp only
        rw [if_neg hs, Outcome.after_result, Outcome.bind_result hrule.gives, Outcome.map, hrest]
        cases ((ofText r).ruleList top).result <;> simp [Except.map, Except.mapError]

end Cursor

/-! ### Style sheets -/

/-- **Style sheets concatenate.** If nothing is open at the end of the first text,
then the two texts in a row are the rules of the first and those of the second,
or the fault of the second, as many bytes further on as the first takes. -/
theorem Stylesheet.ofText_append {s₁ : Text} {sheet₁ : Stylesheet} (s₂ : Text)
    (h : (Stylesheet.ofText s₁).result = .ok sheet₁) (hfin : (Stylesheet.ofText s₁).Finishes) :
    (Stylesheet.ofText (s₁ ++ s₂)).result =
      ((Stylesheet.ofText s₂).result.mapError (Fault.shift (Text.size s₁))).map
        fun sheet₂ => ⟨sheet₁.rules ++ sheet₂.rules⟩ := by
  obtain ⟨rs, hrs, rfl⟩ := Outcome.map_gives.1 (Outcome.gives_of_result h)
  have hreported : ∀ layer w, Event.warning layer w ∈ ((Cursor.ofText s₁).ruleList true).events →
      w.mistake ≠ .openComment := by
    intro layer w hw heq
    have hearly := hfin layer w hw
    simp [heq, Mistake.endsEarly] at hearly
  have hopen := (Cursor.ruleList_traced true (Cursor.ofText s₁)).openComment_reported hreported rfl
  have hrules := Cursor.ruleList_extend s₂ (.ofText s₁) hrs hfin.of_map (hrs.cursor ▸ hopen)
  rw [Stylesheet.ofText, Cursor.stylesheet, Outcome.map,
    show Cursor.ofText (s₁ ++ s₂) = (Cursor.ofText s₁).extend s₂ from rfl, hrules]
  rw [Stylesheet.ofText, Cursor.stylesheet, Outcome.map]
  cases ((Cursor.ofText s₂).ruleList true).result <;> rfl

/-- An at-rule and a blank, and behind them a blank and an at-rule that is open. -/
theorem Stylesheet.ofText_append_blanks :
    (Stylesheet.ofText ['@', 'a', ';', ' ']).result = .ok ⟨[.atRule ['a'] [] none]⟩ ∧
      (Stylesheet.ofText ['@', 'a', ';', ' ']).Finishes ∧
      (Stylesheet.ofText ['@', 'a', ';', ' ', ' ', '@', 'b']).result =
        .ok ⟨[.atRule ['a'] [] none, .atRule ['b'] [] none]⟩ := by
  have h : (Stylesheet.ofText ['@', 'a', ';', ' ']).result = .ok ⟨[.atRule ['a'] [] none]⟩ := by
    with_unfolding_all rfl
  have hevents : (Stylesheet.ofText ['@', 'a', ';', ' ']).events = [] := by
    with_unfolding_all rfl
  have hfin : (Stylesheet.ofText ['@', 'a', ';', ' ']).Finishes := by
    intro layer w hw
    simp [hevents] at hw
  have h₂ : (Stylesheet.ofText [' ', '@', 'b']).result = .ok ⟨[.atRule ['b'] [] none]⟩ := by
    with_unfolding_all rfl
  have happend := Stylesheet.ofText_append [' ', '@', 'b'] h hfin
  rw [h₂] at happend
  exact ⟨h, hfin, happend⟩

end CssReader
