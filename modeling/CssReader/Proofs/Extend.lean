/-
# Cursors in a text that goes on

A cursor in a text may be put into a longer one that begins so: it is then at
the same place and has more left to read (`Cursor.extend`). What it reads there
is the same as before, as long as no open comment is met and the token read last
is fixed, which means that it is firm or leaves a tied text.

Key definitions: `Cursor.extend`, `Fixed`.
Key theorems: `Cursor.next_extend`, `Cursor.pull_extend`, `Cursor.Forest.extend`.
-/
import CssReader.Proofs.Lexeme.Grow
import CssReader.Proofs.Places
import CssReader.Proofs.Trace

namespace CssReader

open Text

/-- The cursor in the text that goes on with `r`. -/
def Cursor.extend (r : Text) (c : Cursor) : Cursor :=
  { c with source := c.source ++ r, rest := c.rest ++ r }

/-- The outcome with its cursor in the text that goes on with `r`. -/
def Outcome.extend {α : Type} (r : Text) (o : Outcome α) : Outcome α :=
  { o with cursor := o.cursor.extend r }

/-- Nothing that may follow `rest` changes the token in front of it. -/
def Fixed (t? : Option Token) (rest : Text) : Prop :=
  Tied rest ∨ ∃ t, t? = some t ∧ t.isFirm = true

/-! ### What ties a text -/

theorem Comment.IsWhole.tied {s : Text} (h : IsWhole s) : Tied s := by
  obtain ⟨body, rfl, -⟩ := h
  exact ⟨'*', by simp, rfl⟩

theorem tied_of_blank {s : Text} (hne : s ≠ []) (h : ∀ c ∈ s, isBlank c) : Tied s := by
  obtain ⟨c, s, rfl⟩ := List.exists_cons_of_ne_nil hne
  exact ⟨c, List.mem_cons_self, isLoose_of_blank (h c List.mem_cons_self)⟩

/-- What is passed over ties a text, if it is anything at all. -/
theorem Passed.tied {blanks : Bool} {gap after : Text} (h : Passed blanks gap after)
    (hne : gap ≠ []) : Tied gap := by
  cases h with
  | nil => exact absurd rfl hne
  | comment hc _ =>
    obtain ⟨c, hc, hl⟩ := hc.tied
    exact ⟨c, List.mem_append_left _ hc, hl⟩
  | malformedUrl hl hf _ =>
    have hparen := (Lexeme.read_leavesUrl hl _ hf rfl).1
    exact ⟨'(', List.mem_append_left _ hparen, rfl⟩
  | blank _ hrun hall _ =>
    obtain ⟨c, hc, hl⟩ := tied_of_blank hrun hall
    exact ⟨c, List.mem_append_left _ hc, hl⟩

theorem Token.ShownBy.tied {t : Token} {span rest : Text} (h : t.ShownBy span rest)
    (hfixed : Fixed (some t) rest) : Tied (span ++ rest) := by
  rcases hfixed with hr | ⟨t', ht', hfirm⟩
  · exact hr.of_suffix (List.suffix_append span rest)
  · obtain rfl := Option.some.inj ht'
    obtain ⟨c, hc, hl⟩ := Token.tied_of_firm hfirm
    rw [h.firm hfirm]
    exact ⟨c, List.mem_append_left _ hc, hl⟩

/-- A text with a fixed token in it is tied. -/
theorem NextToken.tied {s span rest : Text} {t : Token} (h : NextToken s (some t) span rest)
    (hfixed : Fixed (some t) rest) : Tied s := by
  obtain ⟨gap, rfl, -⟩ := h.passed
  exact (h.shown.tied hfixed).of_suffix (List.suffix_append gap _)

/-- A text with values in it up to a fixed token is tied. -/
theorem Parses.tied {stops : Token → Bool} {s rest : Text} {vs : List ComponentValue}
    {stop : Option Token} (h : Parses stops s vs stop rest) (hfixed : Fixed stop rest) :
    Tied s := by
  obtain ⟨body, last, -, rfl, hstop, -⟩ := h.laid (List.nil_append s).symm
  apply Tied.of_suffix _ (List.suffix_append body (last ++ rest))
  rcases stop with _ | t
  · rcases hfixed with hr | ⟨t, ht, -⟩
    · exact hr.of_suffix (List.suffix_append last rest)
    · simp at ht
  · exact hstop.2.tied hfixed

namespace Cursor

variable {c c' : Cursor} {source last : Text}

@[simp] theorem extend_rest (r : Text) (c : Cursor) : (c.extend r).rest = c.rest ++ r := rfl

/-- A step leads from one reached cursor to another. -/
theorem Reached.next (h : Reached source last c) : ∃ last', Reached source last' c.next.cursor := by
  rcases h.next_cases with ⟨-, -, -, hc⟩ | ⟨l, -, -, -, -, hc⟩ <;> exact ⟨_, hc⟩

theorem Reached.extend (h : Reached source last c) (ho : c.openComment = none) (r : Text) :
    Reached (source ++ r) last (c.extend r) := by
  obtain ⟨before, hb⟩ := h.behind
  refine ⟨congrArg (· ++ r) h.source, h.pending, before, ?_, hb.tokenStart, hb.position, ?_⟩
  · show c.source ++ r = before ++ last ++ (c.rest ++ r)
    rw [hb.source, List.append_assoc]
  · intro q hq
    rw [show c.openComment = some q from hq] at ho
    simp at ho

/-! ### A step -/

theorem skipComments_of_openComment (ho : c.openComment = none) :
    c.skipComments = { c with
      rest := (Comment.run c.rest).2
      position := c.position + Text.size (Comment.run c.rest).1
      tokenStart := c.position + Text.size (Comment.run c.rest).1 } := by
  simp [skipComments, isBehindOpenComment, ho]

/-- A step that meets no open comment. -/
theorem next_of_not_opens (hp : c.pending = none) (ho : c.openComment = none)
    (hopens : Comment.opens (Comment.run c.rest).2 = false) :
    c.next = match Lexeme.read (Comment.run c.rest).2 with
      | none => ⟨.ok none, c.skipComments, []⟩
      | some l => c.skipComments.outcomeOf [] l := by
  have hnote : c.skipComments.noteOpenComment = (c.skipComments, []) := by
    rw [noteOpenComment, skipComments_of_openComment ho]
    simp [hopens]
  have hrest : c.skipComments.rest = (Comment.run c.rest).2 := by
    rw [skipComments_of_openComment ho]
  rw [next_of_pending hp, hnote]
  rcases hl : Lexeme.read (Comment.run c.rest).2 with _ | l <;> simp only [hrest, hl]

theorem not_opens_of_next (hp : c.pending = none) (hopen : c.next.cursor.openComment = none) :
    c.openComment = none ∧ Comment.opens (Comment.run c.rest).2 = false := by
  have ho : c.openComment = none := (Trace.next c).openComment_none hopen
  refine ⟨ho, ?_⟩
  rw [(next_openComment hp).1, noteOpenComment, skipComments_of_openComment ho] at hopen
  by_contra hopens
  rw [Bool.not_eq_false] at hopens
  simp [isBehindOpenComment, ho, hopens] at hopen

/-- **A step is the same when the text goes on**, if what it gives is fixed. -/
theorem next_extend (r : Text) (hopen : c.next.cursor.openComment = none)
    (hfixed : Tied c.next.cursor.rest ∨ ∃ t, c.next.result = .ok (some t) ∧ t.isFirm = true) :
    (c.extend r).next = c.next.extend r := by
  rcases hp : c.pending with _ | t
  · obtain ⟨ho, hopens⟩ := not_opens_of_next hp hopen
    have hnext := next_of_not_opens hp ho hopens
    rcases hl : Lexeme.read (Comment.run c.rest).2 with _ | l
    · -- nothing is fixed at the end of the text
      rw [hl] at hnext
      have hnil := Lexeme.read_eq_none.1 hl
      rw [hnext, skipComments_of_openComment ho, hnil] at hfixed
      rcases hfixed with hr | ⟨t, ht, -⟩
      · exact absurd rfl hr.ne_nil
      · simp at ht
    · rw [hl] at hnext
      have hlex : Tied l.rest ∨ ∃ t, l.result = .ok t ∧ t.isFirm = true := by
        rw [hnext] at hfixed
        rcases hfixed with htied | ⟨t, ht, hfirm⟩
        · exact .inl htied
        · refine .inr ⟨t, ?_, hfirm⟩
          dsimp only [outcomeOf] at ht
          split at ht <;> simp_all
      have htied : Tied (Comment.run c.rest).2 := by
        rw [← (Lexeme.read_split hl).1]
        rcases hlex with hr | ⟨t, ht, hfirm⟩
        · exact hr.of_suffix (List.suffix_append l.text l.rest)
        · exact (Lexeme.read_shows hl t ht).tied (.inr ⟨t, rfl, hfirm⟩)
      have hrun := Comment.run_append_of_tied r hopens htied
      have hnext' := next_of_not_opens (c := c.extend r) hp ho
        (by rw [extend_rest, hrun]; exact Comment.opens_append r hopens htied)
      rw [extend_rest, hrun, Lexeme.read_append r hl hlex] at hnext'
      have hskip := skipComments_of_openComment (c := c.extend r) ho
      rw [extend_rest, hrun] at hskip
      rw [hnext, hnext', hskip, skipComments_of_openComment ho]
      rfl
  · simp [next, hp, extend, Outcome.extend]

/-! ### Tokens and values -/

theorem tied_of_pull {layer : Layer} {t : Token} (hc : Reached source last c)
    (h : (c.pull layer).Gives (some t) c') (hfixed : Fixed (some t) c'.rest) : Tied c.rest := by
  obtain ⟨span, hn, -⟩ := hc.nextToken h
  exact hn.tied hfixed

/-- **The next token is the same when the text goes on**, if it is fixed. -/
theorem pull_extend {layer : Layer} {t : Token} (r : Text) (hc : Reached source last c)
    (h : (c.pull layer).Gives (some t) c') (hopen : c'.openComment = none)
    (hfixed : Fixed (some t) c'.rest) :
    ((c.extend r).pull layer).Gives (some t) (c'.extend r) := by
  fun_induction pull layer c generalizing last with
  | case1 c a ha =>
    obtain ⟨hr, rfl⟩ := h
    have hgiven : Tied c.next.cursor.rest ∨
        ∃ t, c.next.result = .ok (some t) ∧ t.isFirm = true := by
      rcases hfixed with htied | ⟨t', ht', hfirm⟩
      · exact .inl htied
      · exact .inr ⟨t, hr, by rwa [Option.some.inj ht']⟩
    have hnext := next_extend r hopen hgiven
    rw [pull_of_ok layer (show (c.extend r).next.result = .ok (some t) by rw [hnext]; exact hr),
      hnext]
    exact ⟨hr, rfl⟩
  | case2 c f hf hrec ih =>
    obtain ⟨last₁, hc₁⟩ := hc.next
    have h : (c.next.cursor.pull layer).Gives (some t) c' := h
    have hopen₁ := openComment_of_traced (pull_traced layer c.next.cursor) h hopen
    have hnext := next_extend r hopen₁ (.inl (tied_of_pull hc₁ h hfixed))
    rw [pull_of_recoverable layer (by rw [hnext]; exact hf) hrec, hnext]
    exact ih hc₁ h
  | case3 c f hf hrec =>
    have hres := h.result
    rw [hf] at hres
    simp at hres

namespace Forest

variable {stops : Token → Bool} {vs : List ComponentValue} {stop : Option Token}

theorem tied (h : Forest stops c vs stop c') (hc : Reached source last c)
    (hfixed : Fixed stop c'.rest) : Tied c.rest :=
  (h.parses hc).1.tied hfixed

theorem openComment_none (h : Forest stops c vs stop c') (hopen : c'.openComment = none) :
    c.openComment = none :=
  openComment_of_traced (values_traced stops c) h.values hopen

/-- The source text of what was read is the same in a longer text. -/
theorem slice_extend (r : Text) (h : Forest stops c vs stop c') (hc : Reached source last c)
    (hopen : c'.openComment = none) :
    (c.extend r).slice (c.extend r).tokenStart (c'.extend r).position =
      c.slice c.tokenStart c'.position := by
  obtain ⟨hparses, last', hc'⟩ := h.parses hc
  obtain ⟨u, hu⟩ := hparses.suffix
  rw [hc.slice_eq hc' hu.symm]
  refine (hc.extend (h.openComment_none hopen) r).slice_eq (hc'.extend hopen r) ?_
  rw [extend_rest, extend_rest, ← List.append_assoc, hu]

/-- What is behind the first token is tied if what is behind the values is. -/
theorem first_tied {c₁ : Cursor} {t : Token} (h : Forest stops c vs stop c')
    (hc : Reached source last c) (hp : (c.pull .trees).Gives (some t) c₁) (htied : Tied c'.rest) :
    Tied c₁.rest := by
  obtain ⟨span, -, hc₁⟩ := hc.nextToken hp
  cases h with
  | finish hf => exact absurd (hf.unique hp).1 (by simp)
  | stop hs _ =>
    obtain ⟨-, rfl⟩ := hs.unique hp
    exact htied
  | token hs _ _ h =>
    obtain ⟨-, rfl⟩ := hs.unique hp
    exact h.tied hc₁ (.inl htied)
  | node hs _ _ hi h =>
    obtain ⟨-, rfl⟩ := hs.unique hp
    obtain ⟨-, last₂, hc₂⟩ := hi.parses hc₁
    exact hi.tied hc₁ (.inl (h.tied hc₂ (.inl htied)))

/-- **Values are the same when the text goes on**, with their source texts, if
what they end with is fixed. -/
theorem extend (r : Text) (h : Forest stops c vs stop c') (hc : Reached source last c)
    (hopen : c'.openComment = none) (hfixed : Fixed stop c'.rest) :
    Forest stops (c.extend r) vs stop (c'.extend r) := by
  induction h generalizing last with
  | finish hp =>
    rcases hfixed with hr | ⟨t, ht, -⟩
    · exact absurd (pull_atEnd hp).rest hr.ne_nil
    · simp at ht
  | stop hp hs => exact .stop (pull_extend r hc hp hopen hfixed) hs
  | token hp hs ho h ih =>
    obtain ⟨span, -, hc₁⟩ := hc.nextToken hp
    have htied : Tied _ := h.tied hc₁ hfixed
    exact .token (pull_extend r hc hp (h.openComment_none hopen) (.inl htied)) hs ho
      (ih hc₁ hopen hfixed)
  | @node stops c c₁ c₂ c' t o inner vs close stop hp hs ho hi h ihi ih =>
    obtain ⟨span, -, hc₁⟩ := hc.nextToken hp
    obtain ⟨-, last₂, hc₂⟩ := hi.parses hc₁
    have htied₂ : Tied c₂.rest := h.tied hc₂ hfixed
    have htied₁ : Tied c₁.rest := hi.tied hc₁ (.inl htied₂)
    have hopen₂ := h.openComment_none hopen
    have hinner := ihi hc₁ hopen₂ (.inl htied₂)
    rw [← hi.slice_extend r hc₁ hopen₂]
    exact .node (pull_extend r hc hp (hi.openComment_none hopen₂) (.inl htied₁)) hs ho hinner
      (ih hc₂ hopen hfixed)

end Forest
end Cursor
end CssReader
