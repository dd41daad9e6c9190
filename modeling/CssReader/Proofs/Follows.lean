/-
# Readers follow the tokens

`Cursor.tokens` takes the tokens behind a cursor one by one, without looking at
them. Every other reader takes some of them, and leaves its cursor where the
rest begin: a reader that ends well has taken a beginning of the tokens, and a
fault that ends it is the fault that ends the tokens, at the same place. This is
`Outcome.Follows`. It is a property of whole readers because it passes from the
first part of a reader and the part behind it to both together.

The readers of whole texts come to the end of the text if they come to no fault.

Key definitions: `Cursor.Reads`, `Outcome.Follows`, `Cursor.AtEnd`.
Key theorems: `Cursor.values_follows`, `Cursor.ruleList_follows`,
`Cursor.ruleList_atEnd`, `Cursor.Forest.atEnd`.
-/
import CssReader.Proofs.Forest
import CssReader.Proofs.Reading

namespace CssReader

namespace Cursor

/-! ### Tokens -/

/-- Who asks for a token changes only what is reported. -/
theorem pull_layer (layer layer' : Layer) (c : Cursor) :
    (c.pull layer).result = (c.pull layer').result ∧
      (c.pull layer).cursor = (c.pull layer').cursor := by
  fun_induction pull layer c with
  | case1 c a h => simp [pull_of_ok layer' h]
  | case2 c f h hr ih =>
    rw [pull_of_skipped layer' h hr]
    exact ih
  | case3 c f h hr => simp [pull_of_fault layer' h hr]

/-- The tokens behind a cursor are the next one and those behind it. -/
theorem tokens_eq (c : Cursor) :
    c.tokens = (c.pull .tokens).bind fun t? c' =>
      match t? with
      | none => ⟨.ok [], c', []⟩
      | some t => (c'.tokens.map (t :: ·)).after [.taken t] := by
  rw [tokens]
  split <;> rename_i h
  · simp [Outcome.bind, h]
  · simp [Outcome.bind, h, Outcome.after]
  · simp [Outcome.bind, h, Outcome.after]

/-- Behind `c` come the tokens `ts`, and then those behind `c'`. -/
def Reads (c : Cursor) (ts : List Token) (c' : Cursor) : Prop :=
  c.tokens.result = c'.tokens.result.map (ts ++ ·) ∧ c.tokens.cursor = c'.tokens.cursor

theorem Reads.refl (c : Cursor) : c.Reads [] c := by
  refine ⟨?_, rfl⟩
  cases c.tokens.result <;> rfl

theorem Reads.trans {c₁ c₂ c₃ : Cursor} {ts ts' : List Token} (h : c₁.Reads ts c₂)
    (h' : c₂.Reads ts' c₃) : c₁.Reads (ts ++ ts') c₃ := by
  refine ⟨?_, h.2.trans h'.2⟩
  rw [h.1, h'.1]
  cases c₃.tokens.result <;> simp [Except.map]

theorem reads_of_pull {c c' : Cursor} {t : Token} (h : (c.pull .trees).Gives (some t) c') :
    c.Reads [t] c' := by
  obtain ⟨hr, hc⟩ := pull_layer .tokens .trees c
  rw [h.result] at hr
  rw [h.cursor] at hc
  rw [Reads, tokens_eq, Outcome.bind, hr, hc]
  exact ⟨rfl, rfl⟩

/-- The token that a cursor gives is the first of those behind it. -/
theorem tokens_cons {c c' : Cursor} {t : Token} {ts : List Token}
    (h : (c.pull .trees).Gives (some t) c') (hts : c.tokens.result = .ok ts) :
    ∃ ts', ts = t :: ts' ∧ c'.tokens.result = .ok ts' := by
  have hr := (reads_of_pull h).1
  rw [hts] at hr
  rcases h' : c'.tokens.result with f | ts'
  · rw [h'] at hr
    simp [Except.map] at hr
  · rw [h'] at hr
    exact ⟨ts', Except.ok.inj hr, rfl⟩

theorem tokens_of_pull_none {c c' : Cursor} (h : (c.pull .trees).Gives none c') :
    c.tokens.Gives [] c' := by
  obtain ⟨hr, hc⟩ := pull_layer .tokens .trees c
  rw [tokens_eq, Outcome.bind, hr, hc, h.result, h.cursor]
  exact ⟨rfl, rfl⟩

theorem tokens_of_pull_error {c : Cursor} {f : Fault} (h : (c.pull .trees).result = .error f) :
    c.tokens.result = .error f ∧ c.tokens.cursor = (c.pull .trees).cursor := by
  obtain ⟨hr, hc⟩ := pull_layer .tokens .trees c
  rw [tokens_eq, Outcome.bind, hr, h]
  exact ⟨rfl, hc⟩

/-- To hand back the token just read is to be in front of it again. -/
theorem reads_pushBack {c : Cursor} (t : Token) (h : c.pending = none) :
    (c.pushBack t).2.Reads [t] c :=
  reads_of_pull (by rw [pull_pushBack t .trees h]; exact ⟨rfl, rfl⟩)

/-! ### The end of the text -/

/-- Nothing is left, neither of the text nor handed back, and the cursor has
noticed. -/
structure AtEnd (c : Cursor) : Prop where
  rest : c.rest = []
  pending : c.pending = none
  tokenStart : c.tokenStart = c.position

theorem next_atEnd {c : Cursor} (h : c.next.result = .ok none) : c.next.cursor.AtEnd := by
  unfold next at h ⊢
  split
  · simp_all
  · rename_i hp
    rw [hp] at h
    dsimp only at h ⊢
    split
    · rename_i hr
      refine ⟨Lexeme.read_eq_none.1 hr, by simp [hp], ?_⟩
      unfold noteOpenComment
      split <;> rfl
    · rename_i l hl
      rw [hl] at h
      dsimp only [outcomeOf] at h
      split at h <;> simp at h

namespace AtEnd

variable {c : Cursor}

theorem skipComments (h : c.AtEnd) : c.skipComments = c := by
  have hr : Comment.run c.rest = ([], c.rest) := by
    rw [h.rest]
    exact Comment.run_of_read?_none rfl
  have hc : { c with tokenStart := c.position } = c := by
    have ht := h.tokenStart
    cases c
    simp only at ht
    rw [ht]
  simp [Cursor.skipComments, hr, hc]

/-- At the end of the text nothing happens any more. -/
theorem next (h : c.AtEnd) : c.next = ⟨.ok none, c, []⟩ := by
  have hn : c.noteOpenComment = (c, []) := by
    simp [noteOpenComment, Comment.opens, h.rest]
  simp only [Cursor.next, h.pending, h.skipComments, hn]
  rw [Lexeme.read_eq_none.2 h.rest]

theorem pull (h : c.AtEnd) (layer : Layer) : c.pull layer = ⟨.ok none, c, []⟩ := by
  rw [pull_of_ok layer (congrArg Outcome.result h.next), h.next]

theorem tokens (h : c.AtEnd) : c.tokens = ⟨.ok [], c, []⟩ := by
  rw [tokens_eq, h.pull]
  rfl

end AtEnd

theorem pull_atEnd {layer : Layer} {c c' : Cursor} (h : (c.pull layer).Gives none c') :
    c'.AtEnd := by
  obtain ⟨hr, rfl⟩ := h
  fun_induction pull layer c with
  | case1 c a ha => exact next_atEnd hr
  | case2 c f hf hrec ih => exact ih hr
  | case3 c f hf hrec =>
    rw [hf] at hr
    simp at hr

/-- A reading that no token stopped has come to the end of the text. -/
theorem Forest.atEnd {stops : Token → Bool} {c c' : Cursor} {vs : List ComponentValue}
    {stop : Option Token} (h : Forest stops c vs stop c') (hs : stop = none) : c'.AtEnd := by
  induction h with
  | finish hp => exact pull_atEnd hp
  | stop => simp at hs
  | token _ _ _ _ ih => exact ih hs
  | node _ _ _ _ _ _ ih => exact ih hs

end Cursor

/-! ### Readers -/

namespace Outcome

variable {α β : Type} {o : Outcome α} {c : Cursor}

/-- The outcome has taken a beginning of the tokens behind `c`, or met the fault
that ends them. -/
def Follows (o : Outcome α) (c : Cursor) : Prop :=
  match o.result with
  | .ok _ => ∃ ts, c.Reads ts o.cursor
  | .error f => c.tokens.result = .error f ∧ c.tokens.cursor = o.cursor

theorem follows_ok {a : α} {es : List Event} : Follows ⟨.ok a, c, es⟩ c :=
  ⟨[], Cursor.Reads.refl c⟩

theorem Follows.of_reads {c' : Cursor} {ts : List Token} (h : o.Follows c') (hr : c.Reads ts c') :
    o.Follows c := by
  unfold Follows at h ⊢
  split
  · rename_i a ha
    rw [ha] at h
    obtain ⟨ts', h⟩ := h
    exact ⟨_, hr.trans h⟩
  · rename_i f hf
    rw [hf] at h
    rw [hr.1, hr.2, h.1]
    exact ⟨rfl, h.2⟩

theorem Follows.bind {f : α → Cursor → Outcome β} (h : o.Follows c)
    (hf : ∀ a, o.result = .ok a → (f a o.cursor).Follows o.cursor) : (o.bind f).Follows c := by
  unfold Follows at h
  split at h
  · rename_i a ha
    obtain ⟨ts, h⟩ := h
    rw [Outcome.bind, ha]
    exact (hf a ha).of_reads h
  · rename_i e he
    rw [Outcome.bind, he]
    exact h

theorem Follows.map (h : o.Follows c) (f : α → β) : (o.map f).Follows c := by
  unfold Follows at h ⊢
  rw [Outcome.map]
  cases hr : o.result <;> simp_all [Except.map]

theorem Follows.after (h : o.Follows c) (es : List Event) : (o.after es).Follows c := h

/-- A reading that faults does so because the tokens do. -/
theorem Follows.of_error (h : o.Follows c) {f : Fault} (hf : o.result = .error f) :
    c.tokens.result = .error f := by
  rw [Follows, hf] at h
  exact h.1

/-- A reading that comes to the end without a fault has taken all tokens. -/
theorem Follows.of_atEnd (h : o.Follows c) {a : α} (ha : o.result = .ok a) (he : o.cursor.AtEnd) :
    ∃ ts, c.tokens.result = .ok ts := by
  rw [Follows, ha] at h
  obtain ⟨ts, h, -⟩ := h
  exact ⟨ts ++ [], by rw [h, he.tokens]; rfl⟩

end Outcome

namespace Cursor

theorem pull_follows (c : Cursor) : (c.pull .trees).Follows c := by
  unfold Outcome.Follows
  split
  · rename_i t? h
    have hp := Outcome.gives_of_result h
    rcases t? with _ | t
    · have ht := tokens_of_pull_none hp
      have hend := (pull_atEnd hp).tokens
      refine ⟨[], ?_⟩
      rw [Reads, hend, ht.result, ht.cursor]
      exact ⟨rfl, rfl⟩
    · exact ⟨[t], reads_of_pull hp⟩
  · rename_i f h
    exact tokens_of_pull_error h

/-- A reader in front of a token just handed back follows the tokens from there. -/
theorem follows_pushBack {α : Type} {o : Outcome α} {c : Cursor} {t : Token}
    (h : (c.pull .trees).result = .ok (some t))
    (ho : o.Follows ((c.pull .trees).cursor.pushBack t).2) : o.Follows c := by
  have h1 := reads_of_pull (Outcome.gives_of_result h)
  have h2 := reads_pushBack t (pull_pending .trees c)
  have hr : c.Reads [] ((c.pull .trees).cursor.pushBack t).2 := by
    refine ⟨?_, h1.2.trans h2.2.symm⟩
    rw [h1.1, h2.1]
    cases (c.pull .trees).cursor.tokens.result <;> rfl
  exact ho.of_reads hr

theorem values_follows (stops : Token → Bool) (c : Cursor) : (c.values stops).Follows c := by
  induction hn : c.weight using Nat.strongRecOn generalizing stops c with
  | ind n ih =>
    subst hn
    rw [values_unroll]
    refine (pull_follows c).bind fun t? ht => ?_
    rcases t? with _ | t
    · exact Outcome.follows_ok
    · have hw := pull_weight_lt .trees c (by simp [ht])
      have ih1 := fun stops => ih _ hw stops _ rfl
      dsimp only
      by_cases hs : stops t = true
      · rw [if_pos hs]
        exact Outcome.follows_ok
      · rw [if_neg hs]
        rcases Opener.ofToken? t with _ | o
        · exact (ih1 stops).map _
        · -- what is enclosed has been read to its closing token, and the rest comes behind
          have he : ((c.pull .trees).cursor.enclosed o).Follows (c.pull .trees).cursor := by
            rw [enclosed_eq]
            exact (ih1 _).bind fun _ _ => Outcome.follows_ok
          have hw2 := enclosed_weight_le o (c.pull .trees).cursor
          exact he.bind fun e _ => (ih _ (by omega) stops _ rfl).map _

theorem enclosed_follows (o : Opener) (c : Cursor) : (c.enclosed o).Follows c := by
  rw [enclosed_eq]
  exact (values_follows _ c).bind fun _ _ => Outcome.follows_ok

theorem block_follows (b : Bracket) (c : Cursor) : (c.block b).Follows c :=
  (enclosed_follows _ c).map _

theorem atRule_follows (c : Cursor) : c.atRule.Follows c := by
  refine (pull_follows c).bind fun first _ => ?_
  refine (values_follows _ _).bind fun ⟨header, stop⟩ _ => ?_
  dsimp only
  split
  · exact (block_follows _ _).map _
  · exact Outcome.follows_ok
  · exact Outcome.follows_ok

theorem qualifiedRule_follows (c : Cursor) : c.qualifiedRule.Follows c := by
  refine (values_follows _ _).bind fun ⟨header, stop⟩ _ => ?_
  dsimp only
  split
  · exact (block_follows _ _).map _
  · exact Outcome.follows_ok

theorem rule_follows (start : RuleStart) (c : Cursor) : (c.rule start).Follows c := by
  cases start with
  | skip => exact Outcome.follows_ok
  | atRule => exact (atRule_follows c).map _
  | qualified => exact qualifiedRule_follows c

theorem componentValues_follows (c : Cursor) : c.componentValues.Follows c :=
  (values_follows _ c).map _

/-- The cursor behind a rule has less left than the one in front of its first token. -/
theorem rule_pushBack_weight_lt {top : Bool} {c : Cursor} {t : Token}
    (h : (c.pull .trees).result = .ok (some t)) (hs : RuleStart.ofToken top t ≠ .skip) :
    (((c.pull .trees).cursor.pushBack t).2.rule (.ofToken top t)).cursor.weight < c.weight := by
  have h1 := pull_weight_lt .trees c (by simp [h])
  have h2 := pushBack_weight (c := (c.pull .trees).cursor) t (pull_pending .trees c)
  have h3 := rule_weight_le hs ((c.pull .trees).cursor.pushBack t).2
  omega

theorem ruleList_follows (top : Bool) (c : Cursor) : (c.ruleList top).Follows c := by
  induction hn : c.weight using Nat.strongRecOn generalizing c with
  | ind n ih =>
    subst hn
    rw [ruleList_eq]
    rcases hp : (c.pull .trees).result with f | _ | t
    · exact (pull_follows c).bind fun _ h => by simp [hp] at h
    · refine (pull_follows c).bind fun t? ht => ?_
      obtain rfl : none = t? := Except.ok.inj (hp.symm.trans ht)
      exact Outcome.follows_ok
    · rw [Outcome.bind, hp]
      apply Outcome.Follows.after
      dsimp only
      by_cases hs : RuleStart.ofToken top t = .skip
      · rw [if_pos hs]
        have hw := pull_weight_lt .trees c (by simp [hp])
        exact (ih _ hw _ rfl).of_reads (reads_of_pull (Outcome.gives_of_result hp))
      · rw [if_neg hs]
        apply Outcome.Follows.after
        apply follows_pushBack hp
        refine (rule_follows _ _).bind fun r _ => ?_
        exact (ih _ (rule_pushBack_weight_lt hp hs) _ rfl).map _

/-- Rules that were read without a fault go up to the end of the text. -/
theorem ruleList_atEnd {top : Bool} {c c' : Cursor} {rs : List Rule}
    (h : (c.ruleList top).Gives rs c') : c'.AtEnd := by
  induction hn : c.weight using Nat.strongRecOn generalizing c rs with
  | ind n ih =>
    subst hn
    rw [ruleList_eq, Outcome.bind_gives] at h
    obtain ⟨t?, c₁, hp, h⟩ := h
    rcases t? with _ | t
    · obtain ⟨-, rfl⟩ := Outcome.gives_ok.1 h
      exact pull_atEnd hp
    · obtain ⟨hp, rfl⟩ := hp
      dsimp only at h
      by_cases hs : RuleStart.ofToken top t = .skip
      · rw [if_pos hs] at h
        have hw := pull_weight_lt .trees c (by simp [hp])
        exact ih _ hw h rfl
      · rw [if_neg hs] at h
        obtain ⟨r, c₂, hr, h⟩ := Outcome.bind_gives.1 (Outcome.after_gives.1 h)
        obtain ⟨rs', h, -⟩ := Outcome.map_gives.1 h
        have hw : c₂.weight < c.weight := hr.cursor ▸ rule_pushBack_weight_lt hp hs
        exact ih _ hw h rfl

end Cursor
end CssReader
