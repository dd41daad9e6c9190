/-
# Readers are made of steps

Whatever a reader does to its cursor and to the log, it does by asking for
tokens, by handing them back, and by reporting. `Cursor.Trace` is a run of such
steps, and every reader leaves one behind (`Outcome.Traced`). What holds of each
step then holds of every reader.

An open comment is remembered by the step that meets it, which reports it, and
is never forgotten. So if a reader remembers none, no comment was open where it
has been, and it remembers none if none was reported.

Key definitions: `Cursor.Trace`, `Outcome.Traced`.
Key theorems: `Cursor.values_traced`, `Cursor.ruleList_traced`,
`Cursor.Trace.openComment_none`, `Cursor.Trace.openComment_reported`.
-/
import CssReader.Proofs.Follows

namespace CssReader

namespace Cursor

/-- Steps lead from one cursor to another, and leave events in the log. -/
inductive Trace : Cursor → List Event → Cursor → Prop
  | done (c : Cursor) : Trace c [] c
  | next (c : Cursor) : Trace c c.next.events c.next.cursor
  | pushBack (t : Token) (c : Cursor) : Trace c [] (c.pushBack t).2
  | report (e : Event) (c : Cursor) : Trace c [e] c
  | append {c c₁ c₂ : Cursor} {es es₁ : List Event} :
    Trace c es c₁ → Trace c₁ es₁ c₂ → Trace c (es ++ es₁) c₂

/-- The cursor may stay where it is while events are reported. -/
theorem Trace.reports (c : Cursor) : ∀ es : List Event, Trace c es c
  | [] => .done c
  | e :: es => .append (.report e c) (reports c es)

end Cursor

/-! ### Every reader leaves a trace -/

namespace Outcome

variable {α β : Type} {o : Outcome α} {c : Cursor}

/-- Steps have led from the cursor `c` to the outcome. -/
def Traced (o : Outcome α) (c : Cursor) : Prop := c.Trace o.events o.cursor

theorem traced_here {r : Except Fault α} {es : List Event} : Traced ⟨r, c, es⟩ c :=
  Cursor.Trace.reports c es

theorem Traced.bind {f : α → Cursor → Outcome β} (h : o.Traced c)
    (hf : ∀ a, o.result = .ok a → (f a o.cursor).Traced o.cursor) : (o.bind f).Traced c := by
  unfold Outcome.bind
  split
  · exact h
  · rename_i a ha
    exact .append h (hf a ha)

theorem Traced.map (h : o.Traced c) (f : α → β) : (o.map f).Traced c := h

theorem Traced.after (h : o.Traced c) (es : List Event) : (o.after es).Traced c :=
  .append (.reports c es) h

/-- Steps may lead to where an outcome begins. -/
theorem Traced.of_trace {c₀ : Cursor} (h : o.Traced c) (h₀ : c₀.Trace [] c) : o.Traced c₀ :=
  .append h₀ h

end Outcome

namespace Cursor

theorem pull_traced (layer : Layer) (c : Cursor) : (c.pull layer).Traced c := by
  fun_induction pull layer c with
  | case1 c | case3 c => exact .next c
  | case2 c f hf hr ih => exact .append (.append (.next c) (.report _ _)) ih

theorem values_traced (stops : Token → Bool) (c : Cursor) : (c.values stops).Traced c := by
  induction hn : c.weight using Nat.strongRecOn generalizing stops c with
  | ind n ih =>
    subst hn
    rw [values_unroll]
    refine (pull_traced .trees c).bind fun t? ht => ?_
    rcases t? with _ | t
    · exact Outcome.traced_here
    · have hw := pull_weight_lt .trees c (by simp [ht])
      have ih1 := fun stops => ih _ hw stops _ rfl
      dsimp only
      by_cases hs : stops t = true
      · rw [if_pos hs]
        exact Outcome.traced_here
      · rw [if_neg hs]
        rcases Opener.ofToken? t with _ | o
        · exact (ih1 stops).map _
        · have he : ((c.pull .trees).cursor.enclosed o).Traced (c.pull .trees).cursor := by
            rw [enclosed_eq]
            exact (ih1 _).bind fun _ _ => Outcome.traced_here
          have hw2 := enclosed_weight_le o (c.pull .trees).cursor
          exact he.bind fun e _ => (ih _ (by omega) stops _ rfl).map _

theorem enclosed_traced (o : Opener) (c : Cursor) : (c.enclosed o).Traced c := by
  rw [enclosed_eq]
  exact (values_traced _ c).bind fun _ _ => Outcome.traced_here

theorem block_traced (b : Bracket) (c : Cursor) : (c.block b).Traced c :=
  (enclosed_traced _ c).map _

theorem atRule_traced (c : Cursor) : c.atRule.Traced c := by
  refine (pull_traced .trees c).bind fun first _ => ?_
  refine (values_traced _ _).bind fun ⟨header, stop⟩ _ => ?_
  dsimp only
  split
  · exact (block_traced _ _).map _
  · exact Outcome.traced_here
  · exact Outcome.traced_here

theorem qualifiedRule_traced (c : Cursor) : c.qualifiedRule.Traced c := by
  refine (values_traced _ _).bind fun ⟨header, stop⟩ _ => ?_
  dsimp only
  split
  · exact (block_traced _ _).map _
  · exact Outcome.traced_here

theorem rule_traced (start : RuleStart) (c : Cursor) : (c.rule start).Traced c := by
  cases start with
  | skip => exact Outcome.traced_here
  | atRule => exact (atRule_traced c).map _
  | qualified => exact qualifiedRule_traced c

theorem ruleList_traced (top : Bool) (c : Cursor) : (c.ruleList top).Traced c := by
  induction hn : c.weight using Nat.strongRecOn generalizing c with
  | ind n ih =>
    subst hn
    rw [ruleList_eq]
    refine (pull_traced .trees c).bind fun t? ht => ?_
    rcases t? with _ | t
    · exact Outcome.traced_here
    · dsimp only
      by_cases hs : RuleStart.ofToken top t = .skip
      · rw [if_pos hs]
        exact ih _ (pull_weight_lt .trees c (by simp [ht])) _ rfl
      · rw [if_neg hs]
        refine (Outcome.Traced.bind ((rule_traced _ _).of_trace (.pushBack t _))
          fun r _ => ?_).after _
        exact (ih _ (rule_pushBack_weight_lt ht hs) _ rfl).map _

/-! ### Open comments -/

/-- What a step does when no token was handed back. -/
theorem next_of_pending {c : Cursor} (hp : c.pending = none) :
    c.next = match Lexeme.read c.skipComments.noteOpenComment.1.rest with
      | none => ⟨.ok none, c.skipComments.noteOpenComment.1, c.skipComments.noteOpenComment.2⟩
      | some l =>
        c.skipComments.noteOpenComment.1.outcomeOf c.skipComments.noteOpenComment.2 l := by
  rcases hl : Lexeme.read c.skipComments.noteOpenComment.1.rest with _ | l <;>
    simp only [next, hp, hl]

/-- The comment that is remembered behind a step is one remembered when the
token behind the comments is looked at. -/
theorem next_openComment {c : Cursor} (hp : c.pending = none) :
    c.next.cursor.openComment = c.skipComments.noteOpenComment.1.openComment ∧
      ∀ e ∈ c.skipComments.noteOpenComment.2, e ∈ c.next.events := by
  rw [next_of_pending hp]
  split
  · exact ⟨rfl, fun e he => he⟩
  · exact ⟨rfl, fun e he => List.mem_append_left _ he⟩

/-- **An open comment is not forgotten.** -/
theorem Trace.openComment_none {c c' : Cursor} {es : List Event} (h : c.Trace es c')
    (hc : c'.openComment = none) : c.openComment = none := by
  induction h with
  | done | pushBack | report => exact hc
  | next c =>
    rcases hp : c.pending with _ | t
    · rw [(next_openComment hp).1] at hc
      unfold noteOpenComment at hc
      split at hc
      · simp at hc
      · exact hc
    · simpa [Cursor.next, hp] using hc
  | append _ _ ih₁ ih₂ => exact ih₁ (ih₂ hc)

/-- No open comment was met if none is remembered behind a reader. -/
theorem openComment_of_traced {α : Type} {o : Outcome α} {a : α} {c c' : Cursor} (h : o.Traced c)
    (ho : o.Gives a c') (hc : c'.openComment = none) : c.openComment = none := by
  rw [Outcome.Traced, ho.cursor] at h
  exact h.openComment_none hc

/-- **An open comment is reported.** -/
theorem Trace.openComment_reported {c c' : Cursor} {es : List Event} (h : c.Trace es c')
    (hes : ∀ layer w, Event.warning layer w ∈ es → w.mistake ≠ .openComment)
    (hc : c.openComment = none) : c'.openComment = none := by
  induction h with
  | done | pushBack | report => exact hc
  | next c =>
    rcases hp : c.pending with _ | t
    · obtain ⟨hopen, hevents⟩ := next_openComment hp
      rw [hopen]
      unfold noteOpenComment at hevents ⊢
      split
      · rename_i ho
        rw [if_pos ho] at hevents
        exact absurd rfl (hes _ _ (hevents _ List.mem_cons_self))
      · exact hc
    · simpa [Cursor.next, hp] using hc
  | append _ _ ih₁ ih₂ =>
    exact ih₂ (fun layer w hw => hes layer w (List.mem_append_right _ hw))
      (ih₁ (fun layer w hw => hes layer w (List.mem_append_left _ hw)) hc)

end Cursor
end CssReader
