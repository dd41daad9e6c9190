/-
# What is reported about tokens

To look for a token may report an open comment, an open string or an open url, and a
malformed url that is skipped; nothing else. All of it is reported at most once, and in
the order of the text (`Cursor.tokens_rises`).

The readers of trees ask for their tokens one by one, so what they report about them is
what the reader of tokens reports, line by line. Only it does not list the tokens, and
the malformed urls are skipped by another layer: `Cursor.scan` is the reader of tokens
with its log in these words. `Outcome.thenLog` is how the log of a reader is put together
from its parts.

Key definitions: `Event.forTrees`, `Cursor.scan`, `Outcome.thenLog`, `Event.positions`.
Key theorems: `Cursor.pull_reports`, `Cursor.scan_eq`, `Cursor.tokens_rises`.
-/
import Mathlib.Data.List.Basic
import CssReader.Proofs.Follows
import CssReader.Proofs.Lexeme.Warnings

namespace CssReader

/-! ### Logs in parts -/

namespace Outcome

variable {α β : Type} {o : Outcome α}

/-- The log of an outcome, and behind it that of what goes on from there, unless the
outcome is a fault. -/
def thenLog (o : Outcome α) (k : α → Cursor → List Event) : List Event :=
  o.events ++ match o.result with
    | .ok a => k a o.cursor
    | .error _ => []

@[simp] theorem ok_thenLog (a : α) (c : Cursor) (es : List Event) (k : α → Cursor → List Event) :
    thenLog ⟨.ok a, c, es⟩ k = es ++ k a c := rfl

theorem thenLog_nil : (o.thenLog fun _ _ => []) = o.events := by
  unfold thenLog
  split <;> exact List.append_nil _

theorem thenLog_congr {k k' : α → Cursor → List Event}
    (h : ∀ a, o.result = .ok a → k a o.cursor = k' a o.cursor) : o.thenLog k = o.thenLog k' := by
  unfold thenLog
  split
  · rename_i a ha
    rw [h a ha]
  · rfl

theorem after_thenLog (es : List Event) (k : α → Cursor → List Event) :
    (o.after es).thenLog k = es ++ o.thenLog k :=
  List.append_assoc ..

theorem map_thenLog (f : α → β) (k : β → Cursor → List Event) :
    (o.map f).thenLog k = o.thenLog fun a => k (f a) := by
  rcases o with ⟨_ | a, c, es⟩ <;> rfl

theorem bind_thenLog (f : α → Cursor → Outcome β) (k : β → Cursor → List Event) :
    (o.bind f).thenLog k = o.thenLog fun a c => (f a c).thenLog k := by
  rcases o with ⟨_ | a, c, es⟩
  · rfl
  · exact after_thenLog es k

theorem bind_events (f : α → Cursor → Outcome β) :
    (o.bind f).events = o.thenLog fun a c => (f a c).events := by
  rcases o with ⟨_ | a, c, es⟩
  · exact (List.append_nil es).symm
  · rfl

end Outcome

/-! ### Lines of the log -/

namespace Event

/-- The position that a line of the log is about, if it is about one. -/
def position? : Event → Option Nat
  | .warning _ w => some w.position
  | .taken _ | .lost _ => none

/-- The positions that a log is about, in its order. -/
def positions (es : List Event) : List Nat := es.filterMap position?

@[simp] theorem positions_append (es es' : List Event) :
    positions (es ++ es') = positions es ++ positions es' :=
  List.filterMap_append

/-- A line of the log about tokens, as the readers of trees write it. They list no tokens,
and it is they that skip a malformed url. -/
def forTrees : Event → Option Event
  | .taken _ => none
  | .warning .tokens ⟨.skippedUrl, p⟩ => some (.warning .trees ⟨.skippedUrl, p⟩)
  | ev => some ev

/-- The line reports what one step to the next token may find. -/
def IsFound (ev : Event) : Prop :=
  ∃ w, ev = .warning .tokens w ∧
    (w.mistake = .openComment ∨ w.mistake = .openString ∨ w.mistake = .openUrl)

theorem IsFound.forTrees {ev : Event} (h : ev.IsFound) : ev.forTrees = some ev := by
  obtain ⟨⟨m, p⟩, rfl, h | h | h⟩ := h <;> cases h <;> rfl

theorem filterMap_forTrees {es : List Event} (h : ∀ ev ∈ es, IsFound ev) :
    es.filterMap forTrees = es := by
  calc es.filterMap forTrees
      = es.filterMap some := List.filterMap_congr fun ev hev => (h ev hev).forTrees
    _ = es := List.filterMap_some

/-- The readers of trees report at the same positions. -/
theorem position?_forTrees (ev : Event) : ev.forTrees.bind position? = ev.position? := by
  cases ev with
  | warning layer w =>
    obtain ⟨m, p⟩ := w
    cases layer <;> cases m <;> rfl
  | taken t | lost t => rfl

@[simp] theorem positions_forTrees (es : List Event) :
    positions (es.filterMap forTrees) = positions es := by
  rw [positions, List.filterMap_filterMap]
  exact congrArg (List.filterMap · es) (funext position?_forTrees)

end Event

/-- What a lexeme notes is reported from where the lexeme begins on. -/
theorem Lexeme.positions_warnings (l : Lexeme) (n : Nat) :
    Event.positions (l.warnings.map fun w => .warning .tokens (w.shift n)) =
      (l.warnings.map Warning.position).map (n + ·) := by
  rw [Event.positions, List.filterMap_map, List.map_map]
  exact congrFun List.filterMap_eq_map _

namespace Cursor

variable {c : Cursor}

/-! ### The next token -/

theorem noteOpenComment_reports (c : Cursor) :
    ∀ ev ∈ c.noteOpenComment.2, Event.IsFound ev := by
  intro ev hev
  unfold noteOpenComment at hev
  split at hev
  · obtain rfl := List.mem_singleton.1 hev
    exact ⟨_, rfl, .inl rfl⟩
  · simp at hev

/-- What may be reported on the way to the next token. -/
theorem next_reports (c : Cursor) : ∀ ev ∈ c.next.events, Event.IsFound ev := by
  intro ev hev
  unfold next at hev
  split at hev
  · simp at hev
  · dsimp only at hev
    split at hev
    · exact noteOpenComment_reports _ ev hev
    · rename_i l hl
      rcases List.mem_append.1 hev with hev | hev
      · exact noteOpenComment_reports _ ev hev
      · obtain ⟨w, hw, rfl⟩ := List.mem_map.1 hev
        exact ⟨_, rfl, .inr ((Lexeme.read_tolerates hl).mistake w hw)⟩

/-- **Who asks for a token reports the same in other words.** -/
theorem pull_reports (c : Cursor) :
    (c.pull .trees).events = (c.pull .tokens).events.filterMap Event.forTrees := by
  fun_induction pull .trees c with
  | case1 c a h =>
    rw [pull_of_ok .tokens h, Event.filterMap_forTrees c.next_reports]
  | case2 c f h hr ih =>
    rw [pull_of_skipped .tokens h hr]
    simp only [Outcome.after, List.filterMap_append, Event.filterMap_forTrees c.next_reports, ih]
    rfl
  | case3 c f h hr =>
    rw [pull_of_fault .tokens h hr, Event.filterMap_forTrees c.next_reports]

/-! ### All tokens -/

/-- The tokens behind a cursor, with what the readers of trees report about them. -/
def scan (c : Cursor) : Outcome (List Token) :=
  { c.tokens with events := c.tokens.events.filterMap Event.forTrees }

/-- Tokens are asked for one after the other. -/
theorem scan_eq (c : Cursor) :
    c.scan = (c.pull .trees).bind fun t? c' =>
      match t? with
      | none => ⟨.ok [], c', []⟩
      | some t => c'.scan.map (t :: ·) := by
  obtain ⟨hr, hc⟩ := pull_layer .tokens .trees c
  have he := c.pull_reports
  rw [scan, tokens_eq, Outcome.bind, Outcome.bind, ← hr, ← hc, he]
  rcases (c.pull .tokens).result with f | _ | t
  · rfl
  · simp [Outcome.after]
  · have htaken : (Event.taken t).forTrees = none := rfl
    simp [Outcome.after, Outcome.map, scan, htaken]

/-- Of tokens the readers of trees report malformed urls that they skip, and what one
step may find. -/
theorem mem_scan_events {ev : Event} (h : ev ∈ c.scan.events) :
    ev.IsFound ∨ ∃ p, ev = .warning .trees ⟨.skippedUrl, p⟩ := by
  have hpull : ∀ d : Cursor, ∀ ev ∈ (d.pull .trees).events,
      ev.IsFound ∨ ∃ p, ev = .warning .trees ⟨.skippedUrl, p⟩ := by
    intro d
    fun_induction pull .trees d with
    | case1 d | case3 d => exact fun ev hev => .inl (d.next_reports ev hev)
    | case2 d f hf hr ih =>
      intro ev hev
      rcases List.mem_append.1 hev with hev | hev
      · rcases List.mem_append.1 hev with hev | hev
        · exact .inl (d.next_reports ev hev)
        · exact .inr ⟨_, List.mem_singleton.1 hev⟩
      · exact ih ev hev
  induction hn : c.weight using Nat.strongRecOn generalizing c with
  | ind n ih =>
    subst hn
    rw [scan_eq, Outcome.bind_events] at h
    rcases List.mem_append.1 h with h | h
    · exact hpull c ev h
    · rcases hp : (c.pull .trees).result with f | _ | t
      · simp [hp] at h
      · simp [hp] at h
      · rw [hp] at h
        exact ih _ (pull_weight_lt .trees c (by simp [hp])) h rfl

/-! ### In the order of the text -/

@[simp] theorem noteOpenComment_position (c : Cursor) :
    c.noteOpenComment.1.position = c.position := by
  unfold noteOpenComment
  split <;> rfl

theorem noteOpenComment_rises (c : Cursor) :
    Text.Rises c.position c.position (Event.positions c.noteOpenComment.2) := by
  unfold noteOpenComment
  split
  · exact ⟨Nat.le_refl _, Nat.le_refl _⟩
  · exact Nat.le_refl _

/-- A lexeme, and what was reported in front of it. -/
theorem outcomeOf_rises {c : Cursor} {l : Lexeme} {a : Nat} {es : List Event}
    (hl : Lexeme.read c.rest = some l) (hes : Text.Rises a c.position (Event.positions es)) :
    ∃ b, Text.Rises a b (Event.positions (c.outcomeOf es l).events) ∧
      b ≤ (c.outcomeOf es l).cursor.position ∧
      ∀ f, (c.outcomeOf es l).result = .error f → f.position = b := by
  refine ⟨c.position + l.reach, ?_, ?_, fun f hf => ?_⟩
  · rw [outcomeOf, Event.positions_append, Lexeme.positions_warnings]
    exact hes.append ((Lexeme.read_tolerates hl).rises.shift c.position)
  · have hreach := Lexeme.reach_le hl
    simp only [outcomeOf, advance]
    omega
  · rcases hr : l.result with f' | t
    · simp only [outcomeOf, hr] at hf
      obtain rfl := Except.error.inj hf
      simp [Fault.shift, Lexeme.reach, hr]
    · simp [outcomeOf, hr] at hf

/-- What is reported about a token lies between the places of the cursor in front of it
and behind it. A fault does too, behind all else. -/
theorem next_rises (c : Cursor) :
    ∃ b, Text.Rises c.position b (Event.positions c.next.events) ∧
      b ≤ c.next.cursor.position ∧ ∀ f, c.next.result = .error f → f.position = b := by
  have hskip : c.position ≤ c.skipComments.position := Nat.le_add_right _ _
  have hnote := c.skipComments.noteOpenComment_rises.from_le hskip
  unfold next
  split
  · exact ⟨c.position, Nat.le_refl _, Nat.le_refl _, by simp⟩
  · dsimp only
    split
    · exact ⟨c.skipComments.position, hnote, by simp, by simp⟩
    · rename_i l hl
      exact outcomeOf_rises hl (by simpa using hnote)

theorem pull_rises (layer : Layer) (c : Cursor) :
    Text.Rises c.position (c.pull layer).cursor.position
      (Event.positions (c.pull layer).events) := by
  fun_induction pull layer c with
  | case1 c | case3 c =>
    obtain ⟨b, hrise, hle, -⟩ := c.next_rises
    exact hrise.to_le hle
  | case2 c f hf hr ih =>
    obtain ⟨b, hrise, hle, hb⟩ := c.next_rises
    have hfault : Text.Rises b c.next.cursor.position [f.position] :=
      ⟨Nat.le_of_eq (hb f hf).symm, (hb f hf) ▸ hle⟩
    simp only [Outcome.after, Event.positions_append]
    exact (hrise.append hfault).append ih

/-- **What is reported about tokens is in the order of the text.** -/
theorem tokens_rises (c : Cursor) :
    Text.Rises c.position c.tokens.cursor.position (Event.positions c.tokens.events) := by
  fun_induction tokens c with
  | case1 c | case2 c => exact c.pull_rises .tokens
  | case3 c t ht ih =>
    have htaken : Event.positions [Event.taken t] = [] := rfl
    simp only [Outcome.after, Outcome.map, Event.positions_append, htaken, List.append_nil]
    exact (c.pull_rises .tokens).append ih

end Cursor
end CssReader
