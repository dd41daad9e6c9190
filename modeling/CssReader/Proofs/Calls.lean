/-
# Calls on one cursor

A cursor can be asked again after it has answered: the next call goes on where
the last one stopped, whether that ended well or with a fault. `Cursor.script`
makes calls one after the other.

The three entries to a tree, and the reader of tokens, all read up to the end
of the text or to the first fault that cannot be skipped. Such a reader leaves
the cursor where `Cursor.tokens` leaves it, and faults when that does and with
the same fault (`Outcome.ReadsAll`). So what a call does to the cursor does not
depend on which of the entries is called.

Key definitions: `Tree`, `Entry.read`, `Cursor.script`, `Outcome.ReadsAll`, `Cursor.Kept`.
Key theorems: `Entry.read_result`, `Entry.read_readsAll`, `Cursor.Kept.tokens`.
-/
import CssReader.Proofs.RoundTrip

namespace CssReader

/-! ### Entries -/

/-- What an entry reads a text as. -/
inductive Tree
  | stylesheet (sheet : Stylesheet)
  | rules (rs : List Rule)
  | componentValues (vs : List ComponentValue)

/-- Whether nothing was read. -/
def Tree.isEmpty : Tree → Bool
  | .stylesheet sheet => sheet.rules.isEmpty
  | .rules rs => rs.isEmpty
  | .componentValues vs => vs.isEmpty

namespace Entry

/-- Reads all that is behind the cursor. -/
def read (e : Entry) (c : Cursor) : Outcome Tree :=
  match e with
  | .stylesheet => c.stylesheet.map .stylesheet
  | .rules => c.rules.map .rules
  | .componentValues => c.componentValues.map .componentValues

/-- The tree that component values are. -/
def tree (e : Entry) (vs : List ComponentValue) : Tree :=
  match e with
  | .stylesheet => .stylesheet ⟨Rule.ofValues true vs⟩
  | .rules => .rules (Rule.ofValues false vs)
  | .componentValues => .componentValues vs

/-- Every tree is that of the component values. -/
theorem read_result (e : Entry) (c : Cursor) :
    (e.read c).result = c.componentValues.result.map e.tree := by
  have htop := Cursor.ruleList_result true c
  have hbelow := Cursor.ruleList_result false c
  cases e with
  | stylesheet =>
    simp only [read, Cursor.stylesheet, Outcome.map, htop]
    cases c.componentValues.result <;> rfl
  | rules =>
    simp only [read, Cursor.rules, Outcome.map, hbelow]
    cases c.componentValues.result <;> rfl
  | componentValues => rfl

theorem tree_nil (e : Entry) : (e.tree []).isEmpty = true := by
  cases e <;> simp [tree, Tree.isEmpty, Rule.ofValues]

end Entry

namespace Cursor

/-! ### One call after the other -/

/-- Makes calls one after the other, each on the cursor that the last one left. -/
def script {κ α : Type} (run : κ → Cursor → Outcome α) : List κ → Cursor → List (Outcome α)
  | [], _ => []
  | k :: ks, c => run k c :: script run ks (run k c).cursor

/-! ### Where a cursor can be -/

/-- The cursor reads the text `s`, and knows where it is in it. It may hold a
token that was handed back. -/
structure Kept (s : Text) (c : Cursor) : Prop where
  source : c.source = s
  behind : ∃ before last, c.Behind before last

namespace Kept

variable {s : Text} {c : Cursor}

theorem ofText (s : Text) : Kept s (ofText s) := ⟨rfl, [], [], ofText_behind s⟩

/-- The token handed back does not tell where a cursor is. -/
theorem withPending (h : c.Kept s) (t? : Option Token) : Kept s { c with pending := t? } := by
  obtain ⟨hs, before, last, hb⟩ := h
  exact ⟨hs, before, last, hb.source, hb.tokenStart, hb.position, hb.openComment⟩

theorem next (h : c.Kept s) : Kept s c.next.cursor := by
  rcases hp : c.pending with _ | t
  · obtain ⟨hs, before, last, hb⟩ := h
    rcases hb.next_cases hp with ⟨-, -, -, hsrc, hb'⟩ | ⟨l, -, -, -, hsrc, hb'⟩
    · exact ⟨hsrc.trans hs, _, _, hb'⟩
    · exact ⟨hsrc.trans hs, _, _, hb'⟩
  · rw [next_of_held hp]
    exact h.withPending none

theorem pull (h : c.Kept s) (layer : Layer) : Kept s (c.pull layer).cursor := by
  fun_induction Cursor.pull layer c with
  | case1 | case3 => exact h.next
  | case2 c f hf hr ih => exact ih h.next

theorem tokens (h : c.Kept s) : Kept s c.tokens.cursor := by
  fun_induction Cursor.tokens c with
  | case1 | case2 => exact h.pull .tokens
  | case3 c t ht ih => exact ih (h.pull .tokens)

/-- What the cursor has not read is what its text has from its position on. -/
theorem dropBytes?_position (h : c.Kept s) : Text.dropBytes? c.position s = some c.rest := by
  obtain ⟨hs, before, last, hb⟩ := h
  rw [← hs, hb.source, hb.position]
  exact Text.dropBytes?_size_append _ _

/-- At the end of the text the position is its size. -/
theorem position_of_atEnd (h : c.Kept s) (hend : c.AtEnd) : c.position = Text.size s := by
  obtain ⟨hs, before, last, hb⟩ := h
  rw [← hs, hb.source, hb.position, hend.rest, List.append_nil]

end Kept

/-- Tokens that were read without a fault go up to the end of the text. -/
theorem tokens_atEnd {c : Cursor} {ts : List Token} (h : c.tokens.result = .ok ts) :
    c.tokens.cursor.AtEnd := by
  fun_induction tokens c generalizing ts with
  | case1 c f hf => simp at h
  | case2 c hp =>
    have hend : (c.pull .tokens).cursor.AtEnd := pull_atEnd (Outcome.gives_of_result hp)
    exact hend
  | case3 c t ht ih =>
    rcases hr : (c.pull .tokens).cursor.tokens.result with f | ts'
    · simp [Outcome.map, hr, Except.map] at h
    · exact ih hr

/-- Component values that were read without a fault go up to the end of the text. -/
theorem componentValues_atEnd {c : Cursor} {vs : List ComponentValue}
    (h : c.componentValues.result = .ok vs) : c.componentValues.cursor.AtEnd :=
  (componentValues_gives_iff.1 (Outcome.gives_of_result h)).atEnd rfl

end Cursor

/-! ### Readers of all that is left -/

namespace Outcome

variable {α β : Type} {o : Outcome α} {c : Cursor}

/-- The outcome is that of a reader that has come, from the cursor `c` on, to the
end of the text or to the first fault that cannot be skipped. -/
structure ReadsAll (o : Outcome α) (c : Cursor) : Prop where
  cursor : o.cursor = c.tokens.cursor
  error : ∀ f, o.result = .error f ↔ c.tokens.result = .error f

theorem Follows.readsAll (h : o.Follows c) (hend : ∀ a, o.result = .ok a → o.cursor.AtEnd) :
    o.ReadsAll c := by
  rcases hr : o.result with f | a
  · rw [Follows, hr] at h
    refine ⟨h.2.symm, fun f' => ?_⟩
    rw [hr, h.1, Except.error.injEq, Except.error.injEq]
  · have hat := hend a hr
    rw [Follows, hr] at h
    obtain ⟨ts, hts, hc⟩ := h
    rw [hat.tokens] at hts hc
    refine ⟨hc.symm, fun f' => ?_⟩
    rw [hr, hts]
    simp [Except.map]

theorem ReadsAll.map (h : o.ReadsAll c) (f : α → β) : (o.map f).ReadsAll c := by
  refine ⟨h.cursor, fun f' => ?_⟩
  rw [← h.error, Outcome.map]
  cases o.result <;> simp [Except.map]

end Outcome

theorem Cursor.ruleList_readsAll (top : Bool) (c : Cursor) : (c.ruleList top).ReadsAll c :=
  (ruleList_follows top c).readsAll fun _ h => ruleList_atEnd (Outcome.gives_of_result h)

theorem Cursor.componentValues_readsAll (c : Cursor) : c.componentValues.ReadsAll c :=
  (componentValues_follows c).readsAll fun _ h => componentValues_atEnd h

/-- **Whichever the entry, all is read that the tokens are read from.** -/
theorem Entry.read_readsAll (e : Entry) (c : Cursor) : (e.read c).ReadsAll c := by
  cases e with
  | stylesheet => exact ((c.ruleList_readsAll true).map _).map _
  | rules => exact (c.ruleList_readsAll false).map _
  | componentValues => exact c.componentValues_readsAll.map _

end CssReader
