/-
# A cursor has no memory

What a cursor gives depends on what it has not read, and on nothing else: not on
what was in front of that, and not on what it remembers of it. Two cursors with
the same text left, one of them `n` bytes further on, give the same tokens and
trees and the same faults, `n` bytes further on, and go on doing so. In
particular a cursor, wherever it has come to, answers as a new one in front of
the rest of its text would.

The remembered comment is the only memory that could show. It does not, because
what is left behind an open comment holds no comment at all, which is what
`Cursor.Behind.next_cases` rests on.

The cursors that a text can be asked with are those that are reached by asking
for tokens and by handing back any tokens at all (`Cursor.Reachable`).

Key definitions: `Cursor.Shifted`, `Outcome.Moved`, `Cursor.Reachable`, `Scan`.
Key theorems: `Cursor.Shifted.next`, `Cursor.Shifted.tokens`, `Cursor.Shifted.entry`,
`Cursor.Reachable.reads_anew`.
-/
import Mathlib.Data.List.Forall2
import CssReader.Proofs.Calls

namespace CssReader

/-! ### Outcomes further on -/

theorem Fault.shift_shift (n m : Nat) (f : Fault) : (f.shift m).shift n = f.shift (n + m) := by
  simp [shift, Nat.add_assoc]

@[simp] theorem Fault.isRecoverable_shift (n : Nat) (f : Fault) :
    (f.shift n).isRecoverable = f.isRecoverable := rfl

/-- A lexeme gives the same further on, if it is a fault with its position. -/
theorem Lexeme.resultAt_add (n m : Nat) (l : Lexeme) :
    l.resultAt (n + m) = (l.resultAt m).mapError (Fault.shift n) := by
  unfold resultAt
  split
  · rfl
  · rw [Except.mapError, Fault.shift_shift]

namespace Outcome

variable {α β : Type} {n : Nat} {o o₀ : Outcome α}

/-- The outcome `o` is `o₀`, `n` bytes further on. -/
structure Moved (n : Nat) (o o₀ : Outcome α) : Prop where
  result : o.result = o₀.result.mapError (Fault.shift n)
  position : o.cursor.position = n + o₀.cursor.position
  tokenStart : o.cursor.tokenStart = n + o₀.cursor.tokenStart

theorem Moved.map (h : Moved n o o₀) (f : α → β) : Moved n (o.map f) (o₀.map f) := by
  refine ⟨?_, h.position, h.tokenStart⟩
  rw [Outcome.map, Outcome.map, h.result]
  cases o₀.result <;> rfl

theorem Moved.ok {a : α} (h : Moved n o o₀) (ha : o.result = .ok a) : o₀.result = .ok a := by
  have hr := h.result
  rw [ha] at hr
  rcases h₀ : o₀.result with f | b
  · rw [h₀] at hr
    simp [Except.mapError] at hr
  · rw [h₀] at hr
    exact hr.symm

theorem Moved.error {f : Fault} (h : Moved n o o₀) (hf : o.result = .error f) :
    ∃ f₀, o₀.result = .error f₀ ∧ f = f₀.shift n := by
  have hr := h.result
  rw [hf] at hr
  rcases h₀ : o₀.result with f₀ | b
  · rw [h₀] at hr
    exact ⟨f₀, rfl, Except.error.inj hr⟩
  · rw [h₀] at hr
    simp [Except.mapError] at hr

end Outcome

/-! ### Cursors further on -/

namespace Cursor

/-- The two cursors have the same left to read, and `c` is `n` bytes further on.
Neither holds a token. -/
structure Shifted (n : Nat) (c c₀ : Cursor) : Prop where
  rest : c.rest = c₀.rest
  position : c.position = n + c₀.position
  pending : c.pending = none
  pending₀ : c₀.pending = none
  behind : ∃ before last, c.Behind before last
  behind₀ : ∃ before last, c₀.Behind before last

namespace Shifted

variable {n : Nat} {c c₀ : Cursor}

/-- Two cursors that read the same last, one of them `n` bytes further on. -/
theorem of_behind {before before₀ last : Text} (hb : c.Behind before last)
    (hb₀ : c₀.Behind before₀ last) (hsize : Text.size before = n + Text.size before₀)
    (hrest : c.rest = c₀.rest) (hp : c.pending = none) (hp₀ : c₀.pending = none) :
    Shifted n c c₀ ∧ c.tokenStart = n + c₀.tokenStart := by
  have hpos : c.position = n + c₀.position := by
    rw [hb.position, hb₀.position, Text.size_append, hsize, Text.size_append, Nat.add_assoc]
  refine ⟨⟨hrest, hpos, hp, hp₀, ⟨_, _, hb⟩, ⟨_, _, hb₀⟩⟩, ?_⟩
  rw [hb.tokenStart, hb₀.tokenStart, hsize]

/-- **A step is the same further on**, and so is everything behind it. -/
theorem next (h : Shifted n c c₀) :
    Outcome.Moved n c.next c₀.next ∧ Shifted n c.next.cursor c₀.next.cursor := by
  obtain ⟨before, last, hb⟩ := h.behind
  obtain ⟨before₀, last₀, hb₀⟩ := h.behind₀
  have hpos : Text.size (before ++ last) = n + Text.size (before₀ ++ last₀) := by
    rw [← hb.position, ← hb₀.position, h.position]
  -- what is read next is put behind both
  have hadd : ∀ t : Text, Text.size (before ++ last ++ t) =
      n + Text.size (before₀ ++ last₀ ++ t) := fun t => by
    rw [Text.size_append, hpos, Text.size_append _ t, Nat.add_assoc]
  rcases hb.next_cases h.pending with ⟨hrun, hres, hrest, -, hb'⟩ | ⟨l, hl, hres, hrest, -, hb'⟩
  · rcases hb₀.next_cases h.pending₀ with ⟨-, hres₀, hrest₀, -, hb₀'⟩ | ⟨l, hl, -⟩
    · rw [← h.rest] at hb₀'
      obtain ⟨hs, ht⟩ := of_behind hb' hb₀' (hadd c.rest) (hrest.trans hrest₀.symm)
        (next_pending c) (next_pending c₀)
      refine ⟨⟨?_, hs.position, ht⟩, hs⟩
      rw [hres, hres₀]
      rfl
    · rw [← h.rest, hrun, Lexeme.read_eq_none.2 rfl] at hl
      simp at hl
  · rcases hb₀.next_cases h.pending₀ with ⟨hrun, -⟩ | ⟨l₀, hl₀, hres₀, hrest₀, -, hb₀'⟩
    · rw [h.rest, hrun, Lexeme.read_eq_none.2 rfl] at hl
      simp at hl
    · rw [← h.rest] at hl₀ hres₀ hb₀'
      obtain rfl : l = l₀ := Option.some.inj (hl.symm.trans hl₀)
      obtain ⟨hs, ht⟩ := of_behind hb' hb₀' (hadd (Comment.run c.rest).1)
        (hrest.trans hrest₀.symm) (next_pending c) (next_pending c₀)
      refine ⟨⟨?_, hs.position, ht⟩, hs⟩
      rw [hres, hres₀, hadd, Lexeme.resultAt_add]

theorem pull (h : Shifted n c c₀) (layer : Layer) :
    Outcome.Moved n (c.pull layer) (c₀.pull layer) ∧
      Shifted n (c.pull layer).cursor (c₀.pull layer).cursor := by
  fun_induction Cursor.pull layer c generalizing c₀ with
  | case1 c a ha =>
    rw [pull_of_ok layer (h.next.1.ok ha)]
    exact h.next
  | case2 c f hf hr ih =>
    obtain ⟨f₀, hf₀, rfl⟩ := h.next.1.error hf
    obtain ⟨hm, hs⟩ := ih h.next.2
    rw [Fault.isRecoverable_shift] at hr
    rw [pull_of_skipped layer hf₀ hr]
    exact ⟨⟨hm.result, hm.position, hm.tokenStart⟩, hs⟩
  | case3 c f hf hr =>
    obtain ⟨f₀, hf₀, rfl⟩ := h.next.1.error hf
    rw [Fault.isRecoverable_shift] at hr
    rw [pull_of_fault layer hf₀ hr]
    exact h.next

/-- **The tokens are the same further on**, and so is the fault that ends them. -/
theorem tokens (h : Shifted n c c₀) :
    Outcome.Moved n c.tokens c₀.tokens ∧ Shifted n c.tokens.cursor c₀.tokens.cursor := by
  induction hw : c.weight using Nat.strongRecOn generalizing c c₀ with
  | ind w ih =>
    subst hw
    obtain ⟨hm, hs⟩ := h.pull .tokens
    rw [tokens_eq c, tokens_eq c₀]
    rcases hp : (c.pull .tokens).result with f | _ | t
    · obtain ⟨f₀, hf₀, rfl⟩ := hm.error hp
      simp only [Outcome.bind, hp, hf₀]
      exact ⟨⟨rfl, hm.position, hm.tokenStart⟩, hs⟩
    · simp only [Outcome.bind, hp, hm.ok hp]
      exact ⟨⟨rfl, hm.position, hm.tokenStart⟩, hs⟩
    · have hlt := pull_weight_lt .tokens c (by simp [hp])
      obtain ⟨hm', hs'⟩ := ih _ hlt hs rfl
      simp only [Outcome.bind, hp, hm.ok hp]
      have hmap := hm'.map (t :: ·)
      exact ⟨⟨hmap.result, hmap.position, hmap.tokenStart⟩, hs'⟩

/-- Component values, with their source texts, do not tell where they were read. -/
theorem componentValues_ok (h : Shifted n c c₀) {vs : List ComponentValue}
    (hvs : c.componentValues.result = .ok vs) : c₀.componentValues.result = .ok vs := by
  obtain ⟨before, last, hb⟩ := h.behind
  obtain ⟨before₀, last₀, hb₀⟩ := h.behind₀
  have hforest : Forest (fun _ => false) c vs none c.componentValues.cursor :=
    componentValues_gives_iff.1 (Outcome.gives_of_result hvs)
  have hparses := (hforest.parses ⟨rfl, h.pending, before, hb⟩).1
  obtain ⟨c', hforest₀, -⟩ := hparses.forest ⟨rfl, h.pending₀, before₀, hb₀⟩ h.rest.symm
  exact (componentValues_gives_iff.2 hforest₀).result

/-- **Component values are the same further on**, with their source texts. -/
theorem componentValues (h : Shifted n c c₀) :
    c.componentValues.result = c₀.componentValues.result.mapError (Fault.shift n) := by
  rcases hr : c.componentValues.result with f | vs
  · have hf := (c.componentValues_readsAll.error f).1 hr
    obtain ⟨f₀, hf₀, rfl⟩ := h.tokens.1.error hf
    rw [(c₀.componentValues_readsAll.error f₀).2 hf₀]
    rfl
  · rw [h.componentValues_ok hr]
    rfl

/-- **Every entry reads the same tree further on.** -/
theorem entry (h : Shifted n c c₀) (e : Entry) :
    Outcome.Moved n (e.read c) (e.read c₀) ∧
      Shifted n (e.read c).cursor (e.read c₀).cursor := by
  obtain ⟨hm, hs⟩ := h.tokens
  rw [← (e.read_readsAll c).cursor, ← (e.read_readsAll c₀).cursor] at hs
  refine ⟨⟨?_, hs.position, ?_⟩, hs⟩
  · rw [e.read_result, e.read_result, h.componentValues]
    cases c₀.componentValues.result <;> rfl
  · rw [(e.read_readsAll c).cursor, (e.read_readsAll c₀).cursor]
    exact hm.tokenStart

/-- Calls that are the same further on, one after the other. -/
theorem script {κ α : Type} {run : κ → Cursor → Outcome α}
    (hrun : ∀ {c c₀ : Cursor} (k : κ), Shifted n c c₀ →
      Outcome.Moved n (run k c) (run k c₀) ∧ Shifted n (run k c).cursor (run k c₀).cursor)
    (ks : List κ) (h : Shifted n c c₀) :
    List.Forall₂ (Outcome.Moved n) (Cursor.script run ks c) (Cursor.script run ks c₀) := by
  induction ks generalizing c c₀ with
  | nil => exact .nil
  | cons k ks ih => exact .cons (hrun k h).1 (ih (hrun k h).2)

/-- A cursor that holds no token, and a new one in front of what it has left. -/
theorem ofText {s : Text} (hk : c.Kept s) (hp : c.pending = none) :
    Shifted c.position c (ofText c.rest) :=
  ⟨rfl, rfl, hp, rfl, hk.behind, ⟨_, _, ofText_behind c.rest⟩⟩

end Shifted

/-! ### Cursors that a text can be asked with -/

/-- The cursor was put in front of the text `s`, and then asked for tokens and
handed tokens, in any order. -/
inductive Reachable (s : Text) : Cursor → Prop
  | ofText : Reachable s (ofText s)
  | next {c : Cursor} : Reachable s c → Reachable s c.next.cursor
  | tokens {c : Cursor} : Reachable s c → Reachable s c.tokens.cursor
  | pushBack {c : Cursor} (t : Token) : Reachable s c → Reachable s (c.pushBack t).2

theorem Reachable.kept {s : Text} {c : Cursor} (h : Reachable s c) : c.Kept s := by
  induction h with
  | ofText => exact .ofText s
  | next _ ih => exact ih.next
  | tokens _ ih => exact ih.tokens
  | pushBack t _ ih => exact ih.withPending (some t)

end Cursor

/-- The ways to ask for tokens: for the next one, or for all. -/
inductive Scan
  | next
  | tokens
deriving DecidableEq

/-- Asks for tokens. -/
def Scan.read (k : Scan) (c : Cursor) : Outcome (Option Token ⊕ List Token) :=
  match k with
  | .next => c.next.map .inl
  | .tokens => c.tokens.map .inr

theorem Cursor.Shifted.scan {n : Nat} {c c₀ : Cursor} (k : Scan) (h : Shifted n c c₀) :
    Outcome.Moved n (k.read c) (k.read c₀) ∧ Shifted n (k.read c).cursor (k.read c₀).cursor := by
  cases k with
  | next => exact ⟨h.next.1.map _, h.next.2⟩
  | tokens => exact ⟨h.tokens.1.map _, h.tokens.2⟩

namespace Cursor.Reachable

/-- **A cursor that holds no token answers as a new one would in front of the rest
of its text**, with all positions moved by its own, whatever was asked before and
however often it is asked: for tokens, or for trees. -/
theorem reads_anew {s : Text} {c : Cursor} (h : Reachable s c) (hp : c.pending = none) :
    ∃ rest, Text.dropBytes? c.position s = some rest ∧
      (∀ ks : List Scan, List.Forall₂ (Outcome.Moved c.position)
        (script Scan.read ks c) (script Scan.read ks (Cursor.ofText rest))) ∧
      ∀ es : List Entry, List.Forall₂ (Outcome.Moved c.position)
        (script Entry.read es c) (script Entry.read es (Cursor.ofText rest)) := by
  have hs : Shifted c.position c (Cursor.ofText c.rest) := .ofText h.kept hp
  refine ⟨c.rest, h.kept.dropBytes?_position, fun ks => ?_, fun es => ?_⟩
  · exact hs.script (fun k h => h.scan k) ks
  · exact hs.script (fun e h => h.entry e) es

/-- A cursor that remembers an open comment, in front of a range of characters. -/
theorem reads_anew_open_comment :
    Reachable ['/', '*', 'u', '+', '1'] (Cursor.ofText ['/', '*', 'u', '+', '1']).next.cursor ∧
      (Cursor.ofText ['/', '*', 'u', '+', '1']).next.cursor.pending = none ∧
      (Cursor.ofText ['/', '*', 'u', '+', '1']).next.cursor.openComment = some 0 ∧
      ∃ rest, Text.dropBytes? (Cursor.ofText ['/', '*', 'u', '+', '1']).next.cursor.position
          ['/', '*', 'u', '+', '1'] = some rest ∧
        (∀ ks : List Scan, List.Forall₂
          (Outcome.Moved (Cursor.ofText ['/', '*', 'u', '+', '1']).next.cursor.position)
          (script Scan.read ks (Cursor.ofText ['/', '*', 'u', '+', '1']).next.cursor)
          (script Scan.read ks (Cursor.ofText rest))) ∧
        ∀ es : List Entry, List.Forall₂
          (Outcome.Moved (Cursor.ofText ['/', '*', 'u', '+', '1']).next.cursor.position)
          (script Entry.read es (Cursor.ofText ['/', '*', 'u', '+', '1']).next.cursor)
          (script Entry.read es (Cursor.ofText rest)) := by
  have h : Reachable ['/', '*', 'u', '+', '1']
      (Cursor.ofText ['/', '*', 'u', '+', '1']).next.cursor := .next .ofText
  have hp : (Cursor.ofText ['/', '*', 'u', '+', '1']).next.cursor.pending = none := next_pending _
  exact ⟨h, hp, by with_unfolding_all rfl, h.reads_anew hp⟩

end Cursor.Reachable
end CssReader
