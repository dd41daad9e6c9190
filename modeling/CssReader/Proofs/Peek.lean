/-
# Looking ahead

A cursor is looked ahead with by asking for a token, handing it back, and asking again.
Whatever is done in this way, also if several tokens are handed back or other ones than
were given, the text is read as if nothing had been handed back: what a step reads off the
text is what the steps of a cursor that is only asked would read (`Cursor.trail_scanned`).
A token that is held is given before the text is read on, and the place of the cursor
stays that of the token read last.

Nothing is lost or doubled by this. In their order, the tokens that are handed back are
those that come out again, when they are given or when another one displaces them, and
behind these the one that is still held (`Cursor.trail_conserves`). The step lemmas say so
of one look, and the run lemmas follow by induction on the looks.

To hand back the token that was just given also does not matter to the readers of trees:
all they begin with is that token, and then they go on where the cursor is.

Key definitions: `Look`, `Cursor.trail`, `Look.scanned`, `Look.returned`, `Outcome.Alike`.
Key theorems: `Look.scanned_step`, `Look.conserves_step`, `Cursor.trail_scanned`,
`Cursor.trail_conserves`, `Entry.read_pushBack`, `Cursor.peeking_unseen`.
-/
import Mathlib.Data.List.Forall2
import Mathlib.Data.List.Induction
import Mathlib.Data.List.Iterate
import CssReader.Proofs.Calls

namespace CssReader

/-! ### Looks -/

/-- What is done with a cursor while it is looked ahead. -/
inductive Look
  | next
  | pushBack (t : Token)
  | slice (a b : Nat)

namespace Look

/-- The cursor behind a look. -/
def after (c : Cursor) : Look → Cursor
  | .next => c.next.cursor
  | .pushBack t => (c.pushBack t).2
  | .slice _ _ => c

/-- The token that is handed back. -/
def given : Look → List Token
  | .pushBack t => [t]
  | .next | .slice _ _ => []

/-- What a look with a cursor reads off the text: what it gives, unless a token is held. -/
def scanned : Cursor × Look → Option (Outcome (Option Token))
  | (c, .next) => if c.pending.isNone then some c.next else none
  | (_, .pushBack _) | (_, .slice _ _) => none

/-- The token that was handed back and comes out again: one that is given while a token is
held, or one that is displaced. -/
def returned : Cursor × Look → List Token
  | (c, .next) =>
    if c.pending.isNone then []
    else match c.next.result with
      | .ok t? => t?.toList
      | .error _ => []
  | (c, .pushBack t) => (c.pushBack t).1.toList
  | (_, .slice _ _) => []

end Look

namespace Cursor

variable {c : Cursor}

/-- The cursor behind some looks. -/
def along (c : Cursor) (ks : List Look) : Cursor := ks.foldl Look.after c

/-- The looks, each with the cursor that it is made with. -/
def trail : Cursor → List Look → List (Cursor × Look)
  | _, [] => []
  | c, k :: ks => (c, k) :: trail (k.after c) ks

/-- The cursor without the token that it holds. -/
def emptied (c : Cursor) : Cursor := { c with pending := none }

theorem emptied_of_pending (h : c.pending = none) : c.emptied = c := by
  rw [emptied, ← h]

end Cursor

/-! ### What is read -/

namespace Look

/-- **A look reads the next token of the text, or leaves the text alone.** -/
theorem scanned_step (k : Look) (c : Cursor) :
    (scanned (c, k) = some c.emptied.next ∧ (k.after c).emptied = c.emptied.next.cursor) ∨
      (scanned (c, k) = none ∧ (k.after c).emptied = c.emptied) := by
  cases k with
  | next =>
    rcases hp : c.pending with _ | t
    · left
      have hself : c.emptied = c := Cursor.emptied_of_pending hp
      rw [hself]
      refine ⟨by simp [scanned, hp], ?_⟩
      exact Cursor.emptied_of_pending c.next_pending
    · right
      refine ⟨by simp [scanned, hp], ?_⟩
      rw [after, Cursor.next_of_held hp]
      rfl
  | pushBack t => exact .inr ⟨rfl, rfl⟩
  | slice a b => exact .inr ⟨rfl, rfl⟩

/-- **A look loses no token and makes none**: what was held and what is handed back comes
out, or is held. -/
theorem conserves_step (k : Look) (c : Cursor) :
    c.pending.toList ++ k.given = returned (c, k) ++ (k.after c).pending.toList := by
  cases k with
  | next =>
    have hnone : (Look.next.after c).pending = none := c.next_pending
    rw [hnone]
    rcases hp : c.pending with _ | t
    · simp [given, returned, hp]
    · simp [given, returned, hp, Cursor.next_of_held hp]
  | pushBack t => rfl
  | slice a b => exact List.append_nil _

end Look

namespace Cursor

variable {c : Cursor}

/-- **What is read off the text is what the steps of the cursor read** when it is only asked
and holds nothing. -/
theorem trail_scanned (c : Cursor) (ks : List Look) :
    ∃ n, (c.trail ks).filterMap Look.scanned =
      (List.iterate (fun d => d.next.cursor) c.emptied n).map next := by
  induction ks generalizing c with
  | nil => exact ⟨0, rfl⟩
  | cons k ks ih =>
    obtain ⟨n, hn⟩ := ih (k.after c)
    rcases k.scanned_step c with ⟨hscan, hafter⟩ | ⟨hscan, hafter⟩
    · refine ⟨n + 1, ?_⟩
      rw [trail, List.filterMap_cons_some hscan, hn, hafter]
      rfl
    · refine ⟨n, ?_⟩
      rw [trail, List.filterMap_cons_none hscan, hn, hafter]

/-- **The tokens that are handed back are those that come out again**, and the one that is
held in the end. -/
theorem trail_conserves (c : Cursor) (ks : List Look) :
    c.pending.toList ++ ks.flatMap Look.given =
      (c.trail ks).flatMap Look.returned ++ (c.along ks).pending.toList := by
  induction ks generalizing c with
  | nil => exact List.append_nil _
  | cons k ks ih =>
    calc c.pending.toList ++ (k :: ks).flatMap Look.given
        = (c.pending.toList ++ k.given) ++ ks.flatMap Look.given := by
          rw [List.flatMap_cons, List.append_assoc]
      _ = Look.returned (c, k) ++ ((k.after c).pending.toList ++ ks.flatMap Look.given) := by
          rw [k.conserves_step, List.append_assoc]
      _ = Look.returned (c, k) ++ (((k.after c).trail ks).flatMap Look.returned ++
            ((k.after c).along ks).pending.toList) := by rw [ih]
      _ = _ := by
          rw [trail, List.flatMap_cons, List.append_assoc]
          rfl

/-- A token that displaces another one is given in its place. -/
example : ((ofText ['a']).trail [.pushBack .comma, .pushBack .colon, .next, .next]).flatMap
    Look.returned = [.comma, .colon] := by
  rfl

/-- The token that is held was handed back last, and the text was only looked up since. -/
theorem pending_along {t : Token} {ks : List Look} (h : c.pending = none)
    (ht : (c.along ks).pending = some t) :
    ∃ ks' mid, ks = ks' ++ .pushBack t :: mid ∧ ∀ k ∈ mid, ∃ a b, k = .slice a b := by
  induction ks using List.reverseRecOn with
  | nil =>
    rw [along, List.foldl_nil, h] at ht
    simp at ht
  | append_singleton ks k ih =>
    rw [along, List.foldl_concat] at ht
    cases k with
    | next =>
      rw [Look.after, next_pending] at ht
      simp at ht
    | pushBack u =>
      obtain rfl : u = t := Option.some.inj ht
      exact ⟨ks, [], rfl, by simp⟩
    | slice a b =>
      obtain ⟨ks', mid, rfl, hmid⟩ := ih ht
      refine ⟨ks', mid ++ [.slice a b], by simp, fun k hk => ?_⟩
      rcases List.mem_append.1 hk with hk | hk
      · exact hmid k hk
      · exact ⟨a, b, List.mem_singleton.1 hk⟩

/-- No look changes the text that is looked up. -/
theorem Kept.along {s : Text} (h : c.Kept s) (ks : List Look) : (c.along ks).Kept s := by
  induction ks generalizing c with
  | nil => exact h
  | cons k ks ih =>
    cases k with
    | next => exact ih h.next
    | pushBack t => exact ih (h.withPending (some t))
    | slice a b => exact ih h

end Cursor

/-! ### Readers behind a look -/

namespace Outcome

variable {α β : Type} {o o' : Outcome α}

/-- The outcomes differ in their events at most. -/
structure Alike (o o' : Outcome α) : Prop where
  result : o.result = o'.result
  cursor : o.cursor = o'.cursor

theorem Alike.bind (h : o.Alike o') (f : α → Cursor → Outcome β) :
    (o.bind f).Alike (o'.bind f) := by
  rcases o with ⟨r, c, es⟩
  rcases o' with ⟨r', c', es'⟩
  obtain ⟨rfl, rfl⟩ : r = r' ∧ c = c' := ⟨h.result, h.cursor⟩
  cases r <;> exact ⟨rfl, rfl⟩

theorem Alike.map (h : o.Alike o') (f : α → β) : (o.map f).Alike (o'.map f) :=
  ⟨congrArg (Except.map f) h.result, h.cursor⟩

end Outcome

namespace Cursor

variable {c c' : Cursor}

/-- Two cursors that give the same token give the same values. -/
theorem values_alike (h : (c.pull .trees).Alike (c'.pull .trees)) (stops : Token → Bool) :
    (c.values stops).Alike (c'.values stops) := by
  rw [values_unroll, values_unroll]
  exact h.bind _

theorem tokens_alike (h : (c.pull .tokens).Alike (c'.pull .tokens)) :
    c.tokens.Alike c'.tokens := by
  rw [tokens_eq, tokens_eq]
  exact h.bind _

/-- A token that was given and is handed back is given again, and the cursor is then where it
was. -/
theorem pull_alike {t : Token} (h : c.next.result = .ok (some t)) (layer : Layer) :
    ((c.next.cursor.pushBack t).2.pull layer).Alike (c.pull layer) := by
  rw [pull_of_ok layer h, pull_pushBack t layer c.next_pending]
  exact ⟨h.symm, rfl⟩

end Cursor

/-- **Whichever the entry, handing back the token just given changes nothing that is read.** -/
theorem Entry.read_pushBack {c : Cursor} {t : Token} (h : c.next.result = .ok (some t))
    (e : Entry) : (e.read (c.next.cursor.pushBack t).2).Alike (e.read c) := by
  constructor
  · have hvalues := ((Cursor.values_alike (Cursor.pull_alike h .trees) fun _ => false).map
      Prod.fst).result
    rw [e.read_result, e.read_result, Cursor.componentValues, Cursor.componentValues, hvalues]
  · rw [(e.read_readsAll _).cursor, (e.read_readsAll c).cursor]
    exact (Cursor.tokens_alike (Cursor.pull_alike h .tokens)).cursor

namespace Cursor

variable {c : Cursor}

theorem script_pushBack {t : Token} (h : c.next.result = .ok (some t)) (es : List Entry) :
    List.Forall₂ Outcome.Alike (script Entry.read es (c.next.cursor.pushBack t).2)
      (script Entry.read es c) := by
  cases es with
  | nil => exact .nil
  | cons e es =>
    have hread := e.read_pushBack h
    rw [script, script, hread.cursor]
    exact .cons hread (List.forall₂_same.2 fun o _ => ⟨rfl, rfl⟩)

/-- **Looking ahead is not seen.** What is read off the text are the first steps of a cursor
that is only asked, with their places, and what is looked up is in the text. A token that is
held is the one handed back last; it is given without moving the cursor, or displaced. The
tokens handed back come out once each, in their order, or are held. And a token just given
may be handed back in front of any calls. -/
theorem peeking_unseen (s : Text) (ks : List Look) :
    let start := ofText s
    let c := start.along ks
    (∃ n, (start.trail ks).filterMap Look.scanned =
      (List.iterate (fun d => d.next.cursor) start n).map next) ∧
    (∀ a b, c.slice a b = s.slice a b) ∧
    (∀ t, c.pending = some t →
      c.next.result = .ok (some t) ∧ c.next.cursor.position = c.position ∧
        c.next.cursor.tokenStart = c.tokenStart ∧ (∀ u, (c.pushBack u).1 = some t) ∧
        ∃ ks' mid, ks = ks' ++ .pushBack t :: mid ∧ ∀ k ∈ mid, ∃ a b, k = .slice a b) ∧
    ks.flatMap Look.given =
      (start.trail ks).flatMap Look.returned ++ c.pending.toList ∧
    ∀ (d : Cursor) (t : Token), d.next.result = .ok (some t) →
      ∀ es : List Entry, List.Forall₂ Outcome.Alike
        (script Entry.read es (d.next.cursor.pushBack t).2) (script Entry.read es d) := by
  intro start c
  refine ⟨start.trail_scanned ks, fun a b => ?_, fun t ht => ?_, start.trail_conserves ks,
    fun d t h es => script_pushBack h es⟩
  · have hkept : c.Kept s := (Kept.ofText s).along ks
    rw [slice, hkept.source]
  · rw [next_of_held ht]
    exact ⟨rfl, rfl, rfl, fun u => ht, pending_along rfl ht⟩

end Cursor
end CssReader
