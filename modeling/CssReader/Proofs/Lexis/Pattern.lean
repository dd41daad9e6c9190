/-
# Patterns, tried in order

A pattern can match a text in several ways. `Pattern.splits` lists all of them in the order
in which they are tried: those of the first of two alternatives before those of the second,
and among repetitions those with a further round before those without one, or behind them.
What is found is the first of them, which need not be the longest.

All that is in the list is a beginning of the text in the language of the pattern, and all
such beginnings are in the list (`Pattern.mem_splits`). So something is found wherever
there is something to be found, though perhaps not by the first attempts.

Key definitions: `Pattern`, `Pattern.splits`, `Pattern.first?`, `Pattern.language`.
Key theorems: `Pattern.mem_splits`, `Pattern.first?_seq`, `Pattern.first?_many`.
-/
import CssReader.Proofs.Lexis.Grammar

open scoped Computability

namespace CssReader

open Grammar

/-- A pattern for beginnings of texts. -/
inductive Pattern
  | empty
  /-- One character of a class. -/
  | one (p : Char → Bool)
  | seq (a b : Pattern)
  /-- The first, or else the second. -/
  | alt (a b : Pattern)
  /-- As often as possible. -/
  | many (a : Pattern)
  /-- As seldom as possible. -/
  | few (a : Pattern)

namespace Pattern

variable {a b : Pattern} {s u v w r t : Text} {n : Nat}

/-! ### All ways to match -/

/-- All ways to match one thing and another one behind it. -/
def andThen (f g : Text → List (Text × Text)) (s : Text) : List (Text × Text) :=
  (f s).flatMap fun x => (g x.2).map fun y => (x.1 ++ y.1, y.2)

/-- Up to `n` rounds, as many as possible. -/
def manyRounds (f : Text → List (Text × Text)) : Nat → Text → List (Text × Text)
  | 0, s => [([], s)]
  | n + 1, s => andThen f (manyRounds f n) s ++ [([], s)]

/-- Up to `n` rounds, as few as possible. -/
def fewRounds (f : Text → List (Text × Text)) : Nat → Text → List (Text × Text)
  | 0, s => [([], s)]
  | n + 1, s => ([], s) :: andThen f (fewRounds f n) s

/-- All ways to split a text into a beginning that matches and the rest, in the order in
which they are tried. There are no more rounds of a repetition than characters. -/
def splits : Pattern → Text → List (Text × Text)
  | empty, s => [([], s)]
  | one _, [] => []
  | one p, c :: s => if p c then [([c], s)] else []
  | seq a b, s => andThen a.splits b.splits s
  | alt a b, s => a.splits s ++ b.splits s
  | many a, s => manyRounds a.splits s.length s
  | few a, s => fewRounds a.splits s.length s

/-- The match that is found, and the rest of the text. -/
def first? (a : Pattern) (s : Text) : Option (Text × Text) := (a.splits s).head?

/-- The texts that match as a whole. -/
def language : Pattern → Language Char
  | empty => 1
  | one p => oneOf (p · = true)
  | seq a b => a.language * b.language
  | alt a b => a.language + b.language
  | many a => a.language∗
  | few a => a.language∗

theorem mem_andThen {f g : Text → List (Text × Text)} :
    (w, t) ∈ andThen f g s ↔
      ∃ u v r, (u, r) ∈ f s ∧ (v, t) ∈ g r ∧ u ++ v = w := by
  simp only [andThen, List.mem_flatMap, List.mem_map, Prod.exists, Prod.mk.injEq]
  constructor
  · rintro ⟨u, r, hu, v, t, hv, rfl, rfl⟩
    exact ⟨u, v, r, hu, hv, rfl⟩
  · rintro ⟨u, v, r, hu, hv, rfl⟩
    exact ⟨u, r, hu, v, t, hv, rfl, rfl⟩

/-- Both kinds of repetition have the same rounds, in another order. -/
theorem mem_fewRounds {f : Text → List (Text × Text)} :
    (w, t) ∈ fewRounds f n s ↔ (w, t) ∈ manyRounds f n s := by
  induction n generalizing s w t with
  | zero => rfl
  | succ n ih => simp [fewRounds, manyRounds, mem_andThen, ih, or_comm]

/-- Where a pattern lists just the beginnings in its language, so does its repetition. -/
theorem mem_manyRounds (ha : ∀ {s w r : Text}, (w, r) ∈ a.splits s ↔ w ++ r = s ∧ w ∈ a.language)
    (hn : s.length ≤ n) :
    (w, r) ∈ manyRounds a.splits n s ↔ w ++ r = s ∧ w ∈ a.language∗ := by
  constructor
  · clear hn
    induction n generalizing s w r with
    | zero =>
      simp only [manyRounds, List.mem_singleton, Prod.mk.injEq]
      rintro ⟨rfl, rfl⟩
      exact ⟨rfl, Language.nil_mem_kstar _⟩
    | succ n ih =>
      simp only [manyRounds, List.mem_append, List.mem_singleton, Prod.mk.injEq, mem_andThen]
      rintro (⟨u, v, t, hu, hv, rfl⟩ | ⟨rfl, rfl⟩)
      · obtain ⟨rfl, hround⟩ := ha.1 hu
        obtain ⟨rfl, hrounds⟩ := ih hv
        exact ⟨List.append_assoc _ _ _, append_mem_kstar hround hrounds⟩
      · exact ⟨rfl, Language.nil_mem_kstar _⟩
  · rintro ⟨rfl, hw⟩
    rw [Language.kstar_def_nonempty] at hw
    obtain ⟨parts, rfl, hparts⟩ := hw
    induction parts generalizing n with
    | nil =>
      cases n <;> simp [manyRounds]
    | cons u parts ih =>
      rw [List.forall_mem_cons] at hparts
      have hpos := List.length_pos_iff.2 hparts.1.2
      rw [List.flatten_cons, List.append_assoc, List.length_append] at hn
      obtain ⟨m, rfl⟩ : ∃ m, n = m + 1 := ⟨n - 1, by omega⟩
      have hrest := ih hparts.2 (n := m) (by omega)
      rw [manyRounds, List.mem_append, mem_andThen]
      exact .inl ⟨u, _, _, ha.2 ⟨by simp, hparts.1.1⟩, hrest, rfl⟩

/-- **The ways to match are the beginnings in the language.** -/
theorem mem_splits : (w, r) ∈ a.splits s ↔ w ++ r = s ∧ w ∈ a.language := by
  induction a generalizing s w r with
  | empty =>
    simp only [splits, language, List.mem_singleton, Prod.mk.injEq, Language.mem_one]
    constructor
    · rintro ⟨rfl, rfl⟩
      exact ⟨rfl, rfl⟩
    · rintro ⟨rfl, rfl⟩
      exact ⟨rfl, rfl⟩
  | one p =>
    rcases s with _ | ⟨c, s⟩
    · simp only [splits, language, List.not_mem_nil, false_iff, mem_oneOf]
      rintro ⟨hs, c, -, rfl⟩
      simp at hs
    · simp only [language, mem_oneOf]
      constructor
      · intro h
        by_cases hc : p c = true
        · simp only [splits, hc, if_true, List.mem_singleton, Prod.mk.injEq] at h
          obtain ⟨rfl, rfl⟩ := h
          exact ⟨rfl, c, hc, rfl⟩
        · simp [splits, hc] at h
      · rintro ⟨hs, d, hd, rfl⟩
        obtain ⟨rfl, rfl⟩ := List.cons.inj hs
        simp [splits, hd]
  | seq a b iha ihb =>
    simp only [splits, language, mem_andThen, iha, ihb, Language.mem_mul]
    constructor
    · rintro ⟨u, v, t, ⟨rfl, hu⟩, ⟨rfl, hv⟩, rfl⟩
      exact ⟨List.append_assoc _ _ _, u, hu, v, hv, rfl⟩
    · rintro ⟨rfl, u, hu, v, hv, rfl⟩
      exact ⟨u, v, v ++ r, ⟨(List.append_assoc _ _ _).symm, hu⟩, ⟨rfl, hv⟩, rfl⟩
  | alt a b iha ihb =>
    simp only [splits, language, List.mem_append, iha, ihb, Language.mem_add, ← and_or_left]
  | many a ih => exact mem_manyRounds ih le_rfl
  | few a ih => exact mem_fewRounds.trans (mem_manyRounds ih le_rfl)

/-- Nothing is found only where no beginning is in the language. -/
theorem first?_eq_none : a.first? s = none ↔ ∀ w ∈ a.language, ¬w <+: s := by
  rw [first?, List.head?_eq_none_iff, List.eq_nil_iff_forall_not_mem]
  constructor
  · rintro h w hw ⟨r, hr⟩
    exact h (w, r) (mem_splits.2 ⟨hr, hw⟩)
  · rintro h ⟨w, r⟩ hw
    obtain ⟨hr, hw⟩ := mem_splits.1 hw
    exact h w hw ⟨r, hr⟩

theorem first?_mem (h : a.first? s = some (u, r)) : u ++ r = s ∧ u ∈ a.language :=
  mem_splits.1 (List.mem_of_mem_head? h)

/-! ### The first of them -/

theorem first?_alt (a b : Pattern) (s : Text) :
    (alt a b).first? s = (a.first? s).or (b.first? s) := List.head?_append

/-- The first match can be shorter than others. -/
example : (alt (one (· = 'a')) (seq (one (· = 'a')) (one (· = 'b')))).first? ['a', 'b'] =
    some (['a'], ['b']) := rfl

theorem head?_andThen {f g : Text → List (Text × Text)} (hf : (f s).head? = some (u, r))
    (hg : (g r).head? = some (v, t)) : (andThen f g s).head? = some (u ++ v, t) := by
  obtain ⟨rest, hrest⟩ := List.head?_eq_some_iff.1 hf
  simp [andThen, hrest, hg]

/-- Where the first attempt can go on, it does. -/
theorem first?_seq (ha : a.first? s = some (u, r)) (hb : b.first? r = some (v, t)) :
    (seq a b).first? s = some (u ++ v, t) := head?_andThen ha hb

theorem first?_seq_eq_none (h : ∀ u r, u ++ r = s → u ∈ a.language → b.first? r = none) :
    (seq a b).first? s = none := by
  rw [first?_eq_none]
  rintro _ ⟨u, hu, v, hv, rfl⟩ ⟨t, ht⟩
  rw [List.append_assoc] at ht
  exact first?_eq_none.1 (h u (v ++ t) ht hu) v hv (List.prefix_append v t)

/-- What can always go on is found behind the first attempt. -/
theorem first?_seq_of_total {g : Text → Text × Text} (hb : ∀ r, b.first? r = some (g r))
    (a : Pattern) (s : Text) :
    (seq a b).first? s = (a.first? s).map fun x => (x.1 ++ (g x.2).1, (g x.2).2) := by
  rcases ha : a.first? s with _ | ⟨u, r⟩
  · refine first?_seq_eq_none fun u r hs hu => ?_
    exact absurd ⟨r, hs⟩ (first?_eq_none.1 ha u hu)
  · exact first?_seq ha (hb r)

/-- A repetition goes on as long as it can, if each round takes something. -/
theorem first?_many {f : Text → Text × Text}
    (hf : ∀ s, a.first? s = none ∧ f s = ([], s) ∨
      ∃ u r, a.first? s = some (u, r) ∧ u ≠ [] ∧ f s = (u ++ (f r).1, (f r).2))
    (s : Text) : (many a).first? s = some (f s) := by
  suffices h : ∀ n (s : Text), s.length ≤ n → (manyRounds a.splits n s).head? = some (f s) from
    h _ s le_rfl
  intro n
  induction n with
  | zero =>
    intro s hs
    obtain rfl := List.length_eq_zero_iff.1 (Nat.le_zero.1 hs)
    obtain ⟨-, hnil⟩ | ⟨u, r, ha, hne, -⟩ := hf []
    · rw [hnil]
      rfl
    · exact absurd (List.append_eq_nil_iff.1 (first?_mem ha).1).1 hne
  | succ n ih =>
    intro s hs
    rw [manyRounds, List.head?_append]
    obtain ⟨ha, hnil⟩ | ⟨u, r, ha, hne, hround⟩ := hf s
    · have hsplits : a.splits s = [] := List.head?_eq_none_iff.1 ha
      simp [andThen, hsplits, hnil]
    · have hlen := congrArg List.length (first?_mem ha).1
      have hpos := List.length_pos_iff.2 hne
      rw [List.length_append] at hlen
      rw [head?_andThen ha (ih r (by omega)), hround]
      rfl

end Pattern
end CssReader
