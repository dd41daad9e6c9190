/-
# Forests behind a cursor

The readers of component values look at the next token and hand it back before
they let another reader have it. A token handed back to a cursor that holds none
is the next one read, and reading it changes nothing else, so the readers can be
taken apart without it: `Cursor.values_unroll` reads a token, and then either
stops at it, or keeps it, or reads on inside of what it opens and then behind it.

`Cursor.Forest` says the same of the readings that end without a fault, as one
inductive relation with a constructor for each of the four ways to go on. What
is proved about readings is proved by induction on it.

Key definitions: `Outcome.Gives`, `Cursor.Forest`.
Key theorems: `Cursor.values_unroll`, `Cursor.values_gives_iff`,
`Cursor.componentValues_gives_iff`.
-/
import CssReader.Tree.Rules

namespace CssReader

namespace Outcome

variable {α β : Type}

/-! ### Outcomes without a fault -/

/-- The outcome is the value `a`, and its cursor is `c`. -/
def Gives (o : Outcome α) (a : α) (c : Cursor) : Prop :=
  o.result = .ok a ∧ o.cursor = c

theorem Gives.result {o : Outcome α} {a : α} {c : Cursor} (h : o.Gives a c) :
    o.result = .ok a := h.1

theorem Gives.cursor {o : Outcome α} {a : α} {c : Cursor} (h : o.Gives a c) : o.cursor = c := h.2

theorem Gives.unique {o : Outcome α} {a b : α} {c c' : Cursor} (h : o.Gives a c)
    (h' : o.Gives b c') : a = b ∧ c = c' :=
  ⟨Except.ok.inj (h.result.symm.trans h'.result), h.cursor.symm.trans h'.cursor⟩

theorem gives_of_result {o : Outcome α} {a : α} (h : o.result = .ok a) : o.Gives a o.cursor :=
  ⟨h, rfl⟩

@[simp] theorem gives_ok {a b : α} {c c' : Cursor} {es : List Event} :
    Gives ⟨.ok a, c, es⟩ b c' ↔ a = b ∧ c = c' := by
  simp [Gives]

@[simp] theorem after_gives {o : Outcome α} {es : List Event} {a : α} {c : Cursor} :
    (o.after es).Gives a c ↔ o.Gives a c := Iff.rfl

theorem map_gives {o : Outcome α} {f : α → β} {b : β} {c : Cursor} :
    (o.map f).Gives b c ↔ ∃ a, o.Gives a c ∧ f a = b := by
  rcases o with ⟨_ | a, c', es⟩
  · simp [Gives, map, Except.map]
  · constructor
    · rintro ⟨hr, hc⟩
      exact ⟨a, ⟨rfl, hc⟩, Except.ok.inj hr⟩
    · rintro ⟨a', ⟨hr, hc⟩, rfl⟩
      obtain rfl : a = a' := Except.ok.inj hr
      exact ⟨rfl, hc⟩

theorem bind_gives {o : Outcome α} {f : α → Cursor → Outcome β} {b : β} {c : Cursor} :
    (o.bind f).Gives b c ↔ ∃ a c', o.Gives a c' ∧ (f a c').Gives b c := by
  rcases o with ⟨_ | a, c', es⟩
  · simp [Gives, bind]
  · constructor
    · intro h
      exact ⟨a, c', ⟨rfl, rfl⟩, h⟩
    · rintro ⟨a', c₁, ⟨hr, rfl⟩, h⟩
      obtain rfl : a = a' := Except.ok.inj hr
      exact h

/-- What follows a value has to agree only at the cursor behind that value. -/
theorem bind_congr {o : Outcome α} {f g : α → Cursor → Outcome β}
    (h : ∀ a, o.result = .ok a → f a o.cursor = g a o.cursor) : o.bind f = o.bind g := by
  unfold bind
  split
  · rfl
  · rename_i a ha
    rw [h a ha]

@[simp] theorem after_nil {o : Outcome α} : o.after [] = o := rfl

theorem map_bind {γ : Type} {o : Outcome α} {f : α → β} {g : β → Cursor → Outcome γ} :
    (o.map f).bind g = o.bind fun a => g (f a) := by
  rcases o with ⟨_ | a, c, es⟩ <;> rfl

end Outcome

namespace Cursor

/-! ### Reading a token -/

/-- A token that was handed back is given, and nothing is read. -/
theorem next_of_held {c : Cursor} {t : Token} (h : c.pending = some t) :
    c.next = ⟨.ok (some t), { c with pending := none }, []⟩ := by
  simp [next, h]

/-- Nothing is skipped in front of a token, or of the end. -/
theorem pull_of_ok {c : Cursor} {t? : Option Token} (layer : Layer) (h : c.next.result = .ok t?) :
    c.pull layer = c.next := by
  rw [pull]
  split <;> simp_all

/-- A malformed url is skipped, and reported. -/
theorem pull_of_skipped {c : Cursor} {f : Fault} (layer : Layer) (h : c.next.result = .error f)
    (hf : f.isRecoverable = true) : c.pull layer = (c.next.cursor.pull layer).after
      (c.next.events ++ [.warning layer ⟨.skippedUrl, f.position⟩]) := by
  rw [pull]
  split
  · simp_all
  · rename_i f' h'
    obtain rfl : f = f' := Except.error.inj (h.symm.trans h')
    rw [if_pos hf]

/-- A fault that cannot be skipped is given, as a token would be. -/
theorem pull_of_fault {c : Cursor} {f : Fault} (layer : Layer) (h : c.next.result = .error f)
    (hf : ¬f.isRecoverable = true) : c.pull layer = c.next := by
  rw [pull]
  split
  · simp_all
  · rename_i f' h'
    obtain rfl : f = f' := Except.error.inj (h.symm.trans h')
    rw [if_neg hf]

/-- What is behind a malformed url is given in its place. -/
theorem pull_of_recoverable {c c' : Cursor} {f : Fault} {t? : Option Token} (layer : Layer)
    (h : c.next.result = .error f) (hf : f.isRecoverable = true) :
    (c.pull layer).Gives t? c' ↔ (c.next.cursor.pull layer).Gives t? c' := by
  rw [pull_of_skipped layer h hf, Outcome.after_gives]

/-- A token handed back is the next one read, and the cursor is what it was. -/
theorem pull_pushBack {c : Cursor} (t : Token) (layer : Layer) (h : c.pending = none) :
    (c.pushBack t).2.pull layer = ⟨.ok (some t), c, []⟩ := by
  have hn : (c.pushBack t).2.next = ⟨.ok (some t), c, []⟩ := by
    rw [next_of_held (t := t) rfl, pushBack, ← h]
  rw [pull_of_ok layer (congrArg Outcome.result hn), hn]

/-- A token that was read can be handed back and read again. -/
theorem pull_pushBack_gives {c c' : Cursor} {t : Token} {layer : Layer}
    (h : (c.pull layer).Gives (some t) c') : ((c'.pushBack t).2.pull layer).Gives (some t) c' := by
  have hc : c'.pending = none := h.cursor ▸ pull_pending layer c
  rw [pull_pushBack t layer hc]
  exact ⟨rfl, rfl⟩

theorem value_pushBack {c : Cursor} (t : Token) (h : c.pending = none) :
    (c.pushBack t).2.value = match Opener.ofToken? t with
      | none => ⟨.ok (some (.token t)), c, []⟩
      | some o => (c.enclosed o).map fun e => some (o.node e) := by
  rw [value_eq, pull_pushBack t .trees h]
  rfl

/-- Nothing is handed back in vain: component values are read off the tokens one
after the other. -/
theorem values_unroll (stops : Token → Bool) (c : Cursor) :
    c.values stops = (c.pull .trees).bind fun t? c' =>
      match t? with
      | none => ⟨.ok ([], none), c', []⟩
      | some t =>
        if stops t then ⟨.ok ([], some t), c', []⟩
        else match Opener.ofToken? t with
          | none => (c'.values stops).map fun (vs, stop) => (.token t :: vs, stop)
          | some o => (c'.enclosed o).bind fun e c'' =>
            (c''.values stops).map fun (vs, stop) => (o.node e :: vs, stop) := by
  rw [values_eq]
  refine Outcome.bind_congr fun t? ht => ?_
  cases t? with
  | none => rfl
  | some t =>
    have hp := pull_pending .trees c
    dsimp only
    split
    · rfl
    · rw [value_pushBack t hp, pushBack, hp, lostEvents, Outcome.after_nil]
      cases Opener.ofToken? t with
      | none => rfl
      | some o => exact Outcome.map_bind

/-! ### Readings without a fault -/

/-- From the cursor `c` on the text holds the values `vs`, up to the token `stop`
which `stops` names, or up to the end of the text; `c'` is behind all that. -/
inductive Forest : (stops : Token → Bool) → (c : Cursor) → (vs : List ComponentValue) →
    (stop : Option Token) → (c' : Cursor) → Prop
  /-- The text ends. -/
  | finish {stops : Token → Bool} {c c' : Cursor} :
    (c.pull .trees).Gives none c' → Forest stops c [] none c'
  /-- A token stops the values. -/
  | stop {stops : Token → Bool} {c c' : Cursor} {t : Token} :
    (c.pull .trees).Gives (some t) c' → stops t = true → Forest stops c [] (some t) c'
  /-- A token is a value. -/
  | token {stops : Token → Bool} {c c₁ c' : Cursor} {t : Token} {vs : List ComponentValue}
      {stop : Option Token} :
    (c.pull .trees).Gives (some t) c₁ → stops t = false → Opener.ofToken? t = none →
    Forest stops c₁ vs stop c' → Forest stops c (.token t :: vs) stop c'
  /-- A token opens a value, which goes on up to its closing token. -/
  | node {stops : Token → Bool} {c c₁ c₂ c' : Cursor} {t : Token} {o : Opener}
      {inner vs : List ComponentValue} {close stop : Option Token} :
    (c.pull .trees).Gives (some t) c₁ → stops t = false → Opener.ofToken? t = some o →
    Forest (fun t => t = o.closer) c₁ inner close c₂ → Forest stops c₂ vs stop c' →
    Forest stops c (o.node ⟨c₁.slice c₁.tokenStart c₂.position, inner⟩ :: vs) stop c'

theorem enclosed_gives_iff {o : Opener} {c c' : Cursor} {e : Enclosed} :
    (c.enclosed o).Gives e c' ↔ ∃ vs stop, (c.values fun t => t = o.closer).Gives (vs, stop) c' ∧
      ⟨c.slice c.tokenStart c'.position, vs⟩ = e := by
  rw [enclosed_eq, Outcome.bind_gives]
  constructor
  · rintro ⟨⟨vs, stop⟩, c₁, hv, he⟩
    obtain ⟨rfl, rfl⟩ := Outcome.gives_ok.1 he
    exact ⟨vs, stop, hv, rfl⟩
  · rintro ⟨vs, stop, hv, rfl⟩
    exact ⟨_, c', hv, Outcome.gives_ok.2 ⟨rfl, rfl⟩⟩

theorem Forest.of_values {n : Nat} : ∀ {c c' : Cursor} {stops : Token → Bool}
    {vs : List ComponentValue} {stop : Option Token}, c.weight ≤ n →
    (c.values stops).Gives (vs, stop) c' → Forest stops c vs stop c' := by
  induction n using Nat.strongRecOn with
  | ind n ih =>
    intro c c' stops vs stop hn h
    rw [values_unroll, Outcome.bind_gives] at h
    obtain ⟨t?, c₁, hp, h⟩ := h
    rcases t? with _ | t
    · obtain ⟨he, rfl⟩ := Outcome.gives_ok.1 h
      obtain ⟨rfl, rfl⟩ := Prod.mk.inj he
      exact .finish hp
    · have hw : c₁.weight < c.weight :=
        hp.cursor ▸ pull_weight_lt .trees c (by simp [hp.result])
      dsimp only at h
      by_cases hs : stops t = true
      · rw [if_pos hs] at h
        obtain ⟨he, rfl⟩ := Outcome.gives_ok.1 h
        obtain ⟨rfl, rfl⟩ := Prod.mk.inj he
        exact .stop hp hs
      · rw [if_neg hs] at h
        rw [Bool.not_eq_true] at hs
        rcases ho : Opener.ofToken? t with _ | o
        · rw [ho] at h
          obtain ⟨⟨vs', stop'⟩, hv, he⟩ := Outcome.map_gives.1 h
          obtain ⟨rfl, rfl⟩ := Prod.mk.inj he
          have hvs : Forest stops c₁ vs' stop' c' :=
            ih c₁.weight (by omega) (Nat.le_refl _) hv
          exact .token hp hs ho hvs
        · rw [ho] at h
          obtain ⟨e, c₂, he, h⟩ := Outcome.bind_gives.1 h
          obtain ⟨⟨vs', stop'⟩, hv, heq⟩ := Outcome.map_gives.1 h
          obtain ⟨rfl, rfl⟩ := Prod.mk.inj heq
          obtain ⟨inner, close, hi, rfl⟩ := enclosed_gives_iff.1 he
          have hw2 : c₂.weight ≤ c₁.weight - 1 := he.cursor ▸ enclosed_weight_le o c₁
          have hinner : Forest (fun t => t = o.closer) c₁ inner close c₂ :=
            ih c₁.weight (by omega) (Nat.le_refl _) hi
          have hvs : Forest stops c₂ vs' stop' c' :=
            ih c₂.weight (by omega) (Nat.le_refl _) hv
          exact .node hp hs ho hinner hvs

theorem Forest.values {stops : Token → Bool} {c c' : Cursor} {vs : List ComponentValue}
    {stop : Option Token} (h : Forest stops c vs stop c') :
    (c.values stops).Gives (vs, stop) c' := by
  induction h with
  | finish hp =>
    rw [values_unroll, Outcome.bind_gives]
    refine ⟨_, _, hp, ?_⟩
    exact Outcome.gives_ok.2 ⟨rfl, rfl⟩
  | stop hp hs =>
    rw [values_unroll, Outcome.bind_gives]
    refine ⟨_, _, hp, ?_⟩
    simp [hs]
  | token hp hs ho _ ih =>
    rw [values_unroll, Outcome.bind_gives]
    refine ⟨_, _, hp, ?_⟩
    simp only [hs, ho, Bool.false_eq_true, ↓reduceIte]
    exact Outcome.map_gives.2 ⟨_, ih, rfl⟩
  | node hp hs ho _ _ ihi ih =>
    rw [values_unroll, Outcome.bind_gives]
    refine ⟨_, _, hp, ?_⟩
    simp only [hs, ho, Bool.false_eq_true, ↓reduceIte]
    have he := enclosed_gives_iff.2 ⟨_, _, ihi, rfl⟩
    exact Outcome.bind_gives.2 ⟨_, _, he, Outcome.map_gives.2 ⟨_, ih, rfl⟩⟩

/-- **A reading of component values without a fault is a forest.** -/
theorem values_gives_iff {stops : Token → Bool} {c c' : Cursor} {vs : List ComponentValue}
    {stop : Option Token} :
    (c.values stops).Gives (vs, stop) c' ↔ Forest stops c vs stop c' :=
  ⟨Forest.of_values (Nat.le_refl _), Forest.values⟩

/-- The token that stopped a reading is one that stops it. -/
theorem Forest.stops_stop {stops : Token → Bool} {c c' : Cursor} {vs : List ComponentValue}
    {stop : Option Token} (h : Forest stops c vs stop c') {t : Token} (hs : stop = some t) :
    stops t = true := by
  induction h with
  | finish => simp at hs
  | stop _ ht =>
    obtain rfl := Option.some.inj hs
    exact ht
  | token _ _ _ _ ih => exact ih hs
  | node _ _ _ _ _ _ ih => exact ih hs

/-- A reading is that of every cursor with the same first token. -/
theorem Forest.of_pull {stops : Token → Bool} {c c' d : Cursor} {vs : List ComponentValue}
    {stop : Option Token} (h : Forest stops c vs stop c')
    (hd : ∀ t? c₁, (c.pull .trees).Gives t? c₁ → (d.pull .trees).Gives t? c₁) :
    Forest stops d vs stop c' := by
  cases h with
  | finish hp => exact .finish (hd _ _ hp)
  | stop hp hs => exact .stop (hd _ _ hp) hs
  | token hp hs ho h => exact .token (hd _ _ hp) hs ho h
  | node hp hs ho hi h => exact .node (hd _ _ hp) hs ho hi h

/-- All component values up to the end of the text are a forest that nothing stops. -/
theorem componentValues_gives_iff {c c' : Cursor} {vs : List ComponentValue} :
    c.componentValues.Gives vs c' ↔ Forest (fun _ => false) c vs none c' := by
  rw [componentValues, Outcome.map_gives]
  constructor
  · rintro ⟨⟨vs, stop⟩, hv, rfl⟩
    have h : Forest (fun _ => false) c vs stop c' := values_gives_iff.1 hv
    rcases stop with _ | t
    · exact h
    · exact absurd (h.stops_stop rfl) (by simp)
  · intro h
    exact ⟨_, h.values, rfl⟩

end Cursor
end CssReader
