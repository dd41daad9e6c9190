/-
# Readers come to an end

The readers of trees go round in loops and call each other, and none of them counts
its rounds. A round reads a token, hands it back, and lets another reader have it, so
what was read is unread again. It still comes to an end: the weight of the cursor, which
counts the token handed back less than any token left in the text, is lower when a round
goes on to the next one, and lower at each opener inside of another one.

`Reader.unfold` is one round of a reader, with anything at all in the place of the readers
that it calls, itself in its next round included. `Call.Needs` names the calls whose
outcomes the round asks for (`Call.unfold_congr`), and each of these has less height
(`Call.Needs.height_lt`). So after as many unfoldings as the height of a call tells,
nothing is left in it of what was put in the place of the readers.

Key definitions: `Reader`, `Reader.unfold`, `Call.Again`, `Call.Makes`, `Call.height`.
Key theorems: `Call.unfold_congr`, `Call.Again.weight_lt`, `Call.enclosed_weight_lt`,
`Cursor.Reachable.reading_ends`.
-/
import Mathlib.Logic.Function.Iterate
import Mathlib.Logic.Relation
import CssReader.Proofs.Resume
import CssReader.Proofs.Restart

namespace CssReader

open Cursor (RuleStart lostEvents endsAtRule endsQualified atRuleName)

theorem Outcome.map_map {α β γ : Type} (o : Outcome α) (f : α → β) (g : β → γ) :
    (o.map f).map g = o.map fun a => g (f a) := by
  rcases o with ⟨_ | a, c, es⟩ <;> rfl

/-! ### Readers and their rounds -/

/-- The readers that call each other. -/
inductive Reader
  /-- Of the next token that is no malformed url. -/
  | pull
  | value
  | values (stops : Token → Bool)
  | enclosed (o : Opener)
  | atRule
  | qualifiedRule
  | ruleList (top : Bool)

namespace Reader

/-- What a reader gives. -/
abbrev Value : Reader → Type
  | pull => Option Token
  | value => Option ComponentValue
  | values _ => List ComponentValue × Option Token
  | enclosed _ => Enclosed
  | atRule => Rule
  | qualifiedRule => Option Rule
  | ruleList _ => List Rule

/-- What a reader makes of what is behind the cursor. -/
def read : (r : Reader) → Cursor → Outcome r.Value
  | pull, c => c.pull .trees
  | value, c => c.value
  | values stops, c => c.values stops
  | enclosed o, c => c.enclosed o
  | atRule, c => c.atRule
  | qualifiedRule, c => c.qualifiedRule
  | ruleList top, c => c.ruleList top

/-- The curly block behind an opener, with `call` in the place of the readers. -/
def block (call : (r : Reader) → Cursor → Outcome r.Value) (c : Cursor) : Outcome Block :=
  (call (.enclosed (.bracket .curly)) c).map fun e => ⟨.curly, e.text, e.trimmed⟩

/-- One round of a reader, with `call` in the place of the readers that it calls and of
its own next round. -/
def unfold (call : (r : Reader) → Cursor → Outcome r.Value) :
    (r : Reader) → Cursor → Outcome r.Value
  | pull, c =>
    match c.next.result with
    | .ok _ => c.next
    | .error f =>
      if f.isRecoverable then
        (call .pull c.next.cursor).after
          (c.next.events ++ [.warning .trees ⟨.skippedUrl, f.position⟩])
      else c.next
  | value, c => (call .pull c).bind fun t? c' =>
    match t? with
    | none => ⟨.ok none, c', []⟩
    | some t => match Opener.ofToken? t with
      | none => ⟨.ok (some (.token t)), c', []⟩
      | some o => (call (.enclosed o) c').map fun e => some (o.node e)
  | values stops, c => (call .pull c).bind fun t? c' =>
    match t? with
    | none => ⟨.ok ([], none), c', []⟩
    | some t =>
      if stops t then ⟨.ok ([], some t), c', []⟩
      else ((call .value (c'.pushBack t).2).bind fun value c'' =>
        (call (.values stops) c'').map fun (vs, stop) => (value.toList ++ vs, stop)).after
          (lostEvents (c'.pushBack t).1)
  | enclosed o, c => (call (.values fun t => t = o.closer) c).bind fun (vs, stop) c' =>
    { result := .ok ⟨c.slice c.tokenStart c'.position, vs⟩
      cursor := c'
      events := if stop.isNone then [c'.endWarning o.mistake] else [] }
  | atRule, c => (call .pull c).bind fun first c' =>
    (call (.values endsAtRule) c').bind fun (header, stop) c'' =>
      match stop with
      | some (.opening .curly) =>
        (block call c'').map fun b => .atRule (atRuleName first) header (some b)
      | some _ => ⟨.ok (.atRule (atRuleName first) header none), c'', []⟩
      | none => ⟨.ok (.atRule (atRuleName first) header none), c'', [c''.endWarning .openAtRule]⟩
  | qualifiedRule, c => (call (.values endsQualified) c).bind fun (header, stop) c' =>
    match stop with
    | some _ => (block call c').map fun b => some (.qualified header b)
    | none => ⟨.ok none, c', [c'.endWarning .openQualifiedRule]⟩
  | ruleList top, c => (call .pull c).bind fun t? c' =>
    match t? with
    | none => ⟨.ok [], c', []⟩
    | some t =>
      let behind (rule? : Option Rule) (c'' : Cursor) : Outcome (List Rule) :=
        (call (.ruleList top) c'').map fun rules => rule?.toList ++ rules
      match RuleStart.ofToken top t with
      | .skip => call (.ruleList top) c'
      | .atRule => (((call .atRule (c'.pushBack t).2).map some).bind behind).after
          (lostEvents (c'.pushBack t).1)
      | .qualified => ((call .qualifiedRule (c'.pushBack t).2).bind behind).after
          (lostEvents (c'.pushBack t).1)

/-- The place of a reader among those that may call each other on the same cursor. -/
def rank : Reader → Nat
  | pull => 0
  | value => 1
  | values _ => 2
  | enclosed _ => 3
  | atRule => 4
  | qualifiedRule => 4
  | ruleList _ => 5

theorem rank_le (r : Reader) : r.rank ≤ 5 := by cases r <;> simp [rank]

end Reader

/-! ### Calls -/

/-- A call: a reader, and the cursor that it begins at. -/
structure Call where
  reader : Reader
  cursor : Cursor

namespace Call

/-- What the call gives. -/
def read (k : Call) : Outcome k.reader.Value := k.reader.read k.cursor

/-- A round of the first call goes on to the next one, which begins as the second call does. -/
inductive Again : Call → Call → Prop
  /-- A malformed url was skipped. -/
  | skippedUrl {c : Cursor} {f : Fault} : c.next.result = .error f → f.isRecoverable = true →
    Again ⟨.pull, c⟩ ⟨.pull, c.next.cursor⟩
  | value {stops : Token → Bool} {c c₁ c₂ : Cursor} {t : Token} {v? : Option ComponentValue} :
    (c.pull .trees).Gives (some t) c₁ → stops t = false →
    (c₁.pushBack t).2.value.Gives v? c₂ → Again ⟨.values stops, c⟩ ⟨.values stops, c₂⟩
  /-- A token in front of a rule was passed over. -/
  | passedOver {top : Bool} {c c₁ : Cursor} {t : Token} : (c.pull .trees).Gives (some t) c₁ →
    RuleStart.ofToken top t = .skip → Again ⟨.ruleList top, c⟩ ⟨.ruleList top, c₁⟩
  | rule {top : Bool} {c c₁ c₂ : Cursor} {t : Token} {rule? : Option Rule} :
    (c.pull .trees).Gives (some t) c₁ → RuleStart.ofToken top t ≠ .skip →
    ((c₁.pushBack t).2.rule (.ofToken top t)).Gives rule? c₂ →
    Again ⟨.ruleList top, c⟩ ⟨.ruleList top, c₂⟩

/-- A round of the first call makes the second one. -/
inductive Makes : Call → Call → Prop
  | value_pull {c : Cursor} : Makes ⟨.value, c⟩ ⟨.pull, c⟩
  | values_pull {stops : Token → Bool} {c : Cursor} : Makes ⟨.values stops, c⟩ ⟨.pull, c⟩
  | atRule_pull {c : Cursor} : Makes ⟨.atRule, c⟩ ⟨.pull, c⟩
  | ruleList_pull {top : Bool} {c : Cursor} : Makes ⟨.ruleList top, c⟩ ⟨.pull, c⟩
  | value_enclosed {c c₁ : Cursor} {t : Token} {o : Opener} : (c.pull .trees).Gives (some t) c₁ →
    Opener.ofToken? t = some o → Makes ⟨.value, c⟩ ⟨.enclosed o, c₁⟩
  | values_value {stops : Token → Bool} {c c₁ : Cursor} {t : Token} :
    (c.pull .trees).Gives (some t) c₁ → stops t = false →
    Makes ⟨.values stops, c⟩ ⟨.value, (c₁.pushBack t).2⟩
  | enclosed_values {o : Opener} {c : Cursor} :
    Makes ⟨.enclosed o, c⟩ ⟨.values fun t => t = o.closer, c⟩
  | atRule_values {c c₁ : Cursor} {first : Option Token} : (c.pull .trees).Gives first c₁ →
    Makes ⟨.atRule, c⟩ ⟨.values endsAtRule, c₁⟩
  | atRule_enclosed {c c₁ c₂ : Cursor} {first : Option Token} {header : List ComponentValue} :
    (c.pull .trees).Gives first c₁ →
    (c₁.values endsAtRule).Gives (header, some (.opening .curly)) c₂ →
    Makes ⟨.atRule, c⟩ ⟨.enclosed (.bracket .curly), c₂⟩
  | qualifiedRule_values {c : Cursor} : Makes ⟨.qualifiedRule, c⟩ ⟨.values endsQualified, c⟩
  | qualifiedRule_enclosed {c c₁ : Cursor} {t : Token} {header : List ComponentValue} :
    (c.values endsQualified).Gives (header, some t) c₁ →
    Makes ⟨.qualifiedRule, c⟩ ⟨.enclosed (.bracket .curly), c₁⟩
  | ruleList_atRule {top : Bool} {c c₁ : Cursor} {t : Token} : (c.pull .trees).Gives (some t) c₁ →
    RuleStart.ofToken top t = .atRule → Makes ⟨.ruleList top, c⟩ ⟨.atRule, (c₁.pushBack t).2⟩
  | ruleList_qualifiedRule {top : Bool} {c c₁ : Cursor} {t : Token} :
    (c.pull .trees).Gives (some t) c₁ → RuleStart.ofToken top t = .qualified →
    Makes ⟨.ruleList top, c⟩ ⟨.qualifiedRule, (c₁.pushBack t).2⟩

/-- A round of the first call asks for what the second one gives. -/
def Needs (k k' : Call) : Prop := k.Again k' ∨ k.Makes k'

/-- The weight of the cursor, and then the rank of the reader. -/
def height (k : Call) : Nat := 6 * k.cursor.weight + k.reader.rank

variable {k k' : Call} {c c₁ : Cursor} {t : Token}

/-! ### The weight falls -/

/-- What is left when a token has been handed back is no more than before it was read. -/
theorem weight_pushBack_le (h : (c.pull .trees).Gives (some t) c₁) :
    c₁.weight < c.weight ∧ (c₁.pushBack t).2.weight ≤ c.weight :=
  Cursor.weight_of_pullStep h.result h.cursor

/-- Values that a token stopped have taken that token at least. -/
theorem weight_lt_of_stop {stops : Token → Bool} {vs : List ComponentValue}
    (h : (c.values stops).Gives (vs, some t) c₁) : c₁.weight < c.weight := by
  have hle := Cursor.values_weight_le stops c
  rw [h.cursor] at hle
  suffices 0 < c.weight by omega
  have hpos : ∀ {t' : Token} {c₂ : Cursor}, (c.pull .trees).Gives (some t') c₂ → 0 < c.weight :=
    fun hp => Nat.zero_lt_of_lt (weight_pushBack_le hp).1
  cases Cursor.values_gives_iff.1 h with
  | stop hp => exact hpos hp
  | token hp => exact hpos hp
  | node hp => exact hpos hp

/-- **A round that goes on to the next one lowers the weight.** -/
theorem Again.weight_lt (h : k.Again k') : k'.cursor.weight < k.cursor.weight := by
  cases h with
  | skippedUrl hf hr => exact Cursor.next_weight_lt (by simp [hf])
  | @value stops c c₁ c₂ t v? hp hs hv =>
    have hle := Cursor.value_weight_le (c₁.pushBack t).2
    rw [hv.cursor] at hle
    have hlt := weight_pushBack_le hp
    show c₂.weight < c.weight
    omega
  | passedOver hp hs => exact (weight_pushBack_le hp).1
  | @rule top c c₁ c₂ t rule? hp hs hr =>
    have hle := Cursor.rule_weight_le hs (c₁.pushBack t).2
    rw [hr.cursor] at hle
    have hlt := weight_pushBack_le hp
    show c₂.weight < c.weight
    omega

/-- A call that a round makes begins with no more weight, and with less if something
was opened. -/
theorem Makes.weight_le (h : k.Makes k') : k'.cursor.weight ≤ k.cursor.weight ∧
    ∀ o, k'.reader = .enclosed o → k'.cursor.weight < k.cursor.weight := by
  cases h with
  | value_pull | values_pull | atRule_pull | ruleList_pull | enclosed_values
  | qualifiedRule_values => exact ⟨Nat.le_refl _, by simp⟩
  | value_enclosed hp _ =>
    have hlt := (weight_pushBack_le hp).1
    exact ⟨Nat.le_of_lt hlt, fun _ _ => hlt⟩
  | values_value hp _ | ruleList_atRule hp _ | ruleList_qualifiedRule hp _ =>
    exact ⟨(weight_pushBack_le hp).2, by simp⟩
  | @atRule_values c c₁ first hp =>
    have hle := Cursor.pull_weight_le .trees c
    rw [hp.cursor] at hle
    exact ⟨hle.trans (Nat.sub_le _ _), by simp⟩
  | @atRule_enclosed c c₁ c₂ first header hp hv =>
    have hle := Cursor.pull_weight_le .trees c
    rw [hp.cursor] at hle
    have hlt : c₂.weight < c.weight :=
      Nat.lt_of_lt_of_le (weight_lt_of_stop hv) (hle.trans (Nat.sub_le _ _))
    exact ⟨Nat.le_of_lt hlt, fun _ _ => hlt⟩
  | qualifiedRule_enclosed hv =>
    have hlt := weight_lt_of_stop hv
    exact ⟨Nat.le_of_lt hlt, fun _ _ => hlt⟩

theorem Needs.weight_le (h : k.Needs k') : k'.cursor.weight ≤ k.cursor.weight := by
  rcases h with h | h
  · exact Nat.le_of_lt h.weight_lt
  · exact h.weight_le.1

/-- **The weight falls from one opener to the next one inside of it.** -/
theorem enclosed_weight_lt {o : Opener} (h : Relation.TransGen Needs k ⟨.enclosed o, c⟩) :
    c.weight < k.cursor.weight := by
  obtain ⟨k₁, hle, hlast⟩ : ∃ k₁ : Call, k₁.cursor.weight ≤ k.cursor.weight ∧
      k₁.Needs ⟨.enclosed o, c⟩ := by
    obtain ⟨k₁, hk, hlast⟩ := Relation.TransGen.tail'_iff.1 h
    refine ⟨k₁, ?_, hlast⟩
    clear hlast
    induction hk with
    | refl => exact Nat.le_refl _
    | tail _ hn ih => exact hn.weight_le.trans ih
  rcases hlast with hlast | hlast
  · exact Nat.lt_of_lt_of_le hlast.weight_lt hle
  · exact Nat.lt_of_lt_of_le (hlast.weight_le.2 o rfl) hle

/-- Every call that a round asks for has less height. -/
theorem Needs.height_lt (h : k.Needs k') : k'.height < k.height := by
  unfold height
  rcases h with h | h
  · have hlt := h.weight_lt
    have hrank : k'.reader.rank = k.reader.rank := by cases h <;> rfl
    omega
  · obtain ⟨hle, hopen⟩ := h.weight_le
    by_cases hlt : k'.cursor.weight < k.cursor.weight
    · have hrank := k'.reader.rank_le
      omega
    · -- on the same cursor nothing is opened, and the rank tells
      have hrank : k'.reader.rank < k.reader.rank := by
        cases h with
        | value_enclosed => exact absurd (hopen _ rfl) hlt
        | _ => simp [Reader.rank]
      omega

/-! ### Unfolding -/

/-- `call` gives what the calls do that a round of the call `k` asks for. -/
def Supplied (call : (r : Reader) → Cursor → Outcome r.Value) (k : Call) : Prop :=
  ∀ k', k.Needs k' → call k'.reader k'.cursor = k'.read

namespace Supplied

variable {call : (r : Reader) → Cursor → Outcome r.Value}

theorem again {r r' : Reader} {c c' : Cursor} (h : Supplied call ⟨r, c⟩)
    (hk : Again ⟨r, c⟩ ⟨r', c'⟩) : call r' c' = r'.read c' :=
  h ⟨r', c'⟩ (.inl hk)

theorem makes {r r' : Reader} {c c' : Cursor} (h : Supplied call ⟨r, c⟩)
    (hk : Makes ⟨r, c⟩ ⟨r', c'⟩) : call r' c' = r'.read c' :=
  h ⟨r', c'⟩ (.inr hk)

theorem block {r : Reader} {c c' : Cursor} (h : Supplied call ⟨r, c⟩)
    (hk : Makes ⟨r, c⟩ ⟨.enclosed (.bracket .curly), c'⟩) :
    Reader.block call c' = c'.block .curly := by
  rw [Reader.block, h.makes hk]
  rfl

theorem pull {c : Cursor} (h : Supplied call ⟨.pull, c⟩) :
    Reader.unfold call .pull c = c.pull .trees := by
  rw [Reader.unfold]
  split
  · rename_i t? ht
    rw [Cursor.pull_of_ok .trees ht]
  · rename_i f hf
    by_cases hr : f.isRecoverable = true
    · rw [if_pos hr, Cursor.pull_of_skipped .trees hf hr, h.again (.skippedUrl hf hr)]
      rfl
    · rw [if_neg hr, Cursor.pull_of_fault .trees hf hr]

theorem value {c : Cursor} (h : Supplied call ⟨.value, c⟩) :
    Reader.unfold call .value c = c.value := by
  have hpull : call .pull c = c.pull .trees := h.makes .value_pull
  rw [Cursor.value_eq, Reader.unfold, hpull]
  refine Outcome.bind_congr fun t? ht => ?_
  rcases t? with _ | t
  · rfl
  · rcases ho : Opener.ofToken? t with _ | o
    · simp only [ho]
    · simp only [ho]
      exact congrArg _ (h.makes (.value_enclosed (Outcome.gives_of_result ht) ho))

theorem values {stops : Token → Bool} {c : Cursor} (h : Supplied call ⟨.values stops, c⟩) :
    Reader.unfold call (.values stops) c = c.values stops := by
  have hpull : call .pull c = c.pull .trees := h.makes .values_pull
  rw [Cursor.values_eq, Reader.unfold, hpull]
  refine Outcome.bind_congr fun t? ht => ?_
  rcases t? with _ | t
  · rfl
  · have hp := Outcome.gives_of_result ht
    by_cases hs : stops t = true
    · simp only [hs, ↓reduceIte]
    · rw [Bool.not_eq_true] at hs
      have hvalue : call .value ((c.pull .trees).cursor.pushBack t).2 =
          ((c.pull .trees).cursor.pushBack t).2.value := h.makes (.values_value hp hs)
      simp only [hs, Bool.false_eq_true, ↓reduceIte, hvalue]
      refine congrArg _ (Outcome.bind_congr fun v? hv => ?_)
      exact congrArg _ (h.again (.value hp hs (Outcome.gives_of_result hv)))

theorem enclosed {o : Opener} {c : Cursor} (h : Supplied call ⟨.enclosed o, c⟩) :
    Reader.unfold call (.enclosed o) c = c.enclosed o := by
  rw [Cursor.enclosed_eq, Reader.unfold, h.makes .enclosed_values]
  rfl

theorem atRule {c : Cursor} (h : Supplied call ⟨.atRule, c⟩) :
    Reader.unfold call .atRule c = c.atRule := by
  have hpull : call .pull c = c.pull .trees := h.makes .atRule_pull
  rw [Cursor.atRule, Reader.unfold, hpull]
  refine Outcome.bind_congr fun first hfirst => ?_
  have hp := Outcome.gives_of_result hfirst
  have hvalues : call (.values endsAtRule) (c.pull .trees).cursor =
      (c.pull .trees).cursor.values endsAtRule := h.makes (.atRule_values hp)
  rw [hvalues]
  refine Outcome.bind_congr fun ⟨header, stop⟩ hv => ?_
  -- the block is asked for behind a curly bracket only
  by_cases hs : stop = some (.opening .curly)
  · subst hs
    have hblock : Reader.block call ((c.pull .trees).cursor.values endsAtRule).cursor =
        ((c.pull .trees).cursor.values endsAtRule).cursor.block .curly :=
      h.block (.atRule_enclosed hp (Outcome.gives_of_result hv))
    exact congrArg (Outcome.map fun b => Rule.atRule (atRuleName first) header (some b)) hblock
  · rcases stop with _ | t
    · rfl
    · cases t with
      | opening b =>
        cases b with
        | curly => exact absurd rfl hs
        | _ => rfl
      | _ => rfl

theorem qualifiedRule {c : Cursor} (h : Supplied call ⟨.qualifiedRule, c⟩) :
    Reader.unfold call .qualifiedRule c = c.qualifiedRule := by
  have hvalues : call (.values endsQualified) c = c.values endsQualified :=
    h.makes .qualifiedRule_values
  rw [Cursor.qualifiedRule, Reader.unfold, hvalues]
  refine Outcome.bind_congr fun ⟨header, stop⟩ hv => ?_
  rcases stop with _ | t
  · rfl
  · exact congrArg (Outcome.map fun b => some (Rule.qualified header b))
      (h.block (.qualifiedRule_enclosed (Outcome.gives_of_result hv)))

theorem ruleList {top : Bool} {c : Cursor} (h : Supplied call ⟨.ruleList top, c⟩) :
    Reader.unfold call (.ruleList top) c = c.ruleList top := by
  have hpull : call .pull c = c.pull .trees := h.makes .ruleList_pull
  rw [Cursor.ruleList_eq, Reader.unfold, hpull]
  refine Outcome.bind_congr fun t? ht => ?_
  rcases t? with _ | t
  · rfl
  · have hp := Outcome.gives_of_result ht
    -- behind a rule the loop goes on
    have hbehind : RuleStart.ofToken top t ≠ .skip →
        (((c.pull .trees).cursor.pushBack t).2.rule (.ofToken top t)).bind
            (fun rule? c' => (call (.ruleList top) c').map fun rules => rule?.toList ++ rules) =
          (((c.pull .trees).cursor.pushBack t).2.rule (.ofToken top t)).bind
            fun rule? c' => (c'.ruleList top).map fun rules => rule?.toList ++ rules :=
      fun hs => Outcome.bind_congr fun rule? hr =>
        congrArg (Outcome.map fun rules => rule?.toList ++ rules)
          (h.again (.rule hp hs (Outcome.gives_of_result hr)))
    dsimp only
    cases hs : RuleStart.ofToken top t with
    | skip => exact h.again (.passedOver hp hs)
    | atRule =>
      rw [hs] at hbehind
      rw [h.makes (.ruleList_atRule hp hs)]
      exact congrArg (Outcome.after _) (hbehind (by simp))
    | qualified =>
      rw [hs] at hbehind
      rw [h.makes (.ruleList_qualifiedRule hp hs)]
      exact congrArg (Outcome.after _) (hbehind (by simp))

end Supplied

/-- **A round depends on the calls that it needs, and on no others.** -/
theorem unfold_congr {call : (r : Reader) → Cursor → Outcome r.Value} (h : Supplied call k) :
    Reader.unfold call k.reader k.cursor = k.read := by
  obtain ⟨r, c⟩ := k
  cases r with
  | pull => exact h.pull
  | value => exact h.value
  | values stops => exact h.values
  | enclosed o => exact h.enclosed
  | atRule => exact h.atRule
  | qualifiedRule => exact h.qualifiedRule
  | ruleList top => exact h.ruleList

/-- **Nothing is left to unfold** in a call that has been unfolded more often than it is
high, whatever stands in the place of the readers. -/
theorem unfold_iterate (call : (r : Reader) → Cursor → Outcome r.Value) {n : Nat}
    (hn : k.height < n) : (Reader.unfold^[n] call) k.reader k.cursor = k.read := by
  induction n generalizing k with
  | zero => exact absurd hn (Nat.not_lt_zero _)
  | succ n ih =>
    rw [Function.iterate_succ_apply']
    refine unfold_congr fun k' hk => ih ?_
    have hlt := hk.height_lt
    omega

end Call

/-! ### Entries -/

namespace Entry

/-- The reader that an entry calls. -/
def reader : Entry → Reader
  | stylesheet => .ruleList true
  | rules => .ruleList false
  | componentValues => .values fun _ => false

/-- The tree that an entry makes of what its reader gives. -/
def treeOf : (e : Entry) → e.reader.Value → Tree
  | stylesheet, rs => .stylesheet ⟨rs⟩
  | rules, rs => .rules rs
  | componentValues, (vs, _) => .componentValues vs

theorem read_eq_map (e : Entry) (c : Cursor) : e.read c = (e.reader.read c).map e.treeOf := by
  cases e with
  | stylesheet => exact Outcome.map_map _ _ _
  | rules => rfl
  | componentValues => exact Outcome.map_map _ _ _

end Entry

namespace Cursor.Reachable

variable {s : Text} {c : Cursor}

/-- **Every entry ends, wherever its cursor is and whatever was handed back to it.** The
call of its reader has no more depth than it has height, since each round needs only
calls of less height; and it comes to the end of the text, or right behind the first
fault that cannot be skipped. -/
theorem reading_ends (h : Reachable s c) (e : Entry) :
    (∀ k k' : Call, k.Again k' → k'.cursor.weight < k.cursor.weight) ∧
      (∀ (o o' : Opener) (d d' : Cursor),
        Relation.TransGen Call.Needs ⟨.enclosed o, d⟩ ⟨.enclosed o', d'⟩ → d'.weight < d.weight) ∧
      (∀ (k : Call) (call : (r : Reader) → Cursor → Outcome r.Value),
        (∀ k', k.Needs k' → k'.height < k.height) ∧
          (k.Supplied call → Reader.unfold call k.reader k.cursor = k.read)) ∧
      (∀ (n : Nat) (call : (r : Reader) → Cursor → Outcome r.Value),
        6 * c.weight + e.reader.rank < n →
          e.read c = ((Reader.unfold^[n] call) e.reader c).map e.treeOf) ∧
      ((∃ t, (e.read c).result = .ok t ∧ (e.read c).cursor.rest = [] ∧
          (e.read c).cursor.position = Text.size s) ∨
        ∃ f, (e.read c).result = .error f ∧
          c.halts.head? = some (f, (e.read c).cursor)) := by
  refine ⟨fun k k' => Call.Again.weight_lt, fun o o' d d' => Call.enclosed_weight_lt,
    fun k call => ⟨fun k' => Call.Needs.height_lt, Call.unfold_congr⟩, fun n call hn => ?_, ?_⟩
  · rw [Call.unfold_iterate (k := ⟨e.reader, c⟩) call hn]
    exact e.read_eq_map c
  · rcases (e.read_readsAll c).halt with ⟨-, ⟨t, ht⟩, hend⟩ | ⟨f, hf, hhalts⟩
    · have hkept : (e.read c).cursor.Kept s := (e.read_readsAll c).cursor ▸ h.kept.tokens
      exact .inl ⟨t, ht, hend.rest, hkept.position_of_atEnd hend⟩
    · exact .inr ⟨f, hf, by rw [hhalts]; rfl⟩

/-- A comma was handed back in front of a malformed url, and a block is open around a
unicode range: 156 unfoldings are enough, and the reading stops at the end or at
the range. -/
theorem reading_ends_comma_in_front :
    let s := ['u', 'r', 'l', '(', 'a', ' ', 'b', ')', '[', 'u', '+', '1']
    let c := ((Cursor.ofText s).pushBack .comma).2
    Reachable s c ∧ c.weight = 25 ∧
      (∀ call : (r : Reader) → Cursor → Outcome r.Value,
        Entry.rules.read c = ((Reader.unfold^[156] call) (.ruleList false) c).map .rules) ∧
      ((∃ t, (Entry.rules.read c).result = .ok t ∧ (Entry.rules.read c).cursor.rest = [] ∧
          (Entry.rules.read c).cursor.position = 12) ∨
        ∃ f, (Entry.rules.read c).result = .error f ∧
          c.halts.head? = some (f, (Entry.rules.read c).cursor)) := by
  intro s c
  have h : Reachable s c := .pushBack .comma .ofText
  have hweight : c.weight = 25 := by with_unfolding_all rfl
  obtain ⟨-, -, -, hunfold, hend⟩ := h.reading_ends .rules
  refine ⟨h, hweight, fun call => hunfold 156 call ?_, hend⟩
  rw [hweight]
  decide

end Cursor.Reachable
end CssReader
