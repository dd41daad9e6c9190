/-
# What is open when the text ends

One pass over the tokens tells what the end of the text leaves open: the brackets and
functions that have not been closed, the innermost first, and the rule whose block has
not been reached (`Unclosed.step`). The readers of trees, which call each other and each
report their own end while they return, report exactly this, each once and in this order,
and in front of it exactly what is found on the way to the tokens.

`Cursor.log` is the log that a pass predicts from a cursor on. It is taken apart as the
readers are: a reader that stops at the tokens at which `Unclosed` would change writes
its part of the log and leaves the rest (`Cursor.values_log`).

Key definitions: `RulePlace`, `Unclosed.step`, `Entry.openAtEnd`, `Cursor.log`,
`Unclosed.Rests`.
Key theorems: `Cursor.values_log`, `Cursor.ruleList_log`, `Entry.read_log`,
`Entry.events_exact`.
-/
import CssReader.Proofs.Calls
import CssReader.Proofs.Scanned

namespace CssReader

open Cursor (RuleStart)

/-! ### A pass over the tokens -/

/-- Where a token stands among the rules. -/
inductive RulePlace
  /-- No rule has begun since the last one ended. -/
  | between
  | atRule
  | qualified

namespace RulePlace

/-- The place behind a token that is in no bracket. `starts` says what the token does where
a rule may begin. -/
def step (starts : Token → RuleStart) (p : RulePlace) (t : Token) : RulePlace :=
  match p with
  | between =>
    match starts t with
    | .skip => between
    | .atRule => atRule
    | .qualified => if Cursor.endsQualified t then between else qualified
  | atRule => if Cursor.endsAtRule t then between else atRule
  | qualified => if Cursor.endsQualified t then between else qualified

/-- What is wrong with a text that ends here. -/
def mistake? : RulePlace → Option Mistake
  | between => none
  | atRule => some .openAtRule
  | qualified => some .openQualifiedRule

end RulePlace

/-- The brackets that are open behind a token, the innermost first. A closing token that
is not that of the innermost closes none. -/
def Opener.track (os : List Opener) (t : Token) : List Opener :=
  match Opener.ofToken? t with
  | some o => o :: os
  | none => if os.head?.any fun o => t = o.closer then os.tail else os

/-- What is open behind some tokens. -/
structure Unclosed where
  /-- The brackets and functions, the innermost first. -/
  brackets : List Opener
  /-- The rule, up to its block. -/
  rule : RulePlace

namespace Unclosed

/-- Nothing is open. -/
def nothing : Unclosed := ⟨[], .between⟩

/-- A bracket more is open. -/
def push (o : Opener) (u : Unclosed) : Unclosed := { u with brackets := o :: u.brackets }

/-- What is open behind one token more. -/
def step (starts : Token → RuleStart) (u : Unclosed) (t : Token) : Unclosed where
  brackets := Opener.track u.brackets t
  rule := if u.brackets.isEmpty then u.rule.step starts t else u.rule

/-- The mistakes of a text that ends here, in the order in which they are reported. -/
def mistakes (u : Unclosed) : List Mistake :=
  u.brackets.map Opener.mistake ++ u.rule.mistake?.toList

/-- The warnings about what is open, at the end that the cursor has come to. -/
def warnings (u : Unclosed) (c : Cursor) : List Event := u.mistakes.map fun m => c.endWarning m

/-- A token that is not among `stops` leaves open what is open, and opens at most itself. -/
def Rests (starts : Token → RuleStart) (u : Unclosed) (stops : Token → Bool) : Prop :=
  ∀ t, stops t = false → u.step starts t = (Opener.ofToken? t).elim u u.push

end Unclosed

/-- How an entry takes a token where a rule may begin. Component values have no rules. -/
def Entry.ruleStart : Entry → Token → RuleStart
  | .stylesheet => .ofToken true
  | .rules => .ofToken false
  | .componentValues => fun _ => .skip

/-- The mistakes at the end of a text with these tokens. -/
def Entry.openAtEnd (e : Entry) (ts : List Token) : List Mistake :=
  (ts.foldl (Unclosed.step e.ruleStart) .nothing).mistakes

/-! ### What a token changes -/

theorem Opener.ofToken?_closer (o : Opener) : ofToken? o.closer = none := by
  cases o <;> rfl

namespace Unclosed

variable {starts : Token → RuleStart} {u : Unclosed} {p : RulePlace} {t : Token} {o : Opener}

/-- The closing token of what is open alone changes that, or opens more. -/
theorem push_rests (u : Unclosed) (o : Opener) :
    (u.push o).Rests starts fun t => t = o.closer := by
  intro t ht
  rw [decide_eq_false_iff_not] at ht
  cases ho : Opener.ofToken? t <;> simp [step, push, Opener.track, ho, ht]

theorem step_closer (u : Unclosed) (o : Opener) : (u.push o).step starts o.closer = u := by
  simp [step, push, Opener.track, o.ofToken?_closer]

/-- Outside of brackets only those tokens change anything that end a header or begin a
rule. -/
theorem outside_rests {stops : Token → Bool} (h : ∀ t, stops t = false → p.step starts t = p) :
    Rests starts ⟨[], p⟩ stops := by
  intro t ht
  cases ho : Opener.ofToken? t <;> simp [step, push, Opener.track, ho, h t ht]

theorem atRule_rests : Rests starts ⟨[], .atRule⟩ Cursor.endsAtRule :=
  outside_rests fun t ht => by simp [RulePlace.step, ht]

theorem qualified_rests : Rests starts ⟨[], .qualified⟩ Cursor.endsQualified :=
  outside_rests fun t ht => by simp [RulePlace.step, ht]

/-- Without rules nothing but brackets can be open. -/
theorem nothing_rests : Rests (fun _ => .skip) nothing fun _ => false :=
  outside_rests fun _ _ => rfl

theorem step_outside (h : Opener.ofToken? t = none) :
    step starts ⟨[], p⟩ t = ⟨[], p.step starts t⟩ := by
  simp [step, Opener.track, h]

/-- A qualified rule is read from its first token on. -/
theorem step_qualified (h : starts t = .qualified) :
    nothing.step starts t = step starts ⟨[], .qualified⟩ t := by
  simp [step, nothing, RulePlace.step, h]

/-- A block that begins behind a header ends the rule when it begins. -/
theorem step_block (hp : p ≠ .between) :
    step starts ⟨[], p⟩ (.opening .curly) = nothing.push (.bracket .curly) := by
  cases p with
  | between => exact absurd rfl hp
  | atRule | qualified => rfl

@[simp] theorem warnings_nothing (c : Cursor) : nothing.warnings c = [] := rfl

theorem warnings_push (u : Unclosed) (o : Opener) (c : Cursor) :
    (u.push o).warnings c = c.endWarning o.mistake :: u.warnings c := rfl

end Unclosed

/-- A token that opens something begins a qualified rule. -/
theorem Cursor.ofToken?_of_start {top : Bool} {t : Token}
    (h : RuleStart.ofToken top t ≠ .qualified) : Opener.ofToken? t = none := by
  rcases ho : Opener.ofToken? t with _ | o
  · rfl
  · exact absurd (ruleStart_opener ho) h

namespace Cursor

variable {starts : Token → RuleStart} {u : Unclosed}

/-! ### The log that a pass predicts -/

/-- What is found on the way to all tokens behind the cursor, and behind it the warnings
about what these leave open, if the text ends without a fault. -/
def log (starts : Token → RuleStart) (u : Unclosed) (c : Cursor) : List Event :=
  c.scan.thenLog fun ts c' => (ts.foldl (Unclosed.step starts) u).warnings c'

theorem log_eq (starts : Token → RuleStart) (u : Unclosed) (c : Cursor) :
    c.log starts u = (c.pull .trees).thenLog fun t? c' =>
      match t? with
      | none => u.warnings c'
      | some t => c'.log starts (u.step starts t) := by
  rw [log, scan_eq, Outcome.bind_thenLog]
  refine Outcome.thenLog_congr fun t? _ => ?_
  cases t? with
  | none => rfl
  | some t => exact Outcome.map_thenLog _ _

theorem log_of_ok {c : Cursor} {ts : List Token} (h : c.tokens.result = .ok ts) :
    c.log starts u =
      c.scan.events ++ (ts.foldl (Unclosed.step starts) u).warnings c.tokens.cursor := by
  simp [log, Outcome.thenLog, scan, h]

theorem log_of_error {c : Cursor} {f : Fault} (h : c.tokens.result = .error f) :
    c.log starts u = c.scan.events := by
  simp [log, Outcome.thenLog, scan, h]

/-- At the end of the text only the end is left to report. -/
theorem AtEnd.log {c : Cursor} (h : c.AtEnd) : c.log starts u = u.warnings c := by
  rw [log_eq, h.pull]
  rfl

theorem log_pushBack {c : Cursor} (t : Token) (h : c.pending = none) :
    (c.pushBack t).2.log starts u = c.log starts (u.step starts t) := by
  rw [log_eq, pull_pushBack t .trees h]
  rfl

/-- A reading of values writes its part of the log, and leaves the rest to those who go on
at the token that stops it. -/
def WritesLog (starts : Token → RuleStart) (u : Unclosed) (stops : Token → Bool)
    (c : Cursor) : Prop :=
  c.log starts u = (c.values stops).thenLog fun (_, stop) c' =>
    match stop with
    | none => u.warnings c'
    | some t => c'.log starts (u.step starts t)

/-- Behind a reading of values is the end of the text, or a token that stops the reading. -/
theorem values_thenLog_congr {stops : Token → Bool} {c : Cursor}
    {k k' : List ComponentValue × Option Token → Cursor → List Event}
    (hend : ∀ vs c', c'.AtEnd → k (vs, none) c' = k' (vs, none) c')
    (hstop : ∀ vs t c', stops t = true → k (vs, some t) c' = k' (vs, some t) c') :
    (c.values stops).thenLog k = (c.values stops).thenLog k' := by
  refine Outcome.thenLog_congr fun ⟨vs, stop⟩ hv => ?_
  have hforest := values_gives_iff.1 (Outcome.gives_of_result hv)
  rcases stop with _ | t
  · exact hend vs _ (hforest.atEnd rfl)
  · exact hstop vs t _ (hforest.stops_stop rfl)

/-- Behind what was open in a bracket the log goes on as if there had been no bracket. -/
theorem WritesLog.enclosed {o : Opener} {c : Cursor}
    (h : c.WritesLog starts (u.push o) fun t => t = o.closer) :
    c.log starts (u.push o) = (c.enclosed o).thenLog fun _ c' => c'.log starts u := by
  rw [h, enclosed_eq, Outcome.bind_thenLog]
  refine values_thenLog_congr (fun vs c' hend => ?_) fun vs t c' ht => ?_
  · simp [hend.log, Unclosed.warnings_push]
  · obtain rfl : t = o.closer := by simpa using ht
    simp [u.step_closer o]

/-- **A reading of values writes its part of the log** if it stops at every token that would
change what is open. -/
theorem values_log {stops : Token → Bool} (h : u.Rests starts stops) (c : Cursor) :
    c.WritesLog starts u stops := by
  induction hn : c.weight using Nat.strongRecOn generalizing u stops c with
  | ind n ih =>
    subst hn
    rw [WritesLog, log_eq, values_unroll, Outcome.bind_thenLog]
    refine Outcome.thenLog_congr fun t? ht => ?_
    rcases t? with _ | t
    · rfl
    · have hw := pull_weight_lt .trees c (by simp [ht])
      generalize (c.pull .trees).cursor = c₁ at hw ⊢
      dsimp only
      by_cases hs : stops t = true
      · rw [if_pos hs]
        rfl
      · have hstep := h t (Bool.not_eq_true _ ▸ hs)
        rw [if_neg hs, hstep]
        rcases Opener.ofToken? t with _ | o
        · rw [Option.elim_none, Outcome.map_thenLog]
          exact ih _ hw h c₁ rfl
        · have hinner : c₁.WritesLog starts (u.push o) _ := ih _ hw (u.push_rests o) c₁ rfl
          have hw₂ := enclosed_weight_le o c₁
          rw [Option.elim_some, hinner.enclosed, Outcome.bind_thenLog]
          refine Outcome.thenLog_congr fun e _ => ?_
          rw [Outcome.map_thenLog]
          exact ih _ (by omega) h _ rfl

theorem enclosed_log (o : Opener) (c : Cursor) :
    c.log starts (u.push o) = (c.enclosed o).thenLog fun _ c' => c'.log starts u :=
  (values_log (u.push_rests o) c).enclosed

theorem block_log (b : Bracket) (c : Cursor) :
    c.log starts (u.push (.bracket b)) = (c.block b).thenLog fun _ c' => c'.log starts u := by
  rw [block, Outcome.map_thenLog]
  exact enclosed_log _ c

/-! ### Rules -/

/-- An at-rule behind its first token, which has been handed back. -/
theorem atRule_log {c : Cursor} (t : Token) (h : c.pending = none) :
    c.log starts ⟨[], .atRule⟩ =
      (c.pushBack t).2.atRule.thenLog fun _ c' => c'.log starts .nothing := by
  rw [atRule, pull_pushBack t .trees h, values_log Unclosed.atRule_rests c]
  simp only [Outcome.bind_thenLog, Outcome.ok_thenLog, List.nil_append]
  refine values_thenLog_congr (fun header c' hend => ?_) fun header t c' hends => ?_
  · rw [Outcome.ok_thenLog, hend.log]
    rfl
  · by_cases ht : t = .opening .curly
    · subst ht
      dsimp only
      rw [Unclosed.step_block (by simp), block_log, Outcome.map_thenLog]
    · obtain rfl : t = .semicolon := by simpa [endsAtRule, ht] using hends
      rfl

theorem qualifiedRule_log (c : Cursor) :
    c.log starts ⟨[], .qualified⟩ =
      c.qualifiedRule.thenLog fun _ c' => c'.log starts .nothing := by
  rw [qualifiedRule, values_log Unclosed.qualified_rests c, Outcome.bind_thenLog]
  refine values_thenLog_congr (fun header c' hend => ?_) fun header t c' hends => ?_
  · rw [Outcome.ok_thenLog, hend.log]
    rfl
  · obtain rfl : t = .opening .curly := by simpa [endsQualified] using hends
    dsimp only
    rw [Unclosed.step_block (by simp), block_log, Outcome.map_thenLog]

/-- A rule, from its first token on. -/
theorem rule_log {top : Bool} {c : Cursor} {t : Token} (h : c.pending = none)
    (hs : RuleStart.ofToken top t ≠ .skip) :
    c.log (.ofToken top) (Unclosed.nothing.step (.ofToken top) t) =
      ((c.pushBack t).2.rule (.ofToken top t)).thenLog fun _ c' =>
        c'.log (.ofToken top) .nothing := by
  rcases hstart : RuleStart.ofToken top t with _ | _ | _
  · exact absurd hstart hs
  · have hne : RuleStart.ofToken top t ≠ .qualified := by simp [hstart]
    rw [Unclosed.nothing, Unclosed.step_outside (ofToken?_of_start hne), RulePlace.step, hstart,
      rule, Outcome.map_thenLog]
    exact atRule_log t h
  · rw [Unclosed.step_qualified hstart, ← log_pushBack t h]
    exact qualifiedRule_log _

/-- **The rules up to the end of the text report what the pass predicts.** -/
theorem ruleList_log (top : Bool) (c : Cursor) :
    (c.ruleList top).events = c.log (.ofToken top) .nothing := by
  induction hn : c.weight using Nat.strongRecOn generalizing c with
  | ind n ih =>
    subst hn
    rw [log_eq, ruleList_eq, Outcome.bind_events]
    refine Outcome.thenLog_congr fun t? ht => ?_
    rcases t? with _ | t
    · rfl
    · have hp := pull_pending .trees c
      have hw := pull_weight_lt .trees c (by simp [ht])
      dsimp only
      by_cases hs : RuleStart.ofToken top t = .skip
      · have hne : RuleStart.ofToken top t ≠ .qualified := by simp [hs]
        rw [if_pos hs, ih _ hw _ rfl, Unclosed.nothing,
          Unclosed.step_outside (ofToken?_of_start hne), RulePlace.step, hs]
      · rw [if_neg hs, rule_log hp hs, pushBack, hp, lostEvents, Outcome.after_nil,
          Outcome.bind_events]
        refine Outcome.thenLog_congr fun r _ => ?_
        exact ih _ (rule_pushBack_weight_lt ht hs) _ rfl

end Cursor

/-! ### Entries -/

/-- **Every entry reports what the pass over the tokens predicts**, wherever its cursor is. -/
theorem Entry.read_log (e : Entry) (c : Cursor) :
    (e.read c).events = c.log e.ruleStart .nothing := by
  cases e with
  | stylesheet => exact c.ruleList_log true
  | rules => exact c.ruleList_log false
  | componentValues =>
    have hlog := Cursor.values_log Unclosed.nothing_rests c
    rw [Cursor.WritesLog] at hlog
    show (c.values fun _ => false).events = c.log (fun _ => .skip) .nothing
    rw [hlog, ← Outcome.thenLog_nil]
    exact Cursor.values_thenLog_congr (fun vs c' _ => rfl) fun vs t c' ht => absurd ht (by simp)

namespace Cursor

/-- What is reported at the end is reported at one place. -/
theorem warnings_rises (u : Unclosed) (c : Cursor) :
    Text.Rises c.position c.position (Event.positions (u.warnings c)) := by
  unfold Unclosed.warnings
  induction u.mistakes with
  | nil => exact Nat.le_refl _
  | cons m ms ih => exact ⟨Nat.le_refl _, ih⟩

/-- What a reader of trees reports is in the order of the text. -/
theorem log_rises (starts : Token → RuleStart) (u : Unclosed) (c : Cursor) :
    Text.Rises c.position c.tokens.cursor.position (Event.positions (c.log starts u)) := by
  have hscan : Text.Rises c.position c.tokens.cursor.position
      (Event.positions c.scan.events) := by
    rw [scan, Event.positions_forTrees]
    exact c.tokens_rises
  rcases hts : c.tokens.result with f | ts
  · rw [log_of_error hts]
    exact hscan
  · rw [log_of_ok hts, Event.positions_append]
    exact hscan.append (warnings_rises _ _)

end Cursor

/-- **The log of an entry is exact.** It holds what is found on the way to the tokens, in the
order of the tokens' own log; then, if there was no fault, a warning for each bracket and
function that is open at the end of the text, the innermost first, and one for a rule whose
block has not been reached. The positions do not go back. -/
theorem Entry.events_exact (e : Entry) (s : Text) :
    ((e.read (.ofText s)).events =
        (Cursor.ofText s).tokens.events.filterMap Event.forTrees ++
          match (Cursor.ofText s).tokens.result with
          | .ok ts => (e.openAtEnd ts).map fun m => .warning .trees ⟨m, Text.size s⟩
          | .error _ => []) ∧
      (∀ f, (e.read (.ofText s)).result = .error f ↔ (Cursor.ofText s).tokens.result = .error f) ∧
      (∀ w, .warning .trees w ∈ (Cursor.ofText s).tokens.events.filterMap Event.forTrees →
        w.mistake = .skippedUrl) ∧
      (Event.positions (e.read (.ofText s)).events).Pairwise (· ≤ ·) := by
  refine ⟨?_, (e.read_readsAll _).error, fun w hw => ?_, ?_⟩
  · rcases hts : (Cursor.ofText s).tokens.result with f | ts
    · rw [e.read_log, Cursor.log_of_error hts]
      exact (List.append_nil _).symm
    · -- without a fault the cursor has come to the end of the text
      have hpos := (Cursor.Kept.ofText s).tokens.position_of_atEnd (Cursor.tokens_atEnd hts)
      rw [e.read_log, Cursor.log_of_ok hts, Unclosed.warnings]
      simp only [Cursor.endWarning, hpos]
      rfl
  · rcases Cursor.mem_scan_events hw with ⟨w', h, -⟩ | ⟨p, h⟩ <;> cases h
    rfl
  · rw [e.read_log]
    exact (Cursor.log_rises _ _ _).pairwise.1

/-- In an at-rule with the tokens of `@a b({` three things are open. -/
example : (Entry.stylesheet.openAtEnd
      [.atKeyword ['a'], .whitespace, .function ['b'] ['b', '('], .opening .curly]).map
        (fun m => Warning.message ⟨m, 0⟩) =
    ["parse error: EOF in simple block", "parse error: EOF in function",
      "parse error: EOF in at-rule"] := by
  decide

end CssReader
