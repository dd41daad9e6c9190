/-
# Tokens that are handed back

A cursor holds one token that was handed back, and a second one would displace it. The
readers of trees hand back all the time: each looks at the next token before it lets
another reader have it. No token is lost by this. A cursor that has just given a token
holds none, so there is room for this one, and whoever reads next reads it.

What holds between two tokens holds of whole calls: whatever is called, and however it
ends, the cursor holds no token when the call returns, and the log has no line about a
token that was lost. A reader that is let at a value finds one; a reader of a block is
let at what stands right behind an opening bracket.

Key definitions: `ComponentValue.StartedBy`, `Cursor.GaveLast`.
Key theorems: `Cursor.value_startedBy`, `Cursor.Forest.gaveLast`, `Entry.read_handsBack`,
`Cursor.script_loses_nothing`.
-/
import CssReader.Proofs.Unclosed

namespace CssReader

/-- The value begins with the token, and is all of it if it opens nothing. -/
def ComponentValue.StartedBy (t : Token) : ComponentValue → Prop
  | .token t' => t' = t ∧ Opener.ofToken? t = none
  | .function name _ _ => ∃ text, t = .function name text
  | .block b _ _ => t = .opening b

theorem Opener.node_startedBy {t : Token} {o : Opener} (h : ofToken? t = some o) (e : Enclosed) :
    (o.node e).StartedBy t := by
  rcases Cursor.ofToken?_eq_some h with ⟨b, rfl, rfl⟩ | ⟨name, text, rfl, rfl⟩
  · exact rfl
  · exact ⟨text, rfl⟩

/-- An opening bracket is a token that has a closing one. -/
theorem Opener.ofToken?_bracket_iff (t : Token) (b : Bracket) :
    ofToken? t = some (.bracket b) ↔ t.closer? = some (.closing b) := by
  cases t <;> simp [ofToken?, Token.closer?]

namespace Cursor

variable {c c' : Cursor}

/-! ### One token -/

/-- The token is the one that the cursor gave last. -/
def GaveLast (t : Token) (c : Cursor) : Prop := ∃ d : Cursor, (d.pull .trees).Gives (some t) c

theorem GaveLast.pending {t : Token} (h : c.GaveLast t) : c.pending = none := by
  obtain ⟨d, -, rfl⟩ := h
  exact pull_pending .trees d

/-- The value in front of a cursor that holds a token is there, and that token begins it. -/
theorem value_startedBy {t : Token} {v? : Option ComponentValue} (h : c.pending = none)
    (hv : (c.pushBack t).2.value.result = .ok v?) : ∃ v, v? = some v ∧ v.StartedBy t := by
  rw [value_pushBack t h] at hv
  rcases ho : Opener.ofToken? t with _ | o
  · rw [ho] at hv
    exact ⟨.token t, (Except.ok.inj hv).symm, rfl, ho⟩
  · rw [ho] at hv
    obtain ⟨e, -, rfl⟩ := Outcome.map_gives.1 (Outcome.gives_of_result hv)
    exact ⟨_, rfl, Opener.node_startedBy ho e⟩

/-- Whoever goes on behind values does so right behind the token that stopped them. -/
theorem Forest.gaveLast {stops : Token → Bool} {vs : List ComponentValue} {stop : Option Token}
    (h : Forest stops c vs stop c') {t : Token} (hs : stop = some t) : c'.GaveLast t := by
  induction h with
  | finish => simp at hs
  | stop hp _ =>
    obtain rfl := Option.some.inj hs
    exact ⟨_, hp⟩
  | token _ _ _ _ ih => exact ih hs
  | node _ _ _ _ _ _ ih => exact ih hs

/-! ### Whole calls -/

theorem tokens_pending (c : Cursor) : c.tokens.cursor.pending = none := by
  fun_induction tokens c with
  | case1 c | case2 c => exact pull_pending .tokens c
  | case3 c t ht ih => exact ih

/-- The log that a pass predicts is one of warnings. -/
theorem mem_log {starts : Token → RuleStart} {u : Unclosed} {ev : Event}
    (h : ev ∈ c.log starts u) : ∃ layer w, ev = .warning layer w := by
  have hscan : ∀ ev ∈ c.scan.events, ∃ layer w, ev = .warning layer w := by
    intro ev hev
    rcases mem_scan_events hev with ⟨w, rfl, -⟩ | ⟨p, rfl⟩
    · exact ⟨_, w, rfl⟩
    · exact ⟨_, _, rfl⟩
  rcases hts : c.tokens.result with f | ts
  · rw [log_of_error hts] at h
    exact hscan ev h
  · rw [log_of_ok hts] at h
    rcases List.mem_append.1 h with h | h
    · exact hscan ev h
    · obtain ⟨m, -, rfl⟩ := List.mem_map.1 h
      exact ⟨_, _, rfl⟩

end Cursor

/-- **A call leaves no token handed back, and none is lost**, wherever its cursor is and
whatever it held. -/
theorem Entry.read_handsBack (e : Entry) (c : Cursor) :
    (e.read c).cursor.pending = none ∧ ∀ t, Event.lost t ∉ (e.read c).events := by
  constructor
  · rw [(e.read_readsAll c).cursor]
    exact c.tokens_pending
  · intro t ht
    rw [e.read_log] at ht
    obtain ⟨layer, w, h⟩ := Cursor.mem_log ht
    cases h

namespace Cursor

theorem mem_script {κ α : Type} {run : κ → Cursor → Outcome α} {ks : List κ} {c : Cursor}
    {o : Outcome α} (h : o ∈ script run ks c) : ∃ k d, o = run k d := by
  induction ks generalizing c with
  | nil => simp [script] at h
  | cons k ks ih =>
    rcases List.mem_cons.1 h with rfl | h
    · exact ⟨k, c, rfl⟩
    · exact ih h

/-- **Handing back loses nothing**, in any calls on any cursor. No call leaves a token
behind, and no token is displaced. Wherever a token was just read there is room to hand it
back, and the value that is then read is one that the token begins. Blocks are read
behind the tokens that have a closing token, and behind a header only right behind an
opening curly bracket. -/
theorem script_loses_nothing (es : List Entry) (c : Cursor) :
    (∀ o ∈ script Entry.read es c, o.cursor.pending = none ∧ ∀ t, Event.lost t ∉ o.events) ∧
      (∀ (d : Cursor) (t : Token), d.GaveLast t → (d.pushBack t).1 = none ∧
        ∀ v?, (d.pushBack t).2.value.result = .ok v? → ∃ v, v? = some v ∧ v.StartedBy t) ∧
      (∀ t b, Opener.ofToken? t = some (.bracket b) ↔ t.closer? = some (.closing b)) ∧
      ∀ (d d' : Cursor) (header : List ComponentValue) (t : Token),
        ((d.values endsAtRule).Gives (header, some t) d' →
          d'.GaveLast t ∧ (t = .semicolon ∨ t = .opening .curly)) ∧
        ((d.values endsQualified).Gives (header, some t) d' →
          d'.GaveLast t ∧ t = .opening .curly) := by
  refine ⟨fun o ho => ?_, fun d t h => ⟨h.pending, fun v? hv => value_startedBy h.pending hv⟩,
    Opener.ofToken?_bracket_iff, fun d d' header t => ⟨fun h => ?_, fun h => ?_⟩⟩
  · obtain ⟨e, d, rfl⟩ := mem_script ho
    exact e.read_handsBack d
  · have hforest := values_gives_iff.1 h
    have hends : endsAtRule t = true := hforest.stops_stop rfl
    exact ⟨hforest.gaveLast rfl, by simpa [endsAtRule] using hends⟩
  · have hforest := values_gives_iff.1 h
    have hends : endsQualified t = true := hforest.stops_stop rfl
    exact ⟨hforest.gaveLast rfl, by simpa [endsQualified] using hends⟩

end Cursor
end CssReader
