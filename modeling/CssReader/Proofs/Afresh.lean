/-
# Comments searched for afresh

A cursor that has met a comment without an end remembers where, and from there on
neither searches for the end of a comment nor reports one. `Cursor.nextAfresh` reads
without this memory: it searches behind every slash and star in front of a token, and
reports each comment that it finds to be open.

Both read the same. Behind an open comment the search finds nothing, so to leave it
out changes neither the token nor the place of the cursor. The logs differ in the
warnings about open comments alone: of these the cursor that remembers writes only
the first (`Event.once`). `Outcome.Recalls` says this of one outcome and another; it
passes from a step to what is read by steps.

Key definitions: `Cursor.nextAfresh`, `Cursor.tokensAfresh`, `Event.once`, `Outcome.Recalls`.
Key theorems: `Cursor.nextAfresh_reports`, `Cursor.Kept.next_recalls`,
`Cursor.Kept.tokens_recalls`.
-/
import CssReader.Proofs.Lexeme.Warnings
import CssReader.Proofs.Restart
import CssReader.Proofs.Resume
import CssReader.Proofs.Trace

namespace CssReader

/-! ### Warnings about open comments -/

namespace Event

/-- Whether the event is a warning about an open comment. -/
def isOpenComment : Event → Bool
  | .warning _ w => w.mistake = .openComment
  | _ => false

/-- The log with one warning about an open comment at most: the first, and not even
that one if an open comment is known already. -/
def once (known : Bool) : List Event → List Event
  | [] => []
  | e :: es =>
    if e.isOpenComment then (if known then once true es else e :: once true es)
    else e :: once known es

theorem once_append (known : Bool) (es es' : List Event) :
    once known (es ++ es') = once known es ++ once (known || es.any isOpenComment) es' := by
  induction es generalizing known with
  | nil => simp [once]
  | cons e es ih =>
    rw [List.cons_append, once, once, List.any_cons, ih, ih]
    cases e.isOpenComment <;> cases known <;> simp

/-- Events about other things stay in the log. -/
theorem once_of_other {known : Bool} {es : List Event} (h : es.any isOpenComment = false) :
    once known es = es := by
  induction es with
  | nil => rfl
  | cons e es ih =>
    rw [List.any_cons, Bool.or_eq_false_iff] at h
    simp [once, h.1, ih h.2]

/-- How many warnings about open comments are left in the log. -/
theorem countP_once (known : Bool) (es : List Event) :
    (once known es).countP isOpenComment = (!known && es.any isOpenComment).toNat := by
  induction es generalizing known with
  | nil => cases known <;> rfl
  | cons e es ih =>
    rw [once, List.any_cons]
    rcases he : e.isOpenComment with _ | _ <;> cases known <;> simp [he, ih]

end Event

/-- No warning of a lexeme is about a comment. -/
theorem Lexeme.warnings_other {s : Text} {l : Lexeme} (h : read s = some l) (n : Nat) :
    (l.warnings.map fun w => Event.warning .tokens (w.shift n)).any Event.isOpenComment =
      false := by
  rw [List.any_eq_false]
  intro e he
  obtain ⟨w, hw, rfl⟩ := List.mem_map.1 he
  rcases (read_tolerates h).mistake w hw with hm | hm <;>
    simp [Event.isOpenComment, Warning.shift, hm]

namespace Cursor

/-! ### Reading without memory -/

/-- The cursor without its memory of an open comment. -/
def forget (c : Cursor) : Cursor := { c with openComment := none }

/-- The cursor behind the comments in front of it, all of which are searched for. -/
def skipAfresh (c : Cursor) : Cursor :=
  let (skipped, rest) := Comment.run c.rest
  { c with
    rest
    position := c.position + Text.size skipped
    tokenStart := c.position + Text.size skipped }

/-- The warning about an open comment in front of the cursor, if there is one. -/
def openCommentHere (c : Cursor) : List Event :=
  if Comment.opens c.rest then [.warning .tokens ⟨.openComment, c.position⟩] else []

/-- The next token, where every comment in front of it is searched for: none is
remembered, and one that is open is reported whenever it is met. -/
def nextAfresh (c : Cursor) : Outcome (Option Token) :=
  match c.pending with
  | some t => ⟨.ok (some t), { c with pending := none }, []⟩
  | none =>
    match Lexeme.read c.skipAfresh.rest with
    | none => ⟨.ok none, c.skipAfresh, c.skipAfresh.openCommentHere⟩
    | some l => c.skipAfresh.outcomeOf c.skipAfresh.openCommentHere l

theorem skipAfresh_size_le (c : Cursor) : Text.size c.skipAfresh.rest ≤ Text.size c.rest := by
  have hsplit := congrArg Text.size (Comment.run_split c.rest)
  rw [Text.size_append] at hsplit
  show Text.size (Comment.run c.rest).2 ≤ Text.size c.rest
  omega

theorem nextAfresh_weight_lt {c : Cursor} (h : c.nextAfresh.result ≠ .ok none) :
    c.nextAfresh.cursor.weight < c.weight := by
  rcases hp : c.pending with _ | t
  · rcases hl : Lexeme.read c.skipAfresh.rest with _ | l
    · simp [nextAfresh, hp, hl] at h
    · have hskip := skipAfresh_size_le c
      have hlt : Text.size l.rest < Text.size c.skipAfresh.rest := advance_size_lt hl
      have hpending : c.skipAfresh.pending = none := hp
      simp only [nextAfresh, hp, hl, outcomeOf, advance, weight, hpending]
      simp only [Option.isSome_none, Bool.false_eq_true, if_false]
      omega
  · simp [nextAfresh, hp, weight]

/-- All tokens up to the end of the text, read without memory. -/
def tokensAfresh (c : Cursor) : Outcome (List Token) :=
  match _h : c.nextAfresh.result with
  | .ok none => ⟨.ok [], c.nextAfresh.cursor, c.nextAfresh.events⟩
  | .ok (some t) =>
    (c.nextAfresh.cursor.tokensAfresh.map (t :: ·)).after (c.nextAfresh.events ++ [.taken t])
  | .error f =>
    if f.isRecoverable then
      c.nextAfresh.cursor.tokensAfresh.after
        (c.nextAfresh.events ++ [.warning .tokens ⟨.skippedUrl, f.position⟩])
    else ⟨.error f, c.nextAfresh.cursor, c.nextAfresh.events⟩
termination_by c.weight
decreasing_by all_goals exact nextAfresh_weight_lt (by simp [_h])

theorem Kept.forget {s : Text} {c : Cursor} (h : c.Kept s) : c.forget.Kept s := by
  obtain ⟨hs, before, last, hb⟩ := h
  exact ⟨hs, before, last, hb.source, hb.tokenStart, hb.position, fun q hq => by
    simp [Cursor.forget] at hq⟩

/-! ### What is reported without memory -/

/-- **Without memory, an open comment is reported wherever a token begins with one**: with
a slash and a star that no star and slash follow. -/
theorem nextAfresh_reports {s : Text} {c : Cursor} (h : c.Kept s) (p : Nat) :
    .warning .tokens ⟨.openComment, p⟩ ∈ c.nextAfresh.events ↔
      c.pending = none ∧ p = c.nextAfresh.cursor.tokenStart ∧
        ∃ body, Text.dropBytes? p s = some ('/' :: '*' :: body) ∧ ¬['*', '/'] <:+: body := by
  rcases hp : c.pending with _ | t
  · obtain ⟨hs, before, last, hb⟩ := h
    have hread : Comment.read? c.skipAfresh.rest = none := Comment.read?_run c.rest
    -- the token begins where the comments in front of the cursor end
    have hstart : c.nextAfresh.cursor.tokenStart = c.skipAfresh.position := by
      simp only [nextAfresh, hp]
      rcases Lexeme.read c.skipAfresh.rest with _ | l <;> rfl
    have hrest : Text.dropBytes? c.skipAfresh.position s = some c.skipAfresh.rest := by
      have hall : s = before ++ last ++ (Comment.run c.rest).1 ++ c.skipAfresh.rest := by
        rw [← hs, hb.source, List.append_assoc _ _ c.skipAfresh.rest]
        exact congrArg _ (Comment.run_split c.rest).symm
      have hpos : c.skipAfresh.position = Text.size (before ++ last ++ (Comment.run c.rest).1) := by
        rw [Text.size_append, ← hb.position]
        rfl
      rw [hpos, hall]
      exact Text.dropBytes?_size_append _ _
    have hevents : .warning .tokens ⟨.openComment, p⟩ ∈ c.nextAfresh.events ↔
        Comment.opens c.skipAfresh.rest = true ∧ p = c.skipAfresh.position := by
      have hhere : .warning .tokens ⟨.openComment, p⟩ ∈ c.skipAfresh.openCommentHere ↔
          Comment.opens c.skipAfresh.rest = true ∧ p = c.skipAfresh.position := by
        simp [openCommentHere]
      rw [← hhere]
      simp only [nextAfresh, hp]
      rcases hl : Lexeme.read c.skipAfresh.rest with _ | l
      · rfl
      · have hother := List.any_eq_false.1 (Lexeme.warnings_other hl c.skipAfresh.position)
        refine List.mem_append.trans (or_iff_left fun hmem => hother _ hmem ?_)
        simp [Event.isOpenComment]
    rw [hevents, hstart]
    constructor
    · rintro ⟨hopens, rfl⟩
      obtain ⟨body, hbody⟩ := Comment.opens_iff.1 hopens
      rw [hbody, Comment.read?_eq_none_of_opens, Comment.close?_eq_none] at hread
      exact ⟨rfl, rfl, body, hbody ▸ hrest, hread⟩
    · rintro ⟨-, rfl, body, hbody, -⟩
      have heq : c.skipAfresh.rest = '/' :: '*' :: body :=
        Option.some.inj (hrest.symm.trans hbody)
      exact ⟨Comment.opens_iff.2 ⟨body, heq⟩, rfl⟩
  · simp [nextAfresh, hp]

end Cursor

/-! ### The same with memory -/

/-- The outcome `o` of a cursor that remembers open comments, where `o₀` is that of one
that does not: the result and the place are the same, and the log has no warning about an
open comment but the first. That is not there either if an open comment was `known`. -/
structure Outcome.Recalls {α : Type} (known : Bool) (o o₀ : Outcome α) : Prop where
  result : o.result = o₀.result
  cursor : o.cursor.forget = o₀.cursor
  events : o.events = Event.once known o₀.events
  known : o.cursor.openComment.isSome = (known || o₀.events.any Event.isOpenComment)

namespace Outcome.Recalls

variable {α β : Type} {known : Bool} {o o₀ : Outcome α}

theorem map (h : Recalls known o o₀) (f : α → β) : Recalls known (o.map f) (o₀.map f) :=
  ⟨congrArg (Except.map f) h.result, h.cursor, h.events, h.known⟩

/-- What is read behind a step, with the log of the step in front of its own. -/
theorem after {es es₀ es' : List Event} (h : Recalls (known || es₀.any Event.isOpenComment) o o₀)
    (hes : es = Event.once known es₀) (hes' : es'.any Event.isOpenComment = false) :
    Recalls known (o.after (es ++ es')) (o₀.after (es₀ ++ es')) := by
  have hany : (es₀ ++ es').any Event.isOpenComment = es₀.any Event.isOpenComment := by
    rw [List.any_append, hes', Bool.or_false]
  refine ⟨h.result, h.cursor, ?_, ?_⟩
  · show es ++ es' ++ o.events = Event.once known (es₀ ++ es' ++ o₀.events)
    rw [Event.once_append, Event.once_append, Event.once_of_other hes', hany, hes, h.events]
  · show o.cursor.openComment.isSome =
      (known || (es₀ ++ es' ++ o₀.events).any Event.isOpenComment)
    rw [h.known, List.any_append, hany, Bool.or_assoc]

end Outcome.Recalls

namespace Cursor

/-- Behind the comments in front of it a cursor knows of an open comment if it did before. -/
theorem Behind.isBehindOpenComment_skipComments {c : Cursor} {before last : Text}
    (h : c.Behind before last) :
    c.skipComments.isBehindOpenComment = c.openComment.isSome := by
  have hbehind := h.isBehindOpenComment_eq
  rw [h.skipComments_eq]
  rcases ho : c.openComment with _ | q
  · simp [isBehindOpenComment]
  · have hle : q ≤ c.position := by simpa [isBehindOpenComment, ho] using hbehind
    simp only [isBehindOpenComment, Option.any_some, Option.isSome_some, decide_eq_true_eq]
    omega

/-- The open comment in front of a token is noted, unless one is known. -/
theorem Behind.noteOpenComment_recalls {c : Cursor} {before last : Text}
    (h : c.Behind before last) :
    c.skipComments.noteOpenComment.1.forget = c.forget.skipAfresh ∧
      c.skipComments.noteOpenComment.2 =
        Event.once c.openComment.isSome c.forget.skipAfresh.openCommentHere ∧
      c.skipComments.noteOpenComment.1.openComment.isSome =
        (c.openComment.isSome || c.forget.skipAfresh.openCommentHere.any Event.isOpenComment) := by
  have hbehind := h.isBehindOpenComment_skipComments
  have hskip : c.skipComments = c.skipAfresh := h.skipComments_eq
  rw [hskip] at hbehind ⊢
  unfold noteOpenComment openCommentHere
  rw [hbehind, show c.forget.skipAfresh.rest = c.skipAfresh.rest from rfl]
  have hopen : c.skipAfresh.openComment = c.openComment := rfl
  rcases hk : c.openComment.isSome with _ | _ <;> rcases Comment.opens c.skipAfresh.rest with _ | _
  · exact ⟨rfl, rfl, hk⟩
  · exact ⟨rfl, rfl, rfl⟩
  · exact ⟨rfl, rfl, hk⟩
  · exact ⟨rfl, rfl, hk⟩

/-- What a lexeme gives behind an open comment that is noted or known. -/
theorem outcomeOf_recalls {c c₀ : Cursor} {known : Bool} {es es₀ : List Event} {s : Text}
    {l : Lexeme} (hl : Lexeme.read s = some l) (hc : c.forget = c₀)
    (hes : es = Event.once known es₀)
    (hknown : c.openComment.isSome = (known || es₀.any Event.isOpenComment)) :
    (c.outcomeOf es l).Recalls known (c₀.outcomeOf es₀ l) := by
  subst hc hes
  have hother := Lexeme.warnings_other hl c.forget.position
  refine ⟨rfl, rfl, ?_, ?_⟩
  · simp only [outcomeOf, Event.once_append, Event.once_of_other hother]
    rfl
  · simp only [outcomeOf, List.any_append, hother, Bool.or_false]
    exact hknown

/-- **A step is the same with memory**, but for warnings about open comments. -/
theorem Kept.next_recalls {s : Text} {c : Cursor} (h : c.Kept s) :
    c.next.Recalls c.openComment.isSome c.forget.nextAfresh := by
  rcases hp : c.pending with _ | t
  · obtain ⟨-, before, last, hb⟩ := h
    obtain ⟨hcursor, hevents, hknown⟩ := hb.noteOpenComment_recalls
    have hrest : c.skipComments.noteOpenComment.1.rest = c.forget.skipAfresh.rest := by
      rw [← hcursor]
      rfl
    rw [next_of_pending hp, hrest]
    simp only [nextAfresh, show c.forget.pending = none from hp]
    rcases hl : Lexeme.read c.forget.skipAfresh.rest with _ | l
    · exact ⟨rfl, hcursor, hevents, hknown⟩
    · exact outcomeOf_recalls hl hcursor hevents hknown
  · have hplain : c.forget.nextAfresh =
        ⟨.ok (some t), { c.forget with pending := none }, []⟩ := by
      simp [nextAfresh, show c.forget.pending = some t from hp]
    rw [next_of_held hp, hplain]
    exact ⟨rfl, rfl, rfl, by simp⟩

/-- All tokens, by what the first step comes to. -/
theorem tokens_next (c : Cursor) :
    c.tokens = match c.next.result with
      | .ok none => ⟨.ok [], c.next.cursor, c.next.events⟩
      | .ok (some t) =>
        (c.next.cursor.tokens.map (t :: ·)).after (c.next.events ++ [.taken t])
      | .error f =>
        if f.isRecoverable then
          c.next.cursor.tokens.after
            (c.next.events ++ [.warning .tokens ⟨.skippedUrl, f.position⟩])
        else ⟨.error f, c.next.cursor, c.next.events⟩ := by
  rw [tokens_eq]
  rcases hr : c.next.result with f | _ | t
  · by_cases hf : f.isRecoverable = true
    · rw [pull_of_skipped .tokens hr hf, Outcome.after_bind, ← tokens_eq]
      simp [hf]
    · rw [pull_of_fault .tokens hr hf, Outcome.bind, hr]
      simp [hf]
  · rw [pull_of_ok .tokens hr, Outcome.bind, hr]
    simp [Outcome.after]
  · rw [pull_of_ok .tokens hr, Outcome.bind, hr]
    simp [Outcome.after]

/-- All tokens, read without memory, by what the first step comes to. -/
theorem tokensAfresh_next (c : Cursor) :
    c.tokensAfresh = match c.nextAfresh.result with
      | .ok none => ⟨.ok [], c.nextAfresh.cursor, c.nextAfresh.events⟩
      | .ok (some t) =>
        (c.nextAfresh.cursor.tokensAfresh.map (t :: ·)).after
          (c.nextAfresh.events ++ [.taken t])
      | .error f =>
        if f.isRecoverable then
          c.nextAfresh.cursor.tokensAfresh.after
            (c.nextAfresh.events ++ [.warning .tokens ⟨.skippedUrl, f.position⟩])
        else ⟨.error f, c.nextAfresh.cursor, c.nextAfresh.events⟩ := by
  rw [tokensAfresh]
  split <;> rename_i h <;> simp only [h]

/-- **All tokens are the same with memory**, but for warnings about open comments. -/
theorem Kept.tokens_recalls {s : Text} {c : Cursor} (h : c.Kept s) :
    c.tokens.Recalls c.openComment.isSome c.forget.tokensAfresh := by
  induction hw : c.weight using Nat.strongRecOn generalizing c with
  | ind w ih =>
    subst hw
    have hnext := h.next_recalls
    -- what comes behind a step that has not come to the end
    have hlater : c.next.result ≠ .ok none →
        c.next.cursor.tokens.Recalls
          (c.openComment.isSome || c.forget.nextAfresh.events.any Event.isOpenComment)
          c.forget.nextAfresh.cursor.tokensAfresh := by
      intro hne
      have hrest := ih _ (next_weight_lt hne) h.next rfl
      rwa [hnext.known, hnext.cursor] at hrest
    rw [tokens_next, tokensAfresh_next, ← hnext.result]
    rcases hr : c.next.result with f | _ | t
    · by_cases hf : f.isRecoverable = true
      · simp only [hf, if_true]
        exact (hlater (by simp [hr])).after hnext.events (by simp [Event.isOpenComment])
      · simp only [hf]
        exact ⟨rfl, hnext.cursor, hnext.events, hnext.known⟩
    · exact ⟨rfl, hnext.cursor, hnext.events, hnext.known⟩
    · exact ((hlater (by simp [hr])).map (t :: ·)).after hnext.events
        (by simp [Event.isOpenComment])

end Cursor
end CssReader
