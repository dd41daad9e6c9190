/-
# Sessions with copies of a cursor

A session is what is done with one cursor and with copies of it: tokens are asked for
and handed back, a copy is kept, and a copy that was kept takes the place of the cursor.
With each cursor goes the log of its past: what it has reported itself, and what was
reported by the cursor that it is a copy of, up to where the copy was made
(`Journal`).

A session answers in the same way whether its cursors remember open comments or search
for comments afresh. In the log of a cursor's past the first open comment is the only
one. So between two warnings about open comments a copy must have taken the place of the
cursor that had not met one (`Session.Retains`).

The step lemma is `Session.Recalls.step`: each move gives the same answer and keeps the
relation between the two sessions, for the cursor in use and for all copies.

Key definitions: `Move`, `Journal`, `Session`, `Session.step`, `Session.Retains`.
Key theorems: `Session.Recalls.step`, `Session.Kept.countP_log_le`, `Session.memory_unseen`.
-/
import CssReader.Proofs.Afresh

namespace CssReader

/-- What may be done in a session. -/
inductive Move
  | scan (k : Scan)
  | pushBack (t : Token)
  /-- A copy of the cursor is kept. -/
  | keep
  /-- The copy number `i` takes the place of the cursor; nothing happens if there is none. -/
  | restore (i : Nat)

/-- What a move is answered with. -/
inductive Reply
  | read (r : Except Fault (Option Token ⊕ List Token))
  | displaced (t? : Option Token)
  | nothing

/-- A cursor and the log of its past. -/
structure Journal where
  cursor : Cursor
  log : List Event

/-- The cursor in use, and the copies that were kept. -/
structure Session where
  current : Journal
  copies : List Journal

/-- Asks for tokens and searches for every comment afresh. -/
def Scan.readAfresh (k : Scan) (c : Cursor) : Outcome (Option Token ⊕ List Token) :=
  match k with
  | .next => c.nextAfresh.map .inl
  | .tokens => c.tokensAfresh.map .inr

theorem Scan.read_recalls {s : Text} {c : Cursor} (h : c.Kept s) (k : Scan) :
    (k.read c).Recalls c.openComment.isSome (k.readAfresh c.forget) := by
  cases k with
  | next => exact h.next_recalls.map _
  | tokens => exact h.tokens_recalls.map _

theorem Scan.read_kept {s : Text} {c : Cursor} (h : c.Kept s) (k : Scan) :
    (k.read c).cursor.Kept s := by
  cases k with
  | next => exact h.next
  | tokens => exact h.tokens

namespace Session

/-- The session in front of a text. -/
def ofText (s : Text) : Session := ⟨⟨Cursor.ofText s, []⟩, []⟩

section
variable (read : Scan → Cursor → Outcome (Option Token ⊕ List Token))

/-- What a move is answered with. -/
def reply (σ : Session) : Move → Reply
  | .scan k => .read (read k σ.current.cursor).result
  | .pushBack t => .displaced (σ.current.cursor.pushBack t).1
  | .keep | .restore _ => .nothing

/-- What a move reports. -/
def events (σ : Session) : Move → List Event
  | .scan k => (read k σ.current.cursor).events
  | .pushBack _ | .keep | .restore _ => []

/-- The session after a move. -/
def step (σ : Session) : Move → Session
  | .scan k =>
    let o := read k σ.current.cursor
    { σ with current := ⟨o.cursor, σ.current.log ++ o.events⟩ }
  | .pushBack t =>
    { σ with current := { σ.current with cursor := (σ.current.cursor.pushBack t).2 } }
  | .keep => { σ with copies := σ.copies ++ [σ.current] }
  | .restore i => { σ with current := (σ.copies[i]?).getD σ.current }

/-- The session after some moves. -/
def run (σ : Session) (ms : List Move) : Session := ms.foldl (step read) σ

/-- All that is reported during some moves, in the order of time. -/
def log : Session → List Move → List Event
  | _, [] => []
  | σ, m :: ms => σ.events read m ++ (σ.step read m).log ms

end

/-- A copy takes the place of the cursor that has met no open comment. -/
def Forgets (σ : Session) (m : Move) : Prop :=
  ∃ i j, m = .restore i ∧ σ.copies[i]? = some j ∧ j.cursor.openComment = none

/-- None of the moves brings a copy back that has met no open comment. -/
def Retains : Session → List Move → Prop
  | _, [] => True
  | σ, m :: ms => ¬σ.Forgets m ∧ (σ.step Scan.read m).Retains ms

/-! ### Two sessions -/

end Session

/-- The journal `j` of a cursor that remembers open comments, and `j₀` of one that does not. -/
structure Journal.Recalls (s : Text) (j j₀ : Journal) : Prop where
  kept : j.cursor.Kept s
  cursor : j.cursor.forget = j₀.cursor
  log : j.log = Event.once false j₀.log
  known : j.cursor.openComment.isSome = j₀.log.any Event.isOpenComment

theorem Journal.Recalls.scan {s : Text} {j j₀ : Journal} (h : j.Recalls s j₀) (k : Scan) :
    Recalls s ⟨(k.read j.cursor).cursor, j.log ++ (k.read j.cursor).events⟩
      ⟨(k.readAfresh j₀.cursor).cursor, j₀.log ++ (k.readAfresh j₀.cursor).events⟩ := by
  have hread := k.read_recalls h.kept
  rw [h.known, h.cursor] at hread
  refine ⟨k.read_kept h.kept, hread.cursor, ?_, ?_⟩
  · rw [Event.once_append, h.log, hread.events, Bool.false_or]
  · rw [hread.known, List.any_append]

namespace Session

/-- The cursors in use, and the copies one by one, are the same but for their memory. -/
structure Recalls (s : Text) (σ σ₀ : Session) : Prop where
  current : σ.current.Recalls s σ₀.current
  copies : List.Forall₂ (Journal.Recalls s) σ.copies σ₀.copies

namespace Recalls

variable {s : Text} {σ σ₀ : Session}

theorem ofText (s : Text) : Recalls s (ofText s) (ofText s) :=
  ⟨⟨.ofText s, rfl, rfl, rfl⟩, .nil⟩

theorem reply (h : Recalls s σ σ₀) (m : Move) :
    σ.reply Scan.read m = σ₀.reply Scan.readAfresh m := by
  cases m with
  | scan k =>
    have hread := k.read_recalls h.current.kept
    rw [h.current.cursor] at hread
    exact congrArg Reply.read hread.result
  | pushBack t =>
    rw [Session.reply, Session.reply, ← h.current.cursor]
    rfl
  | keep | restore => rfl

/-- **Each move keeps the two sessions alike.** -/
theorem step (h : Recalls s σ σ₀) (m : Move) :
    Recalls s (σ.step Scan.read m) (σ₀.step Scan.readAfresh m) := by
  cases m with
  | scan k => exact ⟨h.current.scan k, h.copies⟩
  | pushBack t =>
    obtain ⟨hkept, hcursor, hlog, hknown⟩ := h.current
    refine ⟨⟨hkept.withPending (some t), ?_, hlog, hknown⟩, h.copies⟩
    show (σ.current.cursor.pushBack t).2.forget = (σ₀.current.cursor.pushBack t).2
    rw [← hcursor]
    rfl
  | keep => exact ⟨h.current, List.rel_append h.copies (.cons h.current .nil)⟩
  | restore i =>
    refine ⟨?_, h.copies⟩
    rcases hj : σ.copies[i]? with _ | j
    · have hj₀ : σ₀.copies[i]? = none := by
        rw [List.getElem?_eq_none_iff] at hj ⊢
        rwa [← h.copies.length_eq]
      simpa [Session.step, hj, hj₀] using h.current
    · obtain ⟨hi, rfl⟩ := List.getElem?_eq_some_iff.1 hj
      have hi₀ : i < σ₀.copies.length := h.copies.length_eq ▸ hi
      have hcopy := h.copies.get hi hi₀
      simpa [Session.step, hi, hi₀] using hcopy

theorem run (h : Recalls s σ σ₀) (ms : List Move) :
    Recalls s (σ.run Scan.read ms) (σ₀.run Scan.readAfresh ms) := by
  induction ms generalizing σ σ₀ with
  | nil => exact h
  | cons m ms ih => exact ih (h.step m)

end Recalls

/-! ### Warnings in the order of time -/

/-- All cursors of the session know where they are in the text. -/
structure Kept (s : Text) (σ : Session) : Prop where
  current : σ.current.cursor.Kept s
  copies : ∀ j ∈ σ.copies, j.cursor.Kept s

namespace Kept

variable {s : Text} {σ : Session}

theorem restored (h : σ.Kept s) (i : Nat) : ((σ.copies[i]?).getD σ.current).cursor.Kept s := by
  rcases hj : σ.copies[i]? with _ | j
  · exact h.current
  · exact h.copies j (List.mem_of_getElem? hj)

theorem step (h : σ.Kept s) (m : Move) : (σ.step Scan.read m).Kept s := by
  cases m with
  | scan k => exact ⟨k.read_kept h.current, h.copies⟩
  | pushBack t => exact ⟨h.current.withPending (some t), h.copies⟩
  | keep =>
    refine ⟨h.current, fun j hj => ?_⟩
    rcases List.mem_append.1 hj with hj | hj
    · exact h.copies j hj
    · obtain rfl := List.mem_singleton.1 hj
      exact h.current
  | restore i => exact ⟨h.restored i, h.copies⟩

/-- **An open comment is reported once** while no copy is brought back that has met none,
and not at all by a cursor that remembers one. -/
theorem countP_log_le (h : σ.Kept s) {ms : List Move} (hms : σ.Retains ms) :
    (σ.log Scan.read ms).countP Event.isOpenComment ≤
      (!σ.current.cursor.openComment.isSome).toNat := by
  induction ms generalizing σ with
  | nil => exact Nat.zero_le _
  | cons m ms ih =>
    obtain ⟨hm, hms⟩ := hms
    have hlater := ih (h.step m) hms
    rw [log, List.countP_append]
    cases m with
    | scan k =>
      have hread := k.read_recalls h.current
      have hknown : (σ.step Scan.read (.scan k)).current.cursor.openComment.isSome =
          (σ.current.cursor.openComment.isSome ||
            (k.readAfresh σ.current.cursor.forget).events.any Event.isOpenComment) := hread.known
      have hcount : (σ.events Scan.read (.scan k)).countP Event.isOpenComment =
          (!σ.current.cursor.openComment.isSome &&
            (k.readAfresh σ.current.cursor.forget).events.any Event.isOpenComment).toNat := by
        rw [events, hread.events, Event.countP_once]
      have hadd : ∀ known met : Bool,
          (!known && met).toNat + (!(known || met)).toNat = (!known).toNat := by decide
      rw [hknown] at hlater
      rw [hcount, ← hadd]
      exact Nat.add_le_add_left hlater _
    | pushBack t | keep => exact (Nat.zero_add _).trans_le hlater
    | restore i =>
      apply (Nat.zero_add _).trans_le
      rcases hj : σ.copies[i]? with _ | j
      · have hstay : σ.step Scan.read (.restore i) = σ := by simp [Session.step, hj]
        rwa [hstay] at hlater ⊢
      · -- the copy that is brought back remembers an open comment, so nothing more is reported
        have hsome : (σ.step Scan.read (.restore i)).current.cursor.openComment.isSome = true := by
          rw [Option.isSome_iff_ne_none]
          exact fun hnone => hm ⟨i, j, rfl, hj, by simpa [Session.step, hj] using hnone⟩
        rw [hsome] at hlater
        exact Nat.le_trans hlater (Nat.zero_le _)

end Kept

theorem Recalls.toKept {s : Text} {σ σ₀ : Session} (h : Recalls s σ σ₀) : σ.Kept s := by
  refine ⟨h.current.kept, fun j hj => ?_⟩
  obtain ⟨i, hi, rfl⟩ := List.getElem_of_mem hj
  exact (h.copies.get hi (h.copies.length_eq ▸ hi)).kept

/-- **To remember an open comment changes nothing but the search for its end.** After any
moves the answer to the next one is the same as without memory, and so is the place of
the cursor; its log is the same but for warnings about open comments, of which it has the
first only. Without memory there is one wherever a token begins with a comment that is
open. In the order of time there is one at most, as long as no copy is brought back that has met
no open comment, and none if the cursor remembers one. -/
theorem memory_unseen (s : Text) (ms : List Move) :
    let σ := (ofText s).run Scan.read ms
    let σ₀ := (ofText s).run Scan.readAfresh ms
    (∀ m, σ.reply Scan.read m = σ₀.reply Scan.readAfresh m) ∧
      σ.current.cursor.position = σ₀.current.cursor.position ∧
      σ.current.cursor.tokenStart = σ₀.current.cursor.tokenStart ∧
      σ.current.log = Event.once false σ₀.current.log ∧
      (∀ p, .warning .tokens ⟨.openComment, p⟩ ∈ σ₀.events Scan.readAfresh (.scan .next) ↔
        σ₀.current.cursor.pending = none ∧
          p = (σ₀.step Scan.readAfresh (.scan .next)).current.cursor.tokenStart ∧
          ∃ body, Text.dropBytes? p s = some ('/' :: '*' :: body) ∧ ¬['*', '/'] <:+: body) ∧
      ∀ ms', σ.Retains ms' → (σ.log Scan.read ms').countP Event.isOpenComment ≤ 1 ∧
        (σ.current.cursor.openComment.isSome = true →
          (σ.log Scan.read ms').countP Event.isOpenComment = 0) := by
  intro σ σ₀
  have h : Recalls s σ σ₀ := (Recalls.ofText s).run ms
  have hcursor := h.current.cursor
  have hkept : σ₀.current.cursor.Kept s := hcursor ▸ h.current.kept.forget
  refine ⟨h.reply, ?_, ?_, h.current.log, Cursor.nextAfresh_reports hkept, fun ms' hms => ?_⟩
  · rw [← hcursor]
    rfl
  · rw [← hcursor]
    rfl
  · have hle := h.toKept.countP_log_le hms
    refine ⟨Nat.le_trans hle (Bool.toNat_le _), fun hsome => ?_⟩
    rw [hsome] at hle
    exact Nat.le_zero.1 hle

/-- Two open comments: the second is reported neither to a copy made behind the first nor to
the cursor itself, but the first is reported again to a copy made in front of it. -/
example : (((ofText ['/', '*', '/', '*']).log Scan.read
    [.keep, .scan .next, .keep, .scan .tokens, .restore 1, .scan .tokens, .restore 0,
      .scan .tokens]).filter Event.isOpenComment) =
    [.warning .tokens ⟨.openComment, 0⟩, .warning .tokens ⟨.openComment, 0⟩] := by
  with_unfolding_all rfl

end Session
end CssReader
