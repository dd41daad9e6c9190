/-
# Comments between tokens

A comment may be put in front of a text, or behind any of its tokens: the tokens
stay the same and so do the trees, source texts aside, and a fault stays where it
is or goes on as many bytes as the comment takes, if it is behind it.

The text in front of the comment is cut off and put in front of a slash. Each lexeme
of it stays in both steps, since to a lexeme a slash looks like the end of a text
(`Lexeme.read_swap`). This is why the comment must not be put behind a string or a
url that is open: the comment would belong to it. For the same reason no comment may
be open there.

There is one more exception. A string is cut off in front of a backslash that is the
last character of a text. That backslash is then a token, and a comment put behind it
takes its place as the last: the string goes on over both.

Key definitions: `Lexeme.InFrontOf`, `Leads`, `Boundary`.
Key theorems: `Lexeme.InFrontOf.slash`, `Leads.tokens_insert`, `Cursor.Kept.leads`,
`Boundary.tokens_insert_comment`.
-/
import CssReader.Proofs.Bare
import CssReader.Proofs.Lexing
import CssReader.Proofs.Progress

namespace CssReader

open Text

/-! ### Lexemes in front of a slash -/

namespace Lexeme

/-- The lexeme is a string or a url that is open. -/
def IsOpen (l : Lexeme) : Prop :=
  ((∃ v, l.result = .ok (.string v)) ∧ ∃ n, ⟨.openString, n⟩ ∈ l.warnings) ∨
    ∃ n, ⟨.openUrl, n⟩ ∈ l.warnings

/-- A string in the lexeme was cut off in front of a backslash with nothing behind it. -/
def LeavesBackslash (l : Lexeme) : Prop :=
  ∃ front q s, ⟨.openString, Text.size front⟩ ∈ l.warnings ∧
    l.text ++ l.rest = front ++ q :: s ∧ (Quoted.read q s).rest = ['\\']

/-- The lexeme is the first one of a text that ends with `x`, and is in front of `x`.
No comment is open where it begins. -/
structure InFrontOf (x s : Text) (l : Lexeme) : Prop where
  read : Lexeme.read (Comment.run (s ++ x)).2 = some (l.before x)
  opens : Comment.opens (Comment.run (s ++ x)).2 = false
  backslash : ¬(l.before x).LeavesBackslash

namespace InFrontOf

variable {x s : Text} {l : Lexeme}

theorem run_eq (h : InFrontOf x s l) : (Comment.run (s ++ x)).2 = l.text ++ l.rest ++ x := by
  rw [List.append_assoc]
  exact (read_split h.read).1.symm

theorem split (h : InFrontOf x s l) : (Comment.run (s ++ x)).1 ++ l.text ++ l.rest = s := by
  have hs := Comment.run_split (s ++ x)
  rw [h.run_eq, ← List.append_assoc, ← List.append_assoc] at hs
  exact List.append_cancel_right hs

/-- The text without its end. -/
theorem cut (h : InFrontOf x s l) :
    Comment.run s = ((Comment.run (s ++ x)).1, l.text ++ l.rest) :=
  Option.some.inj (Comment.cuts_run.some (congrArg some (Prod.ext rfl h.run_eq)))

/-- A lexeme that is not open tolerates nothing that depends on what comes behind the
end of the text. -/
theorem clear (h : InFrontOf x s l) (hl : Lexeme.read (l.text ++ l.rest) = some l)
    (hopen : l.rest = [] → ¬l.IsOpen) (y : Text) : l.Clear [] ('/' :: y) := by
  have hreports := read_reports hl
  have hurl : ∀ n, ⟨.openUrl, n⟩ ∉ l.warnings := fun n hn =>
    hopen (hreports.openUrl n hn) (.inr ⟨n, hn⟩)
  refine ⟨hurl, fun front q t hw ht => ⟨fun hnil => ?_, fun hlone => ?_⟩⟩
  · rcases (hreports.openString front q t hw ht).2 with ⟨hv, hrest⟩ | ⟨-, hnone⟩
    · exact absurd (.inl ⟨hv, _, hw⟩) (hopen (hrest.trans hnil))
    · obtain ⟨n, hn⟩ := hnone hnil
      exact absurd hn (hurl n)
  · -- in front of `x` the string was cut off at the same place, so `x` is empty
    have hall : (l.before x).text ++ (l.before x).rest = front ++ q :: (t ++ x) := by
      show l.text ++ (l.rest ++ x) = front ++ q :: (t ++ x)
      rw [← List.append_assoc, ht, List.append_assoc, List.cons_append]
    obtain ⟨hclosed, hcut⟩ := (read_reports h.read).openString front q (t ++ x) hw hall
    obtain ⟨m, hm⟩ := (List.suffix_append l.rest x).trans hcut.suffix
    have hrest : (Quoted.read q t).rest = m := congrArg Quoted.rest (Quoted.read_cut hm.symm)
    rw [hrest] at hlone
    subst hlone
    have hx : (Quoted.read q (t ++ x)).rest = ['\\'] := by
      rcases Quoted.rest_of_open hclosed with h0 | hlone | ⟨c, r, hc, hline⟩
      · simp [← hm] at h0
      · exact hlone
      · rw [← hm] at hc
        obtain ⟨rfl, -⟩ := List.cons.inj hc
        simp [isLineBreak] at hline
    exact h.backslash ⟨front, q, t ++ x, hw, hall, hx⟩

/-- **A lexeme that is not open is the same in front of a slash**, and so are the
comments in front of it. -/
theorem slash (h : InFrontOf x s l) (hok : l.rest = [] → ∃ t, l.result = .ok t)
    (hopen : l.rest = [] → ¬l.IsOpen) (y : Text) :
    Lexeme.read (Comment.run (s ++ '/' :: y)).2 = some (l.before ('/' :: y)) ∧
      (Comment.run (s ++ '/' :: y)).1 = (Comment.run (s ++ x)).1 := by
  have hne : l.text ++ l.rest ≠ [] := by
    have hne := (read_split h.read).2
    exact fun h0 => hne (List.append_eq_nil_iff.1 h0).1
  have hread : Lexeme.read (l.text ++ l.rest) = some l := by
    have hr := h.read
    rw [h.run_eq] at hr
    exact read_stays.some hr hok
  have hopens : Comment.opens (l.text ++ l.rest ++ '/' :: y) = false := by
    rw [Comment.opens_swap hne .slash, List.append_nil, ← Bool.not_eq_true, Comment.opens_iff]
    rintro ⟨r, hr⟩
    have ho := h.opens
    rw [h.run_eq, hr] at ho
    simp [Comment.opens] at ho
  have hrun := Comment.run_append_of_opens (s := s) (r := '/' :: y) (by rw [h.cut]; exact hopens)
  have hclear : (l.before []).Clear [] ('/' :: y) := by
    rw [before_nil]
    exact h.clear hread hopen y
  have hread' : Lexeme.read (l.text ++ l.rest ++ []) = some (l.before []) := by
    rw [List.append_nil, before_nil]
    exact hread
  rw [hrun, h.cut]
  exact ⟨read_swap hread' .slash hclear, rfl⟩

end InFrontOf
end Lexeme

/-! ### Texts in front of a comment -/

/-- Whole lexemes lead over the text `s`, which has `x` behind it. The last of them
is a token that is not open. -/
inductive Leads (x : Text) : (s : Text) → Prop
  | last {s : Text} {l : Lexeme} {t : Token} : l.InFrontOf x s → l.rest = [] →
    l.result = .ok t → ¬l.IsOpen → Leads x s
  | step {s : Text} {l : Lexeme} : l.InFrontOf x s → Leads x l.rest → Leads x s

/-- The fault, in a text into which `k` bytes are put in front of byte `n`. -/
def Fault.insert (n k : Nat) (f : Fault) : Fault := if n ≤ f.position then f.shift k else f

namespace Lexeme

/-- The lexeme in front of the tokens that a text with more bytes in it has, put in
behind the lexeme. -/
theorem prepend_insert {n m k : Nat} {l : Lexeme} {later : Except Fault (List Token)}
    (h : l.Reports) (hm : m = 0 → ∃ t, l.result = .ok t) :
    l.prepend n (later.mapError (Fault.insert m k)) =
      (l.prepend n later).mapError (Fault.insert (n + Text.size l.text + m) k) := by
  have hlater : (later.mapError (Fault.insert m k)).mapError (Fault.shift (n + Text.size l.text)) =
      (later.mapError (Fault.shift (n + Text.size l.text))).mapError
        (Fault.insert (n + Text.size l.text + m) k) := by
    rcases later with f | ts
    · have hle : n + Text.size l.text + m ≤ (f.shift (n + Text.size l.text)).position ↔
          m ≤ f.position := by
        show _ + m ≤ _ + f.position ↔ _
        omega
      by_cases hf : m ≤ f.position
      · simp only [Except.mapError, Fault.insert, if_pos hf, if_pos (hle.2 hf), Fault.shift_shift,
          Nat.add_comm k]
      · simp only [Except.mapError, Fault.insert, if_neg hf, if_neg (mt hle.1 hf)]
    · rfl
  unfold prepend
  rcases hr : l.result with f | t
  · by_cases hrec : f.isRecoverable = true
    · simp only [if_pos hrec, hlater]
    · -- the fault is in the lexeme, and so in front of what is put in
      have hpos : m ≠ 0 := fun h0 => by
        obtain ⟨t, ht⟩ := hm h0
        simp [hr] at ht
      have hwidth := (h.fault f hr).1
      have hlt : ¬n + Text.size l.text + m ≤ (f.shift n).position := by
        show ¬_ ≤ n + f.position
        omega
      simp only [if_neg hrec, Except.mapError, Fault.insert, if_neg hlt]
  · simp only [hlater]
    cases later <;> rfl

end Lexeme

namespace Leads

variable {x s k : Text}

theorem ne_nil (h : Leads x s) : s ≠ [] := by
  have hne : ∀ {l : Lexeme}, l.InFrontOf x s → s ≠ [] := fun {l} hl h0 => by
    have htext : l.text ≠ [] := (Lexeme.read_split hl.read).2
    rw [← hl.split, List.append_eq_nil_iff, List.append_eq_nil_iff] at h0
    exact htext h0.1.2
  cases h with
  | last hl => exact hne hl
  | step hl => exact hne hl

/-- A comment somewhere behind a lexeme, if it is no token of what the lexeme leaves. -/
theorem tokens_insert_of_rest {l : Lexeme} (hk : Comment.IsWhole k) (h : l.InFrontOf x s)
    (hok : l.rest = [] → ∃ t, l.result = .ok t) (hopen : l.rest = [] → ¬l.IsOpen)
    (hrest : (Cursor.ofText (l.rest ++ (k ++ x))).tokens.result =
      (Cursor.ofText (l.rest ++ x)).tokens.result.mapError
        (Fault.insert (Text.size l.rest) (Text.size k))) :
    (Cursor.ofText (s ++ (k ++ x))).tokens.result =
      (Cursor.ofText (s ++ x)).tokens.result.mapError
        (Fault.insert (Text.size s) (Text.size k)) := by
  obtain ⟨y, hy⟩ : ∃ y, k ++ x = '/' :: y := by
    obtain ⟨body, rfl, -⟩ := hk
    exact ⟨'*' :: body ++ ['*', '/'] ++ x, by simp⟩
  obtain ⟨hread, hrun⟩ := h.slash hok hopen y
  rw [← hy] at hread hrun
  have hreports : (l.before x).Reports := Lexeme.read_reports h.read
  have hsize : Text.size (Comment.run (s ++ x)).1 + Text.size l.text + Text.size l.rest =
      Text.size s := by
    rw [← Text.size_append, ← Text.size_append, h.split]
  have hpos : Text.size l.rest = 0 → ∃ t, l.result = .ok t := fun h0 => by
    apply hok
    by_contra hne
    have hlt := Text.size_pos hne
    omega
  calc (Cursor.ofText (s ++ (k ++ x))).tokens.result
      = l.prepend (Text.size (Comment.run (s ++ x)).1)
          (Cursor.ofText (l.rest ++ (k ++ x))).tokens.result := by
        rw [Cursor.tokens_ofText hread, hrun]
        rfl
    _ = (l.prepend (Text.size (Comment.run (s ++ x)).1)
          (Cursor.ofText (l.rest ++ x)).tokens.result).mapError
            (Fault.insert (Text.size s) (Text.size k)) := by
        rw [hrest, ← hsize]
        exact Lexeme.prepend_insert (l := l.before x) hreports hpos
    _ = _ := by
        rw [Cursor.tokens_ofText h.read]
        rfl

/-- **A comment behind whole lexemes is no token**, and moves the faults behind it. -/
theorem tokens_insert (hk : Comment.IsWhole k) (h : Leads x s) :
    (Cursor.ofText (s ++ (k ++ x))).tokens.result =
      (Cursor.ofText (s ++ x)).tokens.result.mapError
        (Fault.insert (Text.size s) (Text.size k)) := by
  induction h with
  | @last s l t hl hrest ht hopen =>
    refine tokens_insert_of_rest hk hl (fun _ => ⟨t, ht⟩) (fun _ => hopen) ?_
    rw [hrest]
    exact Cursor.tokens_comment hk x
  | @step s l hl hleads ih =>
    exact tokens_insert_of_rest hk hl (fun h0 => absurd h0 hleads.ne_nil)
      (fun h0 => absurd h0 hleads.ne_nil) ih

end Leads

/-! ### Walks -/

namespace Outcome

/-- The step gave a string or a url that is open. -/
def IsOpen (o : Outcome (Option Token)) : Prop :=
  ((∃ v, o.result = .ok (some (.string v))) ∧
      ∃ n, .warning .tokens ⟨.openString, n⟩ ∈ o.events) ∨
    ∃ n, .warning .tokens ⟨.openUrl, n⟩ ∈ o.events

/-- The step met a string that was cut off in front of a backslash with nothing behind it. -/
def LeavesBackslash (o : Outcome (Option Token)) : Prop :=
  ∃ n q s, .warning .tokens ⟨.openString, n⟩ ∈ o.events ∧
    Text.dropBytes? n o.cursor.source = some (q :: s) ∧ (Quoted.read q s).rest = ['\\']

end Outcome

namespace Cursor

variable {c : Cursor} {s before last : Text} {l : Lexeme}

/-- What a step met is said of the lexeme that it read. -/
theorem Behind.leavesBackslash (h : c.Behind before last) (hp : c.pending = none)
    (hl : Lexeme.read (Comment.run c.rest).2 = some l)
    (hnext : c.next.cursor.Behind (before ++ last ++ (Comment.run c.rest).1) l.text)
    (hsource : c.next.cursor.source = c.source) (hlone : l.LeavesBackslash) :
    c.next.LeavesBackslash := by
  obtain ⟨front, q, s, hw, hs, hlone⟩ := hlone
  refine ⟨_, q, s, h.next_warning hp hl hw, ?_, hlone⟩
  have hsplit : c.source = before ++ last ++ (Comment.run c.rest).1 ++ front ++ q :: s := by
    calc c.source = before ++ last ++ c.rest := h.source
      _ = before ++ last ++ ((Comment.run c.rest).1 ++ (l.text ++ l.rest)) := by
          rw [(Lexeme.read_split hl).1, Comment.run_split]
      _ = _ := by rw [hs]; simp only [List.append_assoc]
  show Text.dropBytes? (c.next.cursor.tokenStart + Text.size front) c.next.cursor.source = _
  rw [hsource, hsplit, hnext.tokenStart, ← Text.size_append]
  exact Text.dropBytes?_size_append _ (q :: s)

/-- A step that does not come to the end reads a lexeme in front of any end of what
it leaves, if it meets no open comment and no backslash is left. -/
theorem Kept.inFrontOf {m x : Text} (h : c.Kept s) (hp : c.pending = none)
    (hne : c.next.result ≠ .ok none) (hcomment : c.next.cursor.openComment = none)
    (hback : ¬c.next.LeavesBackslash) (hx : c.next.cursor.rest = m ++ x) :
    ∃ (l : Lexeme) (u : Text), c.rest = u ++ x ∧ l.InFrontOf x u ∧ l.rest = m ∧
      (∀ t, c.next.result = .ok (some t) → l.result = .ok t) ∧ (l.IsOpen → c.next.IsOpen) := by
  obtain ⟨-, before, last, hb⟩ := h
  rcases hb.next_cases hp with ⟨-, hres, -⟩ | ⟨l, hl, hres, hrest, hsource, hnext⟩
  · exact absurd hres hne
  · rw [hrest] at hx
    have hbefore : l = Lexeme.before { l with rest := m } x := by rw [Lexeme.before, ← hx]
    have hsplit : c.rest = (Comment.run c.rest).1 ++ l.text ++ m ++ x := by
      rw [List.append_assoc _ m x, ← hx, Lexeme.read_run_split hl]
    refine ⟨{ l with rest := m }, (Comment.run c.rest).1 ++ l.text ++ m, hsplit, ?_, rfl, ?_, ?_⟩
    · rw [hbefore] at hl
      refine ⟨by rw [← hsplit]; exact hl, ?_, ?_⟩
      · rw [← hsplit]
        exact (not_opens_of_next hp hcomment).2
      · rw [← hbefore]
        exact fun hlone => hback (hb.leavesBackslash hp (hbefore ▸ hl) hnext hsource hlone)
    · intro t ht
      exact Lexeme.resultAt_eq_some.1 (hres.symm.trans ht)
    · rintro (⟨⟨v, hv⟩, n, hn⟩ | ⟨n, hn⟩)
      · exact .inl ⟨⟨v, hres.trans (Lexeme.resultAt_eq_some.2 hv)⟩, _, hb.next_warning hp hl hn⟩
      · exact .inr ⟨_, hb.next_warning hp hl hn⟩

/-- A walk begins with a step, and goes on behind it unless that met the end. -/
theorem walk_eq_cons {o : Outcome (Option Token)} {os : List (Outcome (Option Token))}
    (h : c.walk = o :: os) :
    o = c.next ∧ (os ≠ [] → c.next.result ≠ .ok none ∧ os = c.next.cursor.walk) := by
  rw [walk] at h
  split at h
  · obtain ⟨rfl, rfl⟩ := List.cons.inj h
    exact ⟨rfl, fun hne => absurd rfl hne⟩
  · rename_i hend
    obtain ⟨rfl, rfl⟩ := List.cons.inj h
    exact ⟨rfl, fun _ => ⟨fun hres => hend (Outcome.isEnd_iff.2 hres), rfl⟩⟩

/-- The steps of a walk are in the text, and not in front of where the walk begins. -/
theorem Kept.of_mem_walk (h : c.Kept s) :
    ∀ o ∈ c.walk, o.cursor.Kept s ∧ c.position ≤ o.cursor.position := by
  fun_induction walk c with
  | case1 c hend =>
    intro o ho
    obtain rfl := List.mem_singleton.1 ho
    exact ⟨h.next, h.next_le.2⟩
  | case2 c hend ih =>
    intro o ho
    rcases List.mem_cons.1 ho with rfl | ho
    · exact ⟨h.next, h.next_le.2⟩
    · obtain ⟨hk, hle⟩ := ih h.next o ho
      exact ⟨hk, h.next_le.2.trans hle⟩

/-- A walk leads over whole lexemes to each token that it gives, unless the token is
open, a comment is open there, or a string in front left a backslash. -/
theorem Kept.leads {past future : List (Outcome (Option Token))} {o : Outcome (Option Token)}
    {t : Token} (h : c.Kept s) (hp : c.pending = none) (hwalk : c.walk = past ++ o :: future)
    (ht : o.result = .ok (some t)) (hcomment : o.cursor.openComment = none) (hopen : ¬o.IsOpen)
    (hback : ∀ p ∈ c.walk, p.cursor.position ≤ o.cursor.position → ¬p.LeavesBackslash) :
    c.openComment = none ∧ ∃ u, c.rest = u ++ o.cursor.rest ∧ Leads o.cursor.rest u := by
  induction past generalizing c with
  | nil =>
    obtain ⟨rfl, -⟩ := walk_eq_cons hwalk
    have hmem : c.next ∈ c.walk := by simp [hwalk]
    obtain ⟨l, u, hrest, hl, hnil, hres, hopen'⟩ :=
      h.inFrontOf hp (by simp [ht]) hcomment (hback _ hmem (Nat.le_refl _)) (List.nil_append _).symm
    exact ⟨(not_opens_of_next hp hcomment).1, u, hrest,
      .last hl hnil (hres t ht) fun hl => hopen (hopen' hl)⟩
  | cons p past ih =>
    rw [List.cons_append] at hwalk
    obtain ⟨rfl, hnext⟩ := walk_eq_cons hwalk
    obtain ⟨hne, hbehind⟩ := hnext (by simp)
    have hmem : o ∈ c.next.cursor.walk := by simp [← hbehind]
    have hle := (h.next.of_mem_walk o hmem).2
    obtain ⟨hcomment', m, hm, hleads⟩ := ih h.next (next_pending c) hbehind.symm
      fun p hp => hback p (by rw [hwalk, hbehind]; exact List.mem_cons_of_mem _ hp)
    obtain ⟨l, u, hrest, hl, rfl, -⟩ :=
      h.inFrontOf hp hne hcomment' (hback _ (by simp [hwalk]) hle) hm
    exact ⟨(not_opens_of_next hp hcomment').1, u, hrest, .step hl hleads⟩

end Cursor

/-! ### Boundaries -/

/-- The comment with this body. -/
def Comment.ofBody (body : Text) : Text := ['/', '*'] ++ body ++ ['*', '/']

/-- Where `s₁` ends in `s₁ ++ s₂` a comment may be put: nothing is in front, or a
token that is not open, and no comment is open. -/
def Boundary (s₁ s₂ : Text) : Prop :=
  s₁ = [] ∨ ∃ past o future t, (Cursor.ofText (s₁ ++ s₂)).walk = past ++ o :: future ∧
    o.result = .ok (some t) ∧ o.cursor.position = Text.size s₁ ∧ ¬o.IsOpen ∧
    o.cursor.openComment = none

namespace Boundary

variable {s₁ s₂ body : Text}

theorem leads (h : Boundary s₁ s₂) (hback : ∀ o ∈ (Cursor.ofText (s₁ ++ s₂)).walk,
    o.cursor.position ≤ Text.size s₁ → ¬o.LeavesBackslash) : s₁ = [] ∨ Leads s₂ s₁ := by
  rcases h with h | ⟨past, o, future, t, hwalk, ht, hpos, hopen, hcomment⟩
  · exact .inl h
  · obtain ⟨-, u, hrest, hleads⟩ := (Cursor.Kept.ofText (s₁ ++ s₂)).leads rfl hwalk ht hcomment
      hopen (by rw [hpos]; exact hback)
    have hmem : o ∈ (Cursor.ofText (s₁ ++ s₂)).walk := by simp [hwalk]
    have hdrop := ((Cursor.Kept.ofText (s₁ ++ s₂)).of_mem_walk o hmem).1.dropBytes?_position
    rw [hpos, Text.dropBytes?_size_append, Option.some.injEq] at hdrop
    rw [← hdrop] at hrest hleads
    obtain rfl : s₁ = u := List.append_cancel_right hrest
    exact .inr hleads

/-- **A comment between two tokens changes nothing but positions and source texts**,
unless a string in front of it was cut off in front of a backslash that ends the text. -/
theorem tokens_insert_comment (h : Boundary s₁ s₂)
    (hback : ∀ o ∈ (Cursor.ofText (s₁ ++ s₂)).walk,
      o.cursor.position ≤ Text.size s₁ → ¬o.LeavesBackslash)
    (hbody : ¬['*', '/'] <:+: body) :
    (Cursor.ofText (s₁ ++ Comment.ofBody body ++ s₂)).tokens.result =
        (Cursor.ofText (s₁ ++ s₂)).tokens.result.mapError
          (Fault.insert (Text.size s₁) (Text.size (Comment.ofBody body))) ∧
      ∀ e : Entry,
        (e.read (Cursor.ofText (s₁ ++ Comment.ofBody body ++ s₂))).result.map Tree.bare =
          ((e.read (Cursor.ofText (s₁ ++ s₂))).result.map Tree.bare).mapError
            (Fault.insert (Text.size s₁) (Text.size (Comment.ofBody body))) := by
  have hwhole : Comment.IsWhole (Comment.ofBody body) := Comment.isWhole_of_not_infix hbody
  have htokens : (Cursor.ofText (s₁ ++ Comment.ofBody body ++ s₂)).tokens.result =
      (Cursor.ofText (s₁ ++ s₂)).tokens.result.mapError
        (Fault.insert (Text.size s₁) (Text.size (Comment.ofBody body))) := by
    rw [List.append_assoc]
    rcases h.leads hback with rfl | hleads
    · exact Cursor.tokens_comment hwhole s₂
    · exact hleads.tokens_insert hwhole
  refine ⟨htokens, fun e => ?_⟩
  rw [Entry.read_bare, Entry.read_bare, htokens]
  cases (Cursor.ofText (s₁ ++ s₂)).tokens.result <;> rfl

/-- A comment with a star in it, between a string and a range of characters, which is a fault. -/
theorem tokens_insert_comment_range :
    Boundary ['"', 'a', '"'] ['u', '+', '1'] ∧
      (∀ o ∈ (Cursor.ofText ['"', 'a', '"', 'u', '+', '1']).walk,
        o.cursor.position ≤ 3 → ¬o.LeavesBackslash) ∧
      ¬['*', '/'] <:+: ['*'] ∧
      (Cursor.ofText ['"', 'a', '"', 'u', '+', '1']).tokens.result =
        .error ⟨.unicodeRange, 3⟩ ∧
      (Cursor.ofText ['"', 'a', '"', '/', '*', '*', '*', '/', 'u', '+', '1']).tokens.result =
        .error ⟨.unicodeRange, 8⟩ ∧
      ∀ e : Entry, (e.read (Cursor.ofText
          ['"', 'a', '"', '/', '*', '*', '*', '/', 'u', '+', '1'])).result.map Tree.bare =
        ((e.read (Cursor.ofText ['"', 'a', '"', 'u', '+', '1'])).result.map Tree.bare).mapError
          (Fault.insert 3 5) := by
  have hevents : (Cursor.ofText ['"', 'a', '"', 'u', '+', '1']).walk.map Outcome.events =
      [[], [], [], []] := by
    with_unfolding_all rfl
  have hnone : ∀ o ∈ (Cursor.ofText ['"', 'a', '"', 'u', '+', '1']).walk, o.events = [] :=
    fun o ho => by simpa [hevents] using List.mem_map_of_mem (f := Outcome.events) ho
  have hwalk : (Cursor.ofText ['"', 'a', '"', 'u', '+', '1']).walk =
      [] ++ (Cursor.ofText ['"', 'a', '"', 'u', '+', '1']).next ::
        (Cursor.ofText ['"', 'a', '"', 'u', '+', '1']).next.cursor.walk := by
    with_unfolding_all rfl
  have hopen : ¬(Cursor.ofText ['"', 'a', '"', 'u', '+', '1']).next.IsOpen := by
    have h := hnone _ (by rw [hwalk]; exact List.mem_cons_self)
    simp [Outcome.IsOpen, h]
  have hb : Boundary ['"', 'a', '"'] ['u', '+', '1'] :=
    .inr ⟨[], _, _, .string ['"', 'a', '"'], hwalk, by with_unfolding_all rfl,
      by with_unfolding_all rfl, hopen, by with_unfolding_all rfl⟩
  have hback : ∀ o ∈ (Cursor.ofText ['"', 'a', '"', 'u', '+', '1']).walk,
      o.cursor.position ≤ 3 → ¬o.LeavesBackslash := fun o ho _ => by
    simp [Outcome.LeavesBackslash, hnone o ho]
  have hbody : ¬['*', '/'] <:+: ['*'] := by decide
  have herror : (Cursor.ofText ['"', 'a', '"', 'u', '+', '1']).tokens.result =
      .error ⟨.unicodeRange, 3⟩ := by
    with_unfolding_all rfl
  obtain ⟨htokens, htrees⟩ := tokens_insert_comment hb hback hbody
  refine ⟨hb, hback, hbody, herror, ?_, htrees⟩
  exact htokens.trans (congrArg (Except.mapError (Fault.insert 3 5)) herror)

/-- A comment behind a backslash that ends a text belongs to the string in front of it. -/
theorem tokens_insert_comment_backslash :
    Boundary ['"', '\\'] [] ∧ ¬['*', '/'] <:+: ([] : Text) ∧
      (Cursor.ofText ['"', '\\']).tokens.result = .ok [.string ['"'], .delim '\\'] ∧
      (Cursor.ofText (['"', '\\'] ++ Comment.ofBody [])).tokens.result =
        .ok [.string ['"', '\\', '/', '*', '*', '/']] := by
  have hwalk : (Cursor.ofText ['"', '\\']).walk =
      [(Cursor.ofText ['"', '\\']).next] ++ (Cursor.ofText ['"', '\\']).next.cursor.next ::
        (Cursor.ofText ['"', '\\']).next.cursor.next.cursor.walk := by
    with_unfolding_all rfl
  have hevents : (Cursor.ofText ['"', '\\']).next.cursor.next.events = [] := by
    with_unfolding_all rfl
  have hopen : ¬(Cursor.ofText ['"', '\\']).next.cursor.next.IsOpen := by
    simp [Outcome.IsOpen, hevents]
  have hb : Boundary ['"', '\\'] [] :=
    .inr ⟨_, _, _, .delim '\\', hwalk, by with_unfolding_all rfl, by with_unfolding_all rfl,
      hopen, by with_unfolding_all rfl⟩
  exact ⟨hb, by decide, by with_unfolding_all rfl, by with_unfolding_all rfl⟩

end Boundary
end CssReader
