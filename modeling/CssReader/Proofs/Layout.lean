/-
# Where component values stand

Every component value has a place in the text it was read from, and its source
text is what stands there. A `Layout` is a component value written down as the
places that it and the values nested in it take: the source texts are left out,
for the places give them (`Layout.value`). `Layout.Fits` says that a layout is
one of what stands in a text, and `Layout.Laid` that layouts follow each other
in it with nothing between them but what readers pass over (`Passed`): whole
comments, malformed urls and, at the edges of a block, blanks.

A row of layouts falls into rows wherever it is cut, and the blanks at its edges
may be left out of it, as they are in a block.

Key definitions: `Passed`, `Text.Between`, `Layout`, `Layout.value`, `Layout.Fits`,
`Layout.Laid`.
Key theorems: `NextToken.passed`, `Layout.Laid.trimmed`, `Layout.Laid.split`.
-/
import Mathlib.Data.List.DropRight
import CssReader.Proofs.Calls

namespace CssReader

/-! ### What is passed over -/

/-- A text `gap` in front of `after` of which no value is made: whole comments,
malformed urls and, if `blanks` says so, blanks. -/
inductive Passed (blanks : Bool) : (gap after : Text) → Prop
  | nil {after : Text} : Passed blanks [] after
  | comment {c gap after : Text} :
    Comment.IsWhole c → Passed blanks gap after → Passed blanks (c ++ gap) after
  | malformedUrl {l : Lexeme} {gap after : Text} {n : Nat} :
    Lexeme.read (l.text ++ (gap ++ after)) = some l → l.result = .error ⟨.malformedUrl, n⟩ →
    Passed blanks gap after → Passed blanks (l.text ++ gap) after
  | blank {run gap after : Text} :
    blanks = true → run ≠ [] → (∀ c ∈ run, isBlank c) → Passed blanks gap after →
    Passed blanks (run ++ gap) after

namespace Passed

variable {blanks : Bool} {gap gap' after : Text}

theorem append (h : Passed blanks gap (gap' ++ after)) (h' : Passed blanks gap' after) :
    Passed blanks (gap ++ gap') after := by
  generalize hs : gap' ++ after = s at h
  induction h with
  | nil => exact h'
  | comment hc _ ih =>
    rw [List.append_assoc]
    exact .comment hc (ih hs)
  | malformedUrl hl hf _ ih =>
    subst hs
    rw [← List.append_assoc (_ : Text) gap' after] at hl
    rw [List.append_assoc]
    exact .malformedUrl hl hf (ih rfl)
  | blank hb hne hall _ ih =>
    rw [List.append_assoc]
    exact .blank hb hne hall (ih hs)

theorem of_sequence (h : Comment.Sequence gap) : Passed blanks gap after := by
  induction h with
  | nil => exact .nil
  | cons hc _ ih => exact .comment hc ih

theorem with_blanks (h : Passed false gap after) : Passed blanks gap after := by
  induction h with
  | nil => exact .nil
  | comment hc _ ih => exact .comment hc ih
  | malformedUrl hl hf _ ih => exact .malformedUrl hl hf ih
  | blank hb => simp at hb

end Passed

/-- What is in front of the next token, or of the end, is passed over. -/
theorem NextToken.passed {s span rest : Text} {t? : Option Token} (h : NextToken s t? span rest) :
    ∃ gap, s = gap ++ (span ++ rest) ∧ Passed false gap (span ++ rest) := by
  induction h with
  | @finish s hrun =>
    have hsplit := Comment.run_split s
    rw [hrun] at hsplit
    exact ⟨(Comment.run s).1, hsplit.symm, .of_sequence (Comment.run_sequence s)⟩
  | @token s l t hl ht =>
    refine ⟨(Comment.run s).1, ?_, .of_sequence (Comment.run_sequence s)⟩
    rw [(Lexeme.read_split hl).1, Comment.run_split]
  | @skip s span rest l f t? hl hf hrec _ ih =>
    obtain ⟨gap, hgap, hpassed⟩ := ih
    have hlex : l.text ++ (gap ++ (span ++ rest)) = (Comment.run s).2 := by
      rw [← hgap, (Lexeme.read_split hl).1]
    have hkind : l.result = .error ⟨.malformedUrl, f.position⟩ := by
      rw [hf]
      have hk : f.kind = .malformedUrl := by simpa [Fault.isRecoverable] using hrec
      rw [← hk]
    have hurl : Passed false (l.text ++ gap) (span ++ rest) :=
      .malformedUrl (by rw [hlex]; exact hl) hkind hpassed
    refine ⟨(Comment.run s).1 ++ (l.text ++ gap), ?_, ?_⟩
    · rw [List.append_assoc, List.append_assoc, hlex, Comment.run_split]
    · exact .append (.of_sequence (Comment.run_sequence s)) hurl

/-! ### Places -/

/-- From byte `a` to byte `b` of the text stands `t`, with `after` behind it. -/
def Text.Between (s : Text) (a b : Nat) (t after : Text) : Prop :=
  ∃ before, s = before ++ (t ++ after) ∧ Text.size before = a ∧ a + Text.size t = b

/-- What stands between two bytes is the slice between them. -/
theorem Text.Between.slice_eq {s t after : Text} {a b : Nat} (h : s.Between a b t after) :
    s.slice a b = t := by
  obtain ⟨before, rfl, rfl, rfl⟩ := h
  exact Text.slice_append before t after

namespace Opener

/-- The opener as it is written. -/
def text : Opener → Text
  | bracket b => [b.opener]
  | function name => name ++ ['(']

/-- Whether what is enclosed loses the blanks at its edges. -/
def trims : Opener → Bool
  | bracket _ => true
  | function _ => false

end Opener

/-- A component value as the places it takes in a text: from where to where, and
where the values nested in it stand. What was opened may have been closed, or
not, if the text ended first. -/
inductive Layout
  | token (start stop : Nat) (t : Token)
  | node (start stop : Nat) (opener : Opener) (closed : Bool) (inside : List Layout)

namespace Layout

def start : Layout → Nat
  | token a _ _ => a
  | node a _ _ _ _ => a

def stop : Layout → Nat
  | token _ b _ => b
  | node _ b _ _ _ => b

mutual

/-- The component value, with the source texts that stand in `s`. -/
def value (s : Text) : Layout → ComponentValue
  | token _ _ t => .token t
  | node a b (.function name) _ inside => .function name (s.slice a b) (values s inside)
  | node a b (.bracket k) _ inside => .block k (s.slice a b) (values s inside)

def values (s : Text) : List Layout → List ComponentValue
  | [] => []
  | l :: ls => value s l :: values s ls

end

theorem values_eq_map (s : Text) : ∀ ls : List Layout, values s ls = ls.map (value s)
  | [] => rfl
  | l :: ls => by rw [values, values_eq_map s ls, List.map_cons]

/-- Between the bytes `a` and `b` of `s` is nothing of which a value is made. -/
def Gap (s : Text) (blanks : Bool) (a b : Nat) : Prop :=
  ∃ gap after, s.Between a b gap after ∧ Passed blanks gap after

mutual

/-- The layout is one of what stands in `s`. What is not closed goes on up to the
end of the text, and then what is around it, of which `outer` says whether it is
closed, is not closed either. -/
def Fits (s : Text) (outer : Bool) : Layout → Prop
  | token a b t =>
    Opener.ofToken? t = none ∧ ∃ span after, s.Between a b span after ∧ t.ShownBy span after
  | node a b o closed inside =>
    (outer = true → closed = true) ∧
    ∃ body after,
      s.Between a b (o.text ++ body ++ if closed then o.closer.text else []) after ∧
      (closed = false → after = []) ∧
      Laid s closed o.trims o.trims (a + Text.size o.text) (a + Text.size (o.text ++ body)) inside

/-- The layouts follow each other in `s` from byte `a` to byte `b`. The gaps in
front of the first and behind the last may have blanks in them, if `lead` and
`trail` say so. -/
def Laid (s : Text) (outer lead trail : Bool) (a b : Nat) : List Layout → Prop
  | [] => Gap s trail a b
  | l :: ls => Gap s lead a l.start ∧ Fits s outer l ∧ Laid s outer false trail l.stop b ls

end

end Layout

namespace Text

/-- Two beginnings of one text that take as many bytes are the same. -/
theorem prefix_eq_of_size {x x' y y' : Text} (h : x ++ y = x' ++ y') (hs : size x = size x') :
    x = x' := by
  have hy : some y = some y' := by
    rw [← dropBytes?_size_append x y, ← dropBytes?_size_append x' y', h, hs]
  rw [Option.some.inj hy] at h
  exact List.append_cancel_right h

namespace Between

variable {s t u after after' : Text} {a b c : Nat}

theorem le (h : s.Between a b t after) : a ≤ b := by
  obtain ⟨-, -, -, rfl⟩ := h
  exact Nat.le_add_right a _

/-- What stands in front of a place stands in front of what is there. -/
theorem after_eq (h : s.Between a b t after) (h' : s.Between b c u after') :
    after = u ++ after' := by
  obtain ⟨before, rfl, rfl, rfl⟩ := h
  obtain ⟨before', hs, hb, -⟩ := h'
  rw [← List.append_assoc] at hs
  have hbefore : before ++ t = before' := prefix_eq_of_size hs (by rw [hb, size_append])
  rw [← hbefore] at hs
  exact List.append_cancel_left hs

theorem trans (h : s.Between a b t after) (h' : s.Between b c u after') :
    s.Between a c (t ++ u) after' := by
  obtain rfl := h.after_eq h'
  obtain ⟨before, rfl, rfl, rfl⟩ := h
  obtain ⟨-, -, -, rfl⟩ := h'
  exact ⟨before, by rw [List.append_assoc], rfl, by rw [size_append, Nat.add_assoc]⟩

end Between
end Text

namespace Layout

variable {s : Text} {outer blanks lead trail : Bool} {a b c : Nat} {l : Layout} {ls : List Layout}

/-! ### Gaps -/

namespace Gap

theorem le (h : Gap s blanks a b) : a ≤ b := by
  obtain ⟨gap, after, h, -⟩ := h
  exact h.le

theorem trans (h : Gap s blanks a b) (h' : Gap s blanks b c) : Gap s blanks a c := by
  obtain ⟨gap, after, h, hp⟩ := h
  obtain ⟨gap', after', h', hp'⟩ := h'
  rw [h.after_eq h'] at hp
  exact ⟨gap ++ gap', after', h.trans h', hp.append hp'⟩

theorem with_blanks (h : Gap s false a b) : Gap s blanks a b := by
  obtain ⟨gap, after, h, hp⟩ := h
  exact ⟨gap, after, h, hp.with_blanks⟩

theorem true_of (h : Gap s blanks a b) : Gap s true a b := by
  cases blanks with
  | false => exact h.with_blanks
  | true => exact h

/-- Where a gap begins there may be none. -/
theorem start (h : Gap s blanks a b) : Gap s false a a := by
  obtain ⟨gap, after, ⟨before, hs, ha, -⟩, -⟩ := h
  exact ⟨[], gap ++ after, ⟨before, hs, ha, rfl⟩, .nil⟩

end Gap

/-- Whether the value is a run of blanks. -/
def isWhitespace : Layout → Bool
  | token _ _ .whitespace => true
  | _ => false

theorem isWhitespace_value (s : Text) (l : Layout) :
    (l.value s).isWhitespace = l.isWhitespace := by
  rcases l with ⟨a, b, t⟩ | ⟨a, b, o | o, closed, inside⟩
  · cases t <;> rfl
  · rfl
  · rfl

theorem Fits.start_le_stop (h : Fits s outer l) : l.start ≤ l.stop := by
  cases l with
  | token a b t =>
    rw [Fits] at h
    obtain ⟨-, span, after, hb, -⟩ := h
    exact hb.le
  | node a b o closed inside =>
    rw [Fits] at h
    obtain ⟨-, body, after, hb, -⟩ := h
    exact hb.le

/-- A run of blanks may be a gap. -/
theorem Fits.gap_of_isWhitespace (h : Fits s outer l) (hw : l.isWhitespace = true) :
    Gap s true l.start l.stop := by
  unfold isWhitespace at hw
  split at hw
  · rw [Fits] at h
    obtain ⟨-, span, after, hb, hshown⟩ := h
    obtain ⟨hne, hall, -⟩ : span ≠ [] ∧ (∀ c ∈ span, isBlank c) ∧ _ := by
      simpa only [Token.ShownBy, if_true] using hshown
    refine ⟨span, after, hb, ?_⟩
    have hrun : Passed true (span ++ []) after := .blank rfl hne hall .nil
    rwa [List.append_nil] at hrun
  · simp at hw

/-! ### Layouts in a row -/

namespace Laid

theorem gap_start (h : Laid s outer lead trail a b ls) : Gap s false a a := by
  cases ls with
  | nil =>
    rw [Laid] at h
    exact h.start
  | cons l ls =>
    rw [Laid] at h
    exact h.1.start

theorem le (h : Laid s outer lead trail a b ls) : a ≤ b := by
  induction ls generalizing lead a with
  | nil =>
    rw [Laid] at h
    exact h.le
  | cons l ls ih =>
    rw [Laid] at h
    obtain ⟨hgap, hfits, hrest⟩ := h
    have h1 := hgap.le
    have h2 := hfits.start_le_stop
    have h3 := ih hrest
    omega

/-- Blanks may stand at the edges where none have to. -/
theorem with_blanks (h : Laid s outer false false a b ls) : Laid s outer lead trail a b ls := by
  induction ls generalizing lead a with
  | nil =>
    rw [Laid] at h ⊢
    exact h.with_blanks
  | cons l ls ih =>
    rw [Laid] at h ⊢
    exact ⟨h.1.with_blanks, h.2.1, ih h.2.2⟩

theorem lead_blanks (h : Laid s outer false trail a b ls) : Laid s outer true trail a b ls := by
  cases ls with
  | nil => exact h
  | cons l ls =>
    rw [Laid] at h ⊢
    exact ⟨h.1.with_blanks, h.2⟩

/-- A gap in front of a row belongs to it. -/
theorem of_gap (h : Laid s outer true true b c ls) (hg : Gap s true a b) :
    Laid s outer true true a c ls := by
  cases ls with
  | nil =>
    rw [Laid] at h ⊢
    exact hg.trans h
  | cons l ls =>
    rw [Laid] at h ⊢
    exact ⟨hg.trans h.1, h.2⟩

/-- Blanks in front of a row are left out of it. -/
theorem dropWhile (h : Laid s outer true true a b ls) :
    Laid s outer true true a b (ls.dropWhile isWhitespace) := by
  induction ls generalizing a with
  | nil => exact h
  | cons l ls ih =>
    by_cases hw : l.isWhitespace = true
    · rw [List.dropWhile_cons, if_pos hw]
      rw [Laid] at h
      obtain ⟨hgap, hfits, hrest⟩ := h
      have hblank := hfits.gap_of_isWhitespace hw
      exact (ih hrest.lead_blanks).of_gap (hgap.trans hblank)
    · rw [List.dropWhile_cons, if_neg hw]
      exact h

/-- One run of blanks at the end of a row is left out of it. -/
theorem of_concat (hw : l.isWhitespace = true) (h : Laid s outer lead true a b (ls ++ [l])) :
    Laid s outer lead true a b ls := by
  induction ls generalizing lead a with
  | nil =>
    rw [List.nil_append, Laid, Laid] at h
    obtain ⟨hgap, hfits, hend⟩ := h
    rw [Laid]
    exact (hgap.true_of.trans (hfits.gap_of_isWhitespace hw)).trans hend
  | cons l' ls ih =>
    rw [List.cons_append, Laid] at h
    rw [Laid]
    exact ⟨h.1, h.2.1, ih h.2.2⟩

/-- Blanks at the end of a row are left out of it. -/
theorem rdropWhile (h : Laid s outer lead true a b ls) :
    Laid s outer lead true a b (ls.rdropWhile isWhitespace) := by
  induction ls using List.reverseRecOn with
  | nil => exact h
  | append_singleton ls l ih =>
    by_cases hw : l.isWhitespace = true
    · rw [List.rdropWhile_concat_pos _ _ _ hw]
      exact ih (h.of_concat hw)
    · rw [List.rdropWhile_concat_neg _ _ _ hw]
      exact h

/-- **A row without the blanks at its edges is the row of a block.** -/
theorem trimmed (h : Laid s outer false false a b ls) :
    Laid s outer true true a b (trimEnds isWhitespace ls) :=
  (h.with_blanks.dropWhile).rdropWhile

/-- A row falls into two at any of its values. -/
theorem split {ls' : List Layout} (h : Laid s outer false false a b (ls ++ ls')) :
    ∃ c, Laid s outer false false a c ls ∧ Laid s outer false false c b ls' := by
  induction ls generalizing a with
  | nil =>
    refine ⟨a, ?_, h⟩
    rw [Laid]
    exact h.gap_start
  | cons l ls ih =>
    rw [List.cons_append, Laid] at h
    obtain ⟨hgap, hfits, hrest⟩ := h
    obtain ⟨c, hls, hls'⟩ := ih hrest
    refine ⟨c, ?_, hls'⟩
    rw [Laid]
    exact ⟨hgap, hfits, hls⟩

end Laid

theorem values_trimEnds (s : Text) (ls : List Layout) :
    values s (trimEnds isWhitespace ls) = trimEnds ComponentValue.isWhitespace (values s ls) := by
  have hp : ComponentValue.isWhitespace ∘ value s = isWhitespace :=
    funext (isWhitespace_value s)
  simp only [values_eq_map, trimEnds, List.dropWhile_map, ← List.map_reverse, hp]

end Layout

end CssReader
