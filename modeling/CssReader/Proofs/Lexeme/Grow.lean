/-
# Lexemes of a text that goes on

The lexeme at the front of a text is the same when the text goes on, if what it
leaves is tied: from the character on that ties it, the text then looks alike to
the lexeme. A lexeme that ends at the end of the text, or in front of loose
characters, may change: a name may go on, and a number may get a unit.

Some tokens are firm: no character behind one of them can change it. These are
the tokens of one character of their own and the marks of a surrounding
document.

Key definition: `Token.isFirm`.
Key theorems: `Lexeme.read_keeps`, `Lexeme.read_firm`, `Lexeme.read_append`.
-/
import CssReader.Proofs.Lexeme.Reports
import CssReader.Proofs.Lexeme.Swap

namespace CssReader

open Text

/-- **A lexeme that leaves a tied text is the same when the text goes on.** -/
theorem Lexeme.read_keeps {s : Text} {l : Lexeme} (r : Text) (h : read s = some l)
    (hl : Tied l.rest) : read (s ++ r) = some (l.before r) := by
  obtain ⟨m, c, y, hrest, hc⟩ := hl.exists_end
  obtain ⟨text, rest, result, ws⟩ := l
  obtain rfl : rest = m ++ c :: y := hrest
  have hreports := read_reports h
  have hs : text ++ m ++ c :: y = s := by
    rw [List.append_assoc]
    exact (read_split h).1
  have hclear : (before ⟨text, m, result, ws⟩ (c :: y)).Clear (c :: y) (c :: (y ++ r)) := by
    refine ⟨fun n hn => ?_, fun front q t hw ht => ⟨fun _ => rfl, fun hlone => ?_⟩⟩
    · have hnil := hreports.openUrl n hn
      simp at hnil
    · -- what is left behind a lone backslash is not tied
      have hsuf := (hreports.openString front q t hw ht).2.suffix
      rw [hlone] at hsuf
      have hmem : c ∈ ['\\'] := hsuf.subset (by simp)
      obtain rfl := List.mem_singleton.1 hmem
      simp [isLoose] at hc
  rw [← hs] at h
  have hswap := read_swap h (.same hc) hclear
  calc read (s ++ r) = read (text ++ m ++ c :: (y ++ r)) := by rw [← hs]; simp
    _ = some (before ⟨text, m, result, ws⟩ (c :: (y ++ r))) := hswap
    _ = some (before ⟨text, m ++ c :: y, result, ws⟩ r) := by simp [before]

/-! ### Firm tokens -/

/-- A token that nothing behind it can change. -/
def Token.isFirm : Token → Bool
  | .opening _ | .closing _ | .comma | .colon | .semicolon | .cdo | .cdc => true
  | _ => false

theorem Token.ShownBy.firm {t : Token} {span after : Text} (h : t.ShownBy span after)
    (ht : t.isFirm = true) : span = t.text := by
  rw [ShownBy, if_neg (by rintro rfl; simp [isFirm] at ht)] at h
  exact h

/-- A firm token ties the text that it is in. -/
theorem Token.tied_of_firm {t : Token} (ht : t.isFirm = true) : Tied t.text := by
  unfold isFirm at ht
  split at ht
  · rename_i b
    cases b <;> exact ⟨_, List.mem_cons_self, rfl⟩
  · rename_i b
    cases b <;> exact ⟨_, List.mem_cons_self, rfl⟩
  · exact ⟨',', by simp [text], rfl⟩
  · exact ⟨':', by simp [text], rfl⟩
  · exact ⟨';', by simp [text], rfl⟩
  · exact ⟨'<', by simp [text], rfl⟩
  · exact ⟨'>', by simp [text], rfl⟩
  · simp at ht

namespace Lexeme

/-- A token of one character of its own is read wherever that character stands. -/
theorem read_mark {c : Char} {t : Token} (h : markOf? c = some t) (r : Text) :
    read (c :: r) = some (plain t [c] r) := by
  have hc : ¬(c = 'u' || c = 'U') = true ∧ isQuote c = false := by
    have hm := List.mem_of_find?_eq_some h
    have ht := (markOf?_text h).2
    simp only [List.mem_cons, List.not_mem_nil, or_false] at hm
    rcases hm with rfl | rfl | rfl | rfl | rfl | rfl | rfl | rfl | rfl <;>
      · obtain rfl := (List.cons.inj ht).1
        decide
  have hrange := unicodeRange?_none hc.1 r
  have hstring : string? (c :: r) = none := by simp [string?, hc.2]
  have hmark : mark? (c :: r) = some (plain t [c] r) := by simp [mark?, h]
  simp only [read, productions, List.findSome?_cons, hrange, hstring, hmark]

/-- **A firm token is read whatever follows it.** -/
theorem read_firm {t : Token} (ht : t.isFirm = true) (r : Text) :
    read (t.text ++ r) = some (plain t t.text r) := by
  unfold Token.isFirm at ht
  split at ht
  · rename_i b
    exact read_mark (by cases b <;> rfl) r
  · rename_i b
    exact read_mark (by cases b <;> rfl) r
  · exact read_mark rfl r
  · exact read_mark rfl r
  · exact read_mark rfl r
  · rfl
  · rfl
  · simp at ht

/-- The lexeme is the same when the text goes on, if it leaves a tied text or is
a firm token. -/
theorem read_append {s : Text} {l : Lexeme} (r : Text) (h : read s = some l)
    (hl : Tied l.rest ∨ ∃ t, l.result = .ok t ∧ t.isFirm = true) :
    read (s ++ r) = some (l.before r) := by
  rcases hl with hl | ⟨t, ht, hfirm⟩
  · exact read_keeps r h hl
  · have htext : l.text = t.text := (read_shows h t ht).firm hfirm
    have hs := (read_split h).1
    rw [htext] at hs
    have hplain : l = plain t t.text l.rest := by
      rw [← hs, read_firm hfirm] at h
      exact (Option.some.inj h).symm
    rw [← hs, List.append_assoc, read_firm hfirm, hplain]
    rfl

end Lexeme
end CssReader
