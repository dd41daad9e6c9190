/-
# What a lexeme reports

A fault is placed so that the lexeme ends a fixed number of bytes behind it, which
depends on the kind of fault alone. A url that is tolerated without its closing
parenthesis has come to the end of the text. A string that is tolerated without
its closing quote begins where the warning is placed, and the lexeme goes on at
least to where that string was cut off: a string lexeme ends there, and a url goes
on over the blanks behind its string.

Names, strings and ranges of characters apart, a lexeme reports nothing
(`Lexeme.read_cases`).

Key definitions: `FaultKind.width`, `Lexeme.StringCut`, `Lexeme.Reports`.
Key theorems: `Quoted.rest_of_open`, `Lexeme.read_reports`.
-/
import CssReader.Proofs.Lexeme.Cut
import CssReader.Proofs.Lexeme.Shown

namespace CssReader

/-- The number of bytes from where a fault is placed to where its lexeme ends. -/
def FaultKind.width : FaultKind → Nat
  | .unicodeRange => 2
  | .urlEscape | .urlQuote => 1
  | .malformedUrl => 0

/-- A text falls into two parts of given sizes in one way only. -/
theorem Text.append_inj {s t s' t' : Text} (h : s ++ t = s' ++ t')
    (hs : Text.size s = Text.size s') : s = s' ∧ t = t' := by
  have hdrop := Text.dropBytes?_size_append s t
  rw [h, hs, Text.dropBytes?_size_append] at hdrop
  obtain rfl : t' = t := Option.some.inj hdrop
  exact ⟨List.append_cancel_right h, rfl⟩

namespace Quoted

/-- The body of a string ends with the text, in front of a backslash with nothing
behind it, or in front of a quote or a line break. -/
theorem rest_of_bodyOf (q : Char) (s : Text) :
    (bodyOf q s).2 = [] ∨ (bodyOf q s).2 = ['\\'] ∨
      ∃ c r, (bodyOf q s).2 = c :: r ∧ (c = q ∨ isLineBreak c = true) := by
  fun_induction bodyOf q s with
  | case1 => exact .inl rfl
  | case2 => exact .inr (.inl rfl)
  | case3 c s ih => exact ih
  | case4 c s hlast hpair hc => exact .inr (.inr ⟨c, s, rfl, by simpa using hc⟩)
  | case5 c s hlast hpair hc ih => exact ih

/-- A string that is not closed was cut off by the end of the text, by a backslash
with nothing behind it, or by a line break. -/
theorem rest_of_open {q : Char} {s : Text} (h : (read q s).closed = false) :
    (read q s).rest = [] ∨ (read q s).rest = ['\\'] ∨
      ∃ c r, (read q s).rest = c :: r ∧ isLineBreak c = true := by
  have hbody := rest_of_bodyOf q s
  unfold read at h ⊢
  rcases hb : bodyOf q s with ⟨body, _ | ⟨c, r⟩⟩
  · exact .inl rfl
  · rw [hb] at h hbody
    dsimp only at h ⊢
    by_cases hc : c = q
    · simp [hc] at h
    · rw [if_neg hc]
      rcases hbody with h0 | hlone | ⟨d, t, hd, hq | hbreak⟩
      · simp at h0
      · exact .inr (.inl hlone)
      · exact absurd ((List.cons.inj hd).1.trans hq) hc
      · exact .inr (.inr ⟨d, t, hd, hbreak⟩)

end Quoted

namespace Lexeme

/-- How far a lexeme goes in which a string was cut off in front of `rest`. -/
def StringCut (l : Lexeme) (rest : Text) : Prop :=
  ((∃ v, l.result = .ok (.string v)) ∧ l.rest = rest) ∨
    (l.rest <:+ rest.dropWhile isBlank ∧ (rest = [] → ∃ n, ⟨.openUrl, n⟩ ∈ l.warnings))

theorem StringCut.suffix {l : Lexeme} {rest : Text} (h : l.StringCut rest) : l.rest <:+ rest := by
  rcases h with ⟨-, rfl⟩ | ⟨hsuf, -⟩
  · exact List.suffix_refl _
  · exact hsuf.trans (List.dropWhile_suffix isBlank)

/-- What the lexeme reports is as it says. -/
structure Reports (l : Lexeme) : Prop where
  fault : ∀ f, l.result = .error f → f.position + f.kind.width = Text.size l.text ∧
    (f.kind = .unicodeRange → f.position = 0)
  openUrl : ∀ n, ⟨.openUrl, n⟩ ∈ l.warnings → l.rest = []
  openString : ∀ front q s, ⟨.openString, Text.size front⟩ ∈ l.warnings →
    l.text ++ l.rest = front ++ q :: s →
    (Quoted.read q s).closed = false ∧ l.StringCut (Quoted.read q s).rest

/-- A token without mistakes has nothing to report. -/
theorem reports_plain (t : Token) (text rest : Text) : (plain t text rest).Reports where
  fault f h := by simp [plain] at h
  openUrl n h := by simp [plain] at h
  openString front q s h := by simp [plain] at h

/-- A fault that stands alone. -/
theorem reports_fault {text rest : Text} {f : Fault}
    (h : f.position + f.kind.width = Text.size text ∧ (f.kind = .unicodeRange → f.position = 0)) :
    Reports ⟨text, rest, .error f, []⟩ where
  fault f' hf' := by
    obtain rfl : f = f' := Except.error.inj hf'
    exact h
  openUrl n h := by simp at h
  openString front q s h := by simp at h

theorem mem_openString {w : Warning} {n : Nat} {q : Quoted} :
    w ∈ openString n q ↔ q.closed = false ∧ w = ⟨.openString, n⟩ := by
  rcases h : q.closed with _ | _ <;> simp [openString, h]

theorem string?_reports {s : Text} {l : Lexeme} (h : string? s = some l) : l.Reports := by
  obtain ⟨c, r, -, -, rfl⟩ := string?_eq_some h
  refine ⟨fun f hf => by simp at hf, fun n hn => ?_, fun front q t hw ht => ?_⟩
  · simp [mem_openString] at hn
  · obtain ⟨hopen, hn⟩ := mem_openString.1 hw
    rw [Quoted.read_split] at ht
    obtain ⟨rfl, heq⟩ := Text.append_inj (s := []) ht (Warning.mk.inj hn).2.symm
    obtain ⟨rfl, rfl⟩ := List.cons.inj heq
    exact ⟨hopen, .inl ⟨⟨_, rfl⟩, rfl⟩⟩

/-! ### Urls -/

/-- The end of a url reports what the url did before, and what is wrong at its end. -/
theorem endUrl_reports {text rest : Text} {ws : List Warning}
    (hws : ∀ w ∈ ws, w.mistake = .openString)
    (hs : ∀ front q s, ⟨.openString, Text.size front⟩ ∈ ws → text ++ rest = front ++ q :: s →
      (Quoted.read q s).closed = false ∧ rest = (Quoted.read q s).rest.dropWhile isBlank) :
    (endUrl text rest ws).Reports := by
  have hurl : ∀ n, (⟨.openUrl, n⟩ : Warning) ∉ ws := fun n hn => by simpa using hws _ hn
  rcases rest with _ | ⟨c, r⟩
  · refine ⟨fun f hf => by simp [endUrl] at hf, fun n hn => rfl, fun front q s hw ht => ?_⟩
    have hw : (⟨.openString, Text.size front⟩ : Warning) ∈ ws := by simpa [endUrl] using hw
    obtain ⟨hopen, -⟩ := hs front q s hw ht
    exact ⟨hopen, .inr ⟨List.nil_suffix, fun _ => ⟨Text.size text, by simp [endUrl]⟩⟩⟩
  · have hmem : ∀ front q s, ⟨.openString, Text.size front⟩ ∈ ws →
        text ++ c :: r = front ++ q :: s → (Quoted.read q s).closed = false ∧
          c :: r = (Quoted.read q s).rest.dropWhile isBlank := hs
    have hne : ∀ {q s}, c :: r = (Quoted.read q s).rest.dropWhile isBlank →
        (Quoted.read q s).rest ≠ [] := by
      intro q s hrest h0
      simp [h0] at hrest
    by_cases hc : c = ')'
    · rw [endUrl, if_pos hc]
      refine ⟨fun f hf => by simp at hf, fun n hn => absurd hn (hurl n), fun front q s hw ht => ?_⟩
      rw [List.append_assoc] at ht
      obtain ⟨hopen, hrest⟩ := hmem front q s hw ht
      refine ⟨hopen, .inr ⟨?_, fun h0 => absurd h0 (hne hrest)⟩⟩
      rw [← hrest]
      exact List.suffix_cons c r
    · rw [endUrl, if_neg hc]
      refine ⟨fun f hf => ?_, fun n hn => absurd hn (hurl n), fun front q s hw ht => ?_⟩
      · obtain rfl := Except.error.inj hf
        simp [FaultKind.width]
      · obtain ⟨hopen, hrest⟩ := hmem front q s hw ht
        exact ⟨hopen, .inr ⟨⟨[], hrest⟩, fun h0 => absurd h0 (hne hrest)⟩⟩

theorem readBareUrl_reports (text rest : Text) : (readBareUrl text rest).Reports := by
  have hend : ∀ text rest : Text, (endUrl text rest []).Reports := fun text rest =>
    endUrl_reports (by simp) (by simp)
  unfold readBareUrl
  rcases rest.dropWhile isUrlChar with _ | ⟨c, r⟩
  · exact hend _ _
  · dsimp only
    by_cases hq : isQuote c = true
    · rw [if_pos hq]
      have hsize : c.utf8Size = 1 := by
        rw [isQuote, Bool.or_eq_true, decide_eq_true_eq, decide_eq_true_eq] at hq
        rcases hq with rfl | rfl <;> rfl
      apply reports_fault
      simp [hsize, FaultKind.width, Nat.add_assoc]
    · rw [if_neg hq]
      by_cases hb : c = '\\'
      · rw [if_pos hb]
        have hsize : c.utf8Size = 1 := by
          subst hb
          rfl
        apply reports_fault
        simp [hsize, FaultKind.width, Nat.add_assoc]
      · rw [if_neg hb]
        exact hend _ _

theorem quotedUrlEnd_reports (taken : Text) (c : Char) (r : Text) :
    (quotedUrlEnd taken (Quoted.read c r)).Reports := by
  apply endUrl_reports
  · intro w hw
    rw [(mem_openString.1 hw).2]
  · intro front q s hw hs
    obtain ⟨hopen, hn⟩ := mem_openString.1 hw
    -- the string that the warning is about is the one that was read
    have hall : taken ++ c :: r = front ++ q :: s := by
      rw [← hs, List.append_assoc, List.takeWhile_append_dropWhile, List.append_assoc,
        Quoted.read_split]
    obtain ⟨rfl, heq⟩ := Text.append_inj hall (Warning.mk.inj hn).2.symm
    obtain ⟨rfl, rfl⟩ := List.cons.inj heq
    exact ⟨hopen, rfl⟩

theorem readUrl_reports (text rest : Text) : (readUrl text rest).Reports := by
  unfold readUrl
  rcases rest.dropWhile isBlank with _ | ⟨c, r⟩
  · exact endUrl_reports (by simp) (by simp)
  · dsimp only
    by_cases hq : isQuote c = true
    · rw [if_pos hq]
      exact quotedUrlEnd_reports _ c r
    · rw [if_neg hq]
      exact readBareUrl_reports _ _

theorem identLike?_reports {s : Text} {l : Lexeme} (h : identLike? s = some l) : l.Reports := by
  obtain ⟨⟨name, r⟩, -, rfl⟩ := Option.map_eq_some_iff.1 h
  change (identEnd name r).Reports
  by_cases hp : r.head? = some '('
  · obtain ⟨r, rfl⟩ := List.head?_eq_some_iff.1 hp
    rw [identEnd_paren]
    by_cases hn : isUrlName name = true
    · rw [if_pos hn]
      exact readUrl_reports _ r
    · rw [if_neg hn]
      exact reports_plain _ _ _
  · rw [identEnd_other hp]
    exact reports_plain _ _ _

/-- **What a lexeme reports is as it says.** -/
theorem read_reports {s : Text} {l : Lexeme} (h : read s = some l) : l.Reports := by
  rcases read_cases h with h | h | h | ⟨t, ht, -⟩
  · exact identLike?_reports h
  · exact string?_reports h
  · obtain ⟨u, c, t, -, hc, rfl⟩ := unicodeRange?_eq_some h
    apply reports_fault
    rw [Text.size_cons, utf8Size_of_beginsRange hc]
    exact ⟨rfl, fun _ => rfl⟩
  · rw [ht]
    exact reports_plain t _ _

end Lexeme
end CssReader
