/-
# What a lexeme tolerates

A lexeme tolerates that a string or a url is not closed, and nothing else. It notes
this in the order of the text, from its own first byte on: a string that is cut off
is noted at its quote, a url that ends with the text at its end. A fault is noted
behind all that the lexeme tolerates (`Lexeme.reach`).

`Text.Rises` says of positions that they do not go back between two bounds, so that
runs of positions can be put together.

Key definitions: `Text.Rises`, `Lexeme.reach`, `Lexeme.Tolerates`.
Key theorems: `Text.Rises.append`, `Lexeme.read_tolerates`.
-/
import CssReader.Proofs.Lexeme.Reports

namespace CssReader

/-! ### Positions in order -/

/-- The positions do not go back, from byte `a` to byte `b`. -/
def Text.Rises (a b : Nat) : List Nat → Prop
  | [] => a ≤ b
  | p :: ps => a ≤ p ∧ Rises p b ps

namespace Text.Rises

variable {a b d : Nat} {ps qs : List Nat}

theorem le (h : Rises a b ps) : a ≤ b := by
  induction ps generalizing a with
  | nil => exact h
  | cons p ps ih => exact Nat.le_trans h.1 (ih h.2)

theorem from_le (h : Rises b d ps) (hab : a ≤ b) : Rises a d ps := by
  cases ps with
  | nil => exact Nat.le_trans hab h
  | cons p ps => exact ⟨Nat.le_trans hab h.1, h.2⟩

theorem append (h : Rises a b ps) (h' : Rises b d qs) : Rises a d (ps ++ qs) := by
  induction ps generalizing a with
  | nil => exact h'.from_le h
  | cons p ps ih => exact ⟨h.1, ih h.2⟩

theorem to_le (h : Rises a b ps) (hbd : b ≤ d) : Rises a d ps := by
  have hrise : Rises a d (ps ++ []) := h.append hbd
  rwa [List.append_nil] at hrise

/-- All positions may be further on. -/
theorem shift (h : Rises a b ps) (n : Nat) : Rises (n + a) (n + b) (ps.map (n + ·)) := by
  induction ps generalizing a with
  | nil => exact Nat.add_le_add_left h n
  | cons p ps ih => exact ⟨Nat.add_le_add_left h.1 n, ih h.2⟩

theorem pairwise (h : Rises a b ps) : ps.Pairwise (· ≤ ·) ∧ ∀ p ∈ ps, a ≤ p := by
  induction ps generalizing a with
  | nil => simp
  | cons p ps ih =>
    obtain ⟨hpair, hle⟩ := ih h.2
    refine ⟨List.Pairwise.cons hle hpair, fun q hq => ?_⟩
    rcases List.mem_cons.1 hq with rfl | hq
    · exact h.1
    · exact Nat.le_trans h.1 (hle q hq)

end Text.Rises

namespace Lexeme

/-! ### What lexemes note -/

/-- Where the last is that a lexeme can note: its end, or the fault that it is. -/
def reach (l : Lexeme) : Nat :=
  match l.result with
  | .ok _ => Text.size l.text
  | .error f => f.position

/-- What the lexeme notes is in order, and is about strings and urls. -/
structure Tolerates (l : Lexeme) : Prop where
  mistake : ∀ w ∈ l.warnings, w.mistake = .openString ∨ w.mistake = .openUrl
  rises : Text.Rises 0 l.reach (l.warnings.map Warning.position)

theorem tolerates_nothing {l : Lexeme} (h : l.warnings = []) : l.Tolerates :=
  ⟨by simp [h], by simp [h, Text.Rises]⟩

theorem openString_tolerates {n m : Nat} (h : n ≤ m) (q : Quoted) :
    (∀ w ∈ openString n q, w.mistake = .openString ∨ w.mistake = .openUrl) ∧
      Text.Rises 0 m ((openString n q).map Warning.position) := by
  unfold openString
  cases q.closed with
  | true => simp [Text.Rises]
  | false => simp [Text.Rises, h]

theorem string?_tolerates {s : Text} {l : Lexeme} (h : string? s = some l) : l.Tolerates := by
  obtain ⟨c, r, -, -, rfl⟩ := string?_eq_some h
  obtain ⟨hmistake, hrises⟩ := openString_tolerates (Nat.zero_le _) (Quoted.read c r)
  exact ⟨hmistake, hrises⟩

/-- The end of a url notes behind everything else that the text has ended. -/
theorem endUrl_tolerates {text rest : Text} {ws : List Warning}
    (hws : ∀ w ∈ ws, w.mistake = .openString ∨ w.mistake = .openUrl)
    (hrise : Text.Rises 0 (Text.size text) (ws.map Warning.position)) :
    (endUrl text rest ws).Tolerates := by
  rcases rest with _ | ⟨c, r⟩
  · refine ⟨fun w hw => ?_, ?_⟩
    · rcases List.mem_append.1 hw with hw | hw
      · exact hws w hw
      · obtain rfl := List.mem_singleton.1 hw
        exact .inr rfl
    · have hend : Text.Rises (Text.size text) (Text.size text) [Text.size text] :=
        ⟨Nat.le_refl _, Nat.le_refl _⟩
      rw [endUrl, List.map_append]
      exact hrise.append hend
  · by_cases hc : c = ')'
    · rw [endUrl, if_pos hc]
      refine ⟨hws, hrise.to_le ?_⟩
      show Text.size text ≤ Text.size (text ++ [c])
      rw [Text.size_append]
      omega
    · rw [endUrl, if_neg hc]
      exact ⟨hws, hrise⟩

theorem readBareUrl_tolerates (text rest : Text) : (readBareUrl text rest).Tolerates := by
  have hend : ∀ text rest : Text, (endUrl text rest []).Tolerates := fun text rest =>
    endUrl_tolerates (by simp) (Nat.zero_le _)
  unfold readBareUrl
  rcases rest.dropWhile isUrlChar with _ | ⟨c, r⟩
  · exact hend _ _
  · dsimp only
    by_cases hq : isQuote c = true
    · rw [if_pos hq]
      exact tolerates_nothing rfl
    · rw [if_neg hq]
      by_cases hb : c = '\\'
      · rw [if_pos hb]
        exact tolerates_nothing rfl
      · rw [if_neg hb]
        exact hend _ _

theorem quotedUrlEnd_tolerates (taken : Text) (q : Quoted) : (quotedUrlEnd taken q).Tolerates := by
  have hle : Text.size taken ≤ Text.size (taken ++ q.text ++ q.rest.takeWhile isBlank) := by
    rw [Text.size_append, Text.size_append]
    omega
  obtain ⟨hmistake, hrises⟩ := openString_tolerates hle q
  exact endUrl_tolerates hmistake hrises

theorem readUrl_tolerates (text rest : Text) : (readUrl text rest).Tolerates := by
  unfold readUrl
  rcases rest.dropWhile isBlank with _ | ⟨c, r⟩
  · exact endUrl_tolerates (by simp) (Nat.zero_le _)
  · dsimp only
    by_cases hq : isQuote c = true
    · rw [if_pos hq]
      exact quotedUrlEnd_tolerates _ (Quoted.read c r)
    · rw [if_neg hq]
      exact readBareUrl_tolerates _ _

theorem identLike?_tolerates {s : Text} {l : Lexeme} (h : identLike? s = some l) :
    l.Tolerates := by
  obtain ⟨⟨name, r⟩, -, rfl⟩ := Option.map_eq_some_iff.1 h
  change (identEnd name r).Tolerates
  by_cases hp : r.head? = some '('
  · obtain ⟨r, rfl⟩ := List.head?_eq_some_iff.1 hp
    rw [identEnd_paren]
    by_cases hn : isUrlName name = true
    · rw [if_pos hn]
      exact readUrl_tolerates _ r
    · rw [if_neg hn]
      exact tolerates_nothing rfl
  · rw [identEnd_other hp]
    exact tolerates_nothing rfl

/-- **What a lexeme notes is in order, and is about strings and urls.** -/
theorem read_tolerates {s : Text} {l : Lexeme} (h : read s = some l) : l.Tolerates := by
  rcases read_cases h with h | h | h | ⟨t, ht, -⟩
  · exact identLike?_tolerates h
  · exact string?_tolerates h
  · obtain ⟨u, c, t, -, -, rfl⟩ := unicodeRange?_eq_some h
    exact tolerates_nothing rfl
  · apply tolerates_nothing
    rw [ht]
    rfl

/-- A fault is not placed behind the lexeme that it is. -/
theorem reach_le {s : Text} {l : Lexeme} (h : read s = some l) : l.reach ≤ Text.size l.text := by
  unfold reach
  rcases hr : l.result with f | t
  · have hfault := ((read_reports h).fault f hr).1
    show f.position ≤ Text.size l.text
    omega
  · exact Nat.le_refl _

end Lexeme
end CssReader
