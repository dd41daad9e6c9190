/-
# Malformed urls at the end of a text

A url is malformed because something else stands where it has to end. If the text ends
there instead, nothing is wrong that is not tolerated: the same text is then a url, which
the end of the text has closed. This is the one lexeme that does not stay what it is when
the text is cut short right behind it (`Lexeme.read_stays`).

Key definitions: `Lexeme.IsMalformed`, `Lexeme.EndsInUrl`.
Key theorem: `Lexeme.read_ended`.
-/
import Mathlib.Data.List.Basic
import CssReader.Proofs.Lexeme.Reports
import CssReader.Proofs.Lexeme.Swap

namespace CssReader
namespace Lexeme

/-- The lexeme is a malformed url. -/
def IsMalformed (l : Lexeme) : Prop := ∃ f, l.result = .error f ∧ f.isRecoverable = true

/-- The lexeme is a url, and goes on to the end of the text. -/
def EndsInUrl (l : Lexeme) : Prop := l.rest = [] ∧ ∃ v, l.result = .ok (.url v)

theorem not_isMalformed_of_ok {l : Lexeme} {t : Token} (h : l.result = .ok t) :
    ¬l.IsMalformed := by
  rintro ⟨f, hf, -⟩
  rw [h] at hf
  cases hf

/-! ### Urls -/

section
variable {text s r : Text} {ws : List Warning}

theorem endUrl_ended (hr : (endUrl text (s ++ r) ws).rest = r)
    (hm : (endUrl text (s ++ r) ws).IsMalformed) : (endUrl text s ws).EndsInUrl := by
  rcases s with _ | ⟨c, s⟩
  · exact ⟨rfl, _, rfl⟩
  · by_cases hc : c = ')'
    · subst hc
      exact absurd hm (not_isMalformed_of_ok rfl)
    · rw [List.cons_append, endUrl, if_neg hc] at hr
      exact absurd hr (List.append_left_eq_self.not.2 (List.cons_ne_nil c s))

theorem endUrl_blanks_ended
    (hr : (endUrl (text ++ (s ++ r).takeWhile isBlank) ((s ++ r).dropWhile isBlank) ws).rest = r)
    (hm : (endUrl (text ++ (s ++ r).takeWhile isBlank) ((s ++ r).dropWhile isBlank)
      ws).IsMalformed) :
    (endUrl (text ++ s.takeWhile isBlank) (s.dropWhile isBlank) ws).EndsInUrl := by
  have hle := (endUrl_suffix (text ++ (s ++ r).takeWhile isBlank) ((s ++ r).dropWhile isBlank)
    ws).length_le
  rw [hr] at hle
  obtain ⟨hd, ht⟩ := while_cut hle
  rw [hd, ht] at hr hm
  exact endUrl_ended hr hm

/-- A malformed url without quotes is not wrong in front of its end. -/
theorem not_isWrong_of_isMalformed {rest : Text} (hm : (readBareUrl text rest).IsMalformed) :
    ∀ c ∈ (rest.dropWhile isUrlChar).head?, isWrongInUrl c = false := by
  intro c hc
  obtain ⟨r, hrest⟩ := List.head?_eq_some_iff.1 hc
  by_contra hwrong
  rw [Bool.not_eq_false] at hwrong
  rw [readBareUrl_wrong hrest hwrong] at hm
  obtain ⟨f, hf, hrec⟩ := hm
  obtain rfl := Except.error.inj hf
  by_cases hq : isQuote c = true <;> simp [Fault.isRecoverable, hq] at hrec

theorem readBareUrl_ended (hr : (readBareUrl text (s ++ r)).rest = r)
    (hm : (readBareUrl text (s ++ r)).IsMalformed) : (readBareUrl text s).EndsInUrl := by
  have hright := not_isWrong_of_isMalformed hm
  have hle := (readBareUrl_suffix text (s ++ r)).length_le
  rw [hr] at hle
  obtain ⟨hd, ht⟩ := while_cut hle
  rw [readBareUrl_ends hright, hd, ht] at hr hm
  have hright' : ∀ c ∈ (s.dropWhile isUrlChar).head?, isWrongInUrl c = false := by
    intro c hc
    apply hright c
    rw [hd]
    exact List.mem_head?_append_of_mem_head? hc
  rw [readBareUrl_ends hright']
  exact endUrl_blanks_ended hr hm

theorem quotedUrlEnd_ended {taken : Text} {c : Char}
    (hr : (quotedUrlEnd taken (Quoted.read c (s ++ r))).rest = r)
    (hm : (quotedUrlEnd taken (Quoted.read c (s ++ r))).IsMalformed) :
    (quotedUrlEnd taken (Quoted.read c s)).EndsInUrl := by
  have hsuf := quotedUrlEnd_suffix taken (Quoted.read c (s ++ r))
  rw [hr] at hsuf
  obtain ⟨m, hm'⟩ := hsuf
  rw [quotedUrlEnd, ← hm'] at hr hm
  rw [Quoted.read_cut hm'.symm]
  exact endUrl_blanks_ended hr hm

theorem readUrl_ended (hr : (readUrl text (s ++ r)).rest = r)
    (hm : (readUrl text (s ++ r)).IsMalformed) : (readUrl text s).EndsInUrl := by
  have hle := (readUrl_suffix text (s ++ r)).length_le
  rw [hr] at hle
  obtain ⟨hd, ht⟩ := while_cut hle
  by_cases hq : ∀ c ∈ ((s ++ r).dropWhile isBlank).head?, isQuote c = false
  · rw [readUrl_bare hq, hd, ht] at hr hm
    have hq' : ∀ c ∈ (s.dropWhile isBlank).head?, isQuote c = false := by
      intro c hc
      apply hq c
      rw [hd]
      exact List.mem_head?_append_of_mem_head? hc
    rw [readUrl_bare hq']
    exact readBareUrl_ended hr hm
  · simp only [not_forall, Bool.not_eq_false] at hq
    obtain ⟨c, hc, hcq⟩ := hq
    obtain ⟨x, hx⟩ := List.head?_eq_some_iff.1 hc
    rw [readUrl_quote hx hcq, ht] at hr hm
    rw [hd] at hx
    rcases hs : s.dropWhile isBlank with _ | ⟨d, left⟩
    · -- the string would have been taken from what the url leaves
      rw [hs, List.nil_append] at hx
      have hlen := (quotedUrlEnd_suffix (text ++ s.takeWhile isBlank)
        (Quoted.read c x)).length_le.trans (Quoted.read_rest_suffix c x).length_le
      rw [hr, hx, List.length_cons] at hlen
      omega
    · rw [hs, List.cons_append] at hx
      obtain ⟨rfl, rfl⟩ := List.cons.inj hx
      rw [readUrl_quote hs hcq]
      exact quotedUrlEnd_ended hr hm

/-! ### Names -/

theorem identEnd_ended {name : Text} (hr : (identEnd name (s ++ r)).rest = r)
    (hm : (identEnd name (s ++ r)).IsMalformed) : (identEnd name s).EndsInUrl := by
  by_cases hp : (s ++ r).head? = some '('
  · rcases s with _ | ⟨c, s⟩
    · obtain ⟨x, rfl⟩ := List.head?_eq_some_iff.1 hp
      have hlen := (identEnd_paren_suffix name x).length_le
      rw [List.nil_append] at hr
      rw [hr, List.length_cons] at hlen
      omega
    · obtain rfl : c = '(' := by simpa using hp
      rw [List.cons_append, identEnd_paren] at hr hm
      rw [identEnd_paren]
      by_cases hn : isUrlName name = true
      · rw [if_pos hn] at hr hm ⊢
        exact readUrl_ended hr hm
      · rw [if_neg hn] at hm
        exact absurd hm (not_isMalformed_of_ok rfl)
  · rw [identEnd_other hp] at hm
    exact absurd hm (not_isMalformed_of_ok rfl)

end

/-! ### All productions -/

theorem identLike?_ended {s : Text} {l : Lexeme} {r : Text} (h : identLike? (s ++ r) = some l)
    (hr : l.rest = r) (hm : l.IsMalformed) : ∃ u, identLike? s = some u ∧ u.EndsInUrl := by
  obtain ⟨⟨name, t⟩, hname, rfl⟩ := Option.map_eq_some_iff.1 h
  change (identEnd name t).rest = r at hr
  change (identEnd name t).IsMalformed at hm
  have hle := (identEnd_suffix name t).length_le
  rw [hr] at hle
  obtain ⟨m, rfl, hcut⟩ := cuts_name?.cut hname hle
  refine ⟨identEnd name m, ?_, identEnd_ended hr hm⟩
  exact Option.map_eq_some_iff.2 ⟨(name, m), hcut, rfl⟩

theorem string?_not_isMalformed {s : Text} {l : Lexeme} (h : string? s = some l) :
    ¬l.IsMalformed := by
  obtain ⟨c, r, -, -, rfl⟩ := string?_eq_some h
  exact not_isMalformed_of_ok rfl

theorem unicodeRange?_not_isMalformed {s : Text} {l : Lexeme} (h : unicodeRange? s = some l) :
    ¬l.IsMalformed := by
  obtain ⟨u, c, t, -, -, rfl⟩ := unicodeRange?_eq_some h
  rintro ⟨f, hf, hrec⟩
  obtain rfl := Except.error.inj hf
  simp [Fault.isRecoverable] at hrec

theorem IsOther.not_isMalformed {l : Lexeme} (h : l.IsOther) : ¬l.IsMalformed := by
  obtain ⟨t, ht, -⟩ := h
  rw [ht]
  exact not_isMalformed_of_ok rfl

/-- Only a name can begin a malformed url. -/
theorem identLike?_of_isMalformed {s : Text} {l : Lexeme} (h : read s = some l)
    (hm : l.IsMalformed) : identLike? s = some l := by
  rcases read_cases h with h | h | h | h
  · exact h
  · exact absurd hm (string?_not_isMalformed h)
  · exact absurd hm (unicodeRange?_not_isMalformed h)
  · exact absurd hm h.not_isMalformed

/-- The productions that are tried before names. -/
def beforeNames : List (Text → Option Lexeme) :=
  [unicodeRange?, string?, mark?, whitespace?, hash?, atKeyword?, numeric?]

theorem not_isMalformed_beforeNames {s : Text} {l : Lexeme}
    (h : (beforeNames.findSome? fun p => p s) = some l) : ¬l.IsMalformed := by
  obtain ⟨p, hp, h⟩ := List.exists_of_findSome?_eq_some h
  simp only [beforeNames, List.mem_cons, List.not_mem_nil, or_false] at hp
  rcases hp with rfl | rfl | rfl | rfl | rfl | rfl | rfl
  · exact unicodeRange?_not_isMalformed h
  · exact string?_not_isMalformed h
  · exact (mark?_isOther h).not_isMalformed
  · simp only [whitespace?] at h
    split at h <;> cases h
    exact not_isMalformed_of_ok rfl
  · unfold hash? at h
    split at h
    · obtain ⟨_, -, rfl⟩ := Option.map_eq_some_iff.1 h
      exact not_isMalformed_of_ok rfl
    · simp at h
  · unfold atKeyword? at h
    split at h
    · obtain ⟨_, -, rfl⟩ := Option.map_eq_some_iff.1 h
      exact not_isMalformed_of_ok rfl
    · simp at h
  · exact (numeric?_isOther h).not_isMalformed

theorem beforeNames_stays : Stays fun s => beforeNames.findSome? fun p => p s := by
  refine findSome?_stays fun p hp => ?_
  simp only [beforeNames, List.mem_cons, List.not_mem_nil, or_false] at hp
  rcases hp with rfl | rfl | rfl | rfl | rfl | rfl | rfl
  · exact unicodeRange?_stays
  · exact string?_stays
  · exact mark?_stays
  · exact whitespace?_stays
  · exact hash?_stays
  · exact atKeyword?_stays
  · exact numeric?_stays

/-- Names are tried when all that is tried before them finds nothing. -/
theorem read_eq (s : Text) : read s = (beforeNames.findSome? fun p => p s).or
    ([identLike?, attrMatch?, cdo?, cdc?, delim?].findSome? fun p => p s) := by
  rw [← List.findSome?_append]
  rfl

/-- **A malformed url is a url when the text ends behind it.** -/
theorem read_ended {s r : Text} {l : Lexeme} (h : read (s ++ r) = some l) (hr : l.rest = r)
    (hm : l.IsMalformed) : ∃ u, read s = some u ∧ u.EndsInUrl := by
  obtain ⟨u, hu, hend⟩ := identLike?_ended (identLike?_of_isMalformed h hm) hr hm
  have hnone : (beforeNames.findSome? fun p => p (s ++ r)) = none := by
    rcases hb : beforeNames.findSome? fun p => p (s ++ r) with _ | l'
    · exact hb
    · rw [read_eq, hb, Option.some_or] at h
      obtain rfl := Option.some.inj h
      exact absurd hm (not_isMalformed_beforeNames hb)
  refine ⟨u, ?_, hend⟩
  rw [read_eq, beforeNames_stays.none hnone, Option.none_or, List.findSome?_cons, hu]

end Lexeme
end CssReader
