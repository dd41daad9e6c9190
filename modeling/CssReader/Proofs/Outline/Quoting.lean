/-
# Quoted texts can be read back

Whatever a quoted text says, its quotes and backslashes included, `Quote.unescape?` reads
its characters back one by one, and sees where it ends: no character is written with the
quote in front. So a quoted text is not the beginning of another one, and two texts that
are written alike are alike, whatever is written behind them.

This is so for every set of hidden characters. No control character is ever written as it
is, line breaks among them.

Key definition: `Quote.unescape?`.
Key theorems: `Quote.unescape?_escape`, `Quote.text_append_inj`,
`Quote.isControl_of_mem_text`.
-/
import Mathlib.Data.Nat.Basic
import CssReader.Outline.Quote
import CssReader.Proofs.Lexeme.UrlForm

namespace CssReader
namespace Quote

variable {hidden : Char → Bool} {q c d : Char} {s t k l : Text} {n : Nat}

/-! ### Numbers -/

def digitValue (c : Char) : Nat :=
  if c.isDigit then c.toNat - '0'.toNat else c.toNat - 'a'.toNat + 10

/-- The number that hexadecimal digits in lower case stand for. -/
def numberOf (digits : Text) : Nat :=
  digits.foldl (fun n c => 16 * n + digitValue c) 0

theorem numberOf_toDigits (n : Nat) : numberOf (Nat.toDigits 16 n) = n := by
  have hdigit : ∀ m < 16, digitValue (Nat.digitChar m) = m := by decide
  induction n using Nat.strongRecOn with
  | ind n ih =>
    rw [Nat.toDigits_eq_if (by decide)]
    by_cases hn : n < 16
    · rw [if_pos hn]
      simpa [numberOf] using hdigit n hn
    · have hrec := ih (n / 16) (by omega)
      rw [if_neg hn, numberOf, List.foldl_append, ← numberOf, hrec, List.foldl_cons, List.foldl_nil,
        hdigit _ (Nat.mod_lt _ (by decide))]
      omega

theorem isHex_of_mem_toDigits (h : d ∈ Nat.toDigits 16 n) : isHex d = true := by
  have hdigit : ∀ m < 16, isHex (Nat.digitChar m) = true := by decide
  induction n using Nat.strongRecOn with
  | ind n ih =>
    rw [Nat.toDigits_eq_if (by decide)] at h
    by_cases hn : n < 16
    · rw [if_pos hn, List.mem_singleton] at h
      rw [h]
      exact hdigit n hn
    · rw [if_neg hn, List.mem_append, List.mem_singleton] at h
      rcases h with h | rfl
      · exact ih (n / 16) (by omega) h
      · exact hdigit _ (Nat.mod_lt _ (by decide))

/-! ### Characters -/

/-- The character that a letter behind a backslash stands for. -/
def named (c : Char) : Char :=
  if c = '0' then '\x00'
  else if c = 't' then '\t'
  else if c = 'n' then '\n'
  else if c = 'r' then '\r'
  else c

/-- One character of a quoted text, read back from the front of a text. -/
def unescape? : Text → Option (Char × Text)
  | '\\' :: 'u' :: '\x7b' :: s =>
    some (Char.ofNat (numberOf (s.takeWhile (· ≠ '\x7d'))), (s.dropWhile (· ≠ '\x7d')).tail)
  | '\\' :: c :: s => some (named c, s)
  | c :: s => some (c, s)
  | [] => none

theorem unescape?_plain (hc : c ≠ '\\') (s : Text) : unescape? (c :: s) = some (c, s) := by
  unfold unescape?
  split <;> simp_all

/-- **Escaping can be undone**, whatever is written behind the character. -/
theorem unescape?_escape (hq : isQuote q = true) (c : Char) (k : Text) :
    unescape? (escape hidden q c ++ k) = some (c, k) := by
  unfold escape
  split
  · rename_i hc
    simp only [isQuote, Bool.or_eq_true, decide_eq_true_eq] at hq hc
    rcases hc with rfl | rfl
    · rcases hq with rfl | rfl <;> rfl
    · rfl
  · rename_i hc
    split_ifs with h0 ht hn hr hx
    · rw [h0]; rfl
    · rw [ht]; rfl
    · rw [hn]; rfl
    · rw [hr]; rfl
    · have hbrace : ∀ d ∈ Nat.toDigits 16 c.toNat, decide (d ≠ '\x7d') = true := by
        intro d hd
        rw [decide_eq_true_eq]
        rintro rfl
        exact absurd (isHex_of_mem_toDigits hd) (by decide)
      obtain ⟨htake, hdrop⟩ :=
        Text.span_append (u := '\x7d' :: k) hbrace (by simp)
      have hread : ['\\', 'u', '\x7b'] ++ Nat.toDigits 16 c.toNat ++ ['\x7d'] ++ k =
          '\\' :: 'u' :: '\x7b' :: (Nat.toDigits 16 c.toNat ++ '\x7d' :: k) := by simp
      rw [hread, unescape?, htake, hdrop, numberOf_toDigits, Char.ofNat_toNat]
      rfl
    · exact unescape?_plain (by simpa using fun h => hc (by simp [h])) k

/-- No character is written with the quote in front. -/
theorem escape_eq_cons (hidden : Char → Bool) (hq : isQuote q = true) (c : Char) :
    ∃ d t, escape hidden q c = d :: t ∧ d ≠ q := by
  have hback : '\\' ≠ q := by
    rintro rfl
    simp [isQuote] at hq
  unfold escape
  split
  · exact ⟨_, _, rfl, hback⟩
  · rename_i hc
    split_ifs
    all_goals first
      | exact ⟨_, _, rfl, hback⟩
      | exact ⟨c, [], rfl, fun h => hc (by simp [h])⟩

/-! ### Texts -/

/-- What is written between two quotes ends where it ends. -/
theorem flatMap_escape_inj (hq : isQuote q = true)
    (h : s.flatMap (escape hidden q) ++ q :: k = t.flatMap (escape hidden q) ++ q :: l) :
    s = t ∧ k = l := by
  -- a quote is not the beginning of what is written for a character
  have hstop (c : Char) (t k l : Text) :
      q :: k ≠ (c :: t).flatMap (escape hidden q) ++ q :: l := by
    obtain ⟨d, u, hd, hne⟩ := escape_eq_cons hidden hq c
    rw [List.flatMap_cons, hd, List.cons_append]
    intro he
    exact hne (List.cons.inj he).1.symm
  induction s generalizing t with
  | nil =>
    rcases t with _ | ⟨c, t⟩
    · exact ⟨rfl, (List.cons.inj h).2⟩
    · exact absurd h (hstop c t k l)
  | cons c s ih =>
    rcases t with _ | ⟨c', t⟩
    · exact absurd h.symm (hstop c s l k)
    · rw [List.flatMap_cons, List.flatMap_cons, List.append_assoc, List.append_assoc] at h
      have hread := congrArg unescape? h
      rw [unescape?_escape hq, unescape?_escape hq] at hread
      obtain ⟨rfl, hrest⟩ := Prod.mk.inj (Option.some.inj hread)
      obtain ⟨rfl, rfl⟩ := ih hrest
      exact ⟨rfl, rfl⟩

theorem text_append (hidden : Char → Bool) (q : Char) (s k : Text) :
    text hidden q s ++ k = q :: (s.flatMap (escape hidden q) ++ q :: k) := by
  simp [text]

/-- **Quoted texts are written unambiguously**, whatever is written behind them. -/
theorem text_append_inj (hq : isQuote q = true)
    (h : text hidden q s ++ k = text hidden q t ++ l) : s = t ∧ k = l := by
  rw [text_append, text_append] at h
  exact flatMap_escape_inj hq (List.cons.inj h).2

/-! ### Control characters -/

theorem isControl_of_isHex (h : isHex c = true) : isControl c = false := by
  have hrange : 48 ≤ c.toNat ∧ c.toNat ≤ 102 := by
    simp only [isHex, Char.isDigit, Bool.or_eq_true, Bool.and_eq_true, decide_eq_true_eq,
      Char.le_def, ge_iff_le, UInt32.le_iff_toNat_le] at h
    rcases h with (⟨hl, hu⟩ | ⟨hl, hu⟩) | ⟨hl, hu⟩
    · exact ⟨hl, Nat.le_trans hu (by decide)⟩
    · exact ⟨Nat.le_trans (by decide) hl, hu⟩
    · exact ⟨Nat.le_trans (by decide) hl, Nat.le_trans hu (by decide)⟩
  simp only [isControl, Bool.or_eq_false_iff, Bool.and_eq_false_iff, decide_eq_false_iff_not]
  omega

theorem isControl_of_isQuote (h : isQuote q = true) : isControl q = false := by
  simp only [isQuote, Bool.or_eq_true, decide_eq_true_eq] at h
  rcases h with rfl | rfl <;> rfl

theorem isControl_of_mem_escape (hq : isQuote q = true) (h : d ∈ escape hidden q c) :
    isControl d = false := by
  unfold escape at h
  split at h
  · rename_i hc
    simp only [Bool.or_eq_true, decide_eq_true_eq] at hc
    rcases List.mem_cons.1 h with rfl | h
    · rfl
    · obtain rfl := List.mem_singleton.1 h
      rcases hc with rfl | rfl
      · exact isControl_of_isQuote hq
      · rfl
  · split_ifs at h with h0 ht hn hr hx
    iterate 4
      · simp only [List.mem_cons, List.not_mem_nil, or_false] at h
        rcases h with rfl | rfl <;> rfl
    · simp only [List.mem_append, List.mem_cons, List.not_mem_nil, or_false] at h
      rcases h with ((rfl | rfl | rfl) | h) | rfl
      · rfl
      · rfl
      · rfl
      · exact isControl_of_isHex (isHex_of_mem_toDigits h)
      · rfl
    · obtain rfl := List.mem_singleton.1 h
      simp only [Bool.not_eq_true, Bool.or_eq_false_iff] at hx
      exact hx.1

/-- No control character is written as it is. -/
theorem isControl_of_mem_text (hq : isQuote q = true) (h : d ∈ text hidden q s) :
    isControl d = false := by
  simp only [text, List.mem_append, List.mem_cons, List.mem_flatMap, List.not_mem_nil,
    or_false] at h
  rcases h with (rfl | ⟨c, -, hc⟩) | rfl
  · exact isControl_of_isQuote hq
  · exact isControl_of_mem_escape hq hc
  · exact isControl_of_isQuote hq

end Quote
end CssReader
