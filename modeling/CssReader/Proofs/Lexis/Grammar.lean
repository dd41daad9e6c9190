/-
# The grammars of names, numerals, blanks, strings and comments

Each grammar is a set of texts, put together from classes of characters by union, sequence
and repetition. It says which texts there are, and nothing about how one is found in front
of others: a text may be in a grammar in several ways, and so may beginnings of it.

A reader that takes the longest beginning of a text which is in a grammar (`Takes`) can be
followed by another one. Together they take the longest beginning that is a sequence of the
two, unless the first one may take what the second one needs. It cannot if no character
that continues a text of the first grammar begins one of the second (`Apart`).

Key definitions: `Grammar.name`, `Grammar.hashName`, `Grammar.numeral`, `Grammar.blanks`,
`Grammar.string`, `Grammar.comment`, `Grammar.Takes`, `Grammar.Apart`.
Key theorems: `Grammar.Takes.andThen`, `Grammar.mem_kstar_oneOf`.
-/
import Mathlib.Computability.Language
import Mathlib.Data.List.TakeWhile
import CssReader.Text

open scoped Computability

namespace CssReader
namespace Grammar

/-! ### Characters -/

def IsDigit (c : Char) : Prop := '0' ≤ c ∧ c ≤ '9'

def IsHexDigit (c : Char) : Prop := IsDigit c ∨ ('a' ≤ c ∧ c ≤ 'f') ∨ ('A' ≤ c ∧ c ≤ 'F')

/-- Space, tab, line feed, carriage return and form feed. -/
def IsSpace (c : Char) : Prop := c = ' ' ∨ c = '\t' ∨ c = '\n' ∨ c = '\r' ∨ c = '\x0c'

/-- A letter of ASCII, an underscore, or anything outside ASCII. -/
def IsNameStart (c : Char) : Prop :=
  ('a' ≤ c ∧ c ≤ 'z') ∨ ('A' ≤ c ∧ c ≤ 'Z') ∨ c = '_' ∨ 128 ≤ c.toNat

def IsNameChar (c : Char) : Prop := IsNameStart c ∨ IsDigit c ∨ c = '-'

/-- A character of a string with the quote `q` that stands for itself. -/
def IsStringChar (q c : Char) : Prop :=
  c ≠ q ∧ c ≠ '\\' ∧ c ≠ '\n' ∧ c ≠ '\r' ∧ c ≠ '\x0c'

theorem isDigit_iff {c : Char} : c.isDigit = true ↔ IsDigit c := by
  simp [Char.isDigit, IsDigit, Char.le_def]

theorem isHex_iff {c : Char} : isHex c = true ↔ IsHexDigit c := by
  simp [isHex, IsHexDigit, isDigit_iff, or_assoc]

theorem isBlank_iff {c : Char} : isBlank c = true ↔ IsSpace c := by
  simp [isBlank, IsSpace, or_assoc]

theorem isNameStart_iff {c : Char} : isNameStart c = true ↔ IsNameStart c := by
  have halpha : c.isAlpha =
      (decide ('A' ≤ c ∧ c ≤ 'Z') || (decide ('a' ≤ c) && decide (c ≤ 'z'))) := rfl
  simp only [isNameStart, halpha, IsNameStart, Bool.or_eq_true, Bool.and_eq_true,
    decide_eq_true_eq]
  tauto

theorem isNameChar_iff {c : Char} : isNameChar c = true ↔ IsNameChar c := by
  simp [isNameChar, IsNameChar, isNameStart_iff, isDigit_iff, or_assoc]

theorem isStringChar_iff {q c : Char} (hc : c ≠ '\\') :
    (c = q || isLineBreak c) = false ↔ IsStringChar q c := by
  simp [isLineBreak, IsStringChar, hc, and_assoc]

/-! ### Grammars -/

/-- One character of a class. -/
def oneOf (P : Char → Prop) : Language Char := {w | ∃ c, P c ∧ w = [c]}

/-- One text. -/
def exactly (w : Text) : Language Char := {w}

/-- What may be left out. -/
def optional (L : Language Char) : Language Char := 1 + L

/-- Once or more often. -/
def many (L : Language Char) : Language Char := L * L∗

/-- One to six hexadecimal digits. -/
def hexCode : Language Char :=
  {w | w ≠ [] ∧ w.length ≤ 6 ∧ ∀ c ∈ w, IsHexDigit c}

/-- A backslash with a dollar sign, a line feed, or hexadecimal digits and perhaps one
blank behind them. -/
def escape : Language Char :=
  exactly ['\\'] *
    (exactly ['$'] + exactly ['\n'] + hexCode * optional (oneOf IsSpace))

/-- A character of a class, or an escape. -/
def unit (P : Char → Prop) : Language Char := oneOf P + escape

def name : Language Char :=
  optional (exactly ['-']) * unit IsNameStart * (unit IsNameChar)∗

/-- What may follow a hash sign. -/
def hashName : Language Char := many (unit IsNameChar)

def sign : Language Char := oneOf fun c => c = '+' ∨ c = '-'

def digits : Language Char := many (oneOf IsDigit)

/-- A point and the digits behind it. -/
def fraction : Language Char := exactly ['.'] * digits

def exponent : Language Char := oneOf (fun c => c = 'e' ∨ c = 'E') * optional sign * digits

def numeral : Language Char :=
  optional sign * (digits + digits * fraction + fraction) * optional exponent

def blanks : Language Char := many (oneOf IsSpace)

/-- What stands between the quotes `q` of a string. -/
def stringBody (q : Char) : Language Char :=
  (oneOf (IsStringChar q) + exactly ['\\'] * oneOf fun _ => True)∗

/-- A string that begins with the quote `q`, perhaps without the one that closes it. -/
def string (q : Char) : Language Char :=
  exactly [q] * stringBody q * optional (exactly [q])

/-- A string with both of its quotes. -/
def closedString (q : Char) : Language Char :=
  exactly [q] * stringBody q * exactly [q]

/-- A text that begins and ends as comments do. There may be ends of comments in the
middle of it. -/
def comment : Language Char :=
  exactly ['/', '*'] * (oneOf fun _ => True)∗ * exactly ['*', '/']

section
variable {P : Char → Prop} {L M : Language Char} {w v : Text} {c : Char}

@[simp] theorem mem_oneOf : w ∈ oneOf P ↔ ∃ c, P c ∧ w = [c] := Iff.rfl

@[simp] theorem mem_exactly : w ∈ exactly v ↔ w = v := Iff.rfl

/-- One character is a class of its own. -/
theorem exactly_singleton (c : Char) : exactly [c] = oneOf (· = c) := by
  ext w
  simp

theorem mem_many : w ∈ many L ↔ ∃ u ∈ L, ∃ v ∈ L∗, u ++ v = w := Language.mem_mul

/-- A repetition is empty, or it is a text and a repetition behind it. -/
theorem mem_kstar_iff : w ∈ L∗ ↔ w = [] ∨ w ∈ many L := by
  rw [← Language.one_add_self_mul_kstar_eq_kstar L, Language.mem_add, Language.mem_one]
  rfl

theorem append_mem_kstar (hw : w ∈ L) (hv : v ∈ L∗) : w ++ v ∈ L∗ :=
  mul_kstar_le_kstar (a := L) (Language.append_mem_mul hw hv)

/-- What holds of the empty text and passes on to a text in front holds of repetitions. -/
theorem kstar_induction {motive : Text → Prop} (nil : motive [])
    (append : ∀ u ∈ L, ∀ v ∈ L∗, motive v → motive (u ++ v)) (hw : w ∈ L∗) : motive w := by
  obtain ⟨parts, rfl, hparts⟩ := Language.mem_kstar.1 hw
  clear hw
  induction parts with
  | nil => exact nil
  | cons u parts ih =>
    rw [List.forall_mem_cons] at hparts
    rw [List.flatten_cons]
    exact append u hparts.1 _ (Language.join_mem_kstar hparts.2) (ih hparts.2)

/-- A repetition of a class has no characters but those of the class. -/
theorem mem_kstar_oneOf : w ∈ (oneOf P)∗ ↔ ∀ c ∈ w, P c := by
  constructor
  · apply kstar_induction
    · simp
    · rintro _ ⟨c, hc, rfl⟩ v - ih
      simpa [hc] using ih
  · intro h
    induction w with
    | nil => exact Language.nil_mem_kstar _
    | cons c w ih =>
      rw [List.forall_mem_cons] at h
      exact append_mem_kstar (w := [c]) ⟨c, h.1, rfl⟩ (ih h.2)

theorem mem_many_oneOf : w ∈ many (oneOf P) ↔ w ≠ [] ∧ ∀ c ∈ w, P c := by
  rw [mem_many]
  constructor
  · rintro ⟨_, ⟨c, hc, rfl⟩, v, hv, rfl⟩
    exact ⟨List.cons_ne_nil _ _, List.forall_mem_cons.2 ⟨hc, mem_kstar_oneOf.1 hv⟩⟩
  · rintro ⟨hne, h⟩
    obtain ⟨c, w, rfl⟩ := List.exists_cons_of_ne_nil hne
    rw [List.forall_mem_cons] at h
    exact ⟨[c], ⟨c, h.1, rfl⟩, w, mem_kstar_oneOf.2 h.2, rfl⟩

end

/-! ### The longest beginning -/

/-- The reader takes of every text the longest beginning that is in the grammar. -/
structure Takes (f : Text → Text × Text) (L : Language Char) : Prop where
  split : ∀ s, (f s).1 ++ (f s).2 = s
  mem : ∀ s, (f s).1 ∈ L
  longest : ∀ {s w : Text}, w ∈ L → w <+: s → w <+: (f s).1

/-- No character that continues a text of `L` begins a text of `M`. -/
def Apart (L M : Language Char) : Prop :=
  ∀ {v u t : Text} {c : Char}, v ∈ L → v ++ c :: u ∈ L → c :: t ∉ M

theorem Apart.of_forall {L M : Language Char} {P : Char → Prop} (hL : ∀ w ∈ L, ∀ c ∈ w, P c)
    (hM : ∀ {c : Char} {t : Text}, c :: t ∈ M → ¬P c) : Apart L M := by
  intro v u t c _ hvu hc
  exact hM hc (hL _ hvu c (List.mem_append_right _ List.mem_cons_self))

/-- The reader finds in every text the longest beginning that is in the grammar and not
empty, and finds nothing only if there is none. -/
structure Finds (read : Text → Option Text) (L : Language Char) : Prop where
  mem : ∀ {s l : Text}, read s = some l → l ∈ L ∧ l ≠ [] ∧ l <+: s
  longest : ∀ {s w : Text}, w ∈ L → w ≠ [] → w <+: s → ∃ l, read s = some l ∧ w <+: l

namespace Takes

variable {f g : Text → Text × Text} {L M N : Language Char} {s : Text}

theorem isPrefix (hf : Takes f L) (s : Text) : (f s).1 <+: s := ⟨_, hf.split s⟩

/-- A reader and one behind it take the longest sequence, if what they take is apart. -/
theorem andThen (hf : Takes f L) (hg : Takes g M) (h : Apart L M) :
    Takes (fun s => ((f s).1 ++ (g (f s).2).1, (g (f s).2).2)) (L * M) where
  split s := by
    rw [List.append_assoc, hg.split, hf.split]
  mem s := Language.append_mem_mul (hf.mem s) (hg.mem _)
  longest {s w} hw hs := by
    obtain ⟨v, hv, m, hm, rfl⟩ := Language.mem_mul.1 hw
    obtain ⟨x, hx⟩ := hf.longest hv ((List.prefix_append v m).trans hs)
    have hsplit := hf.split s
    rcases x with _ | ⟨c, x⟩
    · -- the first reader takes just the first part
      rw [List.append_nil] at hx
      rw [← hsplit, ← hx, List.prefix_append_right_inj] at hs
      dsimp only
      rw [← hx, List.prefix_append_right_inj]
      exact hg.longest hm hs
    · -- it takes more; then there is no second part
      rcases m with _ | ⟨d, m⟩
      · rw [List.append_nil, ← hx]
        exact (List.prefix_append _ _).trans (List.prefix_append _ _)
      · rw [← hsplit, ← hx, List.append_assoc, List.prefix_append_right_inj, List.cons_append,
          List.cons_prefix_cons] at hs
        obtain ⟨rfl, -⟩ := hs
        exact absurd hm (h hv (hx ▸ hf.mem s))

/-- If something of the second part is there, the second reader takes something. -/
theorem ne_nil_of_andThen (hf : Takes f L) (hg : Takes g M) (h : Apart L M) {v m : Text}
    (hv : v ∈ L) (hm : m ∈ M) (hne : m ≠ []) (hs : v ++ m <+: s) : (g (f s).2).1 ≠ [] := by
  intro hnil
  have hle := (hf.andThen hg h).longest (Language.append_mem_mul hv hm) hs
  dsimp only at hle
  rw [hnil, List.append_nil] at hle
  obtain ⟨c, m, rfl⟩ := List.exists_cons_of_ne_nil hne
  obtain ⟨u, hu⟩ := hle
  have hmem := hf.mem s
  rw [← hu, List.append_assoc, List.cons_append] at hmem
  exact h hv hmem hm

/-- All characters of a class at the front of a text are the longest repetition of it. -/
theorem takeWhile {p : Char → Bool} {P : Char → Prop} (hp : ∀ {c}, p c = true ↔ P c) :
    Takes (fun s => (s.takeWhile p, s.dropWhile p)) (oneOf P)∗ where
  split s := List.takeWhile_append_dropWhile
  mem s := mem_kstar_oneOf.2 fun c hc => hp.1 (List.mem_takeWhile_imp hc)
  longest {s w} hw hs := by
    obtain ⟨t, rfl⟩ := hs
    rw [List.takeWhile_append_of_pos fun c hc => hp.2 (mem_kstar_oneOf.1 hw c hc)]
    exact List.prefix_append _ _

/-- A character of a class in front of what `g` takes, if `q` says that this is in `N`. -/
theorem marked {p : Char → Bool} {P : Char → Prop} {q : Text → Bool} (hg : Takes g M)
    (hp : ∀ {c}, p c = true ↔ P c) (hnil : f [] = ([], []))
    (hcons : ∀ c s, f (c :: s) = if p c && q s then (c :: (g s).1, (g s).2) else ([], c :: s))
    (hsub : ∀ w ∈ N, w ∈ M) (hmem : ∀ {s}, q s = true → (g s).1 ∈ N)
    (hq : ∀ {s w : Text}, w ∈ N → w <+: s → q s = true) : Takes f (optional (oneOf P * N)) where
  split s := by
    rcases s with _ | ⟨c, s⟩
    · rw [hnil, List.nil_append]
    · rw [hcons]
      by_cases hc : (p c && q s) = true
      · rw [if_pos hc, List.cons_append, hg.split]
      · rw [if_neg hc, List.nil_append]
  mem s := by
    rcases s with _ | ⟨c, s⟩
    · rw [hnil]
      exact .inl rfl
    · rw [hcons]
      by_cases hc : (p c && q s) = true
      · rw [if_pos hc]
        rw [Bool.and_eq_true] at hc
        exact .inr (Language.append_mem_mul (a := [c]) ⟨c, hp.1 hc.1, rfl⟩ (hmem hc.2))
      · rw [if_neg hc]
        exact .inl rfl
  longest {s w} hw hs := by
    rcases hw with rfl | hw
    · exact List.nil_prefix
    · obtain ⟨_, ⟨c, hc, rfl⟩, m, hm, rfl⟩ := Language.mem_mul.1 hw
      obtain ⟨t, rfl⟩ := hs
      have hmt : m <+: m ++ t := List.prefix_append m t
      simp only [List.cons_append, List.nil_append]
      rw [hcons, if_pos (by rw [hp.2 hc, hq hm hmt]; rfl)]
      exact List.cons_prefix_cons.2 ⟨rfl, hg.longest (hsub m hm) hmt⟩

/-- At most one character of a class. -/
theorem one {p : Char → Bool} {P : Char → Prop} (hp : ∀ {c}, p c = true ↔ P c)
    (hnil : f [] = ([], []))
    (hcons : ∀ c s, f (c :: s) = if p c then ([c], s) else ([], c :: s)) :
    Takes f (optional (oneOf P)) := by
  have hnone : Takes (fun s => (([] : Text), s)) 1 :=
    { split := fun _ => rfl
      mem := fun _ => Language.nil_mem_one
      longest := fun hw _ => by rw [(Language.mem_one _).1 hw] }
  have h := hnone.marked (q := fun _ => true) hp hnil (fun c s => by rw [hcons, Bool.and_true])
    (fun _ h => h) (fun _ => Language.nil_mem_one) fun _ _ => rfl
  rwa [mul_one] at h

/-- What takes all repetitions finds them, if there are any. -/
theorem finds {read : Text → Option Text} (hf : Takes f L∗)
    (hread : ∀ s, read s = if (f s).1.isEmpty then none else some (f s).1) :
    Finds read (many L) where
  mem {s l} h := by
    rw [hread] at h
    by_cases he : (f s).1.isEmpty = true
    · rw [if_pos he] at h
      exact absurd h (Option.some_ne_none _).symm
    · rw [if_neg he] at h
      obtain rfl := Option.some.inj h
      have hne : (f s).1 ≠ [] := by simpa using he
      exact ⟨(mem_kstar_iff.1 (hf.mem s)).resolve_left hne, hne, hf.isPrefix s⟩
  longest {s w} hw hne hs := by
    have hle := hf.longest (mem_kstar_iff.2 (.inr hw)) hs
    have htaken : (f s).1 ≠ [] := fun h => hne (List.prefix_nil.1 (h ▸ hle))
    exact ⟨(f s).1, by rw [hread, if_neg (by simpa using htaken)], hle⟩

end Takes

end Grammar
end CssReader
