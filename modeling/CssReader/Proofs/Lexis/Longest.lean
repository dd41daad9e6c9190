/-
# Readers take the longest that there is

An escape takes all the hexadecimal digits it can, six at most, and a blank behind them.
So it may take what a shorter reading would leave to the units behind it. This never cuts a
name short: hexadecimal digits are units of names themselves, so the longer escape takes
nothing else than these units, and a blank is none, so it is taken only where a shorter
reading would have to stop. `escape?_step` says this of one escape and all the units that
may come behind it, and an induction over the units takes it to whole names.

The parts of a numeral are apart from each other, and so are the body of a string and the
quote that closes it. What their readers take together is the longest by `Takes.andThen`.

Key theorems: `Grammar.escape?_step`, `Grammar.takes_nameTail`, `Grammar.finds_name?`,
`Grammar.finds_numeral`, `Grammar.finds_string`.
-/
import CssReader.Lexeme
import CssReader.Proofs.Lexis.Cut
import CssReader.Proofs.Lexis.Grammar

open scoped Computability

namespace CssReader
namespace Grammar

/-! ### Characters in each other's place -/

section
variable {c : Char}

theorem ne_backslash_of_hex (h : IsHexDigit c) : c ≠ '\\' := by
  rintro rfl
  exact absurd (isHex_iff.2 h) (by decide)

theorem not_hex_of_space (h : IsSpace c) : ¬IsHexDigit c := by
  rw [← isHex_iff]
  rcases h with rfl | rfl | rfl | rfl | rfl <;> decide

theorem not_nameChar_of_space (h : IsSpace c) : ¬IsNameChar c := by
  rw [← isNameChar_iff]
  rcases h with rfl | rfl | rfl | rfl | rfl <;> decide

theorem ne_backslash_of_space (h : IsSpace c) : c ≠ '\\' := by
  rintro rfl
  exact absurd (isBlank_iff.2 h) (by decide)

end

/-! ### Escapes and names -/

section
variable {s w v e l r t : Text} {c : Char} {P : Char → Prop}

theorem mem_escape : w ∈ escape ↔ ∃ x, w = '\\' :: x ∧
    (x = ['$'] ∨ x = ['\n'] ∨ x ∈ hexCode * optional (oneOf IsSpace)) := by
  constructor
  · rintro ⟨_, rfl, x, hx, rfl⟩
    exact ⟨x, rfl, or_assoc.1 hx⟩
  · rintro ⟨x, rfl, hx⟩
    exact ⟨['\\'], rfl, x, or_assoc.2 hx, rfl⟩

theorem mem_unit : w ∈ unit P ↔ (∃ c, P c ∧ w = [c]) ∨ w ∈ escape := Language.mem_add _ _ _

/-- A text of units begins with a character of a name or with an escape. -/
theorem mem_units_cons (hc : c ≠ '\\') (h : c :: v ∈ (unit IsNameChar)∗) :
    IsNameChar c ∧ v ∈ (unit IsNameChar)∗ := by
  rcases mem_kstar_iff.1 h with h | h
  · simp at h
  · obtain ⟨u, hu, v', hv', he⟩ := mem_many.1 h
    rcases mem_unit.1 hu with ⟨d, hd, rfl⟩ | hu
    · obtain ⟨rfl, rfl⟩ := List.cons.inj he
      exact ⟨hd, hv'⟩
    · obtain ⟨x, rfl, -⟩ := mem_escape.1 hu
      exact absurd (List.cons.inj he).1.symm hc

/-- Hexadecimal digits are units, so what is behind them is made of units too. -/
theorem mem_units_of_append (he : ∀ c ∈ e, IsHexDigit c) (h : e ++ v ∈ (unit IsNameChar)∗) :
    v ∈ (unit IsNameChar)∗ := by
  induction e with
  | nil => exact h
  | cons c e ih =>
    rw [List.forall_mem_cons] at he
    exact ih he.2 (mem_units_cons (ne_backslash_of_hex he.1) h).2

theorem not_mem_units_of_space (hc : IsSpace c) : c :: v ∉ (unit IsNameChar)∗ := fun h =>
  not_nameChar_of_space hc (mem_units_cons (ne_backslash_of_space hc) h).1

theorem hexDigits_mem (hx : isHex c = true) : hexDigits (c :: s) ∈ hexCode := by
  refine ⟨?_, ?_, fun d hd => isHex_iff.1 (List.mem_takeWhile_imp hd)⟩
  · simp [hexDigits, hx]
  · exact (List.takeWhile_prefix _).length_le.trans (List.length_take_le _ _)

/-- Up to six hexadecimal digits at the front of a text are among those that are taken. -/
theorem hexDigits_append (hw : w ∈ hexCode) (t : Text) :
    ∃ e, hexDigits (w ++ t) = w ++ e ∧ ∀ c ∈ e, IsHexDigit c := by
  obtain ⟨-, hlen, hhex⟩ := hw
  refine ⟨(t.take (6 - w.length)).takeWhile isHex, ?_,
    fun c hc => isHex_iff.1 (List.mem_takeWhile_imp hc)⟩
  rw [hexDigits, List.take_append, List.take_of_length_le hlen,
    List.takeWhile_append_of_pos fun c hc => isHex_iff.2 (hhex c hc)]

theorem oneBlank_mem (s : Text) : (oneBlank s).1 ∈ optional (oneOf IsSpace) := by
  unfold oneBlank
  split
  · exact .inl rfl
  · rename_i b r
    by_cases hb : isBlank b = true
    · rw [if_pos hb]
      exact .inr ⟨b, isBlank_iff.1 hb, rfl⟩
    · rw [if_neg hb]
      exact .inl rfl

/-- A blank behind an escape is taken only where no units of a name begin. -/
theorem oneBlank_step (hv : v ∈ (unit IsNameChar)∗) (t : Text) :
    ∃ v', v' ∈ (unit IsNameChar)∗ ∧ v' <+: (oneBlank (v ++ t)).2 ∧
      v <+: (oneBlank (v ++ t)).1 ++ v' := by
  rcases v with _ | ⟨y, v⟩
  · exact ⟨[], hv, List.nil_prefix, List.nil_prefix⟩
  · have hy : ¬isBlank y = true := fun h => not_mem_units_of_space (isBlank_iff.1 h) hv
    rw [List.cons_append, oneBlank, if_neg hy]
    exact ⟨y :: v, hv, List.prefix_append (y :: v) t, List.prefix_rfl⟩

theorem escape?_mem (h : escape? s = some (l, r)) : l ∈ escape := by
  unfold escape? at h
  split at h
  · rename_i c s
    by_cases hc : (c = '$' || c = '\n') = true
    · rw [if_pos hc] at h
      obtain ⟨rfl, -⟩ := Prod.mk.inj (Option.some.inj h)
      refine mem_escape.2 ⟨[c], rfl, ?_⟩
      rcases Bool.or_eq_true_iff.1 hc with hc | hc
      · exact .inl (by rw [of_decide_eq_true hc])
      · exact .inr (.inl (by rw [of_decide_eq_true hc]))
    · rw [if_neg hc, hexDigits_cons_isEmpty] at h
      by_cases hx : isHex c = true
      · simp only [hx, Bool.not_true, Bool.false_eq_true, if_false] at h
        obtain ⟨rfl, -⟩ := Prod.mk.inj (Option.some.inj h)
        rw [List.cons_append]
        refine Language.append_mem_mul (a := ['\\']) rfl (.inr ?_)
        exact Language.append_mem_mul (hexDigits_mem hx) (oneBlank_mem _)
      · simp [hx] at h
  · simp at h

/-- An escape and units behind it, at the front of a text: the reader takes an escape, and
what it takes and some units behind that are no shorter. -/
theorem escape?_step (hw : w ∈ escape) (hv : v ∈ (unit IsNameChar)∗) (hs : w ++ v <+: s) :
    ∃ l r v', escape? s = some (l, r) ∧ v' ∈ (unit IsNameChar)∗ ∧ v' <+: r ∧
      w ++ v <+: l ++ v' := by
  obtain ⟨t, rfl⟩ := hs
  obtain ⟨x, rfl, hx⟩ := mem_escape.1 hw
  have htwo (c : Char) (hc : (c = '$' || c = '\n') = true) : ∃ l r v',
      escape? (['\\', c] ++ v ++ t) = some (l, r) ∧ v' ∈ (unit IsNameChar)∗ ∧ v' <+: r ∧
        ['\\', c] ++ v <+: l ++ v' :=
    ⟨['\\', c], v ++ t, v, by simp [escape?, hc], hv, List.prefix_append v t, List.prefix_rfl⟩
  rcases hx with rfl | rfl | hx
  · exact htwo '$' rfl
  · exact htwo '\n' rfl
  obtain ⟨d, hd, b, hb, rfl⟩ := Language.mem_mul.1 hx
  obtain ⟨c, d, rfl⟩ := List.exists_cons_of_ne_nil hd.1
  have hc : IsHexDigit c := hd.2.2 c List.mem_cons_self
  have hmark : ¬(c = '$' || c = '\n') = true := by
    intro hm
    simp only [Bool.or_eq_true, decide_eq_true_eq] at hm
    rcases hm with rfl | rfl <;> exact absurd (isHex_iff.2 hc) (by decide)
  -- the reader takes the digits `c :: d` and perhaps more of them, `e`
  obtain ⟨e, hdigits, he⟩ := hexDigits_append hd (b ++ (v ++ t))
  have hsplit := hexDigits_append_drop (c :: d ++ (b ++ (v ++ t)))
  have hread := escape?_hex (s := d ++ (b ++ (v ++ t))) hmark (isHex_iff.2 hc)
  rw [← List.cons_append, hdigits] at hread
  rw [hdigits, List.append_assoc, List.append_cancel_left_eq] at hsplit
  generalize (c :: d ++ (b ++ (v ++ t))).drop (c :: d ++ e).length = left at hread hsplit
  have hs : '\\' :: (c :: d ++ b) ++ v ++ t = '\\' :: (c :: d ++ (b ++ (v ++ t))) := by simp
  rw [hs, hread]
  rcases hb with rfl | ⟨y, hy, rfl⟩
  · rw [List.nil_append] at hsplit
    rcases List.append_eq_append_iff.1 hsplit with ⟨a, rfl, rfl⟩ | ⟨a, rfl, rfl⟩
    · -- the digits `e` are the first of the units; a blank can only follow if they are all
      obtain ⟨v', hv', hrest, ha⟩ := oneBlank_step (mem_units_of_append he hv) t
      refine ⟨_, _, v', rfl, hv', hrest, ?_⟩
      simpa using ha
    · -- the digits `e` go on behind the units, so the reader takes more than these
      refine ⟨_, _, [], rfl, Language.nil_mem_kstar _, List.nil_prefix, ?_⟩
      simp
  · -- the blank ends the digits
    obtain rfl : e = [] := by
      rcases e with _ | ⟨z, e⟩
      · rfl
      · obtain rfl : z = y := (List.cons.inj hsplit).1
        exact absurd (he z List.mem_cons_self) (not_hex_of_space hy)
    obtain rfl : left = y :: (v ++ t) := hsplit
    rw [oneBlank, if_pos (isBlank_iff.2 hy)]
    refine ⟨_, _, v, rfl, hv, List.prefix_append v t, ?_⟩
    simp

/-- A reader of one character of a class, or of an escape, takes what is in the grammar. -/
theorem unit_mem {u : Text → Option (Text × Text)} {p : Char → Bool}
    (hp : ∀ {c}, p c = true ↔ P c) (hnil : u [] = none)
    (hcons : ∀ c s, u (c :: s) = if p c then some ([c], s) else escape? (c :: s))
    (h : u s = some (l, r)) : l ∈ unit P := by
  rcases s with _ | ⟨c, s⟩
  · rw [hnil] at h
    simp at h
  · rw [hcons] at h
    by_cases hc : p c = true
    · rw [if_pos hc] at h
      obtain ⟨rfl, -⟩ := Prod.mk.inj (Option.some.inj h)
      exact mem_unit.2 (.inl ⟨c, hp.1 hc, rfl⟩)
    · rw [if_neg hc] at h
      exact mem_unit.2 (.inr (escape?_mem h))

/-- The same for a reader of one character of a class, or of an escape. -/
theorem unit_step {u : Text → Option (Text × Text)} {p : Char → Bool}
    (hp : ∀ {c}, p c = true ↔ P c) (hback : p '\\' = false)
    (hcons : ∀ c s, u (c :: s) = if p c then some ([c], s) else escape? (c :: s))
    (hw : w ∈ unit P) (hv : v ∈ (unit IsNameChar)∗) (hs : w ++ v <+: s) :
    ∃ l r v', u s = some (l, r) ∧ v' ∈ (unit IsNameChar)∗ ∧ v' <+: r ∧ w ++ v <+: l ++ v' := by
  rcases mem_unit.1 hw with ⟨c, hc, rfl⟩ | hw
  · obtain ⟨t, rfl⟩ := hs
    refine ⟨[c], v ++ t, v, ?_, hv, List.prefix_append v t, List.prefix_rfl⟩
    rw [List.append_assoc, List.singleton_append, hcons, if_pos (hp.2 hc)]
  · obtain ⟨l, r, v', hread, hrest⟩ := escape?_step hw hv hs
    refine ⟨l, r, v', ?_, hrest⟩
    obtain ⟨x, rfl, -⟩ := mem_escape.1 hw
    obtain ⟨t, rfl⟩ := hs
    rw [List.cons_append, List.cons_append] at hread ⊢
    rw [hcons, if_neg (by rw [hback]; simp), hread]

/-- **Names are read to their end**: the longest sequence of units is taken. -/
theorem takes_nameTail : Takes nameTail (unit IsNameChar)∗ where
  split := nameTail_split
  mem s := by
    fun_induction nameTail s with
    | case1 => exact Language.nil_mem_kstar _
    | case2 s u r h ih =>
      exact append_mem_kstar (unit_mem (u := nameUnit?) isNameChar_iff rfl (fun _ _ => rfl) h) ih
  longest {s w} hw hs := by
    fun_induction nameTail s generalizing w with
    | case1 s h =>
      rcases mem_kstar_iff.1 hw with rfl | hw
      · exact List.prefix_rfl
      · obtain ⟨u, hu, v, hv, rfl⟩ := mem_many.1 hw
        obtain ⟨l, r, -, hread, -⟩ :=
          unit_step (u := nameUnit?) isNameChar_iff rfl (fun _ _ => rfl) hu hv hs
        rw [h] at hread
        simp at hread
    | case2 s u r h ih =>
      rcases mem_kstar_iff.1 hw with rfl | hw
      · exact List.nil_prefix
      · obtain ⟨x, hx, v, hv, rfl⟩ := mem_many.1 hw
        obtain ⟨l, r', v', hread, hv', hrest, hle⟩ :=
          unit_step (u := nameUnit?) isNameChar_iff rfl (fun _ _ => rfl) hx hv hs
        obtain ⟨rfl, rfl⟩ := Prod.mk.inj (Option.some.inj (h.symm.trans hread))
        exact hle.trans ((List.prefix_append_right_inj u).2 (ih hv' hrest))

theorem finds_hashName? : Finds (fun s => (hashName? s).map Prod.fst) hashName := by
  refine takes_nameTail.finds fun s => ?_
  unfold hashName?
  split <;> rfl

/-- What begins a name is not a hyphen. -/
theorem exists_of_mem_unit (hw : w ∈ unit IsNameStart) : ∃ c v, w = c :: v ∧ c ≠ '-' := by
  rcases mem_unit.1 hw with ⟨c, hc, rfl⟩ | hw
  · refine ⟨c, [], rfl, ?_⟩
    rintro rfl
    exact absurd (isNameStart_iff.2 hc) (by decide)
  · obtain ⟨x, rfl, -⟩ := mem_escape.1 hw
    exact ⟨'\\', x, rfl, by decide⟩

/-- A name without a hyphen in front, read from the text `s`. -/
theorem nameBody_mem (h : nameHead? s = some (l, r)) :
    l ++ (nameTail r).1 ∈ unit IsNameStart * (unit IsNameChar)∗ :=
  Language.append_mem_mul (unit_mem (u := nameHead?) isNameStart_iff rfl (fun _ _ => rfl) h)
    (takes_nameTail.mem r)

theorem nameBody_longest (hw : w ∈ unit IsNameStart) (hv : v ∈ (unit IsNameChar)∗)
    (hs : w ++ v <+: s) : ∃ l r, nameHead? s = some (l, r) ∧ w ++ v <+: l ++ (nameTail r).1 := by
  obtain ⟨l, r, v', hread, hv', hrest, hle⟩ :=
    unit_step (u := nameHead?) isNameStart_iff rfl (fun _ _ => rfl) hw hv hs
  exact ⟨l, r, hread,
    hle.trans ((List.prefix_append_right_inj l).2 (takes_nameTail.longest hv' hrest))⟩

theorem finds_name? : Finds (fun s => (name? s).map Prod.fst) name where
  mem {s l} hread := by
    obtain ⟨⟨l, r⟩, h, rfl⟩ := Option.map_eq_some_iff.1 hread
    obtain ⟨hsplit, hne⟩ := name?_split h
    refine ⟨?_, hne, r, hsplit⟩
    rw [name, mul_assoc]
    rcases s with _ | ⟨c, s⟩
    · simp [name?, nameHead?] at h
    by_cases hc : c = '-'
    · subst hc
      rw [name?_hyphen, Option.map_map] at h
      obtain ⟨⟨u, t⟩, hu, he⟩ := Option.map_eq_some_iff.1 h
      obtain ⟨rfl, -⟩ := Prod.mk.inj he
      exact Language.append_mem_mul (a := ['-']) (.inr rfl) (nameBody_mem hu)
    · rw [name?_cons hc] at h
      obtain ⟨⟨u, t⟩, hu, he⟩ := Option.map_eq_some_iff.1 h
      obtain ⟨rfl, -⟩ := Prod.mk.inj he
      exact Language.append_mem_mul (a := []) (.inl rfl) (nameBody_mem hu)
  longest {s w} hw _ hs := by
    obtain ⟨_, ⟨hyphen, hhyphen, x, hx, rfl⟩, v, hv, rfl⟩ := Language.mem_mul.1 hw
    rcases hhyphen with rfl | rfl
    · obtain ⟨l, r, hread, hle⟩ := nameBody_longest hx hv hs
      obtain ⟨c, x, rfl, hc⟩ := exists_of_mem_unit hx
      obtain ⟨t, rfl⟩ := hs
      refine ⟨_, ?_, hle⟩
      dsimp only [List.nil_append, List.cons_append] at hread ⊢
      rw [name?_cons hc, hread]
      rfl
    · obtain ⟨t, rfl⟩ := hs
      obtain ⟨l, r, hread, hle⟩ := nameBody_longest hx hv (List.prefix_append _ t)
      refine ⟨'-' :: (l ++ (nameTail r).1), ?_, List.cons_prefix_cons.2 ⟨rfl, hle⟩⟩
      dsimp only [List.nil_append, List.cons_append]
      rw [name?_hyphen, hread]
      rfl

end

/-! ### Numerals and blanks -/

section
variable {s w t : Text} {c : Char}

theorem mem_digits : w ∈ digits ↔ w ≠ [] ∧ ∀ c ∈ w, IsDigit c := mem_many_oneOf

theorem not_sign_of_digit (h : IsDigit c) : ¬(c = '+' ∨ c = '-') := by
  rintro (rfl | rfl) <;> exact absurd (isDigit_iff.2 h) (by decide)

theorem not_mark_of_digit (h : IsDigit c) : ¬(c = 'e' ∨ c = 'E') := by
  rintro (rfl | rfl) <;> exact absurd (isDigit_iff.2 h) (by decide)

theorem cons_mem_optional_fraction (h : c :: t ∈ optional fraction) : c = '.' ∧ t ∈ digits := by
  rcases h with h | ⟨_, rfl, d, hd, he⟩
  · exact absurd h (List.cons_ne_nil c t)
  · obtain ⟨rfl, rfl⟩ := List.cons.inj he
    exact ⟨rfl, hd⟩

theorem cons_mem_optional_exponent (h : c :: t ∈ optional exponent) : c = 'e' ∨ c = 'E' := by
  rw [exponent, mul_assoc] at h
  rcases h with h | ⟨_, ⟨d, hd, rfl⟩, r, -, he⟩
  · exact absurd h (List.cons_ne_nil c t)
  · obtain ⟨rfl, -⟩ := List.cons.inj he
    exact hd

/-- Digits, and perhaps a point and digits. There may be none of either. -/
def mantissa : Language Char := (oneOf IsDigit)∗ * optional fraction

/-- A mantissa is made of digits and points. -/
theorem forall_mem_mantissa (h : w ∈ mantissa) : ∀ c ∈ w, IsDigit c ∨ c = '.' := by
  obtain ⟨d, hd, f, hf, rfl⟩ := Language.mem_mul.1 h
  intro c hc
  rcases List.mem_append.1 hc with hc | hc
  · exact .inl (mem_kstar_oneOf.1 hd c hc)
  · rcases f with _ | ⟨p, f⟩
    · simp at hc
    · obtain ⟨rfl, hdigits⟩ := cons_mem_optional_fraction hf
      rcases List.mem_cons.1 hc with rfl | hc
      · exact .inr rfl
      · exact .inl ((mem_digits.1 hdigits).2 c hc)

theorem mem_mantissa (hne : w ≠ []) :
    w ∈ mantissa ↔ w ∈ digits + digits * fraction + fraction := by
  constructor
  · intro h
    obtain ⟨d, hd, f, hf, rfl⟩ := Language.mem_mul.1 h
    rcases mem_kstar_iff.1 hd with rfl | hd
    · rcases hf with rfl | hf
      · exact absurd rfl hne
      · exact .inr hf
    · rcases hf with rfl | hf
      · rw [List.append_nil]
        exact .inl (.inl hd)
      · exact .inl (.inr (Language.append_mem_mul hd hf))
  · have hdigits {d : Text} (hd : d ∈ digits) : d ∈ (oneOf IsDigit)∗ :=
      mem_kstar_iff.2 (.inr hd)
    rintro ((hd | ⟨d, hd, f, hf, rfl⟩) | hf)
    · exact ⟨w, hdigits hd, [], .inl rfl, List.append_nil w⟩
    · exact ⟨d, hdigits hd, f, .inr hf, rfl⟩
    · exact ⟨[], Language.nil_mem_kstar _, w, .inr hf, rfl⟩

theorem ne_nil_of_mantissa (h : w ∈ digits + digits * fraction + fraction) : w ≠ [] := by
  rcases h with (hd | ⟨d, hd, f, -, rfl⟩) | ⟨_, rfl, d, -, rfl⟩
  · exact (mem_digits.1 hd).1
  · exact fun h => (mem_digits.1 hd).1 (List.append_eq_nil_iff.1 h).1
  · exact List.cons_ne_nil _ _

end

section
open Numeral

theorem takes_readSign : Takes readSign (optional sign) :=
  .one (p := fun c => c = '+' || c = '-') (by simp) rfl fun _ _ => rfl

theorem takes_readDigits : Takes readDigits (oneOf IsDigit)∗ := .takeWhile isDigit_iff

theorem takes_readFraction : Takes readFraction (optional fraction) := by
  rw [fraction, exactly_singleton]
  refine takes_readDigits.marked (p := fun c => c = '.')
    (q := fun s => !(readDigits s).1.isEmpty) (N := digits) (by simp) rfl (fun _ _ => rfl)
    (fun w hw => mem_kstar_iff.2 (.inr hw)) (fun {s} hq => ?_) fun {s w} hw hs => ?_
  · exact (mem_kstar_iff.1 (takes_readDigits.mem s)).resolve_left (by simpa using hq)
  · have hle := takes_readDigits.longest (mem_kstar_iff.2 (.inr hw)) hs
    have hne : (readDigits s).1 ≠ [] := fun h =>
      (mem_digits.1 hw).1 (List.prefix_nil.1 (h ▸ hle))
    simpa using hne

theorem apart_sign_mantissa : Apart (optional sign) mantissa := by
  refine Apart.of_forall (P := fun c => c = '+' ∨ c = '-') ?_ fun {c t} h => ?_
  · rintro _ (rfl | ⟨c, hc, rfl⟩)
    · simp
    · simpa using hc
  · rcases forall_mem_mantissa h c List.mem_cons_self with hc | rfl
    · exact not_sign_of_digit hc
    · decide

/-- Digits alone are a mantissa. -/
theorem apart_sign_digits : Apart (optional sign) (oneOf IsDigit)∗ := fun hv hvu hc =>
  apart_sign_mantissa hv hvu ⟨_, hc, [], .inl rfl, List.append_nil _⟩

theorem takes_readExponent : Takes readExponent (optional exponent) := by
  rw [exponent, mul_assoc]
  refine (takes_readSign.andThen takes_readDigits apart_sign_digits).marked
    (p := fun c => c = 'e' || c = 'E')
    (q := fun s => !(readDigits (readSign s).2).1.isEmpty) (N := optional sign * digits)
    (by simp) rfl (fun _ _ => rfl) ?_ (fun {s} hq => ?_) fun {s w} hw hs => ?_
  · rintro _ ⟨v, hv, d, hd, rfl⟩
    exact Language.append_mem_mul hv (mem_kstar_iff.2 (.inr hd))
  · have hd := (mem_kstar_iff.1 (takes_readDigits.mem (readSign s).2)).resolve_left
      (by simpa using hq)
    exact Language.append_mem_mul (takes_readSign.mem s) hd
  · obtain ⟨v, hv, d, hd, rfl⟩ := Language.mem_mul.1 hw
    simpa using takes_readSign.ne_nil_of_andThen takes_readDigits apart_sign_digits hv
      (mem_kstar_iff.2 (.inr hd)) (mem_digits.1 hd).1 hs

/-- The digits before the point, and the point and the digits behind it. -/
theorem takes_mantissa : Takes (fun s => ((readDigits s).1 ++ (readFraction (readDigits s).2).1,
    (readFraction (readDigits s).2).2)) mantissa := by
  refine takes_readDigits.andThen takes_readFraction (Apart.of_forall (P := IsDigit) ?_ ?_)
  · exact fun w hw => mem_kstar_oneOf.1 hw
  · rintro c t h hc
    obtain ⟨rfl, -⟩ := cons_mem_optional_fraction h
    exact absurd (isDigit_iff.2 hc) (by decide)

/-- No character of a sign or a mantissa marks an exponent. -/
theorem apart_exponent : Apart (optional sign * mantissa) (optional exponent) := by
  refine Apart.of_forall (P := fun c => ¬(c = 'e' ∨ c = 'E')) ?_ fun h =>
    not_not.2 (cons_mem_optional_exponent h)
  rintro _ ⟨v, hv, m, hm, rfl⟩ c hc
  rcases List.mem_append.1 hc with hc | hc
  · rcases hv with rfl | ⟨d, hd, rfl⟩
    · simp at hc
    · obtain rfl := List.mem_singleton.1 hc
      rcases hd with rfl | rfl <;> decide
  · rcases forall_mem_mantissa hm c hc with hc | rfl
    · exact not_mark_of_digit hc
    · decide

/-- **Numerals are read to their end**: a point or an exponent mark is left behind only if
no digits follow it. -/
theorem finds_numeral : Finds (fun s => (Numeral.read? s).map fun x => x.1.text) numeral := by
  have htakes := (takes_readSign.andThen takes_mantissa apart_sign_mantissa).andThen
    takes_readExponent apart_exponent
  constructor
  · intro s l h
    obtain ⟨⟨n, r⟩, hread, rfl⟩ := Option.map_eq_some_iff.1 h
    obtain ⟨hsplit, hne⟩ := read?_split hread
    refine ⟨?_, hne, r, hsplit⟩
    simp only [read?] at hread
    split at hread
    · simp at hread
    · rename_i hmantissa
      obtain ⟨rfl, -⟩ := Prod.mk.inj (Option.some.inj hread)
      have hm := (mem_mantissa (by simpa using hmantissa)).1 (takes_mantissa.mem (readSign s).2)
      rw [text, List.append_assoc (readSign s).1]
      exact Language.append_mem_mul (Language.append_mem_mul (takes_readSign.mem s) hm)
        (takes_readExponent.mem _)
  · intro s w hw _ hs
    obtain ⟨_, ⟨v, hv, m, hm, rfl⟩, x, hx, rfl⟩ := Language.mem_mul.1 hw
    have hm' := (mem_mantissa (ne_nil_of_mantissa hm)).2 hm
    have hle := htakes.longest (Language.append_mem_mul (Language.append_mem_mul hv hm') hx) hs
    have hne := takes_readSign.ne_nil_of_andThen takes_mantissa apart_sign_mantissa hv hm'
      (ne_nil_of_mantissa hm) ((List.prefix_append _ x).trans hs)
    refine ⟨_, ?_, hle⟩
    simp only [read?]
    rw [if_neg (by simpa using hne)]
    simp [text]

theorem finds_whitespace : Finds (fun s => (Lexeme.whitespace? s).map Lexeme.text) blanks := by
  refine (Takes.takeWhile isBlank_iff).finds fun s => ?_
  simp only [Lexeme.whitespace?]
  split <;> rfl

end

/-! ### Strings -/

section
open Quoted
variable {q c : Char} {s w t u : Text}

theorem mem_stringUnit : w ∈ oneOf (IsStringChar q) + exactly ['\\'] * oneOf (fun _ => True) ↔
    (∃ c, IsStringChar q c ∧ w = [c]) ∨ ∃ c, w = ['\\', c] := by
  refine or_congr Iff.rfl ⟨?_, ?_⟩
  · rintro ⟨_, rfl, _, ⟨c, -, rfl⟩, rfl⟩
    exact ⟨c, rfl⟩
  · rintro ⟨c, rfl⟩
    exact ⟨['\\'], rfl, [c], ⟨c, trivial, rfl⟩, rfl⟩

theorem bodyOf_mem (q : Char) (s : Text) : (bodyOf q s).1 ∈ stringBody q := by
  fun_induction bodyOf q s with
  | case1 | case2 | case4 => exact Language.nil_mem_kstar _
  | case3 c s ih => exact append_mem_kstar (w := ['\\', c]) (mem_stringUnit.2 (.inr ⟨c, rfl⟩)) ih
  | case5 c s hlast hpair hc ih =>
    have hplain := (isStringChar_iff (ne_backslash hlast hpair)).1 (by simpa using hc)
    exact append_mem_kstar (w := [c]) (mem_stringUnit.2 (.inl ⟨c, hplain, rfl⟩)) ih

/-- The body of a string goes on over whatever may stand between the quotes. -/
theorem bodyOf_append_of_mem (hw : w ∈ stringBody q) (t : Text) :
    bodyOf q (w ++ t) = (w ++ (bodyOf q t).1, (bodyOf q t).2) := by
  refine kstar_induction (motive := fun w => bodyOf q (w ++ t) = (w ++ (bodyOf q t).1, _))
    rfl (fun u hu v _ ih => ?_) hw
  rcases mem_stringUnit.1 hu with ⟨c, hc, rfl⟩ | ⟨c, rfl⟩
  · have hstop := (isStringChar_iff hc.2.1).2 hc
    rw [List.singleton_append, List.cons_append, bodyOf_cons hc.2.1, if_neg (by simp [hstop]), ih]
    rfl
  · simp only [List.cons_append, List.nil_append, bodyOf]
    rw [ih]

theorem takes_bodyOf (q : Char) : Takes (bodyOf q) (stringBody q) where
  split := bodyOf_split q
  mem := bodyOf_mem q
  longest {s w} hw hs := by
    obtain ⟨t, rfl⟩ := hs
    rw [bodyOf_append_of_mem hw]
    exact List.prefix_append _ _

/-- The quote `q` at the front of a text, if it is there, and the rest. -/
def closing (q : Char) : Text → Text × Text
  | [] => ([], [])
  | c :: s => if c = q then ([c], s) else ([], c :: s)

theorem takes_closing (q : Char) : Takes (closing q) (optional (exactly [q])) := by
  rw [exactly_singleton]
  exact .one (p := fun c => c = q) (by simp) rfl fun c s => by simp [closing]

/-- The quote that closes a string cannot be part of its body. -/
theorem apart_closing (hq : q ≠ '\\') : Apart (stringBody q) (optional (exactly [q])) := by
  intro v u t c hv hvu hc
  rcases hc with hc | hc
  · exact List.cons_ne_nil c t hc
  obtain ⟨rfl, -⟩ := List.cons.inj hc
  have hall := bodyOf_append_of_mem hvu []
  have hstop := bodyOf_append_of_mem hv (c :: u)
  rw [List.append_nil] at hall
  rw [bodyOf_cons hq, if_pos (by simp), hall] at hstop
  simp [bodyOf] at hstop

theorem read_text_eq (q : Char) (s : Text) :
    (read q s).text = q :: ((bodyOf q s).1 ++ (closing q (bodyOf q s).2).1) := by
  unfold Quoted.read
  rcases bodyOf q s with ⟨body, _ | ⟨c, r⟩⟩
  · simp [text, closing]
  · by_cases hc : c = q <;> simp [text, closing, hc]

/-- The reader of a string takes a string, and says whether it is closed. -/
theorem read_closed_iff (hq : q ≠ '\\') (s : Text) :
    (read q s).closed = true ↔ (read q s).text ∈ closedString q := by
  have hbody := bodyOf_mem q s
  have htext := read_text_eq q s
  have hmem (b : Text) : q :: b ∈ closedString q ↔ ∃ v ∈ stringBody q, v ++ [q] = b := by
    rw [closedString, mul_assoc]
    constructor
    · rintro ⟨_, rfl, _, ⟨v, hv, _, rfl, rfl⟩, he⟩
      exact ⟨v, hv, (List.cons.inj he).2⟩
    · rintro ⟨v, hv, rfl⟩
      exact ⟨[q], rfl, v ++ [q], ⟨v, hv, [q], rfl, rfl⟩, rfl⟩
  rw [htext, hmem]
  have hopen (h : ∃ v ∈ stringBody q, v ++ [q] = (bodyOf q s).1) : False := by
    obtain ⟨v, hv, he⟩ := h
    exact apart_closing hq (t := []) hv (he ▸ hbody) (.inr rfl)
  unfold Quoted.read
  rcases hb : bodyOf q s with ⟨body, _ | ⟨c, r⟩⟩
  · rw [hb] at hopen
    simpa [closing] using hopen
  · rw [hb] at hbody hopen
    by_cases hc : c = q
    · simpa [closing, hc] using hbody
    · simpa [closing, hc] using hopen

theorem mem_string : w ∈ string q ↔
    ∃ b ∈ stringBody q * optional (exactly [q]), w = q :: b := by
  rw [string, mul_assoc]
  constructor
  · rintro ⟨_, rfl, b, hb, rfl⟩
    exact ⟨b, hb, rfl⟩
  · rintro ⟨b, hb, rfl⟩
    exact ⟨[q], rfl, b, hb, rfl⟩

theorem read_mem_string (hq : q ≠ '\\') (s : Text) : (read q s).text ∈ string q :=
  mem_string.2 ⟨_, ((takes_bodyOf q).andThen (takes_closing q) (apart_closing hq)).mem s,
    read_text_eq q s⟩

theorem read_longest (hq : q ≠ '\\') (hw : w ∈ string q) (hs : w <+: q :: s) :
    w <+: (read q s).text := by
  obtain ⟨b, hb, rfl⟩ := mem_string.1 hw
  rw [List.cons_prefix_cons] at hs
  rw [read_text_eq]
  exact List.cons_prefix_cons.2 ⟨rfl,
    ((takes_bodyOf q).andThen (takes_closing q) (apart_closing hq)).longest hb hs.2⟩

/-- A string with either quote. -/
theorem mem_strings : w ∈ string '"' + string '\'' ↔ ∃ q, isQuote q = true ∧ w ∈ string q := by
  constructor
  · rintro (hw | hw)
    · exact ⟨'"', rfl, hw⟩
    · exact ⟨'\'', rfl, hw⟩
  · rintro ⟨q, hq, hw⟩
    simp only [isQuote, Bool.or_eq_true, decide_eq_true_eq] at hq
    rcases hq with rfl | rfl
    · exact .inl hw
    · exact .inr hw

theorem ne_backslash_of_isQuote (hq : isQuote q = true) : q ≠ '\\' := by
  rintro rfl
  simp [isQuote] at hq

/-- **Strings are read to their end**: to the quote that closes them, or to what no string
runs across. -/
theorem finds_string : Finds (fun s => (Lexeme.string? s).map Lexeme.text)
    (string '"' + string '\'') where
  mem {s l} h := by
    obtain ⟨x, hread, rfl⟩ := Option.map_eq_some_iff.1 h
    obtain ⟨hsplit, hne⟩ := Lexeme.string?_splits hread
    refine ⟨?_, hne, _, hsplit⟩
    unfold Lexeme.string? at hread
    split at hread
    · simp at hread
    · rename_i c s
      by_cases hc : isQuote c = true
      · rw [if_pos hc] at hread
        obtain rfl := Option.some.inj hread
        exact mem_strings.2 ⟨c, hc, read_mem_string (ne_backslash_of_isQuote hc) s⟩
      · rw [if_neg hc] at hread
        simp at hread
  longest {s w} hw _ hs := by
    obtain ⟨q, hq, hw⟩ := mem_strings.1 hw
    obtain ⟨b, -, rfl⟩ := mem_string.1 hw
    obtain ⟨t, rfl⟩ := hs
    refine ⟨(read q (b ++ t)).text, ?_,
      read_longest (ne_backslash_of_isQuote hq) hw (List.prefix_append (q :: b) t)⟩
    simp [Lexeme.string?, hq]

end

end Grammar
end CssReader
