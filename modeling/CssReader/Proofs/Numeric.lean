/-
# Where numeric tokens split

A numeric token is a numeral with a percent sign, a unit or nothing behind it, joined into
one text, and its parts are read off that text by reading a numeral again. The second
reading takes the numeral that the first one took: what a reader takes does not depend on
what is left out behind it (`Cuts`), and the percent sign, which is taken off first, is in
no numeral and in no name.

A unit may begin with the letter of an exponent, but not with an exponent, unless the
numeral has one already: it would be in the numeral.

Key definitions: `Numeral.BeginsExponent`, `Numeral.Joined`.
Key theorems: `Numeral.read?_cut`, `Numeral.read?_exponent`, `Numeral.exists_joined`,
`Numeral.splitNumeric_append`, `Cursor.Reachable.numeric_splits`.
-/
import CssReader.Proofs.Target

namespace CssReader

/-! ### Names have no percent sign -/

section
variable {s l r : Text}

theorem percent_not_mem_hexDigits (s : Text) : '%' ∉ hexDigits s := by
  intro hmem
  have hhex : isHex '%' = true := List.mem_takeWhile_imp hmem
  simp [isHex] at hhex

/-- A reader of one character takes no percent sign, if the class has none. -/
theorem percent_not_mem_one {f : Text → Text × Text} {p : Char → Bool} (hnil : f [] = ([], []))
    (hcons : ∀ c s, f (c :: s) = if p c then ([c], s) else ([], c :: s)) (hp : p '%' = false)
    (s : Text) : '%' ∉ (f s).1 := by
  rcases s with _ | ⟨c, s⟩
  · rw [hnil]
    exact List.not_mem_nil
  · rw [hcons]
    by_cases hc : p c = true
    · rw [if_pos hc, List.mem_singleton]
      rintro rfl
      rw [hp] at hc
      simp at hc
    · rw [if_neg hc]
      exact List.not_mem_nil

theorem percent_not_mem_oneBlank (s : Text) : '%' ∉ (oneBlank s).1 :=
  percent_not_mem_one (f := oneBlank) (p := isBlank) rfl (fun _ _ => rfl) (by decide) s

theorem percent_not_mem_escape? (h : escape? s = some (l, r)) : '%' ∉ l := by
  unfold escape? at h
  split at h
  · rename_i c s
    split at h
    · rename_i hc
      obtain ⟨rfl, -⟩ := Prod.mk.inj (Option.some.inj h)
      intro hmem
      obtain rfl : '%' = c := by simpa using hmem
      simp at hc
    · split at h
      · simp at h
      · obtain ⟨rfl, -⟩ := Prod.mk.inj (Option.some.inj h)
        rw [List.mem_append, List.mem_cons, not_or, not_or]
        exact ⟨⟨by decide, percent_not_mem_hexDigits _⟩, percent_not_mem_oneBlank _⟩
  · simp at h

/-- A reader of a character or an escape takes no percent sign, if the class has none. -/
theorem percent_not_mem_unit {u : Text → Option (Text × Text)} {p : Char → Bool}
    (hnil : u [] = none)
    (hcons : ∀ c s, u (c :: s) = if p c then some ([c], s) else escape? (c :: s))
    (hp : p '%' = false) (h : u s = some (l, r)) : '%' ∉ l := by
  rcases s with _ | ⟨c, s⟩
  · rw [hnil] at h
    simp at h
  · rw [hcons] at h
    by_cases hc : p c = true
    · rw [if_pos hc] at h
      obtain ⟨rfl, -⟩ := Prod.mk.inj (Option.some.inj h)
      rw [List.mem_singleton]
      rintro rfl
      rw [hp] at hc
      simp at hc
    · rw [if_neg hc] at h
      exact percent_not_mem_escape? h

theorem percent_not_mem_nameUnit? (h : nameUnit? s = some (l, r)) : '%' ∉ l :=
  percent_not_mem_unit (u := nameUnit?) (p := isNameChar) rfl (fun _ _ => rfl) (by decide) h

theorem percent_not_mem_nameHead? (h : nameHead? s = some (l, r)) : '%' ∉ l :=
  percent_not_mem_unit (u := nameHead?) (p := isNameStart) rfl (fun _ _ => rfl) (by decide) h

theorem percent_not_mem_nameTail (s : Text) : '%' ∉ (nameTail s).1 := by
  fun_induction nameTail s with
  | case1 => exact List.not_mem_nil
  | case2 s u r h ih =>
    rw [List.mem_append, not_or]
    exact ⟨percent_not_mem_nameUnit? h, ih⟩

theorem percent_not_mem_name? (h : name? s = some (l, r)) : '%' ∉ l := by
  unfold name? at h
  split at h
  rename_i hyphen start heq
  obtain ⟨⟨head, r'⟩, hhead, he⟩ := Option.map_eq_some_iff.1 h
  obtain ⟨rfl, -⟩ := Prod.mk.inj he
  rw [List.mem_append, List.mem_append, not_or, not_or]
  refine ⟨⟨?_, percent_not_mem_nameHead? hhead⟩, percent_not_mem_nameTail r'⟩
  split at heq <;> cases heq <;> simp

/-- A name is a name by itself. -/
theorem name?_cut (h : name? s = some (l, r)) : name? l = some (l, []) := by
  apply cuts_name?.some (r := r)
  rw [(name?_split h).1]
  exact h

end

/-! ### The numeral at the front -/

namespace Numeral

variable {s r : Text} {n : Numeral}

/-- The text begins with an exponent: its mark, perhaps a sign, and a digit. -/
def BeginsExponent (s : Text) : Prop :=
  ∃ e sign d r, s = e :: (sign ++ d :: r) ∧ (e = 'e' ∨ e = 'E') ∧
    (sign = [] ∨ sign = ['+'] ∨ sign = ['-']) ∧ d.isDigit = true

/-- The parts of a numeral, each read behind the one in front of it. -/
theorem read?_parts (h : read? s = some (n, r)) :
    n.sign = (readSign s).1 ∧ n.whole = (readDigits (readSign s).2).1 ∧
      n.fraction = (readFraction (readDigits (readSign s).2).2).1 ∧
      n.exponent = (readExponent (readFraction (readDigits (readSign s).2).2).2).1 ∧
      r = (readExponent (readFraction (readDigits (readSign s).2).2).2).2 := by
  simp only [read?] at h
  split at h
  · simp at h
  · obtain ⟨rfl, rfl⟩ := Prod.mk.inj (Option.some.inj h)
    exact ⟨rfl, rfl, rfl, rfl, rfl⟩

theorem percent_not_mem_readSign (s : Text) : '%' ∉ (readSign s).1 :=
  percent_not_mem_one (f := readSign) (p := fun c => c = '+' || c = '-') rfl (fun _ _ => rfl)
    (by decide) s

theorem percent_not_mem_readDigits (s : Text) : '%' ∉ (readDigits s).1 := by
  intro hmem
  have hdigit : Char.isDigit '%' = true := List.mem_takeWhile_imp hmem
  simp at hdigit

theorem percent_not_mem_readFraction (s : Text) : '%' ∉ (readFraction s).1 := by
  unfold readFraction
  split
  · exact List.not_mem_nil
  · rename_i c s
    dsimp only
    split
    · rename_i hc
      obtain ⟨hdot, -⟩ := Bool.and_eq_true_iff.1 hc
      obtain rfl : c = '.' := of_decide_eq_true hdot
      rw [List.mem_cons, not_or]
      exact ⟨by decide, percent_not_mem_readDigits s⟩
    · exact List.not_mem_nil

theorem percent_not_mem_readExponent (s : Text) : '%' ∉ (readExponent s).1 := by
  unfold readExponent
  split
  · exact List.not_mem_nil
  · rename_i c s
    dsimp only
    split
    · rename_i hc
      have hmark : '%' ≠ c := by
        rintro rfl
        simp at hc
      rw [List.mem_append, List.mem_cons, not_or, not_or]
      exact ⟨⟨hmark, percent_not_mem_readSign s⟩, percent_not_mem_readDigits _⟩
    · exact List.not_mem_nil

/-- A numeral has no percent sign. -/
theorem percent_not_mem_text (h : read? s = some (n, r)) : '%' ∉ n.text := by
  obtain ⟨hsign, hwhole, hfraction, hexponent, -⟩ := read?_parts h
  rw [text, hsign, hwhole, hfraction, hexponent]
  simp only [List.mem_append, not_or]
  exact ⟨⟨⟨percent_not_mem_readSign _, percent_not_mem_readDigits _⟩,
    percent_not_mem_readFraction _⟩, percent_not_mem_readExponent _⟩

/-- **A numeral is read the same** when what is behind it is cut short. -/
theorem read?_cut {u : Text} (h : read? s = some (n, u ++ r)) :
    read? (n.text ++ u) = some (n, u) := by
  apply cuts_read?.some (r := r)
  rw [List.append_assoc, (read?_split h).1]
  exact h

theorem readExponent_begins (h : BeginsExponent s) : (readExponent s).1 ≠ [] := by
  obtain ⟨e, sign, d, r, rfl, he, hsign, hd⟩ := h
  have hreadSign : readSign (sign ++ d :: r) = (sign, d :: r) := by
    rcases hsign with rfl | rfl | rfl
    · have hne : ¬(d = '+' || d = '-') = true := by
        rw [Bool.or_eq_true, decide_eq_true_eq, decide_eq_true_eq]
        rintro (rfl | rfl) <;> simp at hd
      rw [List.nil_append, readSign, if_neg hne]
    · rfl
    · rfl
  have hmark : (e = 'e' || e = 'E') = true := by simpa using he
  simp [readExponent, hreadSign, readDigits, hd, hmark]

/-- **No exponent is left behind a numeral that has none.** -/
theorem read?_exponent (h : read? s = some (n, r)) (hn : n.exponent = []) :
    ¬BeginsExponent r := by
  obtain ⟨-, -, -, hexponent, hr⟩ := read?_parts h
  have hsplit := readExponent_split (readFraction (readDigits (readSign s).2).2).2
  rw [← hexponent, ← hr, hn, List.nil_append] at hsplit
  intro hbegins
  apply readExponent_begins hbegins
  rw [hsplit, ← hexponent]
  exact hn

theorem BeginsExponent.append (h : BeginsExponent s) (r : Text) : BeginsExponent (s ++ r) := by
  obtain ⟨e, sign, d, t, rfl, he, hsign, hd⟩ := h
  exact ⟨e, sign, d, t ++ r, by simp, he, hsign, hd⟩

/-! ### Tokens of a numeral -/

/-- The token that the numeral gives with a text behind it, and what is left of that. -/
inductive Joined (n : Numeral) : Token → Text → Text → Prop
  | number {r : Text} (percent : r.head? ≠ some '%') (name : name? r = none) :
    Joined n (.number n.text) r r
  | percentage (r : Text) : Joined n (.percentage (n.text ++ ['%'])) ('%' :: r) r
  | dimension {unit r : Text} (ne_nil : unit ≠ []) (name : name? unit = some (unit, []))
    (exponent : n.exponent = [] → ¬BeginsExponent unit) :
    Joined n (.dimension (n.text ++ unit)) (unit ++ r) r

/-- What the numeral gives is one of its tokens. -/
theorem exists_joined (h : read? s = some (n, r)) :
    ∃ tok, (Lexeme.numericEnd n r).result = .ok tok ∧
      Joined n tok r (Lexeme.numericEnd n r).rest := by
  by_cases hp : r.head? = some '%'
  · obtain ⟨r, rfl⟩ := List.head?_eq_some_iff.1 hp
    exact ⟨_, rfl, .percentage r⟩
  · rw [Lexeme.numericEnd_other hp]
    rcases hu : name? r with _ | ⟨unit, rest⟩
    · exact ⟨_, rfl, .number hp hu⟩
    · obtain ⟨rfl, hne⟩ := name?_split hu
      refine ⟨_, rfl, .dimension hne (name?_cut hu) fun hn hbegins => ?_⟩
      exact read?_exponent h hn (hbegins.append rest)

/-- A numeral is read whole from its own text. -/
theorem read?_text (h : read? s = some (n, r)) : read? n.text = some (n, []) := by
  rw [← List.append_nil n.text]
  exact read?_cut h

/-- **A text splits between the numeral and the unit** that it was joined of. -/
theorem splitNumeric_append {unit : Text} (h : read? s = some (n, unit ++ r))
    (hunit : '%' ∉ unit) : Token.splitNumeric (n.text ++ unit) = (some n, unit) := by
  have hstrip : stripLast '%' (n.text ++ unit) = n.text ++ unit := by
    rw [stripLast_eq_self_iff]
    intro hlast
    rcases List.mem_append.1 (List.mem_of_getLast? hlast) with hmem | hmem
    · exact percent_not_mem_text h hmem
    · exact hunit hmem
  rw [Token.splitNumeric, hstrip, read?_cut h]

namespace Joined

variable {tok : Token} {rest unit : Text}

/-- The numeral of a token is the one that it was joined of. -/
theorem numeral? (hj : Joined n tok r rest) (h : read? s = some (n, r)) :
    tok.numeral? = some n := by
  cases hj with
  | number hp hname =>
    have hsplit : Token.splitNumeric (n.text ++ []) = (some n, []) :=
      splitNumeric_append h List.not_mem_nil
    rw [List.append_nil] at hsplit
    exact congrArg Prod.fst hsplit
  | percentage =>
    rw [Token.numeral?, Token.splitNumeric, stripLast_concat, read?_text h]
  | dimension hne hname hexponent =>
    exact congrArg Prod.fst (splitNumeric_append h (percent_not_mem_name? hname))

/-- The unit of a token is the one that it was joined of. -/
theorem unit? (hj : Joined n tok r rest) (h : read? s = some (n, r))
    (hu : tok.unit? = some unit) : tok = .dimension (n.text ++ unit) ∧ r = unit ++ rest ∧
      unit ≠ [] ∧ name? unit = some (unit, []) ∧ (n.exponent = [] → ¬BeginsExponent unit) := by
  cases hj with
  | number hp hname => simp [Token.unit?] at hu
  | percentage => simp [Token.unit?] at hu
  | dimension hne hname hexponent =>
    have hsplit := splitNumeric_append h (percent_not_mem_name? hname)
    rw [Token.unit?, hsplit] at hu
    obtain rfl := Option.some.inj hu
    exact ⟨rfl, rfl, hne, hname, hexponent⟩

end Joined

end Numeral

/-! ### Numeric tokens of a text -/

namespace Cursor.Reachable

variable {s : Text} {c : Cursor} {tok : Token}

/-- **A numeric token splits where it was joined**: its numeral is the one that the text has
where the token begins, so its value is the value of that one, and its unit is the name
behind it. -/
theorem numeric_splits (h : Reachable s c) (hp : c.pending = none)
    (hv : c.next.result = .ok (some tok))
    (hnum : ∃ v, tok = .number v ∨ tok = .percentage v ∨ tok = .dimension v) :
    ∃ before n r, s = before ++ (n.text ++ r) ∧ c.next.cursor.tokenStart = Text.size before ∧
      Numeral.read? (n.text ++ r) = some (n, r) ∧ Numeral.read? n.text = some (n, []) ∧
      Numeral.Joined n tok r c.next.cursor.rest ∧
      tok.numeral? = some n ∧ tok.numericValue? = some n.toFloat ∧
      ∀ unit, tok.unit? = some unit →
        tok = .dimension (n.text ++ unit) ∧ r = unit ++ c.next.cursor.rest ∧ unit ≠ [] ∧
          name? unit = some (unit, []) ∧ (n.exponent = [] → ¬Numeral.BeginsExponent unit) := by
  obtain ⟨before, t, hs, hstart⟩ := h.kept.next_place
  obtain ⟨-, hnone⟩ | ⟨l, hl, hres, hrest, -⟩ := h.kept.next_at hp hs hstart
  · rw [hv] at hnone
    simp at hnone
  have hltok : l.result = .ok tok := Lexeme.resultAt_eq_some.1 (hres.symm.trans hv)
  have hproduction : Lexeme.productionOf tok = Lexeme.numeric? := by
    obtain ⟨v, rfl | rfl | rfl⟩ := hnum <;> rfl
  have hnumeric := Lexeme.read_production hl hltok
  rw [hproduction] at hnumeric
  obtain ⟨⟨n, r⟩, hn, rfl⟩ := Option.map_eq_some_iff.1 hnumeric
  obtain ⟨tok', htok, hj⟩ := Numeral.exists_joined hn
  obtain rfl : tok' = tok := Except.ok.inj (htok.symm.trans hltok)
  have hsplit := (Numeral.read?_split hn).1
  have hjoined : Numeral.Joined n tok' r c.next.cursor.rest := by
    rw [hrest]
    exact hj
  have hnumeral : tok'.numeral? = some n := hjoined.numeral? hn
  have hvalue : tok'.numericValue? = some n.toFloat := by
    rw [Token.numericValue?, hnumeral, Option.map_some]
  exact ⟨before, n, r, hsplit ▸ hs, hstart, hsplit ▸ hn, Numeral.read?_text hn, hjoined, hnumeral,
    hvalue, fun unit hu => hjoined.unit? hn hu⟩

/-- Behind a numeral with an exponent, a unit may look like another one. -/
theorem numeric_splits_exponent :
    let s := ['-', '.', '5', 'e', '3', 'e', '4', '%']
    let c := Cursor.ofText s
    let tok := Token.dimension ['-', '.', '5', 'e', '3', 'e', '4']
    Reachable s c ∧ c.pending = none ∧ c.next.result = .ok (some tok) ∧
      (∃ v, tok = .number v ∨ tok = .percentage v ∨ tok = .dimension v) ∧
      tok.unit? = some ['e', '4'] ∧
      ∃ before n r, s = before ++ (n.text ++ r) ∧ c.next.cursor.tokenStart = Text.size before ∧
        Numeral.read? (n.text ++ r) = some (n, r) ∧ Numeral.read? n.text = some (n, []) ∧
        Numeral.Joined n tok r c.next.cursor.rest ∧
        tok.numeral? = some n ∧ tok.numericValue? = some n.toFloat ∧
        ∀ unit, tok.unit? = some unit →
          tok = .dimension (n.text ++ unit) ∧ r = unit ++ c.next.cursor.rest ∧ unit ≠ [] ∧
            name? unit = some (unit, []) ∧ (n.exponent = [] → ¬Numeral.BeginsExponent unit) := by
  intro s c tok
  have h : Reachable s c := .ofText
  have hp : c.pending = none := rfl
  have hv : c.next.result = .ok (some tok) := by with_unfolding_all rfl
  have hnum : ∃ v, tok = .number v ∨ tok = .percentage v ∨ tok = .dimension v :=
    ⟨_, .inr (.inr rfl)⟩
  exact ⟨h, hp, hv, hnum, by with_unfolding_all rfl, h.numeric_splits hp hv hnum⟩

end Cursor.Reachable

end CssReader
