/-
# Readers on a text with other characters outside ASCII

The character classes tell ASCII characters apart, and nothing else: of the
characters outside ASCII either all are in a class or none is. So a reader does not
see it when each of them is exchanged for another one. A map of characters that
does no more than that is a `Recoding`; what a reader takes from the image of a text
is the image of what it takes from the text, and so is what it leaves.

Such a map need not be one-to-one, and it may change the number of bytes.

Key definitions: `Recoding`, `IsBlind`, `Recoding.Lifts`.
Key theorems: `Recoding.class_eq`, `Recoding.map_eq_append`, `Recoding.name?`,
`Recoding.hashName?`, `Recoding.numeral`, `Recoding.quoted`, `Recoding.run`.
-/
import CssReader.Proofs.Lexis.Swap

namespace CssReader

/-! ### Classes and maps of characters -/

/-- The class does not tell characters outside ASCII apart. -/
def IsBlind (p : Char → Bool) : Prop := ∀ c d, 128 ≤ c.toNat → 128 ≤ d.toNat → p c = p d

theorem isQuote_ascii {c : Char} (h : isQuote c = true) : c.toNat < 128 := by
  rw [isQuote, Bool.or_eq_true, decide_eq_true_eq, decide_eq_true_eq] at h
  rcases h with rfl | rfl <;> decide

namespace IsBlind

variable {p q : Char → Bool}

theorem or (hp : IsBlind p) (hq : IsBlind q) : IsBlind fun c => p c || q c := by
  intro c d hc hd
  show (p c || q c) = (p d || q d)
  rw [hp c d hc hd, hq c d hc hd]

theorem not (hp : IsBlind p) : IsBlind fun c => !p c := by
  intro c d hc hd
  show (!p c) = !p d
  rw [hp c d hc hd]

/-- A class of nothing but ASCII characters. -/
theorem of_ascii (hp : ∀ c, p c = true → c.toNat < 128) : IsBlind p := by
  have hfalse : ∀ c : Char, 128 ≤ c.toNat → p c = false := by
    intro c hc
    rw [← Bool.not_eq_true]
    intro hpc
    have hlt := hp c hpc
    omega
  intro c d hc hd
  rw [hfalse c hc, hfalse d hd]

/-- One ASCII character. -/
theorem one {a : Char} (ha : a.toNat < 128) : IsBlind fun c => decide (c = a) := by
  apply of_ascii
  intro c hc
  rw [decide_eq_true_eq] at hc
  rwa [hc]

/-- A range of characters that ends in ASCII. -/
theorem range (a : Char) {b : Char} (hb : b.toNat < 128) :
    IsBlind fun c => decide (a ≤ c) && decide (c ≤ b) := by
  apply of_ascii
  intro c hc
  rw [Bool.and_eq_true, decide_eq_true_eq, decide_eq_true_eq] at hc
  exact Nat.lt_of_le_of_lt hc.2 hb

theorem isBlank : IsBlind isBlank :=
  ((((one (by decide)).or (one (by decide))).or (one (by decide))).or (one (by decide))).or
    (one (by decide))

theorem isLineBreak : IsBlind isLineBreak :=
  ((one (by decide)).or (one (by decide))).or (one (by decide))

theorem isQuote : IsBlind isQuote := of_ascii fun _ => isQuote_ascii

theorem isDigit : IsBlind Char.isDigit := range '0' (b := '9') (by decide)

theorem isHex : IsBlind isHex :=
  (isDigit.or (range 'a' (b := 'f') (by decide))).or (range 'A' (b := 'F') (by decide))

theorem isNameStart : IsBlind isNameStart := by
  intro c d hc hd
  simp [CssReader.isNameStart, hc, hd]

theorem isNameChar : IsBlind isNameChar := (isNameStart.or isDigit).or (one (by decide))

theorem isUrlChar : IsBlind Lexeme.isUrlChar :=
  ((((one (by decide)).or isBlank).or isQuote).or (one (by decide))).not

end IsBlind

/-- The map leaves ASCII characters as they are, and other ones outside ASCII. -/
structure Recoding (f : Char → Char) : Prop where
  ascii : ∀ c, c.toNat < 128 → f c = c
  other : ∀ c, 128 ≤ c.toNat → 128 ≤ (f c).toNat

namespace Recoding

variable {f : Char → Char}

/-- **A class that is blind outside ASCII does not see the map.** -/
theorem class_eq (h : Recoding f) {p : Char → Bool} (hp : IsBlind p) : p ∘ f = p := by
  funext c
  show p (f c) = p c
  rcases Nat.lt_or_ge c.toNat 128 with hc | hc
  · rw [h.ascii c hc]
  · exact hp _ _ (h.other c hc) hc

theorem eq_iff (h : Recoding f) {a : Char} (ha : a.toNat < 128) (c : Char) : f c = a ↔ c = a := by
  have hclass := congrFun (h.class_eq (.one ha)) c
  simpa using hclass

theorem map_ascii (h : Recoding f) {s : Text} (hs : ∀ c ∈ s, c.toNat < 128) : s.map f = s := by
  calc s.map f = s.map id := List.map_congr_left fun c hc => h.ascii c (hs c hc)
    _ = s := List.map_id s

/-- Where the image of a text begins with ASCII characters, the text does. -/
theorem map_eq_append (h : Recoding f) {s a r : Text} (ha : ∀ c ∈ a, c.toNat < 128)
    (hs : s.map f = a ++ r) : ∃ t, s = a ++ t ∧ t.map f = r := by
  obtain ⟨a', t, rfl, ha', ht⟩ := List.map_eq_append_iff.1 hs
  refine ⟨t, ?_, ht⟩
  rw [List.append_cancel_right_eq]
  subst ha'
  clear hs ht
  induction a' with
  | nil => rfl
  | cons c a' ih =>
    obtain ⟨hc, hrest⟩ := List.forall_mem_cons.1 ha
    rw [List.map_cons, ← ih hrest, (h.eq_iff hc c).1 rfl, h.ascii _ hc]

theorem head?_iff (h : Recoding f) {a : Char} (ha : a.toNat < 128) (s : Text) :
    (s.map f).head? = some a ↔ s.head? = some a := by
  cases s with
  | nil => simp
  | cons c s => simpa using h.eq_iff ha c

/-! ### Readers -/

/-- The image of what was taken and of what was left. -/
abbrev both (f : Char → Char) : Text × Text → Text × Text := Prod.map (List.map f) (List.map f)

/-- The reader takes from the image of a text the image of what it takes from the text. -/
def Lifts (f : Char → Char) (p : Text → Option (Text × Text)) : Prop :=
  ∀ s, p (s.map f) = (p s).map (both f)

/-- The same of a reader that always finds something. -/
def LiftsAll (f : Char → Char) (g : Text → Text × Text) : Prop :=
  ∀ s, g (s.map f) = both f (g s)

theorem while_eq (h : Recoding f) {p : Char → Bool} (hp : IsBlind p) (s : Text) :
    (s.map f).takeWhile p = (s.takeWhile p).map f ∧
      (s.map f).dropWhile p = (s.dropWhile p).map f := by
  rw [List.takeWhile_map, List.dropWhile_map, h.class_eq hp]
  exact ⟨rfl, rfl⟩

/-- A reader of text, and behind it one that always finds something. -/
theorem Lifts.andThen {p : Text → Option (Text × Text)} {g : Text → Text × Text}
    (hp : Lifts f p) (hg : LiftsAll f g) :
    Lifts f fun s => (p s).map fun x => (x.1 ++ (g x.2).1, (g x.2).2) := by
  intro s
  dsimp only
  rw [hp s]
  rcases p s with _ | ⟨u, t⟩
  · rfl
  · simp [both, hg t]

/-- The repetition `g` of a reader that takes something. -/
theorem Lifts.many {p : Text → Option (Text × Text)} {g : Text → Text × Text} (hp : Lifts f p)
    (hlt : ∀ {s l r : Text}, p s = some (l, r) → l ++ r = s ∧ l ≠ [])
    (hnone : ∀ {s : Text}, p s = none → g s = ([], s))
    (hsome : ∀ {s u r : Text}, p s = some (u, r) → g s = (u ++ (g r).1, (g r).2)) :
    LiftsAll f g := by
  intro s
  induction hn : s.length using Nat.strongRecOn generalizing s with
  | ind n ih =>
    subst hn
    have hs := hp s
    rcases hu : p s with _ | ⟨u, r⟩
    · rw [hu] at hs
      rw [hnone hu, hnone hs]
      rfl
    · rw [hu] at hs
      have hrec := ih r.length (Text.length_lt_of_split (hlt hu)) r rfl
      rw [hsome hu, hsome hs, hrec]
      simp [both]

/-- A reader of a character of a class and what follows it, if that is enough. -/
theorem marked (h : Recoding f) {p : Char → Bool} {q : Text → Bool} {g g' : Text → Text × Text}
    (hp : IsBlind p) (hq : ∀ s, q (s.map f) = q s) (hg : LiftsAll f g) (hnil : g' [] = ([], []))
    (hcons : ∀ c s, g' (c :: s) =
      if p c && q s then (c :: (g s).1, (g s).2) else ([], c :: s)) : LiftsAll f g' := by
  intro s
  rcases s with _ | ⟨c, s⟩
  · rw [List.map_nil, hnil]
    rfl
  · have hc : p (f c) = p c := congrFun (h.class_eq hp) c
    rw [List.map_cons, hcons, hcons, hc, hq, hg s]
    by_cases hpq : (p c && q s) = true
    · rw [if_pos hpq, if_pos hpq]
      rfl
    · rw [if_neg hpq, if_neg hpq]
      rfl

/-- A reader of one character of a class. -/
theorem oneOf (h : Recoding f) {p : Char → Bool} {g : Text → Text × Text} (hp : IsBlind p)
    (hnil : g [] = ([], [])) (hcons : ∀ c s, g (c :: s) = if p c then ([c], s) else ([], c :: s)) :
    LiftsAll f g :=
  h.marked (q := fun _ => true) (g := fun s => ([], s)) hp (fun _ => rfl) (fun _ => rfl) hnil
    fun c s => by rw [hcons, Bool.and_true]

/-! ### Names -/

theorem hexDigits_eq (h : Recoding f) (s : Text) : hexDigits (s.map f) = (hexDigits s).map f := by
  rw [hexDigits, ← List.map_take]
  exact (h.while_eq .isHex _).1

theorem oneBlank (h : Recoding f) : LiftsAll f oneBlank :=
  h.oneOf .isBlank rfl fun _ _ => rfl

theorem escape? (h : Recoding f) : Lifts f escape? := by
  intro s
  by_cases hs : s.head? = some '\\'
  · obtain ⟨s, rfl⟩ := List.head?_eq_some_iff.1 hs
    rw [List.map_cons, h.ascii '\\' (by decide)]
    rcases s with _ | ⟨c, s⟩
    · rfl
    · have hmark := congrFun (h.class_eq ((IsBlind.one (a := '$') (by decide)).or
        (.one (a := '\n') (by decide)))) c
      have hhex := congrFun (h.class_eq .isHex) c
      have hdigits := h.hexDigits_eq (c :: s)
      simp only [Function.comp_apply] at hmark hhex
      rw [List.map_cons] at hdigits ⊢
      by_cases hm : (c = '$' || c = '\n') = true
      · rw [CssReader.escape?, if_pos (hmark.trans hm), CssReader.escape?, if_pos hm]
        simp [both, h.ascii '\\' (by decide)]
      · have hm' : ¬(f c = '$' || f c = '\n') = true := by rwa [hmark]
        by_cases hx : isHex c = true
        · have hblank := h.oneBlank ((c :: s).drop (hexDigits (c :: s)).length)
          rw [List.map_drop, List.map_cons] at hblank
          rw [escape?_hex hm' (hhex.trans hx), escape?_hex hm hx, hdigits, List.length_map, hblank]
          simp [both, h.ascii '\\' (by decide)]
        · rw [Bool.not_eq_true] at hx
          rw [escape?_none hm' (hhex.trans hx), escape?_none hm hx]
          rfl
  · have hs' : (s.map f).head? ≠ some '\\' := mt (h.head?_iff (by decide) s).1 hs
    rw [escape?_other hs, escape?_other hs']
    rfl

/-- One character of a class, or an escape. -/
theorem unit (h : Recoding f) {u : Text → Option (Text × Text)} {p : Char → Bool} (hp : IsBlind p)
    (hnil : u [] = none)
    (hcons : ∀ c s, u (c :: s) = if p c then some ([c], s) else CssReader.escape? (c :: s)) :
    Lifts f u := by
  intro s
  rcases s with _ | ⟨c, s⟩
  · rw [List.map_nil, hnil]
    rfl
  · have hc : p (f c) = p c := congrFun (h.class_eq hp) c
    rw [List.map_cons, hcons, hcons, hc]
    by_cases hpc : p c = true
    · rw [if_pos hpc, if_pos hpc]
      rfl
    · rw [if_neg hpc, if_neg hpc]
      exact h.escape? (c :: s)

theorem nameUnit? (h : Recoding f) : Lifts f nameUnit? := h.unit .isNameChar rfl fun _ _ => rfl

theorem nameHead? (h : Recoding f) : Lifts f nameHead? := h.unit .isNameStart rfl fun _ _ => rfl

theorem nameTail (h : Recoding f) : LiftsAll f nameTail :=
  h.nameUnit?.many nameUnit?_split nameTail_none nameTail_some

/-- A name is read with the same hyphen, or without one. -/
theorem name? (h : Recoding f) : Lifts f name? := by
  have hbody := h.nameHead?.andThen h.nameTail
  intro s
  by_cases hs : s.head? = some '-'
  · obtain ⟨s, rfl⟩ := List.head?_eq_some_iff.1 hs
    rw [List.map_cons, h.ascii '-' (by decide), name?_hyphen, name?_hyphen]
    have hs := hbody s
    dsimp only at hs
    rw [hs]
    rcases CssReader.nameHead? s with _ | ⟨u, t⟩
    · rfl
    · simp [both, h.ascii '-' (by decide)]
  · have hs' : (s.map f).head? ≠ some '-' := mt (h.head?_iff (by decide) s).1 hs
    rw [name?_other hs, name?_other hs']
    exact hbody s

theorem hashName? (h : Recoding f) : Lifts f hashName? := by
  intro s
  rw [hashName?_eq, hashName?_eq, h.nameUnit? s, h.nameTail s]
  rcases CssReader.nameUnit? s with _ | u <;> rfl

/-! ### Numerals -/

theorem readDigits (h : Recoding f) : LiftsAll f Numeral.readDigits := by
  intro s
  obtain ⟨htake, hdrop⟩ := h.while_eq .isDigit s
  exact Prod.ext htake hdrop

theorem readSign (h : Recoding f) : LiftsAll f Numeral.readSign :=
  h.oneOf ((IsBlind.one (a := '+') (by decide)).or (.one (a := '-') (by decide))) rfl
    fun _ _ => rfl

theorem readFraction (h : Recoding f) : LiftsAll f Numeral.readFraction := by
  refine h.marked (q := fun s => !(Numeral.readDigits s).1.isEmpty)
    (.one (a := '.') (by decide)) (fun s => ?_) h.readDigits rfl fun _ _ => rfl
  rw [h.readDigits s]
  simp [both]

theorem readExponent (h : Recoding f) : LiftsAll f Numeral.readExponent := by
  have hq : ∀ s, Numeral.readDigits (Numeral.readSign (s.map f)).2 =
      both f (Numeral.readDigits (Numeral.readSign s).2) := fun s => by
    rw [h.readSign s]
    exact h.readDigits _
  refine h.marked (q := fun s => !(Numeral.readDigits (Numeral.readSign s).2).1.isEmpty)
    (g := fun s => ((Numeral.readSign s).1 ++ (Numeral.readDigits (Numeral.readSign s).2).1,
      (Numeral.readDigits (Numeral.readSign s).2).2))
    ((IsBlind.one (a := 'e') (by decide)).or (.one (a := 'E') (by decide))) (fun s => ?_)
    (fun s => ?_) rfl fun _ _ => rfl
  · rw [hq s]
    simp [both]
  · dsimp only
    rw [hq s, h.readSign s]
    simp [both]

end Recoding

/-- The image of a numeral, which is the numeral again. -/
def Numeral.recode (f : Char → Char) (n : Numeral) : Numeral :=
  ⟨n.sign.map f, n.whole.map f, n.fraction.map f, n.exponent.map f⟩

theorem Numeral.text_recode (f : Char → Char) (n : Numeral) :
    (n.recode f).text = n.text.map f := by
  simp [Numeral.text, Numeral.recode]

namespace Recoding

variable {f : Char → Char}

theorem numeral (h : Recoding f) (s : Text) :
    Numeral.read? (s.map f) = (Numeral.read? s).map (Prod.map (Numeral.recode f) (List.map f)) := by
  simp only [Numeral.read?, h.readSign s, both, Prod.map_snd, Prod.map_fst, h.readDigits _,
    h.readFraction _, h.readExponent _, List.isEmpty_map]
  split <;> rfl

end Recoding

/-! ### Strings -/

/-- The image of a string. -/
def Quoted.recode (f : Char → Char) (q : Quoted) : Quoted :=
  ⟨f q.quote, q.body.map f, q.closed, q.rest.map f⟩

theorem Quoted.text_recode (f : Char → Char) (q : Quoted) : (q.recode f).text = q.text.map f := by
  rcases q with ⟨quote, body, _ | _, rest⟩ <;> simp [Quoted.text, Quoted.recode]

namespace Recoding

variable {f : Char → Char}

theorem bodyOf (h : Recoding f) {q : Char} (hq : q.toNat < 128) : LiftsAll f (Quoted.bodyOf q) := by
  intro s
  have hback := h.ascii '\\' (by decide)
  fun_induction Quoted.bodyOf q s with
  | case1 => rfl
  | case2 => simp [hback, Quoted.bodyOf, both]
  | case3 c s ih => simp [hback, Quoted.bodyOf, both, ih]
  | case4 c s hlast hpair hc =>
    have hne := mt (h.eq_iff (by decide) c).1 (Quoted.ne_backslash hlast hpair)
    have hstop : (f c = q || isLineBreak (f c)) = (c = q || isLineBreak c) :=
      congrFun (h.class_eq ((IsBlind.one hq).or .isLineBreak)) c
    rw [List.map_cons, Quoted.bodyOf_cons hne, if_pos (hstop.trans hc)]
    rfl
  | case5 c s hlast hpair hc ih =>
    have hne := mt (h.eq_iff (by decide) c).1 (Quoted.ne_backslash hlast hpair)
    have hstop : (f c = q || isLineBreak (f c)) = (c = q || isLineBreak c) :=
      congrFun (h.class_eq ((IsBlind.one hq).or .isLineBreak)) c
    rw [List.map_cons, Quoted.bodyOf_cons hne, if_neg (fun hf => hc (hstop.symm.trans hf)), ih]
    rfl

theorem quoted (h : Recoding f) {q : Char} (hq : isQuote q = true) (s : Text) :
    Quoted.read q (s.map f) = (Quoted.read q s).recode f := by
  have hascii : q.toNat < 128 := isQuote_ascii hq
  have hfq := h.ascii q hascii
  unfold Quoted.read
  rw [h.bodyOf hascii s]
  rcases Quoted.bodyOf q s with ⟨body, _ | ⟨c, r⟩⟩
  · simp [both, Quoted.recode, hfq]
  · by_cases hc : c = q
    · subst hc
      simp [both, Quoted.recode, hfq]
    · have hc' : f c ≠ q := mt (h.eq_iff hascii c).1 hc
      simp [both, Quoted.recode, hfq, hc, hc']

/-! ### Comments -/

theorem close? (h : Recoding f) : Lifts f Comment.close? := by
  intro s
  fun_induction Comment.close? s with
  | case1 => rfl
  | case2 s => simp [Comment.close?, both, h.ascii '*' (by decide), h.ascii '/' (by decide)]
  | case3 c s hne ih =>
    have hne' : ∀ r, f c = '*' → s.map f = '/' :: r → False := by
      intro r hc hr
      obtain ⟨t, rfl, -⟩ := h.map_eq_append (a := ['/']) (by simp) hr
      exact hne t ((h.eq_iff (by decide) c).1 hc) rfl
    rw [List.map_cons, Comment.close?_cons hne', ih]
    rcases Comment.close? s with _ | ⟨l, r⟩ <;> rfl

theorem opens_eq (h : Recoding f) (s : Text) : Comment.opens (s.map f) = Comment.opens s := by
  rw [Bool.eq_iff_iff, Comment.opens_iff, Comment.opens_iff]
  constructor
  · rintro ⟨r, hr⟩
    obtain ⟨t, rfl, -⟩ := h.map_eq_append (a := ['/', '*']) (by simp) hr
    exact ⟨t, rfl⟩
  · rintro ⟨r, rfl⟩
    exact ⟨r.map f, by simp [h.ascii '*' (by decide), h.ascii '/' (by decide)]⟩

theorem comment (h : Recoding f) : Lifts f Comment.read? := by
  intro s
  unfold Comment.read?
  rw [h.opens_eq, ← List.map_drop, h.close? (s.drop 2)]
  by_cases ho : Comment.opens s = true
  · rw [if_pos ho, if_pos ho]
    rcases Comment.close? (s.drop 2) with _ | ⟨l, r⟩
    · rfl
    · simp [both, h.ascii '*' (by decide), h.ascii '/' (by decide)]
  · rw [if_neg ho, if_neg ho]
    rfl

theorem run (h : Recoding f) : LiftsAll f Comment.run :=
  h.comment.many Comment.read?_split Comment.run_of_read?_none Comment.run_of_read?_some

/-- What is behind the comments of the image. -/
theorem run_rest (h : Recoding f) (s : Text) :
    (Comment.run (s.map f)).2 = (Comment.run s).2.map f := congrArg Prod.snd (h.run s)

end Recoding
end CssReader
