/-
# Readers on a text cut short

A reader that takes the longest beginning of a text which it can use takes the
same from a text that was cut short behind what it took: nothing longer has
come up. And where it finds something in a text, it finds something in every
text that begins so.

`Cuts` says this of a reader that may find nothing; a reader that always finds
something, if only nothing at all, is a case of it. It passes from a reader and
one that goes on behind it to both together, and from a reader to its
repetition, so the readers of names, numerals and comments are put together
from their parts here too.

Key definition: `Cuts`.
Key theorems: `Cuts.cut`, `Cuts.many`, `cuts_name?`, `cuts_hashName?`,
`Numeral.cuts_read?`, `Quoted.read_cut`, `Comment.cuts_run`.
-/
import Mathlib.Data.List.TakeWhile
import CssReader.Proofs.Reading

namespace CssReader

/-- The reader leaves an end of the text. What it finds in front of `r` it finds
without `r` too, and it finds nothing in a beginning of a text in which it
finds nothing. -/
structure Cuts {α : Type} (p : Text → Option (α × Text)) : Prop where
  suffix : ∀ {s t : Text} {a : α}, p s = some (a, t) → t <:+ s
  none : ∀ {s r : Text}, p (s ++ r) = none → p s = none
  some : ∀ {s r m : Text} {a : α}, p (s ++ r) = some (a, m ++ r) → p s = some (a, m)

namespace Cuts

variable {α β : Type} {p : Text → Option (α × Text)} {s r t : Text} {a : α}

/-- What is left, if it is no shorter than `r`, is left in front of `r`. -/
theorem cut (hp : Cuts p) (h : p (s ++ r) = Option.some (a, t)) (hl : r.length ≤ t.length) :
    ∃ m, t = m ++ r ∧ p s = Option.some (a, m) := by
  have hsuf : r <:+ t :=
    List.suffix_of_suffix_length_le (List.suffix_append s r) (hp.suffix h) hl
  obtain ⟨m, rfl⟩ := hsuf
  exact ⟨m, rfl, hp.some h⟩

/-- A reader that gives the text it takes is judged by that text alone. -/
theorem of_split {p : Text → Option (Text × Text)}
    (split : ∀ {s l r : Text}, p s = Option.some (l, r) → l ++ r = s)
    (none : ∀ {s r : Text}, p (s ++ r) = Option.none → p s = Option.none)
    (some : ∀ {l m r : Text}, p (l ++ m ++ r) = Option.some (l, m ++ r) →
      p (l ++ m) = Option.some (l, m)) : Cuts p where
  suffix h := ⟨_, split h⟩
  none := none
  some h := by
    have hs := split h
    rw [← List.append_assoc] at hs
    obtain rfl := List.append_cancel_right hs
    exact some h

/-- A reader that always finds something. -/
theorem total {f : Text → Text × Text} (split : ∀ s, (f s).1 ++ (f s).2 = s)
    (some : ∀ {l m r : Text}, f (l ++ m ++ r) = (l, m ++ r) → f (l ++ m) = (l, m)) :
    Cuts fun s => Option.some (f s) := by
  apply of_split
  · intro s l r h
    have hs := split s
    rwa [Option.some.inj h] at hs
  · intro s r h
    exact absurd h (Option.some_ne_none _)
  · intro l m r h
    exact congrArg Option.some (some (Option.some.inj h))

/-- A reader that always finds something cuts its value and what it leaves. -/
theorem total_cut {f : Text → α × Text} (hf : Cuts fun s => Option.some (f s))
    (hl : r.length ≤ (f (s ++ r)).2.length) :
    f (s ++ r) = ((f s).1, (f s).2 ++ r) := by
  obtain ⟨m, hm, h⟩ := hf.cut (a := (f (s ++ r)).1) rfl hl
  rw [Option.some.inj h, ← hm]

theorem total_le {f : Text → α × Text} (hf : Cuts fun s => Option.some (f s)) (s : Text) :
    (f s).2.length ≤ s.length :=
  (hf.suffix (a := (f s).1) rfl).length_le

/-- A reader of text, and behind it one that always finds something. -/
theorem andThen {p : Text → Option (Text × Text)} {f : Text → Text × Text} (hp : Cuts p)
    (hf : Cuts fun s => Option.some (f s)) :
    Cuts fun s => (p s).map fun x => (x.1 ++ (f x.2).1, (f x.2).2) where
  suffix h := by
    obtain ⟨⟨u, t⟩, hu, he⟩ := Option.map_eq_some_iff.1 h
    have ht : (f t).2 <:+ t := hf.suffix (a := (f t).1) rfl
    rw [← (Prod.mk.inj he).2]
    exact ht.trans (hp.suffix hu)
  none h := by
    rw [Option.map_eq_none_iff] at h ⊢
    exact hp.none h
  some {s r m a} h := by
    obtain ⟨⟨u, t⟩, hu, he⟩ := Option.map_eq_some_iff.1 h
    obtain ⟨rfl, ht⟩ := Prod.mk.inj he
    have hl : r.length ≤ t.length := by
      have := hf.total_le t
      rw [ht, List.length_append] at this
      omega
    obtain ⟨t, rfl, hs⟩ := hp.cut hu hl
    have hcut : f (t ++ r) = ((f t).1, (f t).2 ++ r) := hf.total_cut (by rw [ht]; simp)
    rw [hcut] at ht
    have hm : (f t).2 = m := List.append_cancel_right ht
    rw [hs, Option.map_some, hm, hcut]

/-- The repetition `f` of a reader that takes something. -/
theorem many {p : Text → Option (Text × Text)} {f : Text → Text × Text} (hp : Cuts p)
    (hlt : ∀ {s l r : Text}, p s = Option.some (l, r) → l ++ r = s ∧ l ≠ [])
    (hnone : ∀ {s : Text}, p s = Option.none → f s = ([], s))
    (hsome : ∀ {s u r : Text}, p s = Option.some (u, r) → f s = (u ++ (f r).1, (f r).2))
    (hf : ∀ s, (f s).1 ++ (f s).2 = s) : Cuts fun s => Option.some (f s) := by
  refine total hf fun {l m r} h => ?_
  generalize hs : l ++ m = s at h ⊢
  induction hn : s.length using Nat.strongRecOn generalizing s l with
  | ind n ih =>
    subst hn
    rcases hu : p (s ++ r) with _ | ⟨u, t⟩
    · rw [hnone hu] at h
      obtain ⟨rfl, hm⟩ := Prod.mk.inj h
      rw [hnone (hp.none hu), List.append_cancel_right hm]
    · rw [hsome hu] at h
      obtain ⟨rfl, ht⟩ := Prod.mk.inj h
      have hl : r.length ≤ t.length := by
        have := congrArg List.length (hf t)
        rw [ht, List.length_append, List.length_append] at this
        omega
      obtain ⟨t, rfl, hut⟩ := hp.cut hu hl
      have hsplit : (f (t ++ r)).1 ++ m = t := by
        have := hf (t ++ r)
        rw [ht, ← List.append_assoc] at this
        exact List.append_cancel_right this
      have hshort : t.length < s.length := Text.length_lt_of_split (hlt hut)
      have hrec := ih t.length hshort t hsplit (Prod.ext rfl ht) rfl
      rw [hsome hut, hrec]

end Cuts

/-! ### Classes of characters -/

/-- What a class of characters leaves, if it is no shorter than `r`, it leaves in
front of `r`. -/
theorem while_cut {p : Char → Bool} {s r : Text} (h : r.length ≤ ((s ++ r).dropWhile p).length) :
    (s ++ r).dropWhile p = s.dropWhile p ++ r ∧ (s ++ r).takeWhile p = s.takeWhile p := by
  induction s with
  | nil =>
    have hd : r.dropWhile p = r := (List.dropWhile_suffix p).eq_of_length_le h
    have ht := List.takeWhile_append_dropWhile (p := p) (l := r)
    rw [hd] at ht
    exact ⟨hd, List.append_left_eq_self.1 ht⟩
  | cons c s ih =>
    by_cases hc : p c = true
    · rw [List.cons_append, List.dropWhile_cons, if_pos hc] at h
      simpa [hc] using ih h
    · simp [hc]

theorem cuts_while (p : Char → Bool) : Cuts fun s => some (s.takeWhile p, s.dropWhile p) := by
  refine .total (fun s => List.takeWhile_append_dropWhile) fun {l m r} h => ?_
  obtain ⟨hl, hm⟩ := Prod.mk.inj h
  obtain ⟨hd, ht⟩ := while_cut (p := p) (s := l ++ m) (r := r) (by rw [hm]; simp)
  exact Prod.ext (ht.symm.trans hl) (List.append_cancel_right (hd.symm.trans hm))

/-- A reader of a character and what follows it: the character is of a class `p`,
and `q` tells whether what follows is enough of what `g` takes. -/
theorem cuts_marked {f g : Text → Text × Text} {p : Char → Bool} {q : Text → Bool}
    (hg : Cuts fun s => some (g s)) (hnil : f [] = ([], []))
    (hcons : ∀ c s, f (c :: s) = if p c && q s then (c :: (g s).1, (g s).2) else ([], c :: s))
    (hsplit : ∀ s, (f s).1 ++ (f s).2 = s) (hq : ∀ s r, q s → q (s ++ r))
    (hqg : ∀ {s r m a : Text}, g (s ++ r) = (a, m ++ r) → q (s ++ r) → q s) :
    Cuts fun s => some (f s) := by
  refine .total hsplit fun {l m r} h => ?_
  rcases l with _ | ⟨c, l⟩
  · rcases m with _ | ⟨c, m⟩
    · exact hnil
    · have hc : ¬(p c && q m) = true := by
        intro hc
        rw [Bool.and_eq_true] at hc
        simp [hcons, hc.1, hq m r hc.2] at h
      rw [List.nil_append, hcons, if_neg hc]
  · simp only [List.cons_append, hcons] at h ⊢
    by_cases hc : (p c && q (l ++ m ++ r)) = true
    · rw [if_pos hc] at h
      rw [Bool.and_eq_true] at hc
      obtain ⟨hl, hm⟩ := Prod.mk.inj h
      have hgr : g (l ++ m ++ r) = (l, m ++ r) := Prod.ext (List.cons.inj hl).2 hm
      have hg' : g (l ++ m) = (l, m) := Option.some.inj (hg.some (congrArg some hgr))
      have hq' : q (l ++ m) = true := hqg hgr hc.2
      rw [if_pos (by rw [hc.1, hq']; rfl), hg']
    · rw [if_neg hc] at h
      simp at h

/-- A reader of one character of a class. -/
theorem cuts_one {f : Text → Text × Text} {p : Char → Bool} (hnil : f [] = ([], []))
    (hcons : ∀ c s, f (c :: s) = if p c then ([c], s) else ([], c :: s))
    (hsplit : ∀ s, (f s).1 ++ (f s).2 = s) : Cuts fun s => some (f s) := by
  have hg : Cuts fun s => some (([] : Text), s) := .total (fun _ => rfl) fun {l m r} h => by
    obtain ⟨rfl, -⟩ := Prod.mk.inj h
    rfl
  exact cuts_marked (p := p) (q := fun _ => true) hg hnil
    (fun c s => by rw [hcons, Bool.and_true]) hsplit (fun _ _ h => h) fun _ h => h

/-! ### Names -/

theorem take_takeWhile_cut {p : Char → Bool} {n : Nat} {s r : Text}
    (h : (((s ++ r).take n).takeWhile p).length ≤ s.length) :
    (s.take n).takeWhile p = ((s ++ r).take n).takeWhile p := by
  induction s generalizing n with
  | nil => simpa using h
  | cons c s ih =>
    rcases n with _ | n
    · rfl
    · by_cases hc : p c = true
      · simp only [List.cons_append, List.take_succ_cons, List.takeWhile_cons, if_pos hc,
          List.length_cons, Nat.add_le_add_iff_right] at h ⊢
        rw [ih h]
      · simp [hc]

theorem hexDigits_cons_isEmpty (c : Char) (s : Text) : (hexDigits (c :: s)).isEmpty = !isHex c := by
  cases hc : isHex c <;> simp [hexDigits, hc]

theorem cuts_oneBlank : Cuts fun s => some (oneBlank s) :=
  cuts_one rfl (fun _ _ => rfl) oneBlank_split

/-- A hexadecimal escape is read off the digits and the blank that it has. -/
theorem escape?_hex {c : Char} {s : Text} (hc : ¬(c = '$' || c = '\n') = true)
    (hx : isHex c = true) :
    escape? ('\\' :: c :: s) = some
      ('\\' :: hexDigits (c :: s) ++ (oneBlank ((c :: s).drop (hexDigits (c :: s)).length)).1,
        (oneBlank ((c :: s).drop (hexDigits (c :: s)).length)).2) := by
  rw [escape?, if_neg hc, hexDigits_cons_isEmpty, hx]
  rfl

theorem escape?_none {c : Char} {s : Text} (hc : ¬(c = '$' || c = '\n') = true)
    (hx : isHex c = false) : escape? ('\\' :: c :: s) = none := by
  rw [escape?, if_neg hc, hexDigits_cons_isEmpty, hx]
  rfl

/-- The digits and the blank of an escape are the same in front of `r` and without it. -/
theorem escape?_hex_cut {c : Char} {s m r digits blank : Text}
    (hc : ¬(c = '$' || c = '\n') = true) (hx : isHex c = true)
    (hd : hexDigits (c :: s) = digits)
    (hb : oneBlank ((c :: s).drop digits.length) = (blank, m ++ r)) :
    escape? ('\\' :: digits ++ blank ++ m) = some ('\\' :: digits ++ blank, m) := by
  have hsplit := hexDigits_append_drop (c :: s)
  have hblank := oneBlank_split ((c :: s).drop digits.length)
  rw [hd] at hsplit
  rw [hb] at hblank
  have hall : digits ++ (blank ++ m) ++ r = c :: s := by
    rw [List.append_assoc, List.append_assoc, hblank, hsplit]
  have hcut : hexDigits (digits ++ (blank ++ m)) = digits := by
    refine (take_takeWhile_cut (r := r) ?_).trans (hall ▸ hd)
    rw [hall, show ((c :: s).take 6).takeWhile isHex = digits from hd]
    simp
  have hone : oneBlank (blank ++ m) = (blank, m) := by
    refine Option.some.inj (cuts_oneBlank.some (r := r) ?_)
    rw [List.append_assoc, hblank, hb]
  obtain ⟨digits', rfl⟩ : ∃ digits', digits = c :: digits' := by
    simp [← hd, hexDigits, hx]
  have h := escape?_hex (s := digits' ++ (blank ++ m)) hc hx
  rw [← List.cons_append, hcut, List.drop_left, hone] at h
  simpa using h

theorem cuts_escape? : Cuts escape? := by
  refine .of_split (fun h => (escape?_split h).1) (fun {s r} h => ?_) fun {l m r} h => ?_
  · unfold escape?
    split
    · rename_i c s
      rw [List.cons_append, List.cons_append] at h
      by_cases hc : (c = '$' || c = '\n') = true
      · simp [escape?, hc] at h
      · by_cases hx : isHex c = true
        · simp [escape?_hex hc hx] at h
        · exact escape?_none hc (by simpa using hx)
    · rfl
  · have hl : ∃ c s, l ++ m ++ r = '\\' :: c :: s := by
      unfold escape? at h
      split at h
      · exact ⟨_, _, by assumption⟩
      · simp at h
    obtain ⟨c, s, hs⟩ := hl
    rw [hs] at h
    by_cases hc : (c = '$' || c = '\n') = true
    · rw [escape?, if_pos hc] at h
      obtain ⟨rfl, -⟩ := Prod.mk.inj (Option.some.inj h)
      simp [escape?, hc]
    · by_cases hx : isHex c = true
      · rw [escape?_hex hc hx] at h
        obtain ⟨rfl, hr⟩ := Prod.mk.inj (Option.some.inj h)
        exact escape?_hex_cut hc hx rfl (Prod.ext rfl hr)
      · rw [escape?_none hc (by simpa using hx)] at h
        simp at h

/-- One character of a class, or an escape. -/
theorem cuts_unit {u : Text → Option (Text × Text)} {p : Char → Bool} (hnil : u [] = none)
    (hcons : ∀ c s, u (c :: s) = if p c then some ([c], s) else escape? (c :: s))
    (hsplit : ∀ {s l r : Text}, u s = some (l, r) → l ++ r = s ∧ l ≠ []) : Cuts u := by
  refine .of_split (fun h => (hsplit h).1) (fun {s r} h => ?_) fun {l m r} h => ?_
  · rcases s with _ | ⟨c, s⟩
    · exact hnil
    · rw [List.cons_append, hcons] at h
      by_cases hc : p c = true
      · simp [hc] at h
      · rw [if_neg hc] at h
        rw [hcons, if_neg hc]
        exact cuts_escape?.none h
  · have hne : l ≠ [] := (hsplit h).2
    rcases l with _ | ⟨c, l⟩
    · exact absurd rfl hne
    · rw [List.cons_append, List.cons_append, hcons] at h
      by_cases hc : p c = true
      · rw [if_pos hc] at h
        obtain ⟨hl, -⟩ := Prod.mk.inj (Option.some.inj h)
        obtain rfl : [] = l := (List.cons.inj hl).2
        rw [List.cons_append, hcons, if_pos hc]
        rfl
      · rw [if_neg hc] at h
        rw [List.cons_append, hcons, if_neg hc]
        exact cuts_escape?.some h

theorem cuts_nameUnit? : Cuts nameUnit? :=
  cuts_unit rfl (fun _ _ => rfl) nameUnit?_split

theorem cuts_nameHead? : Cuts nameHead? :=
  cuts_unit rfl (fun _ _ => rfl) nameHead?_split

theorem cuts_nameTail : Cuts fun s => some (nameTail s) :=
  cuts_nameUnit?.many nameUnit?_split nameTail_none nameTail_some nameTail_split

/-- A name without a hyphen in front. -/
theorem cuts_nameBody : Cuts fun s => (nameHead? s).map fun x =>
    (x.1 ++ (nameTail x.2).1, (nameTail x.2).2) :=
  cuts_nameHead?.andThen cuts_nameTail

theorem name?_hyphen (s : Text) : name? ('-' :: s) = ((nameHead? s).map fun x =>
    (x.1 ++ (nameTail x.2).1, (nameTail x.2).2)).map fun x => ('-' :: x.1, x.2) := by
  simp [name?, Option.map_map, Function.comp_def]

theorem name?_cons {c : Char} (hc : c ≠ '-') (s : Text) : name? (c :: s) =
    (nameHead? (c :: s)).map fun x => (x.1 ++ (nameTail x.2).1, (nameTail x.2).2) := by
  unfold name?
  split
  rename_i hyphen start heq
  split at heq
  · simp_all
  · cases heq
    rfl

theorem cuts_name? : Cuts name? := by
  refine .of_split (fun h => (name?_split h).1) (fun {s r} h => ?_) fun {l m r} h => ?_
  · rcases s with _ | ⟨c, s⟩
    · rfl
    · rw [List.cons_append] at h
      by_cases hc : c = '-'
      · subst hc
        rw [name?_hyphen, Option.map_eq_none_iff] at h ⊢
        exact cuts_nameBody.none h
      · rw [name?_cons hc] at h ⊢
        exact cuts_nameBody.none (s := c :: s) h
  · have hne : l ≠ [] := (name?_split h).2
    rcases l with _ | ⟨c, l⟩
    · exact absurd rfl hne
    · rw [List.cons_append, List.cons_append] at h
      rw [List.cons_append]
      by_cases hc : c = '-'
      · subst hc
        rw [name?_hyphen, Option.map_eq_some_iff] at h ⊢
        obtain ⟨⟨l', t⟩, hl, he⟩ := h
        obtain ⟨hl', rfl⟩ := Prod.mk.inj he
        obtain rfl : l' = l := (List.cons.inj hl').2
        exact ⟨_, cuts_nameBody.some hl, rfl⟩
      · rw [name?_cons hc] at h ⊢
        exact cuts_nameBody.some (s := c :: (l ++ m)) h

/-- There is something behind a hash sign if there is one unit of a name. -/
theorem hashName?_eq (s : Text) :
    hashName? s = if (nameUnit? s).isNone then none else some (nameTail s) := by
  unfold hashName?
  rcases h : nameUnit? s with _ | ⟨u, r⟩
  · simp [nameTail_none h]
  · simp [nameTail_some h, (nameUnit?_split h).2]

theorem cuts_hashName? : Cuts hashName? := by
  refine .of_split (fun h => (hashName?_split h).1) (fun {s r} h => ?_) fun {l m r} h => ?_
  · rw [hashName?_eq] at h ⊢
    by_cases hu : nameUnit? (s ++ r) = none
    · simp [cuts_nameUnit?.none hu]
    · simp [hu] at h
  · have hne : l ≠ [] := (hashName?_split h).2
    unfold hashName? at h
    by_cases he : (nameTail (l ++ m ++ r)).1.isEmpty = true
    · rw [if_pos he] at h
      simp at h
    · rw [if_neg he] at h
      have htail : nameTail (l ++ m) = (l, m) := Option.some.inj (cuts_nameTail.some h)
      rw [hashName?, htail]
      simp [hne]

/-! ### Numerals -/

namespace Numeral

theorem cuts_readSign : Cuts fun s => some (readSign s) :=
  cuts_one (p := fun c => c = '+' || c = '-') rfl (fun _ _ => rfl) readSign_split

theorem cuts_readDigits : Cuts fun s => some (readDigits s) := cuts_while Char.isDigit

theorem readSign_cons_append (c : Char) (s r : Text) :
    readSign (c :: s ++ r) = ((readSign (c :: s)).1, (readSign (c :: s)).2 ++ r) := by
  simp only [List.cons_append, readSign]
  split <;> rfl

/-- Where a text has digits in front, every text that begins so has. -/
theorem readDigits_append {s : Text} (r : Text) (h : (readDigits s).1.isEmpty = false) :
    (readDigits (s ++ r)).1.isEmpty = false := by
  rcases s with _ | ⟨c, s⟩
  · simp [readDigits] at h
  · by_cases hc : c.isDigit = true
    · simp [readDigits, hc]
    · simp [readDigits, hc] at h

theorem cuts_readFraction : Cuts fun s => some (readFraction s) := by
  refine cuts_marked (p := fun c => c = '.') (q := fun s => !(readDigits s).1.isEmpty)
    cuts_readDigits rfl (fun _ _ => rfl) readFraction_split (fun s r h => ?_)
    fun {s r m a} h hq => ?_
  · simp only [Bool.not_eq_true'] at h ⊢
    exact readDigits_append r h
  · have hs : readDigits s = (a, m) :=
      Option.some.inj (cuts_readDigits.some (congrArg some h))
    rw [h] at hq
    rwa [hs]

theorem cuts_readExponent : Cuts fun s => some (readExponent s) := by
  have hg := cuts_readSign.andThen cuts_readDigits
  refine cuts_marked (p := fun c => c = 'e' || c = 'E')
    (q := fun s => !(readDigits (readSign s).2).1.isEmpty) hg rfl (fun _ _ => rfl)
    readExponent_split (fun s r h => ?_) fun {s r m a} h hq => ?_
  · simp only [Bool.not_eq_true'] at h ⊢
    rcases s with _ | ⟨c, s⟩
    · simp [readSign, readDigits] at h
    · rw [readSign_cons_append]
      exact readDigits_append r h
  · obtain ⟨-, hm⟩ := Prod.mk.inj h
    have hr : r.length ≤ (m ++ r).length := by simp
    have hl := cuts_readDigits.total_le (readSign (s ++ r)).2
    rw [hm] at hl
    have hsign : readSign (s ++ r) = ((readSign s).1, (readSign s).2 ++ r) :=
      cuts_readSign.total_cut (hr.trans hl)
    rw [hsign] at hq hm
    rwa [cuts_readDigits.total_cut (by rw [hm]; exact hr)] at hq

/-- Without digits in front and without a fraction there is no numeral. -/
theorem read?_eq_none {s : Text} : read? s = none ↔
    readDigits (readSign s).2 = ([], (readSign s).2) ∧
      readFraction (readSign s).2 = ([], (readSign s).2) := by
  have hd := readDigits_split (readSign s).2
  have hf := readFraction_split (readDigits (readSign s).2).2
  simp only [read?]
  constructor
  · intro h
    by_cases he : ((readDigits (readSign s).2).1.isEmpty &&
        (readFraction (readDigits (readSign s).2).2).1.isEmpty) = true
    · simp only [Bool.and_eq_true, List.isEmpty_iff] at he
      rw [he.1, List.nil_append] at hd
      rw [he.2, List.nil_append, hd] at hf
      have he2 := he.2
      rw [hd] at he2
      exact ⟨Prod.ext he.1 hd, Prod.ext he2 hf⟩
    · rw [if_neg he] at h
      simp at h
  · rintro ⟨hd, hf⟩
    simp [hd, hf]

theorem cuts_read? : Cuts read? where
  suffix h := ⟨_, (read?_split h).1⟩
  none {s r} h := by
    rcases s with _ | ⟨c, s⟩
    · rfl
    · rw [read?_eq_none, readSign_cons_append] at h
      rw [read?_eq_none]
      have hd := cuts_readDigits.some (congrArg some h.1)
      have hf := cuts_readFraction.some (congrArg some h.2)
      exact ⟨Option.some.inj hd, Option.some.inj hf⟩
  some {s r m n} h := by
    simp only [read?] at h ⊢
    split at h
    · simp at h
    · rename_i hne
      obtain ⟨rfl, hm⟩ := Prod.mk.inj (Option.some.inj h)
      -- each part leaves at least what the last one does, and that has `r` behind it
      have hr : r.length ≤ (m ++ r).length := by simp
      have l2 := cuts_readDigits.total_le (readSign (s ++ r)).2
      have l3 := cuts_readFraction.total_le (readDigits (readSign (s ++ r)).2).2
      have l4 := cuts_readExponent.total_le (readFraction (readDigits (readSign (s ++ r)).2).2).2
      rw [hm] at l4
      have e1 := cuts_readSign.total_cut (s := s) (r := r) (by omega)
      simp only [e1] at *
      generalize (readSign s).2 = t at *
      have e2 := cuts_readDigits.total_cut (s := t) (r := r) (by omega)
      simp only [e2] at *
      have e3 := cuts_readFraction.total_cut (s := (readDigits t).2) (r := r) (by omega)
      simp only [e3] at *
      have e4 := cuts_readExponent.total_cut (by rw [hm]; exact hr)
      simp only [e4] at *
      rw [if_neg hne, List.append_cancel_right hm]

end Numeral

/-! ### Strings -/

namespace Quoted

theorem bodyOf_cons {q c : Char} (hc : c ≠ '\\') (s : Text) : bodyOf q (c :: s) =
    if c = q || isLineBreak c then ([], c :: s) else (c :: (bodyOf q s).1, (bodyOf q s).2) := by
  rw [bodyOf.eq_def]
  split <;> simp_all

theorem ne_backslash {c : Char} {s : Text} (hlast : c = '\\' → s = [] → False)
    (hpair : ∀ d t, c = '\\' → s = d :: t → False) : c ≠ '\\' := by
  rintro rfl
  rcases s with _ | ⟨d, t⟩
  · exact hlast rfl rfl
  · exact hpair d t rfl rfl

theorem cuts_bodyOf (q : Char) : Cuts fun s => some (bodyOf q s) := by
  refine .total (bodyOf_split q) fun {l m r} h => ?_
  generalize hs : l ++ m = s at h ⊢
  fun_induction bodyOf q s generalizing l with
  | case1 =>
    obtain ⟨rfl, rfl⟩ := List.append_eq_nil_iff.1 hs
    rfl
  | case2 =>
    rcases r with _ | ⟨c, r⟩
    · simpa [bodyOf] using h
    · -- with a character behind the backslash the body goes on over both
      have hlen := congrArg (fun x : Text × Text => x.2.length) h
      have hle : (bodyOf q r).2.length ≤ r.length := by
        have := congrArg List.length (bodyOf_split q r)
        rw [List.length_append] at this
        omega
      simp only [List.cons_append, List.nil_append, bodyOf, List.length_append,
        List.length_cons] at hlen
      omega
  | case3 c s ih =>
    simp only [List.cons_append, bodyOf] at h
    obtain ⟨rfl, hm⟩ := Prod.mk.inj h
    simp only [List.cons_append, List.cons.injEq, true_and] at hs
    rw [ih hs (Prod.ext rfl hm)]
  | case4 c s hlast hpair hc =>
    rw [List.cons_append, bodyOf_cons (ne_backslash hlast hpair), if_pos hc] at h
    obtain ⟨rfl, -⟩ := Prod.mk.inj h
    rw [← hs]
    rfl
  | case5 c s hlast hpair hc ih =>
    rw [List.cons_append, bodyOf_cons (ne_backslash hlast hpair), if_neg hc] at h
    obtain ⟨rfl, hm⟩ := Prod.mk.inj h
    simp only [List.cons_append, List.cons.injEq, true_and] at hs
    rw [ih hs (Prod.ext rfl hm)]

theorem read_quote (q : Char) (s : Text) : (read q s).quote = q := by
  unfold read
  split
  · split <;> rfl
  · rfl

theorem read_rest_suffix (q : Char) (s : Text) : (read q s).rest <:+ s := by
  have hs := read_split q s
  rw [text, read_quote, List.cons_append, List.cons_append, List.cons.injEq] at hs
  exact ⟨_, hs.2⟩

/-- A string that leaves `m` in front of `r` leaves `m` without it. -/
theorem read_cut {q : Char} {s m r : Text} (h : (read q (s ++ r)).rest = m ++ r) :
    read q s = { read q (s ++ r) with rest := m } := by
  have hcut : ∀ {body m}, bodyOf q (s ++ r) = (body, m ++ r) → bodyOf q s = (body, m) :=
    fun h => Option.some.inj ((cuts_bodyOf q).some (congrArg some h))
  unfold read at h ⊢
  rcases hb : bodyOf q (s ++ r) with ⟨body, _ | ⟨c, left⟩⟩
  · rw [hb] at h
    obtain ⟨rfl, rfl⟩ := List.append_eq_nil_iff.1 h.symm
    rw [hcut (m := []) hb]
  · rw [hb] at h
    dsimp only at h ⊢
    by_cases hc : c = q
    · rw [if_pos hc] at h
      obtain rfl : left = m ++ r := h
      rw [hcut (m := c :: m) hb]
      simp [hc]
    · rw [if_neg hc] at h
      obtain h : c :: left = m ++ r := h
      rw [h] at hb
      rw [hcut hb]
      rcases m with _ | ⟨d, m⟩
      · simp [hc]
      · obtain ⟨rfl, -⟩ := List.cons.inj h
        simp [hc]

end Quoted

/-! ### Comments -/

namespace Comment

theorem two_le_of_close? {s l r : Text} (h : close? s = some (l, r)) : 2 ≤ l.length := by
  obtain ⟨body, rfl, -⟩ := close?_first h
  simp

theorem close?_cons {c : Char} {s : Text} (h : ∀ r, c = '*' → s = '/' :: r → False) :
    close? (c :: s) = (close? s).map fun (l, r) => (c :: l, r) := by
  rw [close?.eq_def]
  split
  · simp_all
  · rename_i heq
    cases heq
    exact absurd rfl (h _ rfl)
  · rename_i heq
    cases heq
    rfl

theorem cuts_close? : Cuts close? := by
  refine .of_split close?_split (fun {s r} h => ?_) fun {l m r} h => ?_
  · rw [close?_eq_none] at h ⊢
    exact fun hs => h (hs.trans (List.prefix_append s r).isInfix)
  · have hl := two_le_of_close? h
    generalize hs : l ++ m = s at h ⊢
    fun_induction close? s generalizing l with
    | case1 => simp_all
    | case2 s =>
      obtain ⟨rfl, hm⟩ := Prod.mk.inj (Option.some.inj h)
      rw [List.append_cancel_right hm]
    | case3 c s hc ih =>
      -- the slash of what closes the comment is not the first character of `r`
      have hc' : ∀ t, c = '*' → s ++ r = '/' :: t → False := by
        rintro t rfl ht
        rcases s with _ | ⟨d, s⟩
        · have hlen := congrArg List.length hs
          simp only [List.length_append, List.length_cons, List.length_nil] at hlen
          omega
        · exact hc s rfl (congrArg (· :: s) (List.cons.inj ht).1)
      rw [List.cons_append, close?_cons hc'] at h
      obtain ⟨⟨l', t⟩, h', he⟩ := Option.map_eq_some_iff.1 h
      obtain ⟨rfl, rfl⟩ := Prod.mk.inj he
      have hs' : l' ++ m = s := (List.cons.inj hs).2
      have hrec : close? s = some (l', m) := ih (two_le_of_close? h') hs' h'
      rw [hrec]
      rfl

theorem cuts_read? : Cuts read? := by
  refine .of_split (fun h => (read?_split h).1) (fun {s r} h => ?_) fun {l m r} h => ?_
  · by_cases ho : opens s = true
    · obtain ⟨t, rfl⟩ := opens_iff.1 ho
      rw [List.cons_append, List.cons_append, read?_opens, Option.map_eq_none_iff] at h
      rw [read?_opens, cuts_close?.none h]
      rfl
    · rw [read?, if_neg ho]
  · obtain ⟨body, rfl, -⟩ := read?_isWhole h
    simp only [List.cons_append, List.nil_append, read?_opens] at h ⊢
    obtain ⟨⟨l, t⟩, hl, he⟩ := Option.map_eq_some_iff.1 h
    obtain ⟨hb, rfl⟩ := Prod.mk.inj he
    obtain rfl : l = body ++ ['*', '/'] := by simpa using hb
    rw [cuts_close?.some hl]
    rfl

theorem cuts_run : Cuts fun s => some (run s) :=
  cuts_read?.many read?_split run_of_read?_none run_of_read?_some run_split

end Comment
end CssReader
