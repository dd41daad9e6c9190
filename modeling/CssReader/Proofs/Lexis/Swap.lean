/-
# Readers and the end of a text

A reader that takes the front of a text looks at what is behind it, to see where
to stop. What it takes stays the same when the end of the text is exchanged for
another one that looks alike from the front: one with the same character there,
unless that character is loose and may be read together with those behind it; one
that begins with a space where there was another blank; or one that begins with a
slash where the text was over.

`Swaps` says this of a reader. It passes from a reader and one that goes on behind
it to both together, and from a reader to its repetition. A string is the
exception: it does not stop at a space or a slash, and where it was cut off by a
line break or by the end of the text it would go on (`Quoted.read_swap`).

Key definitions: `isLoose`, `Text.Alike`, `Text.Tied`, `Swaps`.
Key theorems: `Swaps.many`, `swaps_name?`, `swaps_hashName?`, `Numeral.swaps_read?`,
`Quoted.read_swap`, `Comment.run_append`, `Comment.opens_swap`.
-/
import CssReader.Proofs.Lexis.Cut

namespace CssReader

/-- A character that may belong to what is in front of it, or not, depending on
what is behind it. -/
def isLoose (c : Char) : Bool :=
  c = '\\' || c = '-' || c = '+' || c = '.' || c = 'e' || c = 'E' || c = '!' || c = '/'

/-- What is so for each of the five blanks. -/
@[elab_as_elim]
theorem of_isBlank {p : Char → Prop} {b : Char} (hb : isBlank b = true)
    (h : p ' ' ∧ p '\t' ∧ p '\n' ∧ p '\r' ∧ p '\x0c') : p b := by
  obtain ⟨hspace, htab, hline, hreturn, hfeed⟩ := h
  simp only [isBlank, Bool.or_eq_true, decide_eq_true_eq] at hb
  rcases hb with (((rfl | rfl) | rfl) | rfl) | rfl
  · exact hspace
  · exact htab
  · exact hline
  · exact hreturn
  · exact hfeed

theorem isLoose_of_blank {b : Char} (h : isBlank b = true) : isLoose b = false :=
  of_isBlank h (by decide)

namespace Text

/-- The two ends of a text look alike to what is in front of them. -/
inductive Alike : Text → Text → Prop
  /-- They begin with the same character, which is not loose. -/
  | same {c : Char} {x x' : Text} : isLoose c = false → Alike (c :: x) (c :: x')
  /-- A space stands where there was a blank. -/
  | blank {b : Char} {x x' : Text} : isBlank b = true → Alike (b :: x) (' ' :: x')
  /-- A slash stands where there was nothing. -/
  | slash {x' : Text} : Alike [] ('/' :: x')

/-- A class of characters that does not tell such ends apart. -/
structure Uniform (p : Char → Bool) : Prop where
  slash : p '/' = false
  blank : ∀ b, isBlank b = true → p b = false → p ' ' = false

namespace Alike

variable {x x' : Text}

/-- Neither begins with a loose character, a slash apart. -/
theorem head?_ne (h : Alike x x') {c : Char} (hc : isLoose c = true) (hs : c ≠ '/') :
    x.head? ≠ some c ∧ x'.head? ≠ some c := by
  have hne : ∀ {d : Char}, isLoose d = false → d ≠ c := by
    rintro d hd rfl
    simp [hc] at hd
  cases h with
  | same hd => simp [hne hd]
  | blank hb =>
    have hspace : isLoose ' ' = false := rfl
    simp [hne (isLoose_of_blank hb), hne hspace]
  | slash => simp [Ne.symm hs]

/-- A class that does not go on into the one does not go on into the other. -/
theorem stops (h : Alike x x') {p : Char → Bool} (hp : Uniform p)
    (hx : ∀ c ∈ x.head?, p c = false) : ∀ c ∈ x'.head?, p c = false := by
  intro c hc
  cases h with
  | same =>
    apply hx c
    exact hc
  | blank hb =>
    obtain rfl : ' ' = c := Option.some.inj hc
    exact hp.blank _ hb (hx _ rfl)
  | slash =>
    obtain rfl : '/' = c := Option.some.inj hc
    exact hp.slash

theorem stops_append (h : Alike x x') {p : Char → Bool} (hp : Uniform p) {s : Text}
    (hx : ∀ c ∈ (s ++ x).head?, p c = false) : ∀ c ∈ (s ++ x').head?, p c = false := by
  rcases s with _ | ⟨d, s⟩
  · exact h.stops hp hx
  · exact hx

end Alike

/-- Not all characters of the text are loose. -/
def Tied (s : Text) : Prop := ∃ c ∈ s, isLoose c = false

theorem Tied.ne_nil {s : Text} (h : Tied s) : s ≠ [] := by
  obtain ⟨c, hc, -⟩ := h
  exact List.ne_nil_of_mem hc

theorem Tied.of_suffix {s t : Text} (h : Tied t) (hs : t <:+ s) : Tied s := by
  obtain ⟨c, hc, hl⟩ := h
  exact ⟨c, hs.subset hc, hl⟩

/-- A tied text has an end that looks alike however the text goes on. -/
theorem Tied.exists_end {s : Text} (h : Tied s) :
    ∃ m c y, s = m ++ c :: y ∧ isLoose c = false := by
  obtain ⟨c, hc, hl⟩ := h
  obtain ⟨m, y, rfl⟩ := List.append_of_mem hc
  exact ⟨m, c, y, rfl, hl⟩

/-- Nothing that takes something leaves all. -/
theorem not_split_self {l m x : Text} (h : l ++ (m ++ x) = x ∧ l ≠ []) : False := by
  have hlen := congrArg List.length h.1
  have hpos := List.length_pos_iff.2 h.2
  simp only [List.length_append] at hlen
  omega

end Text

open Text

/-- What the reader takes in front of an end it takes in front of one that looks
alike, and it finds nothing where it found nothing. -/
structure Swaps {α : Type} (p : Text → Option (α × Text)) : Prop where
  none : ∀ {s x x' : Text}, p (s ++ x) = none → Alike x x' → p (s ++ x') = none
  some : ∀ {s m x x' : Text} {a : α}, p (s ++ x) = some (a, m ++ x) → Alike x x' →
    p (s ++ x') = some (a, m ++ x')

namespace Swaps

variable {α : Type}

/-- A reader that always finds something. -/
theorem total {f : Text → α × Text}
    (h : ∀ {s m x x' : Text} {a : α}, f (s ++ x) = (a, m ++ x) → Alike x x' →
      f (s ++ x') = (a, m ++ x')) :
    Swaps fun s => Option.some (f s) where
  none hn _ := absurd hn (Option.some_ne_none _)
  some hs hx := congrArg Option.some (h (Option.some.inj hs) hx)

theorem total_swap {f : Text → α × Text} (hf : Swaps fun s => Option.some (f s))
    {s m x x' : Text} {a : α} (h : f (s ++ x) = (a, m ++ x)) (hx : Alike x x') :
    f (s ++ x') = (a, m ++ x') :=
  Option.some.inj (hf.some (congrArg Option.some h) hx)

/-- A reader of text, and behind it one that always finds something. -/
theorem andThen {p : Text → Option (Text × Text)} {f : Text → Text × Text} (hp : Swaps p)
    (hf : Swaps fun s => Option.some (f s)) (hc : Cuts fun s => Option.some (f s)) :
    Swaps fun s => (p s).map fun x => (x.1 ++ (f x.2).1, (f x.2).2) where
  none h hx := by
    rw [Option.map_eq_none_iff] at h ⊢
    exact hp.none h hx
  some {s m x x' a} h hx := by
    obtain ⟨⟨u, t⟩, hu, he⟩ := Option.map_eq_some_iff.1 h
    obtain ⟨rfl, ht⟩ := Prod.mk.inj he
    obtain ⟨t, rfl⟩ : x <:+ t := by
      have hsuf : (f t).2 <:+ t := hc.suffix (a := (f t).1) rfl
      rw [ht] at hsuf
      exact (List.suffix_append m x).trans hsuf
    have hft : f (t ++ x') = ((f (t ++ x)).1, m ++ x') := hf.total_swap (Prod.ext rfl ht) hx
    rw [hp.some hu hx, Option.map_some, hft]

/-- The repetition `f` of a reader that takes something. -/
theorem many {p : Text → Option (Text × Text)} {f : Text → Text × Text} (hp : Swaps p)
    (hlt : ∀ {s l r : Text}, p s = Option.some (l, r) → l ++ r = s ∧ l ≠ [])
    (hnone : ∀ {s : Text}, p s = Option.none → f s = ([], s))
    (hsome : ∀ {s u r : Text}, p s = Option.some (u, r) → f s = (u ++ (f r).1, (f r).2))
    (hc : Cuts fun s => Option.some (f s)) : Swaps fun s => Option.some (f s) := by
  refine total fun {s m x x' a} h hx => ?_
  induction hn : s.length using Nat.strongRecOn generalizing s a with
  | ind n ih =>
    subst hn
    rcases hu : p (s ++ x) with _ | ⟨u, t⟩
    · rw [hnone hu] at h
      obtain ⟨rfl, hm⟩ := Prod.mk.inj h
      obtain rfl : s = m := List.append_cancel_right hm
      exact hnone (hp.none hu hx)
    · rw [hsome hu] at h
      obtain ⟨rfl, ht⟩ := Prod.mk.inj h
      obtain ⟨t, rfl⟩ : x <:+ t := by
        have hsuf : (f t).2 <:+ t := hc.suffix (a := (f t).1) rfl
        rw [ht] at hsuf
        exact (List.suffix_append m x).trans hsuf
      have hshort : t.length < s.length := by
        have hlt := Text.length_lt_of_split (hlt hu)
        rw [List.length_append, List.length_append] at hlt
        omega
      have hrec : f (t ++ x') = ((f (t ++ x)).1, m ++ x') :=
        ih t.length hshort (Prod.ext rfl ht) rfl
      rw [hsome (hp.some hu hx), hrec]

end Swaps

/-! ### Classes of characters -/

/-- A class of characters that stops in front of an end, or goes no further than
to it, does not get to what comes behind. -/
theorem while_swap {p : Char → Bool} {s m x x' : Text} (h : (s ++ x).dropWhile p = m ++ x)
    (hx : m = [] → (∀ c ∈ x.head?, p c = false) → ∀ c ∈ x'.head?, p c = false) :
    (s ++ x').dropWhile p = m ++ x' ∧ (s ++ x').takeWhile p = (s ++ x).takeWhile p := by
  have hstop : ∀ {y : Text}, (∀ c ∈ y.head?, p c = false) →
      y.dropWhile p = y ∧ y.takeWhile p = [] := fun {y} hy => by
    rcases y with _ | ⟨c, y⟩
    · exact ⟨rfl, rfl⟩
    · have hc : p c = false := hy c rfl
      simp [hc]
  induction s with
  | nil =>
    rw [List.nil_append] at h
    have hm : m = [] := by
      have hlen := (List.dropWhile_suffix (l := x) p).length_le
      rw [h, List.length_append] at hlen
      exact List.eq_nil_of_length_eq_zero (by omega)
    subst hm
    have hx0 : ∀ c ∈ x.head?, p c = false := fun c hc => by
      rw [← List.nil_append x, ← h] at hc
      have hnot := List.head?_dropWhile_not p x
      rw [Option.mem_def.1 hc] at hnot
      simpa using hnot
    obtain ⟨hd, ht⟩ := hstop (hx rfl hx0)
    obtain ⟨-, ht0⟩ := hstop hx0
    exact ⟨hd, ht.trans ht0.symm⟩
  | cons c s ih =>
    by_cases hc : p c = true
    · rw [List.cons_append, List.dropWhile_cons, if_pos hc] at h
      obtain ⟨hd, ht⟩ := ih h
      simp [hc, hd, ht]
    · rw [List.cons_append, List.dropWhile_cons, if_neg hc, ← List.cons_append] at h
      obtain rfl : c :: s = m := List.append_cancel_right h
      simp [hc]

theorem swaps_while {p : Char → Bool} (hp : Uniform p) :
    Swaps fun s => some (s.takeWhile p, s.dropWhile p) := by
  refine .total fun {s m x x' a} h hx => ?_
  obtain ⟨ha, hm⟩ := Prod.mk.inj h
  obtain ⟨hd, ht⟩ := while_swap hm fun _ => hx.stops hp
  exact Prod.ext (ht.trans ha) hd

/-- A reader that gives what it takes takes nothing where it leaves all. -/
theorem eq_nil_of_split {f : Text → Text × Text} (hsplit : ∀ s, (f s).1 ++ (f s).2 = s)
    {m x a : Text} (h : f x = (a, m ++ x)) : a = [] ∧ m = [] := by
  have hs := congrArg List.length (hsplit x)
  simp only [h, List.length_append] at hs
  exact ⟨List.eq_nil_of_length_eq_zero (by omega), List.eq_nil_of_length_eq_zero (by omega)⟩

/-- A reader of a character of a class `p` and what follows it, if `q` says so. -/
theorem swaps_marked {f g : Text → Text × Text} {p : Char → Bool} {q : Text → Bool}
    (hg : Swaps fun s => some (g s)) (hnil : f [] = ([], []))
    (hcons : ∀ c s, f (c :: s) = if p c && q s then (c :: (g s).1, (g s).2) else ([], c :: s))
    (hsplit : ∀ s, (f s).1 ++ (f s).2 = s)
    (hp : ∀ {x x' : Text}, Alike x x' → f x = ([], x) → ∀ c ∈ x'.head?, p c = false)
    (hq : ∀ {s x x' : Text}, Alike x x' → q (s ++ x') = q (s ++ x)) :
    Swaps fun s => some (f s) := by
  refine .total fun {s m x x' a} h hx => ?_
  rcases s with _ | ⟨c, s⟩
  · obtain ⟨rfl, rfl⟩ := eq_nil_of_split hsplit h
    have hstop := hp hx h
    rcases x' with _ | ⟨c, x'⟩
    · exact hnil
    · rw [List.nil_append, hcons, hstop c rfl]
      rfl
  · rw [List.cons_append, hcons] at h ⊢
    rw [hq hx]
    by_cases hc : (p c && q (s ++ x)) = true
    · rw [if_pos hc] at h ⊢
      obtain ⟨rfl, hm⟩ := Prod.mk.inj h
      have hrest : g (s ++ x') = ((g (s ++ x)).1, m ++ x') := hg.total_swap (Prod.ext rfl hm) hx
      rw [hrest]
    · rw [if_neg hc] at h ⊢
      obtain ⟨rfl, hm⟩ := Prod.mk.inj h
      obtain rfl : c :: s = m := List.append_cancel_right hm
      rfl

/-- A reader of one character of a class. -/
theorem swaps_one {f : Text → Text × Text} {p : Char → Bool} (hu : Uniform p)
    (hnil : f [] = ([], []))
    (hcons : ∀ c s, f (c :: s) = if p c then ([c], s) else ([], c :: s))
    (hsplit : ∀ s, (f s).1 ++ (f s).2 = s) : Swaps fun s => some (f s) := by
  have hg : Swaps fun s => some (([] : Text), s) := .total fun {s m x x' a} h _ => by
    obtain ⟨rfl, hm⟩ := Prod.mk.inj h
    rw [List.append_cancel_right hm]
  refine swaps_marked (q := fun _ => true) hg hnil (fun c s => by rw [hcons, Bool.and_true])
    hsplit (fun {x x'} hx h => hx.stops hu fun c hc => ?_) fun _ => rfl
  obtain ⟨y, rfl⟩ := List.head?_eq_some_iff.1 hc
  by_contra hpc
  rw [Bool.not_eq_false] at hpc
  rw [hcons, if_pos hpc] at h
  simp at h

/-! ### Names -/

theorem uniform_isBlank : Uniform isBlank := ⟨rfl, fun b hb hn => by simp [hb] at hn⟩

theorem uniform_of_space {p : Char → Bool} (hslash : p '/' = false) (hspace : p ' ' = false) :
    Uniform p := ⟨hslash, fun _ _ _ => hspace⟩

theorem uniform_isHex : Uniform isHex := uniform_of_space rfl rfl

theorem swaps_oneBlank : Swaps fun s => some (oneBlank s) :=
  swaps_one uniform_isBlank rfl (fun _ _ => rfl) oneBlank_split

theorem take_takeWhile_swap {p : Char → Bool} (hp : Uniform p) {n : Nat} {s x x' : Text}
    (hx : Alike x x') (h : (((s ++ x).take n).takeWhile p).length ≤ s.length) :
    ((s ++ x').take n).takeWhile p = ((s ++ x).take n).takeWhile p := by
  have hstop : ∀ {n : Nat} {y : Text}, (∀ c ∈ y.head?, p c = false) →
      (y.take n).takeWhile p = [] := fun {n y} hy => by
    rcases n with _ | n
    · rfl
    · rcases y with _ | ⟨c, y⟩
      · rfl
      · have hc : p c = false := hy c rfl
        simp [hc]
  induction s generalizing n with
  | nil =>
    have h0 : (x.take n).takeWhile p = [] := by simpa using h
    rcases n with _ | n
    · rfl
    · have hx0 : ∀ c ∈ x.head?, p c = false := fun c hc => by
        obtain ⟨y, rfl⟩ := List.head?_eq_some_iff.1 hc
        by_contra hpc
        simp [hpc] at h0
      rw [List.nil_append, List.nil_append, h0, hstop (hx.stops hp hx0)]
  | cons c s ih =>
    rcases n with _ | n
    · rfl
    · by_cases hc : p c = true
      · simp only [List.cons_append, List.take_succ_cons, List.takeWhile_cons, if_pos hc,
          List.length_cons, Nat.add_le_add_iff_right] at h ⊢
        rw [ih h]
      · simp [hc]

/-- Hexadecimal digits and the blank behind them. -/
theorem hexDigits_swap {s m x x' blank : Text} (hx : Alike x x')
    (h : oneBlank ((s ++ x).drop (hexDigits (s ++ x)).length) = (blank, m ++ x)) :
    hexDigits (s ++ x') = hexDigits (s ++ x) ∧
      oneBlank ((s ++ x').drop (hexDigits (s ++ x)).length) = (blank, m ++ x') := by
  have hle : (hexDigits (s ++ x)).length ≤ s.length := by
    have hdigits := congrArg List.length (hexDigits_append_drop (s ++ x))
    have hblank := congrArg List.length (oneBlank_split ((s ++ x).drop (hexDigits (s ++ x)).length))
    rw [h] at hblank
    simp only [List.length_append] at hdigits hblank
    omega
  refine ⟨take_takeWhile_swap uniform_isHex hx hle, ?_⟩
  rw [List.drop_append_of_le_length hle] at h ⊢
  exact swaps_oneBlank.total_swap h hx

theorem escape?_other {s : Text} (h : s.head? ≠ some '\\') : escape? s = none := by
  unfold escape?
  split
  · simp at h
  · rfl

/-- Whether a backslash in front of the character makes an escape of both. -/
def isEscaped (c : Char) : Bool := c = '$' || c = '\n' || isHex c

theorem escape?_eq_none {c : Char} {s : Text} :
    escape? ('\\' :: c :: s) = none ↔ isEscaped c = false := by
  by_cases hc : (c = '$' || c = '\n') = true
  · simp [escape?, isEscaped, hc]
  · by_cases hx : isHex c = true
    · simp [escape?_hex hc hx, isEscaped, hx]
    · rw [escape?_none hc (by simpa using hx), isEscaped]
      simpa using ⟨by simpa using hc, by simpa using hx⟩

/-- An escape that ends in front of `x` has a backslash and a character in front of it. -/
theorem exists_of_escape? {s x m a : Text} (h : escape? (s ++ x) = some (a, m ++ x)) :
    ∃ d t, s = '\\' :: d :: t := by
  have htwo : 2 ≤ a.length := by
    unfold escape? at h
    split at h
    · split at h
      · obtain ⟨rfl, -⟩ := Prod.mk.inj (Option.some.inj h)
        exact Nat.le_refl 2
      · split at h
        · simp at h
        · rename_i hne
          obtain ⟨rfl, -⟩ := Prod.mk.inj (Option.some.inj h)
          have hpos := List.length_pos_iff.2 (by simpa using hne)
          simp only [List.length_append, List.length_cons]
          omega
    · simp at h
  have hlen := congrArg List.length (escape?_split h).1
  simp only [List.length_append] at hlen
  rcases s with _ | ⟨c, _ | ⟨d, t⟩⟩
  · simp only [List.length_nil] at hlen
    omega
  · simp only [List.length_cons, List.length_nil] at hlen
    omega
  · have hc : c = '\\' := by
      by_contra hc
      rw [escape?_other (by simpa using hc)] at h
      simp at h
    exact ⟨d, t, by rw [hc]⟩

theorem swaps_escape? : Swaps escape? where
  none {s x x'} h hx := by
    obtain ⟨-, hx2⟩ := hx.head?_ne (c := '\\') rfl (by decide)
    rcases s with _ | ⟨c, s⟩
    · exact escape?_other hx2
    · by_cases hc : c = '\\'
      · subst hc
        -- the character behind the backslash decides
        rcases s with _ | ⟨d, s⟩
        · cases hx with
          | same => exact escape?_eq_none.2 (escape?_eq_none.1 h)
          | blank => exact escape?_eq_none.2 rfl
          | slash => exact escape?_eq_none.2 rfl
        · exact escape?_eq_none.2 (escape?_eq_none.1 h)
      · exact escape?_other (by simpa using hc)
  some {s m x x' a} h hx := by
    obtain ⟨d, s, rfl⟩ := exists_of_escape? h
    simp only [List.cons_append] at h ⊢
    by_cases hd : (d = '$' || d = '\n') = true
    · rw [escape?, if_pos hd] at h ⊢
      obtain ⟨rfl, hm⟩ := Prod.mk.inj (Option.some.inj h)
      rw [List.append_cancel_right hm]
    · by_cases hh : isHex d = true
      · rw [escape?_hex hd hh] at h ⊢
        obtain ⟨rfl, hm⟩ := Prod.mk.inj (Option.some.inj h)
        have hswap := hexDigits_swap (s := d :: s) hx (Prod.ext rfl hm)
        rw [List.cons_append, List.cons_append] at hswap
        rw [hswap.1, hswap.2]
      · rw [escape?_none hd (by simpa using hh)] at h
        simp at h

/-- One character of a class, or an escape. -/
theorem swaps_unit {u : Text → Option (Text × Text)} {p : Char → Bool} (hu : Uniform p)
    (hnil : u [] = none)
    (hcons : ∀ c s, u (c :: s) = if p c then some ([c], s) else escape? (c :: s))
    (hsplit : ∀ {s l r : Text}, u s = some (l, r) → l ++ r = s ∧ l ≠ []) : Swaps u where
  none {s x x'} h hx := by
    rcases s with _ | ⟨c, s⟩
    · have hx0 : ∀ c ∈ x.head?, p c = false := fun c hc => by
        obtain ⟨y, rfl⟩ := List.head?_eq_some_iff.1 hc
        by_contra hpc
        rw [Bool.not_eq_false] at hpc
        rw [List.nil_append, hcons, if_pos hpc] at h
        simp at h
      have hstop := hx.stops hu hx0
      obtain ⟨-, hx2⟩ := hx.head?_ne (c := '\\') rfl (by decide)
      rcases x' with _ | ⟨c, x'⟩
      · exact hnil
      · rw [List.nil_append, hcons, hstop c rfl]
        exact escape?_other hx2
    · rw [List.cons_append, hcons] at h ⊢
      by_cases hc : p c = true
      · simp [hc] at h
      · rw [if_neg hc] at h ⊢
        exact swaps_escape?.none (s := c :: s) h hx
  some {s m x x' a} h hx := by
    rcases s with _ | ⟨c, s⟩
    · exact (not_split_self (hsplit h)).elim
    · rw [List.cons_append, hcons] at h ⊢
      by_cases hc : p c = true
      · rw [if_pos hc] at h ⊢
        obtain ⟨rfl, hm⟩ := Prod.mk.inj (Option.some.inj h)
        rw [List.append_cancel_right hm]
      · rw [if_neg hc] at h ⊢
        exact swaps_escape?.some (s := c :: s) h hx

theorem swaps_nameUnit? : Swaps nameUnit? :=
  swaps_unit (uniform_of_space rfl rfl) rfl (fun _ _ => rfl) nameUnit?_split

theorem swaps_nameHead? : Swaps nameHead? :=
  swaps_unit (uniform_of_space rfl rfl) rfl (fun _ _ => rfl) nameHead?_split

theorem swaps_nameTail : Swaps fun s => some (nameTail s) :=
  swaps_nameUnit?.many nameUnit?_split nameTail_none nameTail_some cuts_nameTail

/-- A name without a hyphen in front. -/
theorem swaps_nameBody : Swaps fun s => (nameHead? s).map fun x =>
    (x.1 ++ (nameTail x.2).1, (nameTail x.2).2) :=
  swaps_nameHead?.andThen swaps_nameTail cuts_nameTail

theorem name?_other {s : Text} (h : s.head? ≠ some '-') : name? s =
    (nameHead? s).map fun x => (x.1 ++ (nameTail x.2).1, (nameTail x.2).2) := by
  rcases s with _ | ⟨c, s⟩
  · rfl
  · exact name?_cons (by simpa using h) s

theorem swaps_name? : Swaps name? where
  none {s x x'} h hx := by
    obtain ⟨hx1, hx2⟩ := hx.head?_ne (c := '-') rfl (by decide)
    rcases s with _ | ⟨c, s⟩
    · rw [List.nil_append, name?_other hx1] at h
      rw [List.nil_append, name?_other hx2]
      exact swaps_nameBody.none (s := []) h hx
    · by_cases hc : c = '-'
      · subst hc
        rw [List.cons_append, name?_hyphen, Option.map_eq_none_iff] at h ⊢
        exact swaps_nameBody.none h hx
      · rw [List.cons_append, name?_cons hc] at h ⊢
        exact swaps_nameBody.none (s := c :: s) h hx
  some {s m x x' a} h hx := by
    rcases s with _ | ⟨c, s⟩
    · exact (not_split_self (name?_split h)).elim
    · by_cases hc : c = '-'
      · subst hc
        rw [List.cons_append, name?_hyphen] at h ⊢
        obtain ⟨⟨l, t⟩, hl, he⟩ := Option.map_eq_some_iff.1 h
        obtain ⟨rfl, rfl⟩ := Prod.mk.inj he
        rw [swaps_nameBody.some hl hx]
        rfl
      · rw [List.cons_append, name?_cons hc] at h ⊢
        exact swaps_nameBody.some (s := c :: s) h hx

theorem swaps_hashName? : Swaps hashName? where
  none {s x x'} h hx := by
    rw [hashName?_eq] at h ⊢
    by_cases hu : nameUnit? (s ++ x) = none
    · simp [swaps_nameUnit?.none hu hx]
    · simp [hu] at h
  some {s m x x' a} h hx := by
    unfold hashName? at h ⊢
    by_cases he : (nameTail (s ++ x)).1.isEmpty = true
    · rw [if_pos he] at h
      simp at h
    · rw [if_neg he, Option.some.injEq] at h
      rw [h] at he
      rw [swaps_nameTail.total_swap h hx, if_neg he]

/-! ### Numerals -/

namespace Numeral

theorem swaps_readSign : Swaps fun s => some (readSign s) :=
  swaps_one (p := fun c => c = '+' || c = '-') (uniform_of_space rfl rfl) rfl (fun _ _ => rfl)
    readSign_split

theorem uniform_isDigit : Uniform Char.isDigit := uniform_of_space rfl rfl

theorem swaps_readDigits : Swaps fun s => some (readDigits s) := swaps_while uniform_isDigit

/-- A sign is not at the end of a text, if that looks alike to another. -/
theorem readSign_leaves {s x x' : Text} (hx : Alike x x') :
    ∃ t, readSign (s ++ x) = ((readSign (s ++ x)).1, t ++ x) := by
  rcases s with _ | ⟨c, s⟩
  · obtain ⟨hplus, -⟩ := hx.head?_ne (c := '+') rfl (by decide)
    obtain ⟨hminus, -⟩ := hx.head?_ne (c := '-') rfl (by decide)
    refine ⟨[], ?_⟩
    rcases x with _ | ⟨c, x⟩
    · rfl
    · simp only [List.head?_cons, ne_eq, Option.some.injEq] at hplus hminus
      simp [readSign, hplus, hminus]
  · exact ⟨(readSign (c :: s)).2, by rw [readSign_cons_append]⟩

/-- Whether a text begins with a digit. -/
theorem readDigits_isEmpty_swap {s x x' : Text} (hx : Alike x x') :
    (readDigits (s ++ x')).1.isEmpty = (readDigits (s ++ x)).1.isEmpty := by
  rcases s with _ | ⟨c, s⟩
  · cases hx with
    | same => simp [readDigits, List.takeWhile_cons, apply_ite List.isEmpty]
    | @blank b _ _ hb =>
      have hd : b.isDigit = false := of_isBlank hb (by decide)
      have hspace : ' '.isDigit = false := rfl
      simp [readDigits, hd, hspace]
    | slash =>
      have hslash : '/'.isDigit = false := rfl
      simp [readDigits, hslash]
  · simp [readDigits, List.takeWhile_cons, apply_ite List.isEmpty]

/-- A mark that is loose, and what follows it. -/
theorem swaps_loose {f g : Text → Text × Text} {p : Char → Bool} {q : Text → Bool}
    (hg : Swaps fun s => some (g s)) (hnil : f [] = ([], []))
    (hcons : ∀ c s, f (c :: s) = if p c && q s then (c :: (g s).1, (g s).2) else ([], c :: s))
    (hsplit : ∀ s, (f s).1 ++ (f s).2 = s)
    (hp : ∀ c, p c = true → isLoose c = true ∧ c ≠ '/')
    (hq : ∀ {s x x' : Text}, Alike x x' → q (s ++ x') = q (s ++ x)) :
    Swaps fun s => some (f s) := by
  refine swaps_marked hg hnil hcons hsplit (fun {x x'} hx _ c hc => ?_) hq
  by_contra hpc
  obtain ⟨hloose, hslash⟩ := hp c (by simpa using hpc)
  exact (hx.head?_ne hloose hslash).2 hc

theorem swaps_readFraction : Swaps fun s => some (readFraction s) := by
  refine swaps_loose (p := fun c => c = '.') (q := fun s => !(readDigits s).1.isEmpty)
    swaps_readDigits rfl (fun _ _ => rfl) readFraction_split (fun c hc => ?_) fun {s x x'} hx => ?_
  · obtain rfl : c = '.' := by simpa using hc
    exact ⟨rfl, by decide⟩
  · rw [readDigits_isEmpty_swap hx]

theorem swaps_readExponent : Swaps fun s => some (readExponent s) := by
  have hg := swaps_readSign.andThen swaps_readDigits cuts_readDigits
  refine swaps_loose (p := fun c => c = 'e' || c = 'E')
    (q := fun s => !(readDigits (readSign s).2).1.isEmpty) hg rfl (fun _ _ => rfl)
    readExponent_split (fun c hc => ?_) fun {s x x'} hx => ?_
  · rw [Bool.or_eq_true, decide_eq_true_eq, decide_eq_true_eq] at hc
    rcases hc with rfl | rfl <;> exact ⟨rfl, by decide⟩
  · obtain ⟨t, ht⟩ := readSign_leaves (s := s) hx
    have ht' := swaps_readSign.total_swap ht hx
    have hdigits := readDigits_isEmpty_swap (s := t) hx
    rw [ht, ht', hdigits]

theorem swaps_read? : Swaps read? where
  none {s x x'} h hx := by
    obtain ⟨t, ht⟩ := readSign_leaves (s := s) hx
    have ht' := swaps_readSign.total_swap ht hx
    rw [read?_eq_none, ht] at h
    rw [read?_eq_none, ht']
    exact ⟨swaps_readDigits.total_swap h.1 hx, swaps_readFraction.total_swap h.2 hx⟩
  some {s m x x' n} h hx := by
    simp only [read?] at h ⊢
    split at h
    · simp at h
    · rename_i hne
      obtain ⟨rfl, hm⟩ := Prod.mk.inj (Option.some.inj h)
      -- each part leaves at least what the last one leaves
      have s3 := readExponent_split (readFraction (readDigits (readSign (s ++ x)).2).2).2
      have s2 := readFraction_split (readDigits (readSign (s ++ x)).2).2
      have l3 : x <:+ (readFraction (readDigits (readSign (s ++ x)).2).2).2 :=
        (List.suffix_append m x).trans ⟨_, hm ▸ s3⟩
      obtain ⟨t1, h1⟩ := readSign_leaves (s := s) hx
      obtain ⟨t2, h2⟩ := l3.trans ⟨_, s2⟩
      obtain ⟨t3, h3⟩ := l3
      have h1' : (readSign (s ++ x)).2 = t1 ++ x := congrArg Prod.snd h1
      rw [h1'] at h2 h3 hm
      rw [← h2] at h3 hm
      rw [← h3] at hm
      have e1 := swaps_readSign.total_swap h1 hx
      have e2 := swaps_readDigits.total_swap (s := t1) (Prod.ext rfl h2.symm) hx
      have e3 := swaps_readFraction.total_swap (s := t2) (Prod.ext rfl h3.symm) hx
      have e4 := swaps_readExponent.total_swap (s := t3) (Prod.ext rfl hm) hx
      simp only [h1', ← h2, ← h3] at hne ⊢
      simp only [e1, e2, e3, e4]
      rw [if_neg hne]

end Numeral

/-! ### Strings -/

/-- What is in front of an end that is behind the first character begins with it. -/
theorem exists_cons_of_append {c : Char} {s x u : Text} (hs : s ++ x = c :: u) (hx : x <:+ u) :
    ∃ t, s = c :: t ∧ t ++ x = u := by
  rcases s with _ | ⟨d, t⟩
  · have hlen := hx.length_le
    rw [List.nil_append] at hs
    rw [hs, List.length_cons] at hlen
    omega
  · obtain ⟨rfl, hu⟩ := List.cons.inj hs
    exact ⟨t, rfl, hu⟩

namespace Quoted

theorem bodyOf_rest_suffix (q : Char) (s : Text) : (bodyOf q s).2 <:+ s := ⟨_, bodyOf_split q s⟩

/-- The body of a string ends where it did, if the character that it ends at is
the same one, and no backslash was the last of the text. -/
theorem bodyOf_swap {q : Char} {s m x x' body : Text} (h : bodyOf q (s ++ x) = (body, m ++ x))
    (hm : m = [] → x.head? = x'.head?) (hb : m ++ x ≠ ['\\']) :
    bodyOf q (s ++ x') = (body, m ++ x') := by
  generalize hs : s ++ x = u at h
  fun_induction bodyOf q u generalizing s body with
  | case1 =>
    obtain ⟨rfl, rfl⟩ := List.append_eq_nil_iff.1 hs
    obtain ⟨rfl, hmx⟩ := Prod.mk.inj h
    obtain rfl : m = [] := by simpa using hmx.symm
    obtain rfl : x' = [] := by simpa using (hm rfl).symm
    rfl
  | case2 => exact absurd (Prod.mk.inj h).2.symm hb
  | case3 c u ih =>
    obtain ⟨rfl, hmx⟩ := Prod.mk.inj h
    have hsuf : x <:+ u := (List.suffix_append m x).trans (hmx ▸ bodyOf_rest_suffix q u)
    obtain ⟨t, rfl, ht⟩ := exists_cons_of_append hs (hsuf.trans (List.suffix_cons c u))
    obtain ⟨t, rfl, hu⟩ := exists_cons_of_append ht hsuf
    rw [List.cons_append, List.cons_append, bodyOf, ih hu (Prod.ext rfl hmx)]
  | case4 c u hlast hpair hc =>
    obtain ⟨rfl, hmx⟩ := Prod.mk.inj h
    rw [← hs] at hmx
    obtain rfl : s = m := List.append_cancel_right hmx
    have hcons : ∀ y, bodyOf q (c :: y) = ([], c :: y) := fun y => by
      rw [bodyOf_cons (ne_backslash hlast hpair), if_pos hc]
    rcases s with _ | ⟨d, s⟩
    · rw [List.nil_append] at hs
      have hx' : x'.head? = some c := by rw [← hm rfl, hs, List.head?_cons]
      obtain ⟨y, rfl⟩ := List.head?_eq_some_iff.1 hx'
      exact hcons y
    · obtain rfl := (List.cons.inj hs).1
      exact hcons (s ++ x')
  | case5 c u hlast hpair hc ih =>
    obtain ⟨rfl, hmx⟩ := Prod.mk.inj h
    have hsuf : x <:+ u := (List.suffix_append m x).trans (hmx ▸ bodyOf_rest_suffix q u)
    obtain ⟨t, rfl, hu⟩ := exists_cons_of_append hs hsuf
    rw [List.cons_append, bodyOf_cons (ne_backslash hlast hpair), if_neg hc,
      ih hu (Prod.ext rfl hmx)]

/-- A string is the same in front of another end, unless it was cut off where
that makes a difference. -/
theorem read_swap {q : Char} {s m x x' : Text} (hq : isQuote q = true)
    (h : (read q (s ++ x)).rest = m ++ x)
    (hopen : (read q (s ++ x)).closed = false →
      (m = [] → x.head? = x'.head?) ∧ m ++ x ≠ ['\\']) :
    read q (s ++ x') = { read q (s ++ x) with rest := m ++ x' } := by
  have hne : q ≠ '\\' := by
    rintro rfl
    simp [isQuote] at hq
  unfold read at h hopen ⊢
  rcases hb : bodyOf q (s ++ x) with ⟨body, _ | ⟨c, r⟩⟩
  · rw [hb] at h hopen
    obtain ⟨hm, hlone⟩ := hopen rfl
    have hbody : bodyOf q (s ++ x) = (body, m ++ x) := hb.trans (Prod.ext rfl h)
    have hnil : m = [] ∧ x = [] := List.append_eq_nil_iff.1 h.symm
    have hx' : x' = [] := by simpa [hnil.2] using (hm hnil.1).symm
    rw [bodyOf_swap hbody hm hlone, hnil.1, hx']
    rfl
  · rw [hb] at h hopen
    dsimp only at h hopen ⊢
    by_cases hc : c = q
    · rw [if_pos hc] at h ⊢
      have hbody : bodyOf q (s ++ x) = (body, (c :: m) ++ x) := by
        rw [hb, List.cons_append, ← h]
      have hlone : (c :: m) ++ x ≠ ['\\'] := fun heq => hne (hc ▸ (List.cons.inj heq).1)
      rw [bodyOf_swap hbody (by simp) hlone, List.cons_append]
      dsimp only
      rw [if_pos hc]
    · rw [if_neg hc] at h hopen ⊢
      obtain ⟨hm, hlone⟩ := hopen rfl
      have hbody : bodyOf q (s ++ x) = (body, m ++ x) := hb.trans (Prod.ext rfl h)
      obtain ⟨y, hy⟩ : ∃ y, m ++ x' = c :: y := by
        rcases m with _ | ⟨d, m⟩
        · have hx' : x'.head? = some c := by
            rw [← hm rfl, ← List.nil_append x, ← h, List.head?_cons]
          exact List.head?_eq_some_iff.1 hx'
        · obtain rfl : c = d := (List.cons.inj h).1
          exact ⟨m ++ x', rfl⟩
      rw [bodyOf_swap hbody hm hlone, hy]
      dsimp only
      rw [if_neg hc]

end Quoted

/-! ### Comments -/

namespace Comment

theorem close?_append {s l m : Text} (r : Text) (h : close? s = some (l, m)) :
    close? (s ++ r) = some (l, m ++ r) := by
  fun_induction close? s generalizing l m with
  | case1 => simp at h
  | case2 s =>
    obtain ⟨rfl, rfl⟩ := Prod.mk.inj (Option.some.inj h)
    rfl
  | case3 c s hc ih =>
    obtain ⟨⟨l', m'⟩, h', he⟩ := Option.map_eq_some_iff.1 h
    obtain ⟨rfl, rfl⟩ := Prod.mk.inj he
    have hc' : ∀ t, c = '*' → s ++ r = '/' :: t → False := by
      rintro t rfl ht
      rcases s with _ | ⟨d, s⟩
      · simp [close?] at h'
      · obtain ⟨rfl, -⟩ := List.cons.inj ht
        exact hc s rfl rfl
    rw [List.cons_append, close?_cons hc', ih h']
    rfl

theorem read?_append {s l m : Text} (r : Text) (h : read? s = some (l, m)) :
    read? (s ++ r) = some (l, m ++ r) := by
  unfold read? at h
  split at h
  · rename_i ho
    obtain ⟨t, rfl⟩ := opens_iff.1 ho
    obtain ⟨⟨l', m'⟩, h', he⟩ := Option.map_eq_some_iff.1 h
    obtain ⟨rfl, rfl⟩ := Prod.mk.inj he
    rw [List.cons_append, List.cons_append, read?_opens, close?_append r (s := t) h']
    rfl
  · simp at h

/-- **The comments in front of a text stay**, and more may follow them when the
text goes on. -/
theorem run_append (s r : Text) :
    run (s ++ r) = ((run s).1 ++ (run ((run s).2 ++ r)).1, (run ((run s).2 ++ r)).2) := by
  fun_induction run s with
  | case1 s h => rfl
  | case2 s l m h ih =>
    rw [run_of_read?_some (read?_append r h), ih]
    simp

theorem run_of_opens {s : Text} (h : opens s = false) : run s = ([], s) := by
  apply run_of_read?_none
  rw [read?, h]
  rfl

/-- Behind the comments in front of a text there are no further ones, if none opens there. -/
theorem run_append_of_opens {s r : Text} (h : opens ((run s).2 ++ r) = false) :
    run (s ++ r) = ((run s).1, (run s).2 ++ r) := by
  rw [run_append, run_of_opens h, List.append_nil]

/-- Whether a comment opens at the front of a text does not depend on its end. -/
theorem opens_swap {s x x' : Text} (hs : s ≠ []) (hx : Alike x x') :
    opens (s ++ x') = opens (s ++ x) := by
  rcases s with _ | ⟨c, _ | ⟨d, s⟩⟩
  · exact absurd rfl hs
  · by_cases hc : c = '/'
    · subst hc
      cases hx with
      | @same d y y' hd =>
        by_cases hstar : d = '*'
        · subst hstar
          rfl
        · simp [opens, hstar]
      | @blank b y y' hb =>
        have hstar : b ≠ '*' := by
          rintro rfl
          simp [isBlank] at hb
        simp [opens, hstar]
      | slash => rfl
    · simp [opens, hc]
  · by_cases hc : c = '/' ∧ d = '*'
    · obtain ⟨rfl, rfl⟩ := hc
      rfl
    · have hno : ∀ y, opens (c :: d :: y) = false := fun y => by
        rw [← Bool.not_eq_true, opens_iff]
        rintro ⟨t, ht⟩
        simp only [List.cons.injEq] at ht
        exact hc ⟨ht.1, ht.2.1⟩
      rw [List.cons_append, List.cons_append, List.cons_append, List.cons_append, hno, hno]

/-- No comment begins in a tied text that does not begin one. -/
theorem opens_append {s : Text} (r : Text) (h : opens s = false) (hs : Tied s) :
    opens (s ++ r) = false := by
  obtain ⟨m, c, y, rfl, hc⟩ := hs.exists_end
  rcases m with _ | ⟨d, m⟩
  · have hslash : c ≠ '/' := by
      rintro rfl
      simp [isLoose] at hc
    simp [opens, hslash]
  · rw [List.append_assoc, ← h]
    exact opens_swap (s := d :: m) (List.cons_ne_nil d m) (.same hc)

/-- Behind the comments in front of a text there are no further ones. -/
theorem run_append_of_tied {s : Text} (r : Text) (h : opens (run s).2 = false)
    (hs : Tied (run s).2) : run (s ++ r) = ((run s).1, (run s).2 ++ r) :=
  run_append_of_opens (opens_append r h hs)

end Comment
end CssReader
