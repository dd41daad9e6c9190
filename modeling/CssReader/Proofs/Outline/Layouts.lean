/-
# Outlines are written unambiguously

On one line as well as indented, what is written for an outline says which outline it is,
and where it ends. Names are all that is not quoted, and they are made of letters, digits
and underscores. So the first name of a text can be told from what is behind it, and that,
in turn, tells what kind of outline it is: a quote, a colon and each of the three openers
stand for one kind, and a word alone has none of these behind it.

The two layouts differ in what is between the opener and the closer of a group. All else
is said once, of every layout (`IsLayout`): if what is inside of groups is unambiguous when
its items are, then all outlines are (`IsLayout.unambiguous`).

Key definitions: `Outline.IsProper`, `Outline.Unambiguous`, `Outline.IsLayout`.
Key theorems: `Outline.IsLayout.unambiguous`, `Outline.inline_inj`, `Outline.indented_inj`,
`Outline.isControl_of_mem_inline`.
-/
import CssReader.Outline
import CssReader.Proofs.Outline.Quoting

namespace CssReader
namespace Outline

/-! ### Names -/

/-- A character of a name. -/
def isNamePart (c : Char) : Bool := c.isAlphanum || c = '_'

/-- A text that can be told from what is behind it. -/
def IsName (s : Text) : Prop := s ≠ [] ∧ ∀ c ∈ s, isNamePart c = true

instance (s : Text) : Decidable (IsName s) :=
  decidable_of_iff ((!s.isEmpty && s.all isNamePart) = true) (by simp [IsName])

/-- All words and labels of the outline are names; so are the heads of its records and
tuples, and its lists have no heads. Its texts are in quotation marks. -/
inductive IsProper : Outline → Prop
  | word {s : Text} : IsName s → IsProper (.word s)
  | quoted {q : Char} {s : Text} : isQuote q = true → IsProper (.quoted q s)
  | field {label : Text} {value : Outline} :
    IsName label → IsProper value → IsProper (.field label value)
  | list {items : List Outline} : (∀ o ∈ items, IsProper o) → IsProper (.group [] .list items)
  | group {head : Text} {shape : OutlineShape} {items : List Outline} :
    IsName head → shape ≠ .list → (∀ o ∈ items, IsProper o) → IsProper (.group head shape items)

/-- The items of a proper group are proper. -/
theorem IsProper.items {head : Text} {shape : OutlineShape} {items : List Outline}
    (h : IsProper (.group head shape items)) : ∀ o ∈ items, IsProper o := by
  cases h with
  | list h => exact h
  | group _ _ h => exact h

/-- What is true of words and texts, and passes on to fields and groups, is true of all
outlines. -/
theorem induct {motive : Outline → Prop} (word : ∀ s, motive (.word s))
    (quoted : ∀ q s, motive (.quoted q s))
    (field : ∀ label value, motive value → motive (.field label value))
    (group : ∀ head shape items, (∀ o ∈ items, motive o) → motive (.group head shape items)) :
    ∀ o, motive o
  | .word s => word s
  | .quoted q s => quoted q s
  | .field label value => field label value (induct word quoted field group value)
  | .group head shape items =>
    group head shape items fun o _ => induct word quoted field group o

/-! ### What is behind a name -/

/-- What the text behind a name says about the outline that begins with it. -/
inductive Mark
  | none
  | quote (q : Char)
  | colon
  | opener (shape : OutlineShape)
deriving DecidableEq

/-- The mark at the front of a text. -/
def Mark.of : Text → Mark
  | ':' :: _ => .colon
  | '(' :: _ => .opener .tuple
  | '[' :: _ => .opener .list
  | ' ' :: '\x7b' :: _ => .opener .record
  | c :: _ => if isQuote c then .quote c else .none
  | [] => .none

/-- The text does not go on with a name, and there is no mark at its front: a word may
stand before it. -/
def Stops (k : Text) : Prop :=
  (∀ c ∈ k.head?, isNamePart c = false) ∧ Mark.of k = .none

/-- The name that an outline begins with, if any. -/
def lead : Outline → Text
  | .word s => s
  | .quoted _ _ => []
  | .field label _ => label
  | .group head _ _ => head

/-- The mark behind that name. -/
def mark : Outline → Mark
  | .word _ => .none
  | .quoted q _ => .quote q
  | .field _ _ => .colon
  | .group _ shape _ => .opener shape

/-- The outline that begins a text is known, and so is what is behind it. -/
def Unambiguous (write : Outline → Text) (o : Outline) : Prop :=
  ∀ ⦃o' : Outline⦄ ⦃k k' : Text⦄, o'.IsProper → Stops k → Stops k' →
    write o ++ k = write o' ++ k' → o = o' ∧ k = k'

/-! ### Layouts -/

/-- A way to write outlines at a level, where `inside` tells what is between the opener
and the closer of a group. -/
structure IsLayout (hidden : Char → Bool) (write : Nat → Outline → Text)
    (inside : Nat → OutlineShape → List Outline → Text) : Prop where
  word : ∀ n s, write n (.word s) = s
  quoted : ∀ n q s, write n (.quoted q s) = Quote.text hidden q s
  field : ∀ n label value, write n (.field label value) = label ++ [':', ' '] ++ write n value
  group : ∀ n head shape items,
    write n (.group head shape items) = head ++ shape.opener ++ inside n shape items ++ shape.closer

/-- Items that are known by what is written for each of them are known by what is
written for all of them in a group. -/
def InsideUnambiguous (write : Nat → Outline → Text)
    (inside : Nat → OutlineShape → List Outline → Text) : Prop :=
  ∀ ⦃n : Nat⦄ ⦃shape : OutlineShape⦄ ⦃items items' : List Outline⦄ ⦃k k' : Text⦄,
    (∀ o ∈ items, o.IsProper ∧ Unambiguous (write (n + 1)) o) → (∀ o ∈ items', o.IsProper) →
      inside n shape items ++ (shape.closer ++ k) = inside n shape items' ++ (shape.closer ++ k') →
        items = items' ∧ k = k'

theorem Mark.of_opener (shape : OutlineShape) (k : Text) :
    Mark.of (shape.opener ++ k) = .opener shape := by
  cases shape <;> rfl

theorem Mark.of_quote {q : Char} (hq : isQuote q = true) (k : Text) :
    Mark.of (q :: k) = .quote q := by
  simp only [isQuote, Bool.or_eq_true, decide_eq_true_eq] at hq
  rcases hq with rfl | rfl <;> rfl

theorem head?_cons {c : Char} (h : isNamePart c = false) (r : Text) :
    ∀ d ∈ (c :: r).head?, isNamePart d = false := by
  rintro d ⟨⟩
  exact h

namespace IsLayout

variable {hidden : Char → Bool} {write : Nat → Outline → Text}
  {inside : Nat → OutlineShape → List Outline → Text} {n : Nat} {o o' : Outline} {k : Text}

/-- What is written for an outline begins with its name, and with its mark behind that. -/
theorem lead_append (h : IsLayout hidden write inside) (n : Nat) (ho : o.IsProper) (hk : Stops k) :
    ∃ r, write n o ++ k = o.lead ++ r ∧ (∀ c ∈ o.lead, isNamePart c = true) ∧
      (∀ c ∈ r.head?, isNamePart c = false) ∧ Mark.of r = o.mark := by
  cases ho with
  | @word s hs => exact ⟨k, by rw [h.word, lead], hs.2, hk⟩
  | @quoted q s hq =>
    refine ⟨_, by rw [h.quoted, lead, List.nil_append, Quote.text_append], by simp [lead],
      head?_cons ?_ _, Mark.of_quote hq _⟩
    simp only [isQuote, Bool.or_eq_true, decide_eq_true_eq] at hq
    rcases hq with rfl | rfl <;> rfl
  | @field label value hlabel _ =>
    exact ⟨':' :: ' ' :: (write n value ++ k), by simp [h.field, lead], hlabel.2,
      head?_cons rfl _, rfl⟩
  | @list items _ =>
    exact ⟨OutlineShape.list.opener ++ (inside n .list items ++ OutlineShape.list.closer ++ k),
      by simp [h.group, lead], by simp [lead], head?_cons rfl _, rfl⟩
  | @group head shape items hhead _ _ =>
    refine ⟨shape.opener ++ (inside n shape items ++ shape.closer ++ k),
      by simp [h.group, lead], hhead.2, ?_, Mark.of_opener _ _⟩
    cases shape <;> exact head?_cons rfl _

/-- Of two outlines that begin the same text, the names and the marks are the same. -/
theorem lead_eq (h : IsLayout hidden write inside) {k' : Text} (ho : o.IsProper)
    (ho' : o'.IsProper) (hk : Stops k) (hk' : Stops k') (he : write n o ++ k = write n o' ++ k') :
    o.lead = o'.lead ∧ o.mark = o'.mark := by
  obtain ⟨r, hr, hlead, hhead, hmark⟩ := h.lead_append n ho hk
  obtain ⟨r', hr', hlead', hhead', hmark'⟩ := h.lead_append n ho' hk'
  rw [hr, hr'] at he
  obtain ⟨htake, hdrop⟩ := Text.span_append hlead hhead
  obtain ⟨htake', hdrop'⟩ := Text.span_append hlead' hhead'
  rw [he] at htake hdrop
  obtain rfl : r = r' := hdrop.symm.trans hdrop'
  exact ⟨htake.symm.trans htake', hmark.symm.trans hmark'⟩

/-- **In every layout outlines are written unambiguously**, if groups are as soon as their
items are. -/
theorem unambiguous (h : IsLayout hidden write inside) (hin : InsideUnambiguous write inside)
    (ho : o.IsProper) (n : Nat) : Unambiguous (write n) o := by
  induction o using induct generalizing n with
  | word s =>
    intro o' k k' ho' hk hk' he
    obtain ⟨hlead, hmark⟩ := h.lead_eq ho ho' hk hk' he
    cases o' with
    | word s' =>
      obtain rfl : s = s' := hlead
      rw [h.word, List.append_cancel_left_eq] at he
      exact ⟨rfl, he⟩
    | quoted | field | group => simp [mark] at hmark
  | quoted q s =>
    intro o' k k' ho' hk hk' he
    obtain ⟨-, hmark⟩ := h.lead_eq ho ho' hk hk' he
    cases o' with
    | quoted q' s' =>
      obtain rfl := Mark.quote.inj hmark
      cases ho with | quoted hq =>
      rw [h.quoted, h.quoted] at he
      obtain ⟨rfl, rfl⟩ := Quote.text_append_inj hq he
      exact ⟨rfl, rfl⟩
    | word | field | group => simp [mark] at hmark
  | field label value ih =>
    intro o' k k' ho' hk hk' he
    obtain ⟨hlead, hmark⟩ := h.lead_eq ho ho' hk hk' he
    cases o' with
    | field label' value' =>
      obtain rfl : label = label' := hlead
      cases ho with | field _ hvalue =>
      cases ho' with | field _ hvalue' =>
      simp only [h.field, List.append_assoc, List.append_cancel_left_eq] at he
      obtain ⟨rfl, rfl⟩ := ih hvalue n hvalue' hk hk' he
      exact ⟨rfl, rfl⟩
    | word | quoted | group => simp [mark] at hmark
  | group head shape items ih =>
    intro o' k k' ho' hk hk' he
    obtain ⟨hlead, hmark⟩ := h.lead_eq ho ho' hk hk' he
    cases o' with
    | group head' shape' items' =>
      obtain rfl : head = head' := hlead
      obtain rfl := Mark.opener.inj hmark
      simp only [h.group, List.append_assoc, List.append_cancel_left_eq] at he
      obtain ⟨rfl, rfl⟩ :=
        hin (fun i hi => ⟨ho.items i hi, ih i hi (ho.items i hi) (n + 1)⟩) ho'.items he
      exact ⟨rfl, rfl⟩
    | word | quoted | field => simp [mark] at hmark

/-- What is written for an outline begins with a name, a quote or a bracket. -/
theorem begins (h : IsLayout hidden write inside) (n : Nat) (ho : o.IsProper) :
    ∃ c r, write n o = c :: r ∧ (isNamePart c = true ∨ isQuote c = true ∨ c = '[') := by
  have hname {s : Text} (hs : IsName s) (r : Text) :
      ∃ c t, s ++ r = c :: t ∧ (isNamePart c = true ∨ isQuote c = true ∨ c = '[') := by
    obtain ⟨c, s, rfl⟩ := List.exists_cons_of_ne_nil hs.1
    exact ⟨c, s ++ r, rfl, .inl (hs.2 c List.mem_cons_self)⟩
  cases ho with
  | @word s hs =>
    rw [h.word, ← List.append_nil s]
    exact hname hs []
  | @quoted q s hq =>
    rw [h.quoted]
    exact ⟨q, _, rfl, .inr (.inl hq)⟩
  | field hlabel _ =>
    rw [h.field, List.append_assoc]
    exact hname hlabel _
  | list _ =>
    rw [h.group]
    exact ⟨'[', _, rfl, .inr (.inr rfl)⟩
  | group hhead _ _ =>
    rw [h.group, List.append_assoc, List.append_assoc]
    exact hname hhead _

end IsLayout

/-! ### One line -/

section
variable {hidden : Char → Bool} {items items' : List Outline} {k k' e e' : Text} {c : Char}

theorem isLayout_inline (hidden : Char → Bool) : IsLayout hidden (fun _ => inline hidden)
    (fun _ shape items => shape.padding ++ inlineItems hidden items ++ shape.padding) where
  word _ _ := by rw [inline]
  quoted _ _ _ := by rw [inline]
  field _ _ _ := by rw [inline]
  group _ _ _ _ := by simp [inline]

/-- The text goes on with the end of a group. -/
def Closes (e : Text) : Prop :=
  ∃ (shape : OutlineShape) (k : Text), e = shape.padding ++ (shape.closer ++ k)

theorem Closes.stops (h : Closes e) : Stops e := by
  obtain ⟨shape, k, rfl⟩ := h
  cases shape <;> exact ⟨head?_cons rfl _, rfl⟩

/-- A closer is no comma, and no outline begins with it. -/
theorem Closes.ne_cons (h : Closes e)
    (hc : isNamePart c = true ∨ isQuote c = true ∨ c = '[' ∨ c = ',') (r : Text) : e ≠ c :: r := by
  obtain ⟨shape, k, rfl⟩ := h
  intro he
  have hhead : c = ' ' ∨ c = ')' ∨ c = ']' := by
    cases shape with
    | record => exact .inl (List.cons.inj he).1.symm
    | tuple => exact .inr (.inl (List.cons.inj he).1.symm)
    | list => exact .inr (.inr (List.cons.inj he).1.symm)
  rcases hhead with rfl | rfl | rfl <;> revert hc <;> decide

theorem stops_comma (r : Text) : Stops (',' :: r) := ⟨head?_cons rfl r, rfl⟩

theorem Closes.stops_inlineTail (h : Closes e) (items : List Outline) :
    Stops (inlineTail hidden items ++ e) := by
  cases items with
  | nil => exact h.stops
  | cons o items => exact stops_comma _

theorem inlineTail_inj (hitems : ∀ o ∈ items, o.IsProper ∧ Unambiguous (inline hidden) o)
    (hitems' : ∀ o ∈ items', o.IsProper) (he : Closes e) (he' : Closes e')
    (h : inlineTail hidden items ++ e = inlineTail hidden items' ++ e') :
    items = items' ∧ e = e' := by
  induction items generalizing items' with
  | nil =>
    cases items' with
    | nil => exact ⟨rfl, h⟩
    | cons o' items' => exact absurd h (he.ne_cons (by simp) _)
  | cons o items ih =>
    cases items' with
    | nil => exact absurd h.symm (he'.ne_cons (by simp) _)
    | cons o' items' =>
      rw [List.forall_mem_cons] at hitems hitems'
      simp only [inlineTail, List.append_assoc, List.append_cancel_left_eq] at h
      obtain ⟨rfl, hrest⟩ := hitems.1.2 hitems'.1 (he.stops_inlineTail _) (he'.stops_inlineTail _) h
      obtain ⟨rfl, rfl⟩ := ih hitems.2 hitems'.2 hrest
      exact ⟨rfl, rfl⟩

theorem insideUnambiguous_inline (hidden : Char → Bool) :
    InsideUnambiguous (fun _ => inline hidden)
      (fun _ shape items => shape.padding ++ inlineItems hidden items ++ shape.padding) := by
  intro n shape items items' k k' hitems hitems' h
  simp only [List.append_assoc, List.append_cancel_left_eq] at h
  have hclose (k : Text) : Closes (shape.padding ++ (shape.closer ++ k)) := ⟨shape, k, rfl⟩
  -- what is written for an item is not the end of the group
  have hitem {o : Outline} (ho : o.IsProper) (r k : Text) :
      shape.padding ++ (shape.closer ++ k) ≠ inline hidden o ++ r := by
    obtain ⟨c, t, hc, hbegins⟩ := (isLayout_inline hidden).begins n ho
    rw [hc]
    exact (hclose k).ne_cons (by tauto) _
  cases items with
  | nil =>
    cases items' with
    | nil =>
      simp only [inlineItems, List.nil_append, List.append_cancel_left_eq] at h
      exact ⟨rfl, h⟩
    | cons o' items' =>
      simp only [inlineItems, List.nil_append, List.append_assoc] at h
      exact absurd h (hitem (hitems' o' List.mem_cons_self) _ _)
  | cons o items =>
    cases items' with
    | nil =>
      simp only [inlineItems, List.nil_append, List.append_assoc] at h
      exact absurd h.symm (hitem (hitems o List.mem_cons_self).1 _ _)
    | cons o' items' =>
      rw [List.forall_mem_cons] at hitems hitems'
      simp only [inlineItems, List.append_assoc] at h
      obtain ⟨rfl, hrest⟩ := hitems.1.2 hitems'.1 ((hclose k).stops_inlineTail _)
        ((hclose k').stops_inlineTail _) h
      obtain ⟨rfl, hend⟩ := inlineTail_inj hitems.2 hitems'.2 (hclose k) (hclose k') hrest
      simp only [List.append_cancel_left_eq] at hend
      exact ⟨rfl, hend⟩

theorem stops_nil : Stops [] := ⟨by simp, rfl⟩

/-- **On one line no two outlines are written alike.** -/
theorem inline_inj {o o' : Outline} (ho : o.IsProper) (ho' : o'.IsProper)
    (h : o.inline hidden = o'.inline hidden) : o = o' :=
  ((isLayout_inline hidden).unambiguous (insideUnambiguous_inline hidden) ho 0 ho' stops_nil
    stops_nil (congrArg (· ++ []) h)).1

/-! ### Line breaks -/

theorem isControl_of_isNamePart (h : isNamePart c = true) : Quote.isControl c = false := by
  have hclass : isNamePart c = (((decide (65 ≤ c.toNat ∧ c.toNat ≤ 90) ||
      (decide (97 ≤ c.toNat) && decide (c.toNat ≤ 122))) ||
      (decide (48 ≤ c.toNat) && decide (c.toNat ≤ 57))) || decide (c = '_')) := rfl
  simp only [hclass, Bool.or_eq_true, Bool.and_eq_true, decide_eq_true_eq] at h
  simp only [Quote.isControl, Bool.or_eq_false_iff, Bool.and_eq_false_iff,
    decide_eq_false_iff_not]
  rcases h with h | rfl
  · omega
  · decide

theorem isControl_of_mem_shape (shape : OutlineShape) :
    ∀ c ∈ shape.opener ++ shape.padding ++ shape.closer, Quote.isControl c = false := by
  have hall : (shape.opener ++ shape.padding ++ shape.closer).all (!Quote.isControl ·) = true := by
    cases shape <;> rfl
  intro c hc
  simpa using List.all_eq_true.1 hall c hc

theorem mem_inlineTail (h : c ∈ inlineTail hidden items) :
    c = ',' ∨ c = ' ' ∨ ∃ o ∈ items, c ∈ inline hidden o := by
  induction items with
  | nil => simp [inlineTail] at h
  | cons o items ih =>
    simp only [inlineTail, List.mem_append, List.mem_cons, List.not_mem_nil, or_false] at h
    rcases h with ((h | h) | h) | h
    · exact .inl h
    · exact .inr (.inl h)
    · exact .inr (.inr ⟨o, List.mem_cons_self, h⟩)
    · obtain h | h | ⟨o, ho, h⟩ := ih h
      · exact .inl h
      · exact .inr (.inl h)
      · exact .inr (.inr ⟨o, List.mem_cons_of_mem _ ho, h⟩)

theorem mem_inlineItems (h : c ∈ inlineItems hidden items) :
    c = ',' ∨ c = ' ' ∨ ∃ o ∈ items, c ∈ inline hidden o := by
  cases items with
  | nil => simp [inlineItems] at h
  | cons o items =>
    rcases List.mem_append.1 h with h | h
    · exact .inr (.inr ⟨o, List.mem_cons_self, h⟩)
    · obtain h | h | ⟨o, ho, h⟩ := mem_inlineTail h
      · exact .inl h
      · exact .inr (.inl h)
      · exact .inr (.inr ⟨o, List.mem_cons_of_mem _ ho, h⟩)

/-- On one line no outline has a line break, nor any other control character. -/
theorem isControl_of_mem_inline {o : Outline} (ho : o.IsProper) (h : c ∈ o.inline hidden) :
    Quote.isControl c = false := by
  have hname {s : Text} (hs : IsName s) (hc : c ∈ s) : Quote.isControl c = false :=
    isControl_of_isNamePart (hs.2 c hc)
  induction o using induct with
  | word s =>
    cases ho with | word hs =>
    rw [inline] at h
    exact hname hs h
  | quoted q s =>
    cases ho with | quoted hq =>
    rw [inline] at h
    exact Quote.isControl_of_mem_text hq h
  | field label value ih =>
    cases ho with | field hlabel hvalue =>
    simp only [inline, List.mem_append, List.mem_cons, List.not_mem_nil, or_false] at h
    rcases h with (h | rfl | rfl) | h
    · exact hname hlabel h
    · rfl
    · rfl
    · exact ih hvalue h
  | group head shape items ih =>
    have hitems := ho.items
    have hhead (hc : c ∈ head) : Quote.isControl c = false := by
      cases ho with
      | list => simp at hc
      | group hs _ _ => exact hname hs hc
    have hshape := isControl_of_mem_shape shape c
    simp only [List.mem_append] at hshape
    simp only [inline, List.mem_append] at h
    rcases h with ((((h | h) | h) | h) | h) | h
    · exact hhead h
    · exact hshape (.inl (.inl h))
    · exact hshape (.inl (.inr h))
    · obtain rfl | rfl | ⟨o, ho, h⟩ := mem_inlineItems h
      · rfl
      · rfl
      · exact ih o ho (hitems o ho) h
    · exact hshape (.inl (.inr h))
    · exact hshape (.inr h)

/-! ### Indented -/

theorem isLayout_indented (hidden : Char → Bool) : IsLayout hidden (indentedAt hidden)
    (fun n _ items => if items.isEmpty then []
      else '\n' :: indentedItems hidden (n + 1) items ++ margin n) where
  word _ _ := by rw [indentedAt]
  quoted _ _ _ := by rw [indentedAt]
  field _ _ _ := by rw [indentedAt]
  group _ _ _ _ := by rw [indentedAt]

theorem margin_succ (n : Nat) : margin (n + 1) = margin n ++ [' ', ' ', ' ', ' '] := by
  rw [margin, margin, Nat.mul_add, List.replicate_add]
  rfl

/-- The items of a level end where the margin of the level above does. -/
theorem indentedItems_inj {n : Nat} {d : Char} (hc : c ≠ ' ') (hd : d ≠ ' ')
    (hitems : ∀ o ∈ items, o.IsProper ∧ Unambiguous (indentedAt hidden (n + 1)) o)
    (hitems' : ∀ o ∈ items', o.IsProper)
    (h : indentedItems hidden (n + 1) items ++ (margin n ++ c :: k) =
      indentedItems hidden (n + 1) items' ++ (margin n ++ d :: k')) :
    items = items' ∧ c :: k = d :: k' := by
  -- an item is deeper on its line than the end
  have hdeeper {c : Char} {k r : Text} (hc : c ≠ ' ') :
      margin n ++ c :: k ≠ margin (n + 1) ++ r := by
    rw [margin_succ, List.append_assoc]
    intro he
    exact hc (List.cons.inj (List.append_cancel_left he)).1
  induction items generalizing items' with
  | nil =>
    cases items' with
    | nil =>
      simp only [indentedItems, List.nil_append, List.append_cancel_left_eq] at h
      exact ⟨rfl, h⟩
    | cons o' items' =>
      simp only [indentedItems, List.nil_append, List.append_assoc] at h
      exact absurd h (hdeeper hc)
  | cons o items ih =>
    cases items' with
    | nil =>
      simp only [indentedItems, List.nil_append, List.append_assoc] at h
      exact absurd h.symm (hdeeper hd)
    | cons o' items' =>
      rw [List.forall_mem_cons] at hitems hitems'
      simp only [indentedItems, List.append_assoc, List.append_cancel_left_eq] at h
      obtain ⟨rfl, hrest⟩ := hitems.1.2 hitems'.1 (stops_comma _) (stops_comma _) h
      have hnext := (List.cons.inj (List.cons.inj hrest).2).2
      obtain ⟨rfl, hend⟩ := ih hitems.2 hitems'.2 hnext
      exact ⟨rfl, hend⟩

theorem insideUnambiguous_indented (hidden : Char → Bool) :
    InsideUnambiguous (indentedAt hidden) (fun n _ items => if items.isEmpty then []
      else '\n' :: indentedItems hidden (n + 1) items ++ margin n) := by
  intro n shape items items' k k' hitems hitems' h
  obtain ⟨c, hc, hblank, hbreak⟩ : ∃ c, shape.closer = [c] ∧ c ≠ ' ' ∧ c ≠ '\n' := by
    cases shape <;> exact ⟨_, rfl, by decide, by decide⟩
  rw [hc] at h
  simp only [List.cons_append, List.nil_append] at h
  cases items with
  | nil =>
    cases items' with
    | nil => exact ⟨rfl, (List.cons.inj h).2⟩
    | cons o' items' => exact absurd (List.cons.inj h).1 hbreak
  | cons o items =>
    cases items' with
    | nil => exact absurd (List.cons.inj h).1.symm hbreak
    | cons o' items' =>
      have hrest := (List.cons.inj h).2
      simp only [List.append_eq, List.append_assoc] at hrest
      obtain ⟨hsame, hend⟩ := indentedItems_inj hblank hblank hitems hitems' hrest
      exact ⟨hsame, (List.cons.inj hend).2⟩

/-- **Indented, no two outlines are written alike.** -/
theorem indented_inj {o o' : Outline} (ho : o.IsProper) (ho' : o'.IsProper)
    (h : o.indented hidden = o'.indented hidden) : o = o' :=
  ((isLayout_indented hidden).unambiguous (insideUnambiguous_indented hidden) ho 0 ho' stops_nil
    stops_nil (congrArg (· ++ []) h)).1

end

end Outline
end CssReader
