/-
# Names

A name is made of letters, digits, hyphens and escapes. An escape is a
backslash with a dollar sign, a line feed, or one to six hexadecimal digits
and at most one blank behind them; any other backslash is not part of a name.
Escapes are recognised here and never decoded.

Each reader takes a text and, if the text begins with what it looks for, splits
it into the longest such beginning and the rest.

Key definitions: `escape?`, `nameTail`, `name?`, `hashName?`.
Key theorems: `escape?_split`, `nameTail_split`, `name?_split`, `hashName?_split`.
-/
import CssReader.Text

namespace CssReader

/-- The hexadecimal digits at the front of a text, six at most. -/
def hexDigits (s : Text) : Text := (s.take 6).takeWhile isHex

/-- The blank at the front of a text, if there is one, and the rest. -/
def oneBlank : Text → Text × Text
  | [] => ([], [])
  | b :: r => if isBlank b then ([b], r) else ([], b :: r)

/-- One escape at the front of a text. -/
def escape? : Text → Option (Text × Text)
  | '\\' :: c :: s =>
    if c = '$' || c = '\n' then some (['\\', c], s)
    else if (hexDigits (c :: s)).isEmpty then none
    else
      let (blank, r) := oneBlank ((c :: s).drop (hexDigits (c :: s)).length)
      some ('\\' :: hexDigits (c :: s) ++ blank, r)
  | _ => none

/-- One character or escape that may continue a name. -/
def nameUnit? : Text → Option (Text × Text)
  | [] => none
  | c :: s => if isNameChar c then some ([c], s) else escape? (c :: s)

/-- One character or escape that may begin a name. -/
def nameHead? : Text → Option (Text × Text)
  | [] => none
  | c :: s => if isNameStart c then some ([c], s) else escape? (c :: s)

theorem hexDigits_append_drop (s : Text) : hexDigits s ++ s.drop (hexDigits s).length = s :=
  List.prefix_iff_eq_append.1 ((List.takeWhile_prefix _).trans (List.take_prefix _ _))

theorem oneBlank_split (s : Text) : (oneBlank s).1 ++ (oneBlank s).2 = s := by
  unfold oneBlank
  split
  · rfl
  · split <;> rfl

/-- An escape is a non-empty beginning of the text. -/
theorem escape?_split {s l r : Text} (h : escape? s = some (l, r)) : l ++ r = s ∧ l ≠ [] := by
  unfold escape? at h
  split at h
  · rename_i c s
    split at h
    · simp only [Option.some.injEq, Prod.mk.injEq] at h
      obtain ⟨rfl, rfl⟩ := h
      simp
    · split at h
      · simp at h
      · simp only [Option.some.injEq, Prod.mk.injEq] at h
        obtain ⟨rfl, rfl⟩ := h
        refine ⟨?_, by simp⟩
        rw [List.cons_append, List.cons_append, List.append_assoc, oneBlank_split,
          hexDigits_append_drop]
  · simp at h

theorem nameUnit?_split {s l r : Text} (h : nameUnit? s = some (l, r)) : l ++ r = s ∧ l ≠ [] := by
  unfold nameUnit? at h
  split at h
  · simp at h
  · split at h
    · simp only [Option.some.injEq, Prod.mk.injEq] at h
      obtain ⟨rfl, rfl⟩ := h
      simp
    · exact escape?_split h

theorem nameHead?_split {s l r : Text} (h : nameHead? s = some (l, r)) : l ++ r = s ∧ l ≠ [] := by
  unfold nameHead? at h
  split at h
  · simp at h
  · split at h
    · simp only [Option.some.injEq, Prod.mk.injEq] at h
      obtain ⟨rfl, rfl⟩ := h
      simp
    · exact escape?_split h

/-- As many characters and escapes of a name as there are, possibly none. -/
def nameTail (s : Text) : Text × Text :=
  match _h : nameUnit? s with
  | none => ([], s)
  | some (u, r) => (u ++ (nameTail r).1, (nameTail r).2)
termination_by s.length
decreasing_by all_goals exact Text.length_lt_of_split (nameUnit?_split _h)

/-- A name: at most one hyphen, something that may begin a name, and then all
that may continue it. -/
def name? (s : Text) : Option (Text × Text) :=
  let (hyphen, start) := match s with
    | '-' :: r => (['-'], r)
    | _ => ([], s)
  (nameHead? start).map fun (head, r) => (hyphen ++ head ++ (nameTail r).1, (nameTail r).2)

/-- What may follow a hash sign: anything that may continue a name, at least once. -/
def hashName? (s : Text) : Option (Text × Text) :=
  if (nameTail s).1.isEmpty then none else some (nameTail s)

theorem nameTail_none {s : Text} (h : nameUnit? s = none) : nameTail s = ([], s) := by
  rw [nameTail]
  split
  · rfl
  · simp_all

theorem nameTail_some {s u r : Text} (h : nameUnit? s = some (u, r)) :
    nameTail s = (u ++ (nameTail r).1, (nameTail r).2) := by
  rw [nameTail]
  split
  · simp_all
  · rename_i h'
    rw [h] at h'
    cases h'
    rfl

/-- Nothing is lost: the units read and the rest are the text. -/
theorem nameTail_split (s : Text) : (nameTail s).1 ++ (nameTail s).2 = s := by
  fun_induction nameTail s with
  | case1 => rfl
  | case2 s u r h ih => rw [List.append_assoc, ih, (nameUnit?_split h).1]

theorem name?_split {s l r : Text} (h : name? s = some (l, r)) : l ++ r = s ∧ l ≠ [] := by
  have key : ∀ (hyphen start : Text), hyphen ++ start = s →
      ((nameHead? start).map fun (p : Text × Text) =>
        (hyphen ++ p.1 ++ (nameTail p.2).1, (nameTail p.2).2)) = some (l, r) →
      l ++ r = s ∧ l ≠ [] := by
    intro hyphen start hs hm
    rw [Option.map_eq_some_iff] at hm
    obtain ⟨⟨head, r'⟩, hh, he⟩ := hm
    simp only [Prod.mk.injEq] at he
    obtain ⟨rfl, rfl⟩ := he
    have h1 := nameHead?_split hh
    have h2 := nameTail_split r'
    refine ⟨?_, by simp [h1.2]⟩
    rw [List.append_assoc, h2, List.append_assoc, h1.1, hs]
  unfold name? at h
  split at h
  rename_i hyphen start heq
  refine key hyphen start ?_ h
  split at heq <;> cases heq <;> simp

theorem hashName?_split {s l r : Text} (h : hashName? s = some (l, r)) : l ++ r = s ∧ l ≠ [] := by
  unfold hashName? at h
  split at h
  · simp at h
  · rename_i hne
    have hs := nameTail_split s
    simp only [Option.some.injEq] at h
    rw [h] at hs hne
    exact ⟨hs, by simpa using hne⟩

end CssReader
