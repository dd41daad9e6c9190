/-
# Comments

A comment runs from a slash and a star to the first star and slash behind them;
without those it is no comment. Comments may follow each other, and a run of
them stands for nothing.

Key definitions: `Comment.read?`, `Comment.run`, `Comment.opens`.
Key theorems: `Comment.read?_split`, `Comment.run_split`.
-/
import CssReader.Text

namespace CssReader
namespace Comment

/-- The text up to and including the first star and slash, and the rest. -/
def close? : Text → Option (Text × Text)
  | [] => none
  | '*' :: '/' :: s => some (['*', '/'], s)
  | c :: s => (close? s).map fun (l, r) => (c :: l, r)

/-- Whether a comment begins here, closed or not. -/
def opens : Text → Bool
  | '/' :: '*' :: _ => true
  | _ => false

/-- A complete comment at the front of a text, and the rest. -/
def read? (s : Text) : Option (Text × Text) :=
  if opens s then (close? (s.drop 2)).map fun (l, r) => ('/' :: '*' :: l, r) else none

theorem close?_split {s l r : Text} (h : close? s = some (l, r)) : l ++ r = s := by
  fun_induction close? s generalizing l r with
  | case1 => simp at h
  | case2 s =>
    simp only [Option.some.injEq, Prod.mk.injEq] at h
    obtain ⟨rfl, rfl⟩ := h
    rfl
  | case3 c s hne ih =>
    rw [Option.map_eq_some_iff] at h
    obtain ⟨⟨l', r'⟩, h', he⟩ := h
    simp only [Prod.mk.injEq] at he
    obtain ⟨rfl, rfl⟩ := he
    rw [List.cons_append, ih h']

theorem opens_iff {s : Text} : opens s = true ↔ ∃ r, s = '/' :: '*' :: r := by
  unfold opens
  split <;> simp_all

/-- A comment is a non-empty beginning of the text. -/
theorem read?_split {s l r : Text} (h : read? s = some (l, r)) : l ++ r = s ∧ l ≠ [] := by
  unfold read? at h
  split at h
  · rename_i ho
    obtain ⟨t, rfl⟩ := opens_iff.1 ho
    rw [Option.map_eq_some_iff] at h
    obtain ⟨⟨l', r'⟩, h', he⟩ := h
    simp only [Prod.mk.injEq] at he
    obtain ⟨rfl, rfl⟩ := he
    have := close?_split h'
    simp_all
  · simp at h

/-- All complete comments at the front of a text, one after the other, and the rest. -/
def run (s : Text) : Text × Text :=
  match _h : read? s with
  | none => ([], s)
  | some (l, r) => (l ++ (run r).1, (run r).2)
termination_by s.length
decreasing_by all_goals exact Text.length_lt_of_split (read?_split _h)

/-- Nothing is lost: the comments and the rest are the text. -/
theorem run_split (s : Text) : (run s).1 ++ (run s).2 = s := by
  fun_induction run s with
  | case1 => rfl
  | case2 s l r h ih => rw [List.append_assoc, ih, (read?_split h).1]

end Comment
end CssReader
