/-
# The shape of trees

A reader of component values stops at some tokens, and opens others; what it
keeps as a value is neither. So a function does not hold the parenthesis that
would have closed it, nor a block the bracket that would have, and no value is a
token that opens something. A closing bracket of another kind may stand in a
function or a block: it closes nothing, and is kept where it stands. A block has
lost the blanks at either end, a function keeps them. A rule's header ends in
front of the first value that ends it, so it holds no such value, and the block
of a rule is always one in curly brackets.

`Tree.Formed` says all this of a tree, at every depth. That a block is in round,
square or curly brackets, and that a qualified rule has a block, is said by the
types of the two. Nothing is asked of the cursor a tree is read from: it may be
anywhere in its text, and may hold any token.

Key definitions: `ComponentValue.Formed`, `Rule.Formed`, `Tree.Formed`.
Key theorems: `Cursor.Forest.formed`, `Rule.formed_of_mem_ofValues`,
`Entry.read_formed`.
-/
import CssReader.Proofs.Calls
import Mathlib.Data.List.DropRight

namespace CssReader

/-! ### What is asked of a tree -/

namespace ComponentValue

/-- The value is one that a reader can have kept, as far as itself and the values
right inside of it are concerned. -/
inductive Formed : ComponentValue → Prop
  | token {t : Token} : (∀ b, t ≠ .opening b) → (∀ name text, t ≠ .function name text) →
    Formed (.token t)
  | function {name text : Text} {arguments : List ComponentValue} :
    .token (.closing .round) ∉ arguments → Formed (.function name text arguments)
  | block {b : Bracket} {text : Text} {values : List ComponentValue} :
    .token (.closing b) ∉ values → values.head? ≠ some (.token .whitespace) →
    values.getLast? ≠ some (.token .whitespace) → Formed (.block b text values)

end ComponentValue

/-- The header of the rule, and its block, are such that the rule was not over before. -/
inductive Rule.Formed : Rule → Prop
  | atRule {name : Text} {header : List ComponentValue} {block? : Option Block} :
    .token .semicolon ∉ header → (∀ text values, .block .curly text values ∉ header) →
    (∀ b ∈ block?, b.bracket = .curly) → Formed (.atRule name header block?)
  | qualified {header : List ComponentValue} {block : Block} :
    (∀ text values, .block .curly text values ∉ header) →
    (∀ t, header.head? = some (.token t) →
      t ≠ .whitespace ∧ t ≠ .cdo ∧ t ≠ .cdc ∧ ∀ name, t ≠ .atKeyword name) →
    block.bracket = .curly → Formed (.qualified header block)

namespace Tree

/-- The rules of a tree; component values on their own have none. -/
def ruleList : Tree → List Rule
  | stylesheet sheet => sheet.rules
  | rules rs => rs
  | componentValues _ => []

/-- The component values at the top of a tree, those that its rules are made of. -/
def values : Tree → List ComponentValue
  | stylesheet sheet => sheet.rules.flatMap Rule.values
  | rules rs => rs.flatMap Rule.values
  | componentValues vs => vs

/-- The values of the tree at every depth, and its rules, are as a reader keeps them. -/
structure Formed (t : Tree) : Prop where
  values : ∀ v ∈ ComponentValue.nodesOf t.values, v.Formed
  rules : ∀ r ∈ t.ruleList, r.Formed

end Tree

/-! ### Values -/

section

variable {α : Type} {p : α → Bool} {l : List α} {a : α}

theorem head?_dropWhile (h : (l.dropWhile p).head? = some a) : p a = false := by
  have hne : l.dropWhile p ≠ [] := by
    intro h0
    simp [h0] at h
  have ha : (l.dropWhile p).head hne = a :=
    Option.some.inj ((List.head?_eq_some_head hne).symm.trans h)
  rw [← ha]
  exact List.head_dropWhile_not p hne

/-- What a list without its ends begins with is none of what was taken away. -/
theorem head?_trimEnds (h : (trimEnds p l).head? = some a) : p a = false := by
  have hpre : trimEnds p l <+: l.dropWhile p := List.rdropWhile_prefix p _
  apply head?_dropWhile (l := l)
  rw [List.head?_eq_some_iff] at h ⊢
  obtain ⟨r, hr⟩ := h
  obtain ⟨u, hu⟩ := hpre
  exact ⟨r ++ u, by rw [← hu, hr, List.cons_append]⟩

/-- Nor is what it ends with. -/
theorem getLast?_trimEnds (h : (trimEnds p l).getLast? = some a) : p a = false := by
  rw [trimEnds, List.getLast?_reverse] at h
  exact head?_dropWhile h

end

namespace Opener

/-- A value that is no token may be nested with others that do not close it. -/
theorem node_formed {o : Opener} {e : Enclosed} (h : .token o.closer ∉ e.values) :
    (o.node e).Formed := by
  cases o with
  | bracket b =>
    have hsub : e.trimmed ⊆ e.values := trimEnds_subset _ _
    apply ComponentValue.Formed.block
    · exact fun hmem => h (hsub hmem)
    · intro hhead
      have := head?_trimEnds hhead
      simp [ComponentValue.isWhitespace] at this
    · intro hlast
      have := getLast?_trimEnds hlast
      simp [ComponentValue.isWhitespace] at this
  | function name => exact .function h

end Opener

theorem ComponentValue.token_formed {t : Token} (h : Opener.ofToken? t = none) :
    (token t).Formed := by
  constructor
  · rintro b rfl
    simp [Opener.ofToken?] at h
  · rintro name text rfl
    simp [Opener.ofToken?] at h

/-- **Values that were read are as they should be at every depth**, and no token
that stops the reading is among those at the top. -/
theorem Cursor.Forest.formed {stops : Token → Bool} {c c' : Cursor} {vs : List ComponentValue}
    {stop : Option Token} (h : Forest stops c vs stop c') :
    (∀ v ∈ ComponentValue.nodesOf vs, v.Formed) ∧ ∀ t, stops t = true → .token t ∉ vs := by
  induction h with
  | finish | stop => simp [ComponentValue.nodesOf]
  | @token stops _ _ _ t vs _ _ hs ho _ ih =>
    obtain ⟨hnodes, htop⟩ := ih
    constructor
    · intro v hv
      rcases List.mem_append.1 hv with hv | hv
      · obtain rfl := List.mem_singleton.1 hv
        exact ComponentValue.token_formed ho
      · exact hnodes v hv
    · intro u hu hmem
      rcases List.mem_cons.1 hmem with heq | hmem
      · obtain rfl : u = t := by simpa using heq
        simp [hs] at hu
      · exact htop u hu hmem
  | @node stops _ c₁ c₂ _ t o inner vs _ _ _ _ _ _ _ ihi ih =>
    obtain ⟨hinner, hclose⟩ := ihi
    obtain ⟨hnodes, htop⟩ := ih
    constructor
    · intro v hv
      rcases List.mem_append.1 hv with hv | hv
      · rcases Opener.mem_nodes_node hv with rfl | hv
        · exact Opener.node_formed (hclose o.closer (by simp))
        · exact hinner v hv
      · exact hnodes v hv
    · intro u hu hmem
      rcases List.mem_cons.1 hmem with heq | hmem
      · cases o <;> simp [Opener.node] at heq
      · exact htop u hu hmem

/-! ### Rules -/

namespace ComponentValue

variable {vs : List ComponentValue}

theorem bracket_of_curlyBlock? {v : ComponentValue} {b : Block} (h : v.curlyBlock? = some b) :
    b.bracket = .curly := by
  unfold curlyBlock? at h
  split at h <;> cases h
  rfl

/-- The block behind a header is one in curly brackets. -/
theorem bracket_behind {p : ComponentValue → Bool} {b : Block}
    (h : (vs.dropWhile p).head?.bind curlyBlock? = some b) : b.bracket = .curly := by
  obtain ⟨v, -, hv⟩ := Option.bind_eq_some_iff.1 h
  exact bracket_of_curlyBlock? hv

/-- No value of a header ends it. -/
theorem notMem_header {ends : ComponentValue → Bool} {v : ComponentValue} (h : ends v = true) :
    v ∉ vs.takeWhile (!ends ·) := by
  intro hv
  have := List.mem_takeWhile_imp hv
  simp [h] at this

/-- The first value of a header that begins a qualified rule. -/
theorem start_head? {top : Bool} {v : ComponentValue} {t : Token}
    (h : v.start top = .qualified)
    (ht : ((v :: vs).takeWhile (!·.endsQualified)).head? = some (.token t)) :
    t ≠ .whitespace ∧ t ≠ .cdo ∧ t ≠ .cdc ∧ ∀ name, t ≠ .atKeyword name := by
  obtain rfl : v = .token t := by
    rw [List.takeWhile_cons] at ht
    split at ht
    · exact Option.some.inj ht
    · simp at ht
  refine ⟨?_, ?_, ?_, fun name => ?_⟩
  all_goals
    rintro rfl
    cases top
    all_goals simp [start] at h

end ComponentValue

/-- Values fall into rules that are as they should be. -/
theorem Rule.formed_of_mem_ofValues (top : Bool) (vs : List ComponentValue) :
    ∀ r ∈ ofValues top vs, r.Formed := by
  fun_induction ofValues top vs with
  | case1 => simp
  | case2 v vs h ih => exact ih
  | case3 v vs name h behind ih =>
    intro r hr
    rcases List.mem_cons.1 hr with rfl | hr
    · apply Rule.Formed.atRule
      · exact ComponentValue.notMem_header rfl
      · exact fun text values => ComponentValue.notMem_header rfl
      · exact fun b hb => ComponentValue.bracket_behind hb
    · exact ih r hr
  | case4 v vs h behind ih =>
    intro r hr
    rcases List.mem_append.1 hr with hr | hr
    · rw [Option.mem_toList, Option.map_eq_some_iff] at hr
      obtain ⟨b, hb, rfl⟩ := hr
      apply Rule.Formed.qualified
      · exact fun text values => ComponentValue.notMem_header rfl
      · exact fun t ht => ComponentValue.start_head? h ht
      · exact ComponentValue.bracket_behind hb
    · exact ih r hr

/-! ### Trees -/

namespace Entry

/-- A tree is made of values that were read. -/
theorem tree_formed (e : Entry) {vs : List ComponentValue}
    (h : ∀ v ∈ ComponentValue.nodesOf vs, v.Formed) : (e.tree vs).Formed := by
  have hsub : ∀ top, ∀ v ∈ ComponentValue.nodesOf ((Rule.ofValues top vs).flatMap Rule.values),
      v.Formed := fun top v hv =>
    h v (ComponentValue.nodesOf_subset (Rule.values_ofValues top vs) hv)
  cases e with
  | stylesheet => exact ⟨hsub true, Rule.formed_of_mem_ofValues true vs⟩
  | rules => exact ⟨hsub false, Rule.formed_of_mem_ofValues false vs⟩
  | componentValues => exact ⟨h, by simp [tree, Tree.ruleList]⟩

/-- **Every tree that is read is well formed**, whatever the entry, and wherever
the cursor is and whatever it holds. Two more things are true of every tree by its type
alone, and are no part of `Tree.Formed`: a block begins with one of the three brackets
(`Bracket`), and a qualified rule has a block (`Rule.qualified`). -/
theorem read_formed (e : Entry) (c : Cursor) {tree : Tree} (h : (e.read c).result = .ok tree) :
    tree.Formed := by
  rw [read_result] at h
  rcases hv : c.componentValues.result with f | vs
  · simp [hv, Except.map] at h
  · rw [hv] at h
    obtain rfl : e.tree vs = tree := Except.ok.inj h
    have hf := Cursor.componentValues_gives_iff.1 (Outcome.gives_of_result hv)
    exact e.tree_formed hf.formed.1

/-- Brackets that close nothing, and blanks, in an at-rule that begins with a token
handed back. -/
theorem read_formed_stray :
    (rules.read ((Cursor.ofText ['[', ')', ' ', ']', '\x7b', 'a', '(', ']', ' ']).pushBack
        .cdo).2).result = .ok (.rules [.atRule ['<', '!', '-', '-']
          [.block .square ['[', ')', ' ', ']'] [.token (.closing .round)]]
          (some ⟨.curly, ['\x7b', 'a', '(', ']', ' '],
            [.function ['a'] ['a', '(', ']', ' ']
              [.token (.closing .square), .token .whitespace]]⟩)]) ∧
      (Tree.rules [.atRule ['<', '!', '-', '-']
          [.block .square ['[', ')', ' ', ']'] [.token (.closing .round)]]
          (some ⟨.curly, ['\x7b', 'a', '(', ']', ' '],
            [.function ['a'] ['a', '(', ']', ' ']
              [.token (.closing .square), .token .whitespace]]⟩)]).Formed := by
  have hvalues : (Cursor.componentValues ((Cursor.ofText ['[', ')', ' ', ']', '\x7b', 'a', '(',
      ']', ' ']).pushBack .cdo).2).result = .ok [.token .cdo,
        .block .square ['[', ')', ' ', ']'] [.token (.closing .round)],
        .block .curly ['\x7b', 'a', '(', ']', ' '] [.function ['a'] ['a', '(', ']', ' ']
          [.token (.closing .square), .token .whitespace]]] := by
    with_unfolding_all rfl
  rw [and_iff_left_of_imp fun h => rules.read_formed _ h, read_result, hvalues]
  with_unfolding_all rfl

end Entry
end CssReader
