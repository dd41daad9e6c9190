/-
# Trees without source texts

The source texts of functions and blocks are all that a tree has and the tokens of
its text have not: without them the tree is that of the nests that a pass over the
tokens builds. So texts with the same tokens are read as the same trees, source
texts aside, and so are texts in which only the positions of faults differ.

Key definitions: `Rule.bare`, `Tree.bare`.
Key theorems: `Rule.ofValues_bares`, `Entry.read_bare`.
-/
import CssReader.Proofs.Calls
import CssReader.Proofs.Matching
import CssReader.Proofs.RuleMap

namespace CssReader

/-- The block without source texts. -/
def Block.bare (b : Block) : Block := ⟨b.bracket, [], ComponentValue.bares b.values⟩

/-- The rule without source texts. -/
def Rule.bare : Rule → Rule
  | .atRule name header block => .atRule name (ComponentValue.bares header) (block.map Block.bare)
  | .qualified header block => .qualified (ComponentValue.bares header) block.bare

/-- The tree without source texts. -/
def Tree.bare : Tree → Tree
  | .stylesheet sheet => .stylesheet ⟨sheet.rules.map Rule.bare⟩
  | .rules rs => .rules (rs.map Rule.bare)
  | .componentValues vs => .componentValues (ComponentValue.bares vs)

namespace ComponentValue

theorem curlyBlock?_bare (v : ComponentValue) :
    v.bare.curlyBlock? = v.curlyBlock?.map Block.bare := by
  rcases v with t | ⟨name, text, arguments⟩ | ⟨b, text, values⟩
  · rfl
  · rfl
  · cases b <;> rfl

/-- Without source texts values do the same to rules. -/
theorem keepsRules_bare : KeepsRules bare id Block.bare where
  start top v := by
    have hid : ∀ s : ValueStart, s.rename id = s := fun s => by cases s <;> rfl
    rw [hid]
    cases v <;> rfl
  curlyBlock? := curlyBlock?_bare
  endsAtRule v := by
    rcases v with t | ⟨name, text, arguments⟩ | ⟨b, text, values⟩
    · rfl
    · rfl
    · exact (congrArg Option.isSome (curlyBlock?_bare (.block b text values))).trans
        Option.isSome_map

end ComponentValue

theorem Rule.bare_eq_mapValues (r : Rule) :
    r.bare = r.mapValues ComponentValue.bare id Block.bare := by
  cases r <;> simp [bare, mapValues, ComponentValue.bares_eq_map]

/-- Splitting values into rules does not look at source texts. -/
theorem Rule.ofValues_bares (top : Bool) (vs : List ComponentValue) :
    ofValues top (ComponentValue.bares vs) = (ofValues top vs).map Rule.bare := by
  rw [ComponentValue.bares_eq_map, ofValues_map ComponentValue.keepsRules_bare]
  exact List.map_congr_left fun r _ => r.bare_eq_mapValues.symm

namespace Entry

theorem tree_bares (e : Entry) (vs : List ComponentValue) :
    e.tree (ComponentValue.bares vs) = (e.tree vs).bare := by
  cases e with
  | stylesheet => exact congrArg (fun rs => Tree.stylesheet ⟨rs⟩) (Rule.ofValues_bares true vs)
  | rules => exact congrArg Tree.rules (Rule.ofValues_bares false vs)
  | componentValues => rfl

/-- **Every tree of a text comes from its tokens alone**, source texts aside. -/
theorem read_bare (e : Entry) (s : Text) :
    (e.read (Cursor.ofText s)).result.map Tree.bare =
      (Cursor.ofText s).tokens.result.map fun ts => e.tree (Nest.values (Nest.ofTokens ts)) := by
  have hnests := (Cursor.componentValues_eq_nests s).1
  calc (e.read (Cursor.ofText s)).result.map Tree.bare
      = ((Cursor.ofText s).componentValues.result.map e.tree).map Tree.bare := by rw [read_result]
    _ = ((Cursor.ofText s).componentValues.result.map ComponentValue.bares).map e.tree := by
        rcases (Cursor.ofText s).componentValues.result with f | vs
        · rfl
        · exact congrArg Except.ok (e.tree_bares vs).symm
    _ = ((Cursor.ofText s).tokens.result.map fun ts =>
          Nest.values (Nest.ofTokens ts)).map e.tree := congrArg (Except.map e.tree) hnests
    _ = (Cursor.ofText s).tokens.result.map fun ts =>
          e.tree (Nest.values (Nest.ofTokens ts)) := by
        cases (Cursor.ofText s).tokens.result <;> rfl

end Entry

end CssReader
