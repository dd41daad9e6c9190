/-
# Rules of other values

Component values are split into rules by their kinds: a name, a text or what is inside
of a function or a block does not count. So a map of values that keeps their kinds maps
the rules that a list of values falls into.

Key definitions: `ComponentValue.KeepsRules`, `Rule.mapValues`.
Key theorem: `Rule.ofValues_map`.
-/
import CssReader.Proofs.RuleSplit

namespace CssReader

/-- The same with the name of an at-rule changed. -/
def ValueStart.rename (names : Text → Text) : ValueStart → ValueStart
  | skip => skip
  | atRule name => atRule (names name)
  | qualified => qualified

/-- The map of values keeps what they do to rules: names of at-rules are mapped by `names`
and blocks by `blocks`. -/
structure ComponentValue.KeepsRules (g : ComponentValue → ComponentValue) (names : Text → Text)
    (blocks : Block → Block) : Prop where
  start : ∀ top v, (g v).start top = (v.start top).rename names
  curlyBlock? : ∀ v, (g v).curlyBlock? = v.curlyBlock?.map blocks
  endsAtRule : ∀ v, (g v).endsAtRule = v.endsAtRule

/-- The rule with its values, its name and its block mapped. -/
def Rule.mapValues (g : ComponentValue → ComponentValue) (names : Text → Text)
    (blocks : Block → Block) : Rule → Rule
  | atRule name header block => .atRule (names name) (header.map g) (block.map blocks)
  | qualified header block => .qualified (header.map g) (blocks block)

namespace ComponentValue.KeepsRules

variable {g : ComponentValue → ComponentValue} {names : Text → Text} {blocks : Block → Block}

theorem endsQualified (h : KeepsRules g names blocks) (v : ComponentValue) :
    (g v).endsQualified = v.endsQualified := by
  rw [ComponentValue.endsQualified, ComponentValue.endsQualified, h.curlyBlock?, Option.isSome_map]

/-- A header, the block behind it, and what comes behind both. -/
theorem header (h : KeepsRules g names blocks) {p : ComponentValue → Bool}
    (hp : ∀ v, p (g v) = p v) (vs : List ComponentValue) :
    (vs.map g).takeWhile p = (vs.takeWhile p).map g ∧
      ((vs.map g).dropWhile p).head?.bind ComponentValue.curlyBlock? =
        ((vs.dropWhile p).head?.bind ComponentValue.curlyBlock?).map blocks ∧
      ((vs.map g).dropWhile p).tail = (vs.dropWhile p).tail.map g := by
  have hcomp : p ∘ g = p := funext hp
  rw [List.takeWhile_map, List.dropWhile_map, hcomp]
  refine ⟨rfl, ?_, List.map_tail.symm⟩
  rcases vs.dropWhile p with _ | ⟨v, ws⟩
  · rfl
  · exact h.curlyBlock? v

end ComponentValue.KeepsRules

/-- The qualified rule that a header and a block are, if there is a block. -/
theorem Rule.toList_map {g : ComponentValue → ComponentValue} {blocks : Block → Block}
    (names : Text → Text) (header : List ComponentValue) (block? : Option Block) :
    ((block?.map blocks).map (qualified (header.map g))).toList =
      (block?.map (qualified header)).toList.map (mapValues g names blocks) := by
  cases block? <;> rfl

/-- **A map of values that keeps what they do to rules maps the rules.** -/
theorem Rule.ofValues_map {g : ComponentValue → ComponentValue} {names : Text → Text}
    {blocks : Block → Block} (h : ComponentValue.KeepsRules g names blocks) (top : Bool)
    (vs : List ComponentValue) :
    ofValues top (vs.map g) = (ofValues top vs).map (mapValues g names blocks) := by
  fun_induction ofValues top vs with
  | case1 => rw [List.map_nil, ofValues, List.map_nil]
  | case2 v vs hs ih =>
    rw [List.map_cons, ofValues, h.start, hs]
    exact ih
  | case3 v vs name hs behind =>
    rename_i ih
    obtain ⟨htake, hblock, htail⟩ := h.header (p := (!·.endsAtRule))
      (fun v => by rw [h.endsAtRule]) vs
    rw [List.map_cons, ofValues, h.start, hs]
    dsimp only [ValueStart.rename]
    rw [htake, hblock, htail, ih]
    rfl
  | case4 v vs hs behind =>
    rename_i ih
    obtain ⟨htake, hblock, htail⟩ := h.header (p := (!·.endsQualified))
      (fun v => by rw [h.endsQualified]) (v :: vs)
    rw [List.map_cons] at htake hblock htail ⊢
    rw [ofValues, h.start, hs]
    dsimp only [ValueStart.rename]
    rw [htake, hblock, htail, ih, List.map_append, toList_map names]

end CssReader
