/-
# Component values read back

A component value that was read from a text can be read back from its own text,
and nothing else comes with it: not only the values at the top of what was read,
but every value at any depth, in the header of a rule, in a block or in a
function. The text of a nested value is the beginning of what was left when it
was read, so it reads as it did there, only cut short (`Parses.cut`).

Key definitions: `ComponentValue.nodes`, `Rule.values`, `Entry.values`.
Key theorems: `Parses.node_alone`, `Entry.nodes_read_back`.
-/
import CssReader.Proofs.Lexeme.Shown
import CssReader.Proofs.Parses
import CssReader.Proofs.RuleSplit

namespace CssReader

/-! ### Values at any depth -/

namespace ComponentValue

mutual

/-- The value, and all values nested in it. -/
def nodes : ComponentValue → List ComponentValue
  | .token t => [.token t]
  | .function name text arguments => .function name text arguments :: nodesOf arguments
  | .block b text values => .block b text values :: nodesOf values

/-- The values, and all values nested in them. -/
def nodesOf : List ComponentValue → List ComponentValue
  | [] => []
  | v :: vs => nodes v ++ nodesOf vs

end

theorem nodesOf_eq_flatMap : ∀ vs : List ComponentValue, nodesOf vs = vs.flatMap nodes
  | [] => rfl
  | v :: vs => by rw [nodesOf, nodesOf_eq_flatMap vs, List.flatMap_cons]

theorem nodesOf_subset {vs ws : List ComponentValue} (h : vs ⊆ ws) : nodesOf vs ⊆ nodesOf ws := by
  intro v hv
  rw [nodesOf_eq_flatMap, List.mem_flatMap] at hv ⊢
  obtain ⟨w, hw, hv⟩ := hv
  exact ⟨w, h hw, hv⟩

end ComponentValue

theorem trimEnds_subset {α : Type} (p : α → Bool) (l : List α) : trimEnds p l ⊆ l := by
  intro a ha
  rw [trimEnds, List.mem_reverse] at ha
  have ha := List.mem_reverse.1 ((List.dropWhile_sublist p).subset ha)
  exact (List.dropWhile_sublist p).subset ha

namespace Opener

theorem node_text (o : Opener) (e : Enclosed) : (o.node e).text = e.text := by
  cases o <;> rfl

/-- Nested in a node are the node itself and what is nested in the values enclosed. -/
theorem mem_nodes_node {o : Opener} {e : Enclosed} {v : ComponentValue}
    (h : v ∈ (o.node e).nodes) : v = o.node e ∨ v ∈ ComponentValue.nodesOf e.values := by
  rcases o with b | name
  · rcases List.mem_cons.1 h with h | h
    · exact .inl h
    · exact .inr (ComponentValue.nodesOf_subset (trimEnds_subset _ _) h)
  · exact List.mem_cons.1 h

end Opener

/-! ### Reading back -/

namespace NextToken

variable {s span rest : Text} {t : Token}

theorem shown (h : NextToken s (some t) span rest) : t.ShownBy span rest := by
  generalize hn : some t = t? at h
  induction h with
  | finish => simp at hn
  | token hl ht =>
    obtain rfl := Option.some.inj hn
    exact Lexeme.read_shows hl _ ht
  | skip _ _ _ _ ih => exact ih hn

theorem nil : NextToken [] none [] [] :=
  .finish (by rw [Comment.run_of_read?_none rfl])

/-- A token is read back from its own text. -/
theorem text (h : NextToken s (some t) span rest) : NextToken t.text (some t) t.text [] := by
  have hs := h.shown
  unfold Token.ShownBy at hs
  by_cases ht : t = .whitespace
  · -- the token is one space, whatever blanks it was read from
    subst ht
    refine .token (l := .plain .whitespace [' '] []) ?_ rfl
    rw [Comment.run_of_read?_none rfl]
    rfl
  · rw [if_neg ht] at hs
    subst hs
    exact NextToken.cut (m := []) h.alone

end NextToken

namespace Parses

/-- A token that opens nothing is read back as the only value. -/
theorem token_alone {s span rest : Text} {t : Token} (h : NextToken s (some t) span rest)
    (ho : Opener.ofToken? t = none) : Parses (fun _ => false) t.text [.token t] none [] :=
  .token h.text rfl ho (.finish .nil)

/-- What was read from an opener on is read back as the only value. -/
theorem node_alone {s span u s₂ : Text} {t : Token} {o : Opener} {inner : List ComponentValue}
    {close : Option Token} (hn : NextToken s (some t) span (u ++ s₂))
    (ho : Opener.ofToken? t = some o)
    (hi : Parses (fun t => t = o.closer) (u ++ s₂) inner close s₂) :
    Parses (fun _ => false) (span ++ u) [o.node ⟨span ++ u, inner⟩] none [] := by
  have hn' : NextToken (span ++ u) (some t) span (u ++ []) := by
    have h := hn.alone
    rw [← List.append_assoc] at h
    rw [List.append_nil]
    exact h.cut
  have hi' : Parses (fun t => t = o.closer) (u ++ []) inner close [] := by
    rw [List.append_nil]
    exact Parses.cut (m := []) hi
  exact .node hn' rfl ho hi' (.finish .nil)

theorem nodes {stops : Token → Bool} {s rest : Text} {vs : List ComponentValue}
    {stop : Option Token} (h : Parses stops s vs stop rest) :
    ∀ v ∈ ComponentValue.nodesOf vs, Parses (fun _ => false) v.text [v] none [] := by
  induction h with
  | finish | stop =>
    intro v hv
    simp [ComponentValue.nodesOf] at hv
  | token hn _ ho _ ih =>
    intro v hv
    rcases List.mem_append.1 hv with hv | hv
    · obtain rfl := List.mem_singleton.1 hv
      exact token_alone hn ho
    · exact ih v hv
  | node hn _ ho hi _ ihi ih =>
    intro v hv
    rcases List.mem_append.1 hv with hv | hv
    · rcases Opener.mem_nodes_node hv with rfl | hv
      · rw [Opener.node_text]
        exact node_alone hn ho hi
      · exact ihi v hv
    · exact ih v hv

end Parses

/-! ### Entry points -/

/-- The block as a component value. -/
def Block.value (b : Block) : ComponentValue := .block b.bracket b.text b.values

/-- The component values that a rule is made of: its header, and then its block. -/
def Rule.values (r : Rule) : List ComponentValue :=
  r.header ++ (r.block?.map Block.value).toList

/-- The ways to read a whole text as a tree. -/
inductive Entry
  | stylesheet
  | rules
  | componentValues
deriving DecidableEq

/-- The component values at the top of the tree that a text is read as: those of
its rules, or all there are. -/
def Entry.values (e : Entry) (s : Text) : Except Fault (List ComponentValue) :=
  let c := Cursor.ofText s
  match e with
  | .stylesheet => c.stylesheet.result.map fun sheet => sheet.rules.flatMap Rule.values
  | .rules => c.rules.result.map fun rules => rules.flatMap Rule.values
  | .componentValues => c.componentValues.result

theorem ComponentValue.value_of_curlyBlock? {v : ComponentValue} {b : Block}
    (h : v.curlyBlock? = some b) : b.value = v := by
  unfold curlyBlock? at h
  split at h <;> cases h
  rfl

/-- A header of some values, and the block that ends it, are among them. -/
theorem ComponentValue.header_block_subset (p : ComponentValue → Bool) (vs : List ComponentValue) :
    vs.takeWhile p ++
      (((vs.dropWhile p).head?.bind curlyBlock?).map Block.value).toList ⊆ vs := by
  intro w hw
  rcases List.mem_append.1 hw with hw | hw
  · exact (List.takeWhile_sublist p).subset hw
  · rw [Option.mem_toList, Option.map_eq_some_iff] at hw
    obtain ⟨b, hb, rfl⟩ := hw
    obtain ⟨v, hv, hb⟩ := Option.bind_eq_some_iff.1 hb
    rw [value_of_curlyBlock? hb]
    exact (List.dropWhile_sublist p).subset (List.mem_of_mem_head? hv)

/-- The rules that a list of values falls into are made of values of the list. -/
theorem Rule.values_ofValues (top : Bool) (vs : List ComponentValue) :
    (ofValues top vs).flatMap Rule.values ⊆ vs := by
  have htail : ∀ (p : ComponentValue → Bool) (vs : List ComponentValue),
      (vs.dropWhile p).tail ⊆ vs := fun p vs =>
    ((List.tail_sublist _).trans (List.dropWhile_sublist p)).subset
  fun_induction ofValues top vs with
  | case1 => simp
  | case2 v vs h ih => exact List.subset_cons_of_subset v ih
  | case3 v vs name h behind =>
    rename_i ih
    have hhead := ComponentValue.header_block_subset (!·.endsAtRule) vs
    have hrest := List.Subset.trans ih (htail (!·.endsAtRule) vs)
    exact List.subset_cons_of_subset v (List.append_subset.2 ⟨hhead, hrest⟩)
  | case4 v vs h behind =>
    rename_i ih
    rw [List.flatMap_append, List.append_subset]
    refine ⟨fun w hw => ?_, List.Subset.trans ih (htail _ _)⟩
    obtain ⟨r, hr, hw⟩ := List.mem_flatMap.1 hw
    rw [Option.mem_toList, Option.map_eq_some_iff] at hr
    obtain ⟨b, hb, rfl⟩ := hr
    have hhead := ComponentValue.header_block_subset (!·.endsQualified) (v :: vs)
    rw [hb] at hhead
    exact hhead hw

/-- Whatever the entry, the values are among the component values of the text. -/
theorem Entry.values_subset {e : Entry} {s : Text} {vs : List ComponentValue}
    (h : e.values s = .ok vs) :
    ∃ ws, (Cursor.ofText s).componentValues.result = .ok ws ∧ vs ⊆ ws := by
  have hrules : ∀ top, ((Cursor.ofText s).ruleList top).result.map
      (fun rules => rules.flatMap Rule.values) = .ok vs →
      ∃ ws, (Cursor.ofText s).componentValues.result = .ok ws ∧ vs ⊆ ws := by
    intro top h
    rw [Cursor.ruleList_result] at h
    rcases hws : (Cursor.ofText s).componentValues.result with f | ws
    · rw [hws] at h
      simp [Except.map] at h
    · rw [hws] at h
      obtain rfl := Except.ok.inj h
      exact ⟨ws, rfl, Rule.values_ofValues top ws⟩
  cases e with
  | stylesheet =>
    apply hrules true
    simp only [values, Cursor.stylesheet, Outcome.map] at h
    rcases hr : ((Cursor.ofText s).ruleList true).result with f | rules
    · rw [hr] at h
      simp [Except.map] at h
    · rw [hr] at h
      exact h
  | rules => exact hrules false h
  | componentValues => exact ⟨vs, h, List.Subset.refl vs⟩

/-- **Every component value, at any depth of what a text is read as, is read back
from its own text**, and alone. -/
theorem Entry.nodes_read_back {e : Entry} {s : Text} {vs : List ComponentValue}
    (h : e.values s = .ok vs) {v : ComponentValue} (hv : v ∈ ComponentValue.nodesOf vs) :
    (Cursor.ofText v.text).componentValues.result = .ok [v] := by
  obtain ⟨ws, hws, hsub⟩ := e.values_subset h
  obtain ⟨rest, hp⟩ := componentValues_result_iff.1 hws
  have hback := hp.nodes v (ComponentValue.nodesOf_subset hsub hv)
  exact componentValues_result_iff.2 ⟨[], hback⟩

/-- A function in a block, both open at the end of the text. -/
theorem Entry.nodes_read_back_open :
    Entry.values .stylesheet ['@', 'a', '[', 'b', '(', 'c'] =
        .ok [.block .square ['[', 'b', '(', 'c']
          [.function ['b'] ['b', '(', 'c'] [.token (.ident ['c'])]]] ∧
      .function ['b'] ['b', '(', 'c'] [.token (.ident ['c'])] ∈
        ComponentValue.nodesOf [.block .square ['[', 'b', '(', 'c']
          [.function ['b'] ['b', '(', 'c'] [.token (.ident ['c'])]]] ∧
      (Cursor.ofText ['b', '(', 'c']).componentValues.result =
        .ok [.function ['b'] ['b', '(', 'c'] [.token (.ident ['c'])]] := by
  have h : Entry.values .stylesheet ['@', 'a', '[', 'b', '(', 'c'] =
      .ok [.block .square ['[', 'b', '(', 'c']
        [.function ['b'] ['b', '(', 'c'] [.token (.ident ['c'])]]] := by
    with_unfolding_all rfl
  have hv : .function ['b'] ['b', '(', 'c'] [.token (.ident ['c'])] ∈
      ComponentValue.nodesOf [.block .square ['[', 'b', '(', 'c']
        [.function ['b'] ['b', '(', 'c'] [.token (.ident ['c'])]]] := by
    simp [ComponentValue.nodesOf, ComponentValue.nodes]
  exact ⟨h, hv, Entry.nodes_read_back h hv⟩

end CssReader
