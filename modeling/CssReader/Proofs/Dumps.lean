/-
# Dumps are faithful

Nothing is lost in a dump. The outline of a token or of a tree is proper, and it says all
there is to say of it, so what is written for it says it too. Since no line of a dump of
tokens has a line break in it, each token has a line of its own, in its place.

Key definition: `Token.ofParts?`.
Key theorems: `Token.outline_inj`, `Stylesheet.outline_inj`, `Dump.splitOn_ofTokens`,
`Dump.dump_faithful`.
-/
import CssReader.Dump
import CssReader.Proofs.Outline.Layouts

namespace CssReader

/-! ### Records -/

namespace Outline

variable {name name' : String} {fields fields' : List (String × Outline)} {value value' : Outline}

@[simp] theorem record_inj : record name fields = record name' fields' ↔
    name = name' ∧ fields = fields' := by
  have hfield : Function.Injective fun p : String × Outline => Outline.field p.1.toList p.2 := by
    rintro ⟨l, v⟩ ⟨l', v'⟩ h
    obtain ⟨hl, hv⟩ := Outline.field.inj h
    exact Prod.ext (String.toList_inj.1 hl) hv
  simp only [record, group.injEq, String.toList_inj, true_and]
  exact and_congr_right fun _ => (List.map_injective_iff.2 hfield).eq_iff

@[simp] theorem tagged_inj : tagged name value = tagged name' value' ↔
    name = name' ∧ value = value' := by
  simp [tagged, String.toList_inj]

@[simp] theorem list_inj {items items' : List Outline} : list items = list items' ↔
    items = items' := by
  simp [list]

@[simp] theorem ofText_inj {s s' : Text} : ofText s = ofText s' ↔ s = s' := by
  simp [ofText]

theorem optional_inj {α : Type} {f : α → Outline} (hf : Function.Injective f)
    {x y : Option α} (h : optional (x.map f) = optional (y.map f)) : x = y := by
  cases x <;> cases y <;> simp_all [optional, tagged, hf.eq_iff]

/-- A part of a record whose label is a name, and whose value is proper. -/
def IsProperPart (p : String × Outline) : Prop := IsName p.1.toList ∧ p.2.IsProper

theorem isProperPart {label : String} (hlabel : IsName label.toList) (hvalue : value.IsProper) :
    IsProperPart (label, value) := ⟨hlabel, hvalue⟩

theorem isProper_record (hname : IsName name.toList)
    (hfields : fields.Forall IsProperPart) : (record name fields).IsProper := by
  refine .group hname (by decide) fun o ho => ?_
  obtain ⟨p, hp, rfl⟩ := List.mem_map.1 ho
  obtain ⟨hlabel, hvalue⟩ := List.forall_iff_forall_mem.1 hfields p hp
  exact .field hlabel hvalue

theorem isProper_tagged (hname : IsName name.toList) (hvalue : value.IsProper) :
    (tagged name value).IsProper :=
  .group hname (by decide) (by simpa using hvalue)

theorem isProper_list {items : List Outline} (h : ∀ o ∈ items, o.IsProper) :
    (list items).IsProper := .list h

theorem isProper_optional {x : Option Outline} (h : ∀ o ∈ x, o.IsProper) :
    (optional x).IsProper := by
  cases x with
  | none => exact .word (by decide +kernel)
  | some o => exact isProper_tagged (by decide +kernel) (h o rfl)

theorem isProper_ofText (s : Text) : (ofText s).IsProper := .quoted rfl

theorem isProper_ofChar (c : Char) : (ofChar c).IsProper := .quoted rfl

end Outline

open Outline

/-! ### Tokens -/

namespace Token

/-- The text of a part of a token. -/
def textOf : Outline → Text
  | .quoted _ s => s
  | _ => []

/-- The token with a label and the texts of its parts. -/
def ofParts? : String → List Text → Option Token
  | "Ident", [value] => some (.ident value)
  | "Function", [name, text] => some (.function name text)
  | "AtKeyword", [value] => some (.atKeyword value)
  | "Hash", [value] => some (.hash value)
  | "String", [value] => some (.string value)
  | "Url", [value] => some (.url value)
  | "Delim", [[value]] => some (.delim value)
  | "Number", [value] => some (.number value)
  | "Percentage", [value] => some (.percentage value)
  | "Dimension", [value] => some (.dimension value)
  | "Whitespace", [] => some .whitespace
  | "Cdo", [] => some .cdo
  | "Cdc", [] => some .cdc
  | "Colon", [] => some .colon
  | "Semicolon", [] => some .semicolon
  | "Comma", [] => some .comma
  | "LeftParenthesis", [] => some (.opening .round)
  | "LeftSquareBracket", [] => some (.opening .square)
  | "LeftCurlyBracket", [] => some (.opening .curly)
  | "RightParenthesis", [] => some (.closing .round)
  | "RightSquareBracket", [] => some (.closing .square)
  | "RightCurlyBracket", [] => some (.closing .curly)
  | "IncludeMatch", [] => some (.attrMatch .word)
  | "DashMatch", [] => some (.attrMatch .dash)
  | "PrefixMatch", [] => some (.attrMatch .start)
  | "SuffixMatch", [] => some (.attrMatch .finish)
  | "SubstringMatch", [] => some (.attrMatch .part)
  | _, _ => none

/-- A token is known by its label and the texts of its parts. -/
theorem ofParts?_label (t : Token) : ofParts? t.label (t.fields.map (textOf ·.2)) = some t := by
  cases t with
  | opening b => cases b <;> rfl
  | closing b => cases b <;> rfl
  | attrMatch m => cases m <;> rfl
  | _ => rfl

/-- **A token is known by its outline.** -/
theorem outline_inj {t t' : Token} (h : t.outline = t'.outline) : t = t' := by
  have hparts : t.label = t'.label ∧ t.fields = t'.fields := by
    unfold outline at h
    by_cases ht : t.fields.isEmpty = true <;> by_cases ht' : t'.fields.isEmpty = true
    · rw [if_pos ht, if_pos ht', Outline.word.injEq, String.toList_inj] at h
      exact ⟨h, (List.isEmpty_iff.1 ht).trans (List.isEmpty_iff.1 ht').symm⟩
    · rw [if_pos ht, if_neg ht'] at h
      exact absurd h Outline.noConfusion
    · rw [if_neg ht, if_pos ht'] at h
      exact absurd h Outline.noConfusion
    · rwa [if_neg ht, if_neg ht', record_inj] at h
  have hread := ofParts?_label t
  rw [hparts.1, hparts.2, ofParts?_label] at hread
  exact (Option.some.inj hread).symm

theorem isName_label (t : Token) : IsName t.label.toList := by
  cases t with
  | opening b => cases b <;> decide +kernel
  | closing b => cases b <;> decide +kernel
  | attrMatch m => cases m <;> decide +kernel
  | _ =>
    simp only [label]
    decide +kernel

theorem isProper_fields (t : Token) : t.fields.Forall IsProperPart := by
  cases t <;> simp [fields, IsProperPart, isProper_ofText, isProper_ofChar] <;> decide

theorem isProper_outline (t : Token) : t.outline.IsProper := by
  unfold outline
  split
  · exact .word t.isName_label
  · exact isProper_record t.isName_label t.isProper_fields

end Token

/-! ### Trees -/

namespace ComponentValue

mutual

/-- **A component value is known by its outline**, however deep it is. -/
theorem outline_inj : ∀ {v v' : ComponentValue}, outline v = outline v' → v = v'
  | .token t, v', h => by
    cases v' with
    | token t' =>
      simp only [outline, tagged_inj, true_and] at h
      rw [Token.outline_inj h]
    | function | block => simp [outline] at h
  | .function name text vs, v', h => by
    cases v' with
    | function name' text' vs' =>
      simp only [outline, functionOutline, tagged_inj, record_inj, List.cons.injEq,
        Prod.mk.injEq, ofText_inj, list_inj, true_and, and_true] at h
      obtain ⟨rfl, rfl, hvs⟩ := h
      rw [outlines_inj hvs]
    | token | block => simp [outline] at h
  | .block b text vs, v', h => by
    cases v' with
    | block b' text' vs' =>
      simp only [outline, blockOutline, tagged_inj, record_inj, List.cons.injEq,
        Prod.mk.injEq, ofText_inj, list_inj, true_and, and_true] at h
      obtain ⟨hb, rfl, hvs⟩ := h
      obtain rfl := Token.opening.inj (Token.outline_inj hb)
      rw [outlines_inj hvs]
    | token | function => simp [outline] at h

theorem outlines_inj : ∀ {vs vs' : List ComponentValue}, outlines vs = outlines vs' → vs = vs'
  | [], [], _ => rfl
  | [], _ :: _, h => by simp [outlines] at h
  | _ :: _, [], h => by simp [outlines] at h
  | v :: vs, v' :: vs', h => by
    simp only [outlines, List.cons.injEq] at h
    rw [outline_inj h.1, outlines_inj h.2]

end

theorem isProper_blockOutline (b : Bracket) (text : Text) {os : List Outline}
    (h : ∀ o ∈ os, o.IsProper) : (blockOutline b text os).IsProper :=
  isProper_record (by decide +kernel)
    ⟨isProperPart (by decide +kernel) (Token.opening b).isProper_outline,
      isProperPart (by decide +kernel) (isProper_ofText text),
      isProperPart (by decide +kernel) (isProper_list h)⟩

mutual

theorem isProper_outline : ∀ v : ComponentValue, (outline v).IsProper
  | .token t => isProper_tagged (by decide +kernel) t.isProper_outline
  | .function name text vs =>
    isProper_tagged (by decide +kernel) (isProper_record (by decide +kernel)
      ⟨isProperPart (by decide +kernel) (isProper_ofText name),
        isProperPart (by decide +kernel) (isProper_ofText text),
        isProperPart (by decide +kernel) (isProper_list (isProper_outlines vs))⟩)
  | .block b text vs =>
    isProper_tagged (by decide +kernel) (isProper_blockOutline b text (isProper_outlines vs))

theorem isProper_outlines (vs : List ComponentValue) : ∀ o ∈ outlines vs, o.IsProper := by
  cases vs with
  | nil => simp [outlines]
  | cons v vs =>
    rw [outlines, List.forall_mem_cons]
    exact ⟨isProper_outline v, isProper_outlines vs⟩

end

end ComponentValue

theorem Block.outline_inj {b b' : Block} (h : b.outline = b'.outline) : b = b' := by
  simp only [outline, ComponentValue.blockOutline, record_inj, List.cons.injEq, Prod.mk.injEq,
    ofText_inj, list_inj, true_and, and_true] at h
  obtain ⟨hb, ht, hv⟩ := h
  cases b
  cases b'
  rw [mk.injEq]
  exact ⟨Token.opening.inj (Token.outline_inj hb), ht, ComponentValue.outlines_inj hv⟩

theorem Block.isProper_outline (b : Block) : b.outline.IsProper :=
  ComponentValue.isProper_blockOutline _ _ (ComponentValue.isProper_outlines _)

namespace Rule

theorem outline_inj {r r' : Rule} (h : r.outline = r'.outline) : r = r' := by
  cases r with
  | atRule name header block =>
    cases r' with
    | atRule name' header' block' =>
      simp only [outline, tagged_inj, record_inj, List.cons.injEq, Prod.mk.injEq, ofText_inj,
        list_inj, true_and, and_true] at h
      obtain ⟨rfl, hheader, hblock⟩ := h
      rw [ComponentValue.outlines_inj hheader, optional_inj (fun _ _ => Block.outline_inj) hblock]
    | qualified => simp [outline] at h
  | qualified header block =>
    cases r' with
    | qualified header' block' =>
      simp only [outline, Outline.optional, tagged_inj, record_inj, List.cons.injEq,
        Prod.mk.injEq, list_inj, true_and, and_true] at h
      rw [ComponentValue.outlines_inj h.1, Block.outline_inj h.2]
    | atRule => simp [outline] at h

theorem isProper_outline (r : Rule) : r.outline.IsProper := by
  have hheader (header : List ComponentValue) :
      (Outline.list (ComponentValue.outlines header)).IsProper :=
    isProper_list (ComponentValue.isProper_outlines header)
  cases r with
  | atRule name header block =>
    refine isProper_tagged (by decide +kernel) (isProper_record (by decide +kernel)
      ⟨isProperPart (by decide +kernel) (isProper_ofText name),
        isProperPart (by decide +kernel) (hheader header),
        isProperPart (by decide +kernel) (isProper_optional fun o ho => ?_)⟩)
    obtain ⟨b, -, rfl⟩ := Option.map_eq_some_iff.1 ho
    exact b.isProper_outline
  | qualified header block =>
    refine isProper_tagged (by decide +kernel) (isProper_record (by decide +kernel)
      ⟨isProperPart (by decide +kernel) (hheader header),
        isProperPart (by decide +kernel) (isProper_optional ?_)⟩)
    rintro o ⟨⟩
    exact block.isProper_outline

end Rule

namespace Stylesheet

/-- **A style sheet is known by its outline.** -/
theorem outline_inj {s s' : Stylesheet} (h : s.outline = s'.outline) : s = s' := by
  simp only [outline, record_inj, List.cons.injEq, Prod.mk.injEq, list_inj, true_and,
    and_true] at h
  cases s
  cases s'
  rw [mk.injEq]
  exact List.map_injective_iff.2 (fun _ _ => Rule.outline_inj) h

theorem isProper_outline (s : Stylesheet) : s.outline.IsProper := by
  refine isProper_record (by decide +kernel)
    (isProperPart (by decide +kernel) (isProper_list fun o ho => ?_))
  obtain ⟨r, -, rfl⟩ := List.mem_map.1 ho
  exact r.isProper_outline

end Stylesheet

/-! ### Dumps -/

namespace Dump

/-- The first line of a dump of tokens. -/
def tokensHeader : Text := "---- CSS Tokens ----".toList

variable {hidden : Char → Bool}

theorem not_mem_inline {o : Outline} (ho : o.IsProper) : '\n' ∉ o.inline hidden := fun h =>
  absurd (isControl_of_mem_inline ho h) (by decide)

/-- Lines without line breaks, each with one behind it, are the lines of the whole. -/
theorem splitOn_lines {ls : List Text} (h : ∀ l ∈ ls, '\n' ∉ l) :
    (ls.flatMap fun l => l ++ ['\n']).splitOn '\n' = ls ++ [[]] := by
  induction ls with
  | nil => rfl
  | cons l ls ih =>
    rw [List.forall_mem_cons] at h
    have hplain : ∀ c ∈ l, (c == '\n') = false := by
      intro c hc
      rw [beq_eq_false_iff_ne]
      rintro rfl
      exact h.1 hc
    rw [List.flatMap_cons, List.append_assoc, List.singleton_append, List.splitOn,
      List.splitOnP_append_cons_of_forall_mem hplain '\n' rfl, ← List.splitOn, ih h.2,
      List.cons_append]

/-- **Each token has a line of its own**, in its place. -/
theorem splitOn_ofTokens (ts : List Token) (hidden : Char → Bool) :
    (ofTokens ts hidden).splitOn '\n' =
      tokensHeader :: (ts.map fun t => t.outline.inline hidden) ++ [[]] := by
  have hlines : ofTokens ts hidden =
      (tokensHeader :: ts.map fun t => t.outline.inline hidden).flatMap fun l => l ++ ['\n'] := by
    rw [List.flatMap_cons, List.flatMap_map]
    rfl
  rw [hlines, splitOn_lines]
  rw [List.forall_mem_cons]
  refine ⟨by decide +kernel, fun l hl => ?_⟩
  obtain ⟨t, -, rfl⟩ := List.mem_map.1 hl
  exact not_mem_inline t.isProper_outline

theorem ofTokens_inj {ts ts' : List Token} (h : ofTokens ts hidden = ofTokens ts' hidden) :
    ts = ts' := by
  have hline : Function.Injective fun t : Token => t.outline.inline hidden := fun t t' ht =>
    Token.outline_inj (inline_inj t.isProper_outline t'.isProper_outline ht)
  have hsplit := congrArg (List.splitOn '\n') h
  rw [splitOn_ofTokens, splitOn_ofTokens] at hsplit
  exact List.map_injective_iff.2 hline (List.cons.inj (List.append_cancel_right hsplit)).2

/-- **The dumps are faithful**, whichever characters are hidden in them. The dump of tokens
has one line for each token behind its header, and none of these lines has a line break or
another control character in it. No two lists of tokens have the same dump, and no two
style sheets are written alike, neither on one line nor indented; nor are any other two
proper outlines. -/
theorem dump_faithful (hidden : Char → Bool) :
    (∀ ts : List Token, (ofTokens ts hidden).splitOn '\n' =
      tokensHeader :: (ts.map fun t => t.outline.inline hidden) ++ [[]]) ∧
    (∀ t : Token, '\n' ∉ t.outline.inline hidden ∧
      ∀ c ∈ t.outline.inline hidden, Quote.isControl c = false) ∧
    (∀ ts ts' : List Token, ofTokens ts hidden = ofTokens ts' hidden → ts = ts') ∧
    (∀ s s' : Stylesheet, s.outline.inline hidden = s'.outline.inline hidden → s = s') ∧
    (∀ s s' : Stylesheet, s.outline.indented hidden = s'.outline.indented hidden → s = s') ∧
    (∀ s s' : Stylesheet, ofStylesheet s hidden = ofStylesheet s' hidden → s = s') ∧
    ∀ o o' : Outline, o.IsProper → o'.IsProper →
      (o.inline hidden = o'.inline hidden → o = o') ∧
      (o.indented hidden = o'.indented hidden → o = o') := by
  have hindented (s s' : Stylesheet) (h : s.outline.indented hidden = s'.outline.indented hidden) :
      s = s' :=
    Stylesheet.outline_inj (indented_inj s.isProper_outline s'.isProper_outline h)
  refine ⟨fun ts => splitOn_ofTokens ts hidden, fun t => ⟨not_mem_inline t.isProper_outline,
    fun _ => isControl_of_mem_inline t.isProper_outline⟩, fun _ _ => ofTokens_inj, fun s s' h =>
    Stylesheet.outline_inj (inline_inj s.isProper_outline s'.isProper_outline h), hindented,
    fun s s' h => hindented s s' ?_, fun o o' ho ho' => ⟨inline_inj ho ho', indented_inj ho ho'⟩⟩
  unfold ofStylesheet at h
  exact List.append_cancel_left (List.append_cancel_right h)

end Dump

end CssReader
