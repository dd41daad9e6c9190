/-
# One fault for each call

A fault that cannot be skipped ends a call, and the next call on the same cursor
goes on right behind it. So calls on one cursor meet these faults one by one, in
the order in which the walk over the text meets them, whatever is called: after
as many calls as there are such faults the rest of the text is read without one,
and after that there is nothing left to read.

`Cursor.halts` lists the faults from the walk. The induction over the calls
needs only what one call does: it takes the first of them off
(`Outcome.ReadsAll.halt`), or, if there is none, comes to the end of the text.

Key definitions: `Outcome.halt?`, `Cursor.halts`, `Cursor.Resumes`.
Key theorems: `Cursor.tokens_halts`, `Cursor.script_resumes`, `Cursor.halts_one_by_one`.
-/
import CssReader.Proofs.Calls

namespace CssReader

namespace Outcome

/-- The fault that a step met and the cursor right behind it, unless the fault is
one that readers skip. -/
def halt? (o : Outcome (Option Token)) : Option (Fault × Cursor) :=
  match o.result with
  | .ok _ => none
  | .error f => if f.isRecoverable then none else some (f, o.cursor)

theorem halt?_ok {o : Outcome (Option Token)} {t? : Option Token} (h : o.result = .ok t?) :
    o.halt? = none := by
  simp [halt?, h]

theorem halt?_skipped {o : Outcome (Option Token)} {f : Fault} (h : o.result = .error f)
    (hf : f.isRecoverable = true) : o.halt? = none := by
  simp [halt?, h, hf]

theorem halt?_fault {o : Outcome (Option Token)} {f : Fault} (h : o.result = .error f)
    (hf : f.isRecoverable = false) : o.halt? = some (f, o.cursor) := by
  simp [halt?, h, hf]

theorem after_bind {α β : Type} {o : Outcome α} {es : List Event} {f : α → Cursor → Outcome β} :
    (o.after es).bind f = (o.bind f).after es := by
  rcases o with ⟨_ | a, c, es'⟩
  · rfl
  · simp [bind, after]

end Outcome

namespace Cursor

variable {c : Cursor}

/-- The faults in front of the cursor that cannot be skipped, in their order, each
with the cursor right behind it. -/
def halts (c : Cursor) : List (Fault × Cursor) := c.walk.filterMap Outcome.halt?

theorem halts_end (h : c.next.result = .ok none) : c.halts = [] := by
  rw [halts, walk, dif_pos (Outcome.isEnd_iff.2 h)]
  simp [Outcome.halt?_ok h]

/-- The faults in front of a cursor are the one met next, if one is, and those
behind it. -/
theorem halts_step (h : c.next.result ≠ .ok none) :
    c.halts = c.next.halt?.toList ++ c.next.cursor.halts := by
  rw [halts, walk, dif_neg (mt Outcome.isEnd_iff.1 h), List.filterMap_cons]
  cases c.next.halt? <;> rfl

/-! ### Tokens up to a fault -/

/-- A malformed url does not change which tokens come. -/
theorem tokens_skip {f : Fault} (h : c.next.result = .error f) (hf : f.isRecoverable = true) :
    c.tokens.result = c.next.cursor.tokens.result ∧
      c.tokens.cursor = c.next.cursor.tokens.cursor := by
  rw [tokens_eq c, tokens_eq c.next.cursor, pull_of_skipped .tokens h hf, Outcome.after_bind]
  exact ⟨rfl, rfl⟩

/-- A fault that cannot be skipped ends the tokens, with nothing in front of it. -/
theorem tokens_fault {f : Fault} (h : c.next.result = .error f) (hf : f.isRecoverable = false) :
    c.tokens.result = .error f ∧ c.tokens.cursor = c.next.cursor := by
  have hp : c.pull .trees = c.next := pull_of_fault .trees h (by simp [hf])
  have hr := tokens_of_pull_error (c := c) (hp ▸ h)
  rw [hp] at hr
  exact hr

/-- **The tokens end with the first fault that cannot be skipped**, and right
behind it; the other faults are then still in front. Without one they are read
to the end. -/
theorem tokens_halts (c : Cursor) :
    (c.halts = [] ∧ ∃ ts, c.tokens.result = .ok ts) ∨
      ∃ f, c.tokens.result = .error f ∧
        c.halts = (f, c.tokens.cursor) :: c.tokens.cursor.halts := by
  fun_induction walk c with
  | case1 c hend =>
    rw [Outcome.isEnd_iff] at hend
    have hp : (c.pull .trees).Gives none c.next.cursor := by
      rw [pull_of_ok .trees hend]
      exact ⟨hend, rfl⟩
    exact .inl ⟨halts_end hend, [], (tokens_of_pull_none hp).result⟩
  | case2 c hend ih =>
    rw [Outcome.isEnd_iff] at hend
    have hstep := halts_step hend
    rcases hr : c.next.result with f | t?
    · by_cases hf : f.isRecoverable = true
      · obtain ⟨hres, hcur⟩ := tokens_skip hr hf
        rw [Outcome.halt?_skipped hr hf] at hstep
        rw [hstep, hres, hcur]
        exact ih
      · rw [Bool.not_eq_true] at hf
        obtain ⟨hres, hcur⟩ := tokens_fault hr hf
        rw [Outcome.halt?_fault hr hf] at hstep
        rw [hcur]
        exact .inr ⟨f, hres, hstep⟩
    · obtain ⟨t, rfl⟩ : ∃ t, t? = some t := by
        rcases t? with _ | t
        · exact absurd hr hend
        · exact ⟨t, rfl⟩
      have hp : (c.pull .trees).Gives (some t) c.next.cursor := by
        rw [pull_of_ok .trees hr]
        exact ⟨hr, rfl⟩
      obtain ⟨hres, hcur⟩ := reads_of_pull hp
      rw [Outcome.halt?_ok hr] at hstep
      rw [hstep, hres, hcur]
      rcases ih with ⟨hnone, ts, hts⟩ | ⟨f, hf, hrest⟩
      · exact .inl ⟨hnone, [t] ++ ts, by rw [hts]; rfl⟩
      · exact .inr ⟨f, by rw [hf]; rfl, hrest⟩

/-- A fault that ends the tokens is no malformed url. -/
theorem tokens_fault_kind {f : Fault} (h : c.tokens.result = .error f) :
    f.kind ≠ .malformedUrl := by
  rcases c.tokens_halts with ⟨-, ts, hts⟩ | ⟨f', hf', hhalts⟩
  · rw [h] at hts
    simp at hts
  · obtain rfl : f = f' := Except.error.inj (h.symm.trans hf')
    have hmem : (f, c.tokens.cursor) ∈ c.halts := by
      rw [hhalts]
      exact List.mem_cons_self
    obtain ⟨o, -, ho⟩ := List.mem_filterMap.1 hmem
    unfold Outcome.halt? at ho
    split at ho
    · simp at ho
    · rename_i f' hof
      by_cases hr : f'.isRecoverable = true
      · simp [hr] at ho
      · rw [if_neg hr] at ho
        obtain rfl : f' = f := (Prod.mk.inj (Option.some.inj ho)).1
        simpa [Fault.isRecoverable] using hr

/-! ### Calls -/

/-- Calls on the cursor in front of the text `s` answer with its faults, one each,
and leave the cursor right behind them; the next call gives what is left, up to
the end of the text, and the calls after that give nothing more. -/
def Resumes {α : Type} (s : Text) (isEmpty : α → Bool) (os : List (Outcome α)) : Prop :=
  ∀ i o, os[i]? = some o →
    (∀ f c, (ofText s).halts[i]? = some (f, c) → o.result = .error f ∧ o.cursor = c) ∧
    ((ofText s).halts.length ≤ i → ∃ a, o.result = .ok a ∧ o.cursor.rest = [] ∧
      o.cursor.position = Text.size s ∧ ((ofText s).halts.length < i → isEmpty a))

end Cursor

namespace Outcome.ReadsAll

variable {α : Type} {o : Outcome α} {c : Cursor}

/-- What one call does: it answers with the first fault and leaves the others in
front of it, or there is none, and it comes to the end. -/
theorem halt (h : o.ReadsAll c) :
    (c.halts = [] ∧ (∃ a, o.result = .ok a) ∧ o.cursor.AtEnd) ∨
      ∃ f, o.result = .error f ∧ c.halts = (f, o.cursor) :: o.cursor.halts := by
  rcases c.tokens_halts with ⟨hnone, ts, hts⟩ | ⟨f, hf, hhalts⟩
  · refine .inl ⟨hnone, ?_, h.cursor ▸ Cursor.tokens_atEnd hts⟩
    rcases hr : o.result with f | a
    · rw [(h.error f).1 hr] at hts
      simp at hts
    · exact ⟨a, rfl⟩
  · rw [← h.cursor] at hhalts
    exact .inr ⟨f, (h.error f).2 hf, hhalts⟩

end Outcome.ReadsAll

namespace Cursor

/-- Calls on a cursor at the end of its text stay there, and give nothing. -/
theorem script_atEnd {κ α : Type} {run : κ → Cursor → Outcome α} {isEmpty : α → Bool}
    (hall : ∀ k c, (run k c).ReadsAll c)
    (hempty : ∀ k c a, c.AtEnd → (run k c).result = .ok a → isEmpty a)
    {ks : List κ} {c : Cursor} (hc : c.AtEnd) :
    ∀ o ∈ script run ks c, ∃ a, o.result = .ok a ∧ isEmpty a ∧ o.cursor = c := by
  have hcur : ∀ k, (run k c).cursor = c := fun k => by
    rw [(hall k c).cursor, hc.tokens]
  induction ks with
  | nil => simp [script]
  | cons k ks ih =>
    intro o ho
    rcases List.mem_cons.1 ho with rfl | ho
    · rcases (hall k c).halt with ⟨-, ⟨a, ha⟩, -⟩ | ⟨f, -, hhalts⟩
      · exact ⟨a, ha, hempty k c a hc ha, hcur k⟩
      · rw [halts_end (congrArg Outcome.result hc.next)] at hhalts
        simp at hhalts
    · rw [hcur k] at ho
      exact ih o ho

/-- The run of a script against the faults in front of its cursor. -/
theorem script_halts {κ α : Type} {run : κ → Cursor → Outcome α} {isEmpty : α → Bool}
    (hall : ∀ k c, (run k c).ReadsAll c)
    (hempty : ∀ k c a, c.AtEnd → (run k c).result = .ok a → isEmpty a)
    {ks : List κ} {c : Cursor} {i : Nat} {o : Outcome α} (h : (script run ks c)[i]? = some o) :
    (∀ f c', c.halts[i]? = some (f, c') → o.result = .error f ∧ o.cursor = c') ∧
      (c.halts.length ≤ i → ∃ a, o.result = .ok a ∧ o.cursor.AtEnd ∧
        (c.halts.length < i → isEmpty a)) := by
  induction ks generalizing c i with
  | nil => simp [script] at h
  | cons k ks ih =>
    rw [script] at h
    rcases (hall k c).halt with ⟨hnone, ⟨a, ha⟩, hend⟩ | ⟨f, hf, hhalts⟩
    · rw [hnone]
      refine ⟨by simp, fun _ => ?_⟩
      rcases i with _ | i
      · obtain rfl := Option.some.inj h
        exact ⟨a, ha, hend, by simp⟩
      · obtain ⟨b, hb, he, hcur⟩ := script_atEnd hall hempty hend o (List.mem_of_getElem? h)
        exact ⟨b, hb, hcur ▸ hend, fun _ => he⟩
    · rw [hhalts]
      rcases i with _ | i
      · obtain rfl := Option.some.inj h
        refine ⟨fun f' c' heq => ?_, by simp⟩
        obtain ⟨rfl, rfl⟩ := Prod.mk.inj (Option.some.inj heq)
        exact ⟨hf, rfl⟩
      · obtain ⟨herr, hok⟩ := ih h
        refine ⟨herr, fun hle => ?_⟩
        simp only [List.length_cons, Nat.add_le_add_iff_right, Nat.add_lt_add_iff_right] at hle ⊢
        exact hok hle

/-- A cursor moved by calls that read all there is still knows where it is. -/
theorem script_kept {κ α : Type} {run : κ → Cursor → Outcome α} {s : Text}
    (hall : ∀ k c, (run k c).ReadsAll c) {ks : List κ} {c : Cursor} (hc : c.Kept s) :
    ∀ o ∈ script run ks c, o.cursor.Kept s := by
  induction ks generalizing c with
  | nil => simp [script]
  | cons k ks ih =>
    have hk : (run k c).cursor.Kept s := (hall k c).cursor ▸ hc.tokens
    intro o ho
    rcases List.mem_cons.1 ho with rfl | ho
    · exact hk
    · exact ih hk o ho

theorem script_resumes {κ α : Type} {run : κ → Cursor → Outcome α} {isEmpty : α → Bool}
    (hall : ∀ k c, (run k c).ReadsAll c)
    (hempty : ∀ k c a, c.AtEnd → (run k c).result = .ok a → isEmpty a) (ks : List κ) (s : Text) :
    Resumes s isEmpty (script run ks (ofText s)) := by
  intro i o ho
  obtain ⟨herr, hok⟩ := script_halts hall hempty ho
  refine ⟨herr, fun hle => ?_⟩
  obtain ⟨a, ha, hend, he⟩ := hok hle
  have hkept := script_kept hall (Kept.ofText s) o (List.mem_of_getElem? ho)
  exact ⟨a, ha, hend.rest, hkept.position_of_atEnd hend, he⟩

end Cursor

theorem Entry.read_atEnd {e : Entry} {c : Cursor} {t : Tree} (hc : c.AtEnd)
    (h : (e.read c).result = .ok t) : t.isEmpty = true := by
  have hvs : c.componentValues.result = .ok [] := by
    have hp : (c.pull .trees).Gives none c := by
      rw [hc.pull]
      exact ⟨rfl, rfl⟩
    exact (Cursor.componentValues_gives_iff.2 (.finish hp)).result
  rw [e.read_result, hvs] at h
  obtain rfl := Except.ok.inj h
  exact e.tree_nil

namespace Cursor

/-- **Whatever is called on a cursor, each call answers with the next fault that
cannot be skipped**, until there are none left and the text has been read. That
goes for any mixture of the entries, and for the tokens. None of them ever
answers with a malformed url, wherever its cursor is. -/
theorem halts_one_by_one (s : Text) :
    (∀ es : List Entry, Resumes s Tree.isEmpty (script Entry.read es (ofText s))) ∧
      (∀ n : Nat, Resumes s List.isEmpty
        (script (fun _ : Unit => Cursor.tokens) (List.replicate n ()) (ofText s))) ∧
      ∀ (c : Cursor) (f : Fault),
        (c.tokens.result = .error f → f.kind ≠ .malformedUrl) ∧
          ∀ e : Entry, (e.read c).result = .error f → f.kind ≠ .malformedUrl := by
  refine ⟨fun es => ?_, fun n => ?_, fun c f => ⟨tokens_fault_kind, fun e he => ?_⟩⟩
  · exact script_resumes Entry.read_readsAll (fun e c t => Entry.read_atEnd) es s
  · refine script_resumes (fun _ c => ⟨rfl, fun _ => Iff.rfl⟩) (fun _ c ts hc h => ?_) _ s
    rw [hc.tokens] at h
    obtain rfl := Except.ok.inj h
    rfl
  · exact tokens_fault_kind (((e.read_readsAll c).error f).1 he)

end Cursor
end CssReader
