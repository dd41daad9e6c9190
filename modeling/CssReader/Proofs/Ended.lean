/-
# Readings that the end of a text stops

A reading stops at a token. If the text ends in front of that token instead, the end stops
the reading, and the values are the same, with one exception. A malformed url right in front
of the token is skipped; cut off there it is a url that ends with the text, and one value
more (`Lexeme.read_ended`). Further on in front of the token a malformed url stays what it
is, because something of what makes it malformed is still behind it.

Key definitions: `Text.Skips`, `Cursor.SkipsUrl`.
Key theorems: `NextToken.of_malformed`, `NextToken.ended`, `Parses.ended`,
`Cursor.Reached.skips_iff`.
-/
import CssReader.Proofs.Lexeme.Ended
import CssReader.Proofs.RoundTrip

namespace CssReader

/-! ### Malformed urls in a text -/

/-- Reading the text lexeme by lexeme meets the malformed url `v`, which leaves `r`. -/
inductive Text.Skips : (s v r : Text) → Prop
  | here {s : Text} {l : Lexeme} : Lexeme.read (Comment.run s).2 = some l → l.IsMalformed →
    Skips s l.text l.rest
  | later {s v r : Text} {l : Lexeme} : Lexeme.read (Comment.run s).2 = some l →
    Skips l.rest v r → Skips s v r

/-- On the way to the end the malformed url `v` is met, which leaves `r`. -/
def Cursor.SkipsUrl (c : Cursor) (v r : Text) : Prop :=
  ∃ o ∈ c.walk, ∃ f, o.result = .error f ∧ f.isRecoverable = true ∧
    o.cursor.slice o.cursor.tokenStart o.cursor.position = v ∧ o.cursor.rest = r

theorem Lexeme.read_run_length_lt {s : Text} {l : Lexeme}
    (h : read (Comment.run s).2 = some l) : l.rest.length < s.length := by
  have hne := (read_split h).2
  exact Text.length_lt_of_split ⟨read_run_split h, by simp [hne]⟩

namespace Text.Skips

variable {s v r : Text} {l : Lexeme}

theorem length_lt (h : Skips s v r) : r.length < s.length := by
  induction h with
  | here hl _ => exact Lexeme.read_run_length_lt hl
  | later hl _ ih => exact ih.trans (Lexeme.read_run_length_lt hl)

/-- Either the first lexeme is the malformed url, or it is met behind that. -/
theorem cons_iff (hl : Lexeme.read (Comment.run s).2 = some l) :
    Skips s v r ↔ (l.IsMalformed ∧ l.text = v ∧ l.rest = r) ∨ Skips l.rest v r := by
  constructor
  · intro h
    cases h with
    | here hl' hm =>
      obtain rfl := Option.some.inj (hl.symm.trans hl')
      exact .inl ⟨hm, rfl, rfl⟩
    | later hl' h =>
      obtain rfl := Option.some.inj (hl.symm.trans hl')
      exact .inr h
  · rintro (⟨hm, rfl, rfl⟩ | h)
    · exact .here hl hm
    · exact .later hl h

theorem not_of_run_nil (h : (Comment.run s).2 = []) : ¬Skips s v r := by
  have hnone : Lexeme.read (Comment.run s).2 = none := by rw [h, Lexeme.read_eq_none]
  rintro (⟨hl, -⟩ | ⟨hl, -⟩) <;> simp [hnone] at hl

end Text.Skips

/-- The malformed urls of a text are the faults that are skipped on the way to its end. -/
theorem Cursor.Reached.skips_iff {source last v r : Text} {c : Cursor}
    (h : c.Reached source last) : Text.Skips c.rest v r ↔ c.SkipsUrl v r := by
  unfold SkipsUrl
  fun_induction walk c generalizing last with
  | case1 c hend =>
    rw [Outcome.isEnd_iff] at hend
    rcases h.next_cases with ⟨hrun, -⟩ | ⟨l, n, -, hres, -⟩
    · simp [Text.Skips.not_of_run_nil hrun, hend]
    · exact absurd (hres.symm.trans hend) (l.resultAt_ne_none n)
  | case2 c hend ih =>
    rw [Outcome.isEnd_iff] at hend
    rcases h.next_cases with ⟨-, hres, -⟩ | ⟨l, n, hl, hres, hrest, hc⟩
    · exact absurd hres hend
    · have htext : c.next.cursor.slice c.next.cursor.tokenStart c.next.cursor.position =
          l.text := by
        rw [hc.slice_eq (u := []) hc rfl, List.append_nil]
      have hfirst : (l.IsMalformed ∧ l.text = v ∧ l.rest = r) ↔ ∃ f, c.next.result = .error f ∧
          f.isRecoverable = true ∧ c.next.cursor.slice c.next.cursor.tokenStart
            c.next.cursor.position = v ∧ c.next.cursor.rest = r := by
        rw [hres, hrest, htext]
        simp only [Lexeme.resultAt_eq_error]
        constructor
        · rintro ⟨⟨f, hf, hrec⟩, hv, hr⟩
          exact ⟨f.shift n, ⟨f, hf, rfl⟩, hrec, hv, hr⟩
        · rintro ⟨-, ⟨f, hf, rfl⟩, hrec, hv, hr⟩
          exact ⟨⟨f, hf, hrec⟩, hv, hr⟩
      have ih := ih hc
      rw [hrest] at ih
      rw [Text.Skips.cons_iff hl, hfirst, ih]
      simp

/-! ### Malformed urls behind a reading -/

theorem NextToken.ne_nil {s span rest : Text} {t : Token} (h : NextToken s (some t) span rest) :
    s ≠ [] :=
  List.ne_nil_of_length_pos (Nat.zero_lt_of_lt h.length_lt)

/-- In front of a token nothing is left that is behind it. -/
theorem NextToken.skips_iff {s span rest v r : Text} {t? : Option Token}
    (h : NextToken s t? span rest) (hr : r ≠ []) (hle : r.length ≤ rest.length) :
    Text.Skips s v r ↔ Text.Skips rest v r := by
  induction h with
  | finish => exact absurd (List.length_eq_zero_iff.1 (Nat.le_zero.1 hle)) hr
  | token hl ht =>
    rw [Text.Skips.cons_iff hl]
    exact or_iff_right fun h => Lexeme.not_isMalformed_of_ok ht h.1
  | @skip s span rest l f t? hl hf hrec h ih =>
    rw [Text.Skips.cons_iff hl, ← ih hle]
    refine or_iff_right fun ⟨_, _, hrest⟩ => ?_
    rcases t? with _ | t
    · rw [h.rest_of_none] at hle
      exact hr (List.length_eq_zero_iff.1 (Nat.le_zero.1 hle))
    · have hlt := h.length_lt
      rw [hrest] at hlt
      omega

theorem Parses.skips_iff {stops : Token → Bool} {s rest v r : Text} {vs : List ComponentValue}
    {stop : Option Token} (h : Parses stops s vs stop rest) (hr : r ≠ [])
    (hle : r.length ≤ rest.length) : Text.Skips s v r ↔ Text.Skips rest v r := by
  induction h with
  | finish hn | stop hn _ => exact hn.skips_iff hr hle
  | token hn _ _ h ih =>
    have hle₁ := hle.trans h.suffix.length_le
    exact (hn.skips_iff hr hle₁).trans (ih hle)
  | node hn _ _ hi h ihi ih =>
    have hle₂ := hle.trans h.suffix.length_le
    have hle₁ := hle₂.trans hi.suffix.length_le
    exact (hn.skips_iff hr hle₁).trans ((ihi hle₂).trans (ih hle))

/-! ### The end in place of a token -/

/-- A malformed url with `r` behind it is a url to the end, if nothing is in the place of `r`. -/
theorem NextToken.of_malformed {s r : Text} {l : Lexeme}
    (hl : Lexeme.read (Comment.run (s ++ r)).2 = some l) (hr : l.rest = r)
    (hmal : l.IsMalformed) : l.text <:+ s ∧ NextToken s (some (.url l.text)) l.text [] := by
  have hsplit := (Lexeme.read_split hl).1
  rw [hr] at hsplit
  have hle : r.length ≤ (Comment.run (s ++ r)).2.length := by
    rw [← hsplit, List.length_append]
    exact Nat.le_add_left _ _
  obtain ⟨m, hm, hcut⟩ := run_cut rfl hle
  obtain rfl : l.text = m := List.append_cancel_right (hsplit.trans hm)
  rw [hm] at hl
  obtain ⟨u, hu, hrest, v, hv⟩ := Lexeme.read_ended hl hr hmal
  have htext : u.text = l.text := by
    have hsplit' := (Lexeme.read_split hu).1
    rwa [hrest, List.append_nil] at hsplit'
  obtain rfl : l.text = v := by
    have hshown := Lexeme.read_shows hu _ hv
    rw [Token.ShownBy, if_neg (by simp)] at hshown
    rw [← htext, hshown, Token.text]
  have hs := Comment.run_split s
  rw [hcut] at hs
  rw [← hcut] at hu
  have h := NextToken.token hu hv
  rw [htext, hrest] at h
  exact ⟨⟨_, hs⟩, h⟩

/-- **The end of a text in place of a token** is met where the token was; only a malformed
url right in front of the token is then a url. -/
theorem NextToken.ended {s span rest : Text} {t : Token} (h : NextToken s (some t) span rest) :
    ∃ m, s = m ++ (span ++ rest) ∧
      ((∀ v, ¬Text.Skips s v (span ++ rest)) → NextToken m none [] []) ∧
      ∀ v, Text.Skips s v (span ++ rest) → v <:+ m ∧ NextToken m (some (.url v)) v [] := by
  generalize hn : some t = t? at h
  induction h with
  | finish => simp at hn
  | @token s l t hl ht =>
    have hs := Lexeme.read_run_split hl
    rw [List.append_assoc] at hs
    refine ⟨(Comment.run s).1, hs.symm, fun _ => ?_, fun v hskip => ?_⟩
    · have hrun : (Comment.run ((Comment.run s).1 ++ (l.text ++ l.rest))).2 = l.text ++ l.rest := by
        rw [hs, (Lexeme.read_split hl).1]
      obtain ⟨m, hm, hcut⟩ := run_cut hrun (Nat.le_refl _)
      obtain rfl : m = [] := List.append_left_eq_self.1 hm.symm
      exact .finish hcut
    · rw [Text.Skips.cons_iff hl] at hskip
      rcases hskip with ⟨hm, -⟩ | hskip
      · exact absurd hm (Lexeme.not_isMalformed_of_ok ht)
      · have hlt := hskip.length_lt
        rw [List.length_append] at hlt
        omega
  | @skip s span rest l f t? hl hf hrec _ ih =>
    obtain ⟨m, hm, hno, hyes⟩ := ih hn
    generalize span ++ rest = r at hm hno hyes
    have hmal : l.IsMalformed := ⟨f, hf, hrec⟩
    have hs := Lexeme.read_run_split hl
    rw [hm, ← List.append_assoc] at hs
    refine ⟨(Comment.run s).1 ++ l.text ++ m, hs.symm, ?_⟩
    generalize hfront : (Comment.run s).1 ++ l.text ++ m = front at hs
    subst hs
    by_cases h0 : m = []
    · -- the malformed url is the last thing in front of the token
      subst h0
      refine ⟨fun hskip => absurd ((Text.Skips.cons_iff hl).2 (.inl ⟨hmal, rfl, hm⟩)) (hskip _),
        fun v hskip => ?_⟩
      rcases (Text.Skips.cons_iff hl).1 hskip with ⟨-, rfl, -⟩ | hskip
      · exact NextToken.of_malformed hl hm hmal
      · exact absurd hskip.length_lt (by simp [hm])
    · have hcut := lexeme_cut hl hm fun h => absurd h h0
      have hother (v : Text) : Text.Skips (front ++ r) v r ↔ Text.Skips l.rest v r := by
        rw [Text.Skips.cons_iff hl]
        refine or_iff_right ?_
        rintro ⟨-, -, hr⟩
        rw [hr] at hm
        exact h0 (List.append_left_eq_self.1 hm.symm)
      simp only [hother]
      refine ⟨fun hskip => .skip hcut hf hrec (hno hskip), fun v hskip => ?_⟩
      obtain ⟨hsuf, hv⟩ := hyes v hskip
      exact ⟨hsuf.trans ⟨_, hfront⟩, .skip hcut hf hrec hv⟩

/-- **The end of a text in place of the token that stops a reading** leaves the values as they
are; only a malformed url right in front of the token is one value more. -/
theorem Parses.ended {stops : Token → Bool} {s rest : Text} {vs : List ComponentValue} {t : Token}
    (h : Parses stops s vs (some t) rest) :
    ∃ m span, s = m ++ (span ++ rest) ∧ NextToken (span ++ rest) (some t) span rest ∧
      ((∀ v, ¬Text.Skips s v (span ++ rest)) → Parses (fun _ => false) m vs none []) ∧
      ∀ v, Text.Skips s v (span ++ rest) →
        v <:+ m ∧ Parses (fun _ => false) m (vs ++ [.token (.url v)]) none [] := by
  generalize hn : some t = stop at h
  induction h with
  | finish => simp at hn
  | stop h _ =>
    obtain rfl := Option.some.inj hn
    obtain ⟨m, hm, hno, hyes⟩ := h.ended
    refine ⟨m, _, hm, h.alone, fun hskip => .finish (hno hskip), fun v hskip => ?_⟩
    obtain ⟨hsuf, hv⟩ := hyes v hskip
    exact ⟨hsuf, .token hv rfl rfl (.finish .nil)⟩
  | @token stops s span' s₁ rest t' vs stop h _ ho _ ih =>
    subst hn
    obtain ⟨m, span, rfl, hstop, hno, hyes⟩ := ih rfl
    simp only [← h.skips_iff hstop.ne_nil (List.suffix_append m _).length_le] at hno hyes
    obtain ⟨pre, rfl⟩ := (List.suffix_append m (span ++ rest)).trans h.suffix
    have hpre : m <:+ pre := List.suffix_append_self_iff.1 h.suffix
    refine ⟨pre, span, rfl, hstop, fun hskip => .token h.cut rfl ho (hno hskip), fun v hskip => ?_⟩
    obtain ⟨hsuf, hv⟩ := hyes v hskip
    exact ⟨hsuf.trans hpre, .token h.cut rfl ho hv⟩
  | @node stops s span' u s₂ rest t' o inner vs close stop h _ ho hi _ ihi ih =>
    subst hn
    obtain ⟨m, span, rfl, hstop, hno, hyes⟩ := ih rfl
    have hle := (List.suffix_append m (span ++ rest)).length_le
    have hle' := hle.trans hi.suffix.length_le
    simp only [← hi.skips_iff hstop.ne_nil hle, ← h.skips_iff hstop.ne_nil hle'] at hno hyes
    rw [← List.append_assoc] at h hi
    obtain ⟨pre, rfl⟩ := (List.suffix_append (u ++ m) (span ++ rest)).trans h.suffix
    have hpre : m <:+ pre := (List.suffix_append u m).trans (List.suffix_append_self_iff.1 h.suffix)
    refine ⟨pre, span, rfl, hstop, fun hskip => .node h.cut rfl ho hi.cut (hno hskip),
      fun v hskip => ?_⟩
    obtain ⟨hsuf, hv⟩ := hyes v hskip
    exact ⟨hsuf.trans hpre, .node h.cut rfl ho hi.cut hv⟩

end CssReader
