/-
# Strings and urls in a text

Where a string begins in a text, and where a url begins, the next step takes what the
grammar says: a string up to the place that `Quoted.Ends` names, and a url in the form
that `Url.Form` finds. Whether the string was closed can be read off the log. No other
step gives a url or one of its faults.

A string that ends neither at its quote nor in front of a line break ends with the text,
except in front of a backslash that is the last character of the text. That backslash is
left, and the next step takes it.

Key theorems: `Cursor.Kept.next_at`, `Cursor.Kept.next_url`, `Cursor.Reachable.string_ends`,
`Cursor.Reachable.url_formed`.
-/
import CssReader.Proofs.Lexeme.UrlForm
import CssReader.Proofs.Restart
import CssReader.Proofs.Trace

namespace CssReader

open Url (IsBlanks Tail Form)

namespace Lexeme

/-- A string begins at a quote. -/
theorem read_quote {q : Char} (hq : isQuote q = true) (t : Text) :
    read (q :: t) = some ⟨(Quoted.read q t).text, (Quoted.read q t).rest,
      .ok (.string (Quoted.read q t).text), openString 0 (Quoted.read q t)⟩ := by
  have hrange : unicodeRange? (q :: t) = none := by
    apply unicodeRange?_none
    rw [isQuote, Bool.or_eq_true, decide_eq_true_eq, decide_eq_true_eq] at hq
    rcases hq with rfl | rfl <;> decide
  rw [read, productions, List.findSome?_cons, hrange, List.findSome?_cons, string?, if_pos hq]

/-- The end of a url tells of no string. -/
theorem openString_mem_endUrl {text rest : Text} {ws : List Warning} {n : Nat} :
    ⟨.openString, n⟩ ∈ (endUrl text rest ws).warnings ↔ ⟨.openString, n⟩ ∈ ws := by
  unfold endUrl
  split
  · simp
  · split <;> rfl

/-- A url with a string as its target tells of that string if it is open. -/
theorem openString_mem_readUrl {q : Char} (hq : isQuote q = true) {b : Text} (hb : IsBlanks b)
    (text t : Text) : ⟨.openString, Text.size (text ++ b)⟩ ∈
      (readUrl text (b ++ q :: t)).warnings ↔ (Quoted.read q t).closed = false := by
  obtain ⟨htake, hdrop⟩ :=
    Text.span_append (u := q :: t) hb (by simpa using Quoted.isQuote_not_blank hq)
  rw [readUrl_quote hdrop hq, htake, quotedUrlEnd, openString_mem_endUrl, mem_openString]
  exact and_iff_left rfl

end Lexeme

/-- What a step gives that meets a url behind the text `before`: the token, or the fault
at the end of what the url has taken. -/
def Url.found (before taken : Text) : Option FaultKind → Except Fault (Option Token)
  | none => .ok (some (.url taken))
  | some k => .error ⟨k, Text.size (before ++ taken)⟩

theorem Lexeme.IsUrl.resultAt {l : Lexeme} {taken wrong rest : Text} {fault? : Option FaultKind}
    (h : l.IsUrl taken wrong fault? rest) (before : Text) :
    l.resultAt (Text.size before) = Url.found before taken fault? := by
  rw [Lexeme.resultAt, h.result]
  cases fault? with
  | none => rfl
  | some k => simp [Url.result, Url.found, Fault.shift]

namespace Cursor

variable {c : Cursor} {s before last t : Text} {l : Lexeme}

/-! ### The step at a place of the text -/

/-- A step tells that a comment was found open, and then what its lexeme tolerates. -/
theorem Behind.next_events (h : c.Behind before last) (hp : c.pending = none)
    (hl : Lexeme.read (Comment.run c.rest).2 = some l) :
    ∃ es, (∀ ev ∈ es, ∃ n, ev = .warning .tokens ⟨.openComment, n⟩) ∧
      c.next.events =
        es ++ l.warnings.map fun w => .warning .tokens (w.shift c.next.cursor.tokenStart) := by
  obtain ⟨events, openComment, hstart, -⟩ := h.start
  have hnext : c.next = c.skipComments.noteOpenComment.1.outcomeOf events l := by
    rw [next_of_pending hp, hstart, hl]
  refine ⟨events, ?_, by rw [hnext, hstart]; rfl⟩
  have hevents : c.skipComments.noteOpenComment.2 = events := congrArg Prod.snd hstart
  intro ev hev
  rw [← hevents] at hev
  unfold noteOpenComment at hev
  split at hev
  · exact ⟨_, List.mem_singleton.1 hev⟩
  · simp at hev

/-- A step that reads something begins in front of it. -/
theorem Kept.next_place (h : c.Kept s) :
    ∃ before t, s = before ++ t ∧ c.next.cursor.tokenStart = Text.size before := by
  obtain ⟨hsource, before, last, hb⟩ := h.next
  refine ⟨before, last ++ c.next.cursor.rest, ?_, hb.tokenStart⟩
  rw [← hsource, hb.source, List.append_assoc]

/-- **The lexeme at the place where a step begins is what the step gives**, unless that is the
end of the text. -/
theorem Kept.next_at (h : c.Kept s) (hp : c.pending = none) (hs : s = before ++ t)
    (hstart : c.next.cursor.tokenStart = Text.size before) :
    (t = [] ∧ c.next.result = .ok none) ∨
    ∃ l, Lexeme.read t = some l ∧ c.next.result = l.resultAt (Text.size before) ∧
      c.next.cursor.rest = l.rest ∧ c.next.cursor.position = Text.size (before ++ l.text) ∧
      ∀ n, .warning .tokens ⟨.openString, Text.size before + n⟩ ∈ c.next.events ↔
        ⟨.openString, n⟩ ∈ l.warnings := by
  obtain ⟨hsource, front, last, hb⟩ := h
  have hall : before ++ t = front ++ last ++ (Comment.run c.rest).1 ++ (Comment.run c.rest).2 := by
    rw [List.append_assoc _ _ (Comment.run c.rest).2, Comment.run_split, ← hb.source, hsource, hs]
  rcases hb.next_cases hp with ⟨hnil, hres, -, -, hb'⟩ | ⟨l, hl, hres, hrest, -, hb'⟩
  · have hrun := Comment.run_split c.rest
    rw [hnil, List.append_nil] at hrun
    rw [hb'.tokenStart, ← hrun] at hstart
    rw [hnil, List.append_nil] at hall
    have hnone := (Text.append_inj (hall.trans (List.append_nil _).symm) hstart.symm).2
    exact .inl ⟨hnone, hres⟩
  · have hplace := hb'.tokenStart
    rw [hstart] at hplace
    obtain ⟨rfl, rfl⟩ := Text.append_inj hall hplace
    obtain ⟨es, hes, hevents⟩ := hb.next_events hp hl
    refine .inr ⟨l, hl, hres, hrest, hb'.position, fun n => ?_⟩
    rw [hevents, List.mem_append, hstart]
    constructor
    · rintro (hmem | hmem)
      · obtain ⟨m, hm⟩ := hes _ hmem
        simp at hm
      · obtain ⟨⟨mistake, m⟩, hw, hshift⟩ := List.mem_map.1 hmem
        simp only [Warning.shift, Event.warning.injEq, Warning.mk.injEq, true_and,
          Nat.add_left_cancel_iff] at hshift
        obtain ⟨rfl, rfl⟩ := hshift
        exact hw
    · intro hw
      exact .inr (List.mem_map.2 ⟨_, hw, rfl⟩)

/-- **A url at the place where a step begins is read in the form that its text has.** -/
theorem Kept.next_url (h : c.Kept s) (hp : c.pending = none)
    (hstart : c.next.cursor.tokenStart = Text.size before) {name u taken wrong rest : Text}
    {fault? : Option FaultKind} (hn : Lexeme.isUrlName name = true)
    (hs : s = before ++ (name ++ '(' :: u)) (hform : Form u taken wrong fault? rest) :
    c.next.result = Url.found before (name ++ '(' :: taken) fault? ∧ c.next.cursor.rest = rest ∧
      c.next.cursor.position = Text.size (before ++ (name ++ '(' :: (taken ++ wrong))) ∧
      ∀ n, .warning .tokens ⟨.openString, Text.size before + n⟩ ∈ c.next.events ↔
        ⟨.openString, n⟩ ∈ (Lexeme.readUrl (name ++ ['(']) u).warnings := by
  obtain ⟨l, hl, hres, hrest, hpos, hevents⟩ := (h.next_at hp hs hstart).resolve_left (by simp)
  rw [Lexeme.read_urlName hn] at hl
  obtain rfl := Option.some.inj hl
  have hurl := hform.readUrl (name ++ ['('])
  have htext := hurl.text
  rw [List.append_assoc, List.append_assoc, List.singleton_append] at htext
  rw [List.append_assoc, List.singleton_append] at hurl
  exact ⟨hres.trans (hurl.resultAt before), hrest.trans hurl.rest, by rw [hpos, htext], hevents⟩

namespace Reachable

/-! ### Strings -/

/-- **A string ends where its text says**, alone or as the target of a url, and it is in
the log whether it was closed. -/
theorem string_ends (h : Reachable s c) (hp : c.pending = none)
    (hstart : c.next.cursor.tokenStart = Text.size before) {q : Char} (hq : isQuote q = true) :
    (s = before ++ q :: t → ∃ taken closed rest, Quoted.Ends q t taken closed rest ∧
      c.next.result = .ok (some (.string (q :: taken))) ∧ c.next.cursor.rest = rest ∧
      c.next.cursor.position = Text.size (before ++ q :: taken) ∧
      (.warning .tokens ⟨.openString, Text.size before⟩ ∈ c.next.events ↔ closed = false)) ∧
    ∀ name b, Lexeme.isUrlName name = true → IsBlanks b →
      s = before ++ (name ++ '(' :: (b ++ q :: t)) →
      ∃ string closed left tail fault? rest, Quoted.Ends q t string closed left ∧
        Tail left tail fault? rest ∧
        c.next.result = Url.found before (name ++ '(' :: (b ++ q :: string ++ tail)) fault? ∧
        c.next.cursor.rest = rest ∧
        c.next.cursor.position =
          Text.size (before ++ (name ++ '(' :: (b ++ q :: string ++ tail))) ∧
        (.warning .tokens ⟨.openString, Text.size (before ++ (name ++ '(' :: b))⟩ ∈
          c.next.events ↔ closed = false) := by
  refine ⟨fun hs => ?_, fun name b hn hb hs => ?_⟩
  · obtain ⟨l, hl, hres, hrest, hpos, hevents⟩ :=
      (h.kept.next_at hp hs hstart).resolve_left (by simp)
    obtain ⟨taken, hends, htaken⟩ := Quoted.exists_ends hq t
    rw [Lexeme.read_quote hq] at hl
    obtain rfl := Option.some.inj hl
    rw [htaken] at hres hpos
    refine ⟨taken, _, _, hends, hres, hrest, hpos, ?_⟩
    have hopen := hevents 0
    rw [Nat.add_zero, Lexeme.mem_openString] at hopen
    rw [hopen]
    exact and_iff_left rfl
  · obtain ⟨string, hends, -⟩ := Quoted.exists_ends hq t
    obtain ⟨tail, fault?, rest, htail⟩ := Url.exists_tail (Quoted.read q t).rest
    obtain ⟨hres, hrest, hpos, hevents⟩ :=
      h.kept.next_url hp hstart hn hs (.quoted hb hq hends htail)
    rw [List.append_nil] at hpos
    refine ⟨string, _, _, tail, fault?, rest, hends, htail, hres, hrest, hpos, ?_⟩
    have hopen := Lexeme.openString_mem_readUrl hq hb (name ++ ['(']) t
    rw [List.append_assoc, List.singleton_append] at hopen
    rw [Text.size_append, hevents, hopen]

/-- A quote, a character and a backslash: nothing ends the string in front of the end of
the text, and it ends one byte before that. -/
theorem string_ends_backslash :
    Quoted.Plain '"' ['a', '\\'] ∧
      (Cursor.ofText ['"', 'a', '\\']).next.result = .ok (some (.string ['"', 'a'])) ∧
      (Cursor.ofText ['"', 'a', '\\']).next.cursor.position = 2 ∧
      Text.size ['"', 'a', '\\'] = 3 := by
  refine ⟨?_, by with_unfolding_all rfl, by with_unfolding_all rfl, rfl⟩
  rw [Quoted.plain_cons (by decide)]
  refine ⟨by decide, fun front c behind hs hc => ?_⟩
  -- the backslash is the one character left, and is neither a quote nor a line break
  rcases front with _ | ⟨d, front⟩
  · obtain ⟨rfl, -⟩ := List.cons.inj hs
    exact absurd hc (by decide)
  · simp at hs

/-- Behind a comment, a string with an escaped quote in it that is cut off by a line break. -/
theorem string_ends_line_break :
    let s := ['/', '*', '*', '/', '"', '\\', '"', '\n']
    let c := Cursor.ofText s
    Reachable s c ∧ c.pending = none ∧ c.next.cursor.tokenStart = Text.size ['/', '*', '*', '/'] ∧
      ∃ taken closed rest, Quoted.Ends '"' ['\\', '"', '\n'] taken closed rest ∧
        c.next.result = .ok (some (.string ('"' :: taken))) ∧ c.next.cursor.rest = rest ∧
        c.next.cursor.position = Text.size (['/', '*', '*', '/'] ++ '"' :: taken) ∧
        (.warning .tokens ⟨.openString, 4⟩ ∈ c.next.events ↔ closed = false) := by
  intro s c
  have h : Reachable s c := .ofText
  have hp : c.pending = none := rfl
  have hstart : c.next.cursor.tokenStart = Text.size ['/', '*', '*', '/'] := by
    with_unfolding_all rfl
  exact ⟨h, hp, hstart, (h.string_ends hp hstart rfl).1 rfl⟩

/-! ### Urls -/

/-- **A url is read in the form that its text has**, and its token is the slice of the text
that it takes. Nothing else is a url, or is found to be a wrong one. -/
theorem url_formed (h : Reachable s c) (hp : c.pending = none) (hs : s = before ++ t)
    (hstart : c.next.cursor.tokenStart = Text.size before) :
    (∀ name u, Lexeme.isUrlName name = true → t = name ++ '(' :: u →
      ∃ taken wrong fault? rest, Form u taken wrong fault? rest ∧
        c.next.result = Url.found before (name ++ '(' :: taken) fault? ∧
        c.next.cursor.rest = rest ∧
        c.next.cursor.position = Text.size (before ++ (name ++ '(' :: (taken ++ wrong))) ∧
        (fault? = none → name ++ '(' :: taken =
          Text.slice s c.next.cursor.tokenStart c.next.cursor.position)) ∧
    (((∃ v, c.next.result = .ok (some (.url v))) ∨
        ∃ f, c.next.result = .error f ∧ f.kind ≠ .unicodeRange) →
      ∃ name u, Lexeme.isUrlName name = true ∧ t = name ++ '(' :: u) := by
  constructor
  · intro name u hn ht
    rw [ht] at hs
    obtain ⟨taken, wrong, fault?, rest, hform⟩ := Url.exists_form u
    obtain ⟨hres, hrest, hpos, -⟩ := h.kept.next_url hp hstart hn hs hform
    refine ⟨taken, wrong, fault?, rest, hform, hres, hrest, hpos, fun hnone => ?_⟩
    have hwrong := hform.wrong_nil hnone
    have hall : s = before ++ (name ++ '(' :: taken ++ rest) := by
      rw [hs, hform.split, hwrong]
      simp
    rw [hwrong, List.append_nil, Text.size_append] at hpos
    rw [hstart, hpos, hall, Text.slice_append]
  · intro hfound
    rcases h.kept.next_at hp hs hstart with ⟨-, hres⟩ | ⟨l, hl, hres, -⟩
    · simp [hres] at hfound
    · apply Lexeme.read_url hl
      rw [hres] at hfound
      rcases hfound with ⟨v, hv⟩ | ⟨f, hf, hkind⟩
      · exact .inl ⟨v, Lexeme.resultAt_eq_some.1 hv⟩
      · obtain ⟨f', hf', rfl⟩ := Lexeme.resultAt_eq_error.1 hf
        exact .inr ⟨f', hf', hkind⟩

/-- A url with a blank and more behind its target is found to be wrong where that begins. -/
theorem url_formed_wrong :
    let s := [',', 'U', 'r', 'L', '(', 'a', ' ', 'b', ')']
    let c := (Cursor.ofText s).next.cursor
    Reachable s c ∧ c.pending = none ∧ s = [','] ++ ['U', 'r', 'L', '(', 'a', ' ', 'b', ')'] ∧
      c.next.cursor.tokenStart = Text.size [','] ∧ Lexeme.isUrlName ['U', 'r', 'L'] = true ∧
      c.next.result = .error ⟨.malformedUrl, 7⟩ ∧
      ∃ taken wrong fault? rest, Form ['a', ' ', 'b', ')'] taken wrong fault? rest ∧
        c.next.result = Url.found [','] ('U' :: 'r' :: 'L' :: '(' :: taken) fault? ∧
        c.next.cursor.rest = rest := by
  intro s c
  have h : Reachable s c := .next .ofText
  have hp : c.pending = none := by with_unfolding_all rfl
  have hs : s = [','] ++ ['U', 'r', 'L', '(', 'a', ' ', 'b', ')'] := rfl
  have hstart : c.next.cursor.tokenStart = Text.size [','] := by with_unfolding_all rfl
  have hresult : c.next.result = .error ⟨.malformedUrl, 7⟩ := by with_unfolding_all rfl
  obtain ⟨taken, wrong, fault?, rest, hform, hres, hrest, -⟩ :=
    (h.url_formed hp hs hstart).1 ['U', 'r', 'L'] _ rfl rfl
  exact ⟨h, hp, hs, hstart, rfl, hresult, taken, wrong, fault?, rest, hform, hres, hrest⟩

end Reachable

end Cursor
end CssReader
