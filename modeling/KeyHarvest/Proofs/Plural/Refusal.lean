import KeyHarvest.Proofs.Plural.Reading

/-!
# Which plural literals are refused, and where

An error that points at a character which must not stand there is decided by the text before it and
by the character itself. Beside each reader stands what it refuses: a string (`NoString`,
`string_eq_error_iff`), the strings of a list (`BreaksOff`, `strings_of_breaksOff` and
`exists_breaksOff_of_strings`) and a whole literal (`Refused`, `list_eq_error_iff`). An `OpenList`
is the text of a literal up to a place where a string or the closing bracket may stand, an
`OpenString` a string whose closing quote is missing.
-/

namespace KeyHarvest.Plural

/-! ### Beginnings of literals -/

/-- A string without its closing quote. -/
structure OpenString where
  /-- The opening quote. -/
  quote : Char
  isQuote : quote = '\'' ∨ quote = '"'
  /-- What stands behind the quote. -/
  parts : List (Part quote)
  /-- Whether a backslash is the last character. -/
  cut : Bool

/-- The string as it is written. -/
def OpenString.text (s : OpenString) : List Char :=
  s.quote :: (s.parts.flatMap Part.text ++ if s.cut then ['\\'] else [])

/-- Strings, each with the comma behind it, as they are written. -/
def itemsText (items : List (QuotedString × Separator)) : List Char :=
  items.flatMap fun e ↦ e.1.text ++ e.2.written

/-- A literal up to a place where a string or the closing bracket may stand. -/
structure OpenList where
  /-- The blanks before the opening bracket. -/
  before : Blanks
  /-- The blanks behind the opening bracket. -/
  opened : Blanks
  /-- The strings, each with the comma behind it. -/
  items : List (QuotedString × Separator)

/-- The beginning of the literal as it is written. -/
def OpenList.text (l : OpenList) : List Char :=
  l.before.text ++ '[' :: (l.opened.text ++ itemsText l.items)

namespace Literal

/-! ### Refused strings -/

/-- What may stand behind the parts of a string where it is refused. -/
inductive Breaks (quote : Char) (start : List Char) : List Char → Refusal → Prop
  | ended : Breaks quote start [] (.unterminated start)
  | cut : Breaks quote start ['\\'] (.unterminated start)
  | badEscape {rest : List Char} (h : ∀ part : Part quote, ¬ part.text <+: '\\' :: 'u' :: rest) :
    Breaks quote start ('\\' :: 'u' :: rest) (.invalidEscape ('u' :: rest))

/-- What is refused where a string must stand. -/
inductive NoString : List Char → Refusal → Prop
  | unquoted {cs : List Char} (h : ∀ c ∈ cs.head?, c ≠ '\'' ∧ c ≠ '"') :
    NoString cs (.notAString cs)
  | broken {quote : Char} (isQuote : quote = '\'' ∨ quote = '"') (parts : List (Part quote))
    {rest : List Char} {e : Refusal}
    (h : Breaks quote (quote :: (parts.flatMap Part.text ++ rest)) rest e) :
    NoString (quote :: (parts.flatMap Part.text ++ rest)) e

/-- An escape by code point is written where four digits give a character. -/
theorem exists_part_prefix_iff (quote : Char) (rest : List Char) :
    (∃ part : Part quote, part.text <+: '\\' :: 'u' :: rest) ↔
      ∃ a b c d after x, rest = a :: b :: c :: d :: after ∧ codePoint? a b c d = some x := by
  constructor
  · rintro ⟨part, after, htext⟩
    cases part with
    | plain c hq hb =>
      rw [Part.text, List.cons_append, List.cons.injEq] at htext
      exact absurd htext.1 hb
    | escape c hu =>
      simp only [Part.text, List.cons_append, List.cons.injEq] at htext
      exact absurd htext.2.1 hu
    | codePoint a b c d x hx =>
      simp only [Part.text, List.cons_append, List.nil_append, List.cons.injEq, true_and] at htext
      exact ⟨a.char, b.char, c.char, d.char, after, x, htext.symm,
        (codePoint?_eq_some_iff _ _ _ _ x).mpr ⟨a, b, c, d, rfl, rfl, rfl, rfl, hx⟩⟩
  · rintro ⟨a, b, c, d, after, x, rfl, hx⟩
    obtain ⟨a', b', c', d', rfl, rfl, rfl, rfl, hcode⟩ := (codePoint?_eq_some_iff a b c d x).mp hx
    exact ⟨.codePoint a' b' c' d' x hcode, after, rfl⟩

private theorem prepend_eq_error_iff (c : Char) (result : Except Refusal (List Char × List Char))
    (e : Refusal) : prepend c result = .error e ↔ result = .error e := by
  cases result <;> simp [prepend, Except.map]

/-- A string is refused behind some of its parts. -/
theorem exists_breaks_of_stringBody {quote : Char} {start cs : List Char} {e : Refusal}
    (h : stringBody quote start cs = .error e) :
    ∃ (parts : List (Part quote)) (rest : List Char),
      cs = parts.flatMap Part.text ++ rest ∧ Breaks quote start rest e := by
  have hbad {rest : List Char} (hrest : ∀ a b c d after x, rest = a :: b :: c :: d :: after →
      codePoint? a b c d ≠ some x) :
      ∀ part : Part quote, ¬ part.text <+: '\\' :: 'u' :: rest := by
    intro part hpart
    obtain ⟨a, b, c, d, after, x, hsplit, hx⟩ :=
      (exists_part_prefix_iff quote rest).mp ⟨part, hpart⟩
    exact hrest a b c d after x hsplit hx
  fun_induction stringBody quote start cs with
  | case1 =>
    cases h
    exact ⟨[], [], rfl, .ended⟩
  | case2 => cases h
  | case3 =>
    cases h
    exact ⟨[], ['\\'], rfl, .cut⟩
  | case4 a b c d after x hx _ ih =>
    obtain ⟨parts, rest, rfl, hbreaks⟩ := ih ((prepend_eq_error_iff _ _ _).mp h)
    obtain ⟨a', b', c', d', rfl, rfl, rfl, rfl, hcode⟩ := (codePoint?_eq_some_iff a b c d x).mp hx
    exact ⟨.codePoint a' b' c' d' x hcode :: parts, rest, rfl, hbreaks⟩
  | case5 a b c d after hnone =>
    cases h
    refine ⟨[], _, rfl, .badEscape (hbad ?_)⟩
    rintro _ _ _ _ _ x ⟨⟩ hx
    rw [hnone] at hx
    cases hx
  | case6 rest hshort =>
    cases h
    refine ⟨[], _, rfl, .badEscape (hbad ?_)⟩
    rintro a b c d after x rfl -
    exact hshort a b c d after rfl
  | case7 e cs hu _ ih =>
    obtain ⟨parts, rest, rfl, hbreaks⟩ := ih ((prepend_eq_error_iff _ _ _).mp h)
    exact ⟨.escape e hu :: parts, rest, rfl, hbreaks⟩
  | case8 c cs hq hb ih =>
    obtain ⟨parts, rest, rfl, hbreaks⟩ := ih ((prepend_eq_error_iff _ _ _).mp h)
    exact ⟨.plain c hq hb :: parts, rest, rfl, hbreaks⟩

private theorem stringBody_of_breaks {quote : Char} (hquote : quote = '\'' ∨ quote = '"')
    {start rest : List Char} {e : Refusal} (h : Breaks quote start rest e) :
    stringBody quote start rest = .error e := by
  have hslash : '\\' ≠ quote := by
    rcases hquote with rfl | rfl <;> decide
  cases h with
  | ended => rfl
  | cut =>
    rw [stringBody.eq_def]
    simp only [if_neg hslash, if_pos]
  | badEscape hbad =>
    rw [stringBody.eq_def]
    simp only [if_neg hslash, if_pos]
    split
    · next a b c d after =>
      split
      · next x hx =>
        obtain ⟨part, hpart⟩ := (exists_part_prefix_iff quote _).mpr
          ⟨a, b, c, d, after, x, rfl, hx⟩
        exact absurd hpart (hbad part)
      · rfl
    · rfl

/-- A string is refused exactly where none is written. -/
theorem string_eq_error_iff (cs : List Char) (e : Refusal) :
    string cs = .error e ↔ NoString cs e := by
  constructor
  · intro h
    cases cs with
    | nil =>
      cases h
      exact .unquoted (by simp)
    | cons quote cs =>
      rw [string] at h
      split at h
      · next hquote =>
        obtain ⟨parts, rest, rfl, hbreaks⟩ := exists_breaks_of_stringBody h
        exact .broken hquote parts hbreaks
      · next hquote =>
        cases h
        refine .unquoted ?_
        rintro _ ⟨⟩
        exact not_or.mp hquote
  · intro h
    cases h with
    | unquoted h =>
      cases cs with
      | nil => rfl
      | cons c cs =>
        have hquote := h c rfl
        rw [string, if_neg (not_or.mpr hquote)]
    | broken hquote parts hbreaks =>
      rw [string, if_pos hquote, stringBody_parts_append hquote,
        stringBody_of_breaks hquote hbreaks]
      rfl

/-- A string is found unterminated exactly where an open string stands up to the end. -/
theorem noString_unterminated_iff (cs start : List Char) :
    NoString cs (.unterminated start) ↔ ∃ s : OpenString, cs = s.text ∧ start = s.text := by
  constructor
  · rintro (- | ⟨hquote, parts, hbreaks⟩)
    cases hbreaks with
    | ended => exact ⟨⟨_, hquote, parts, false⟩, rfl, rfl⟩
    | cut => exact ⟨⟨_, hquote, parts, true⟩, rfl, rfl⟩
  · rintro ⟨⟨quote, hquote, parts, cut⟩, rfl, rfl⟩
    refine .broken hquote parts ?_
    cases cut with
    | false => exact .ended
    | true => exact .cut

/-! ### Refused lists -/

/-- What is refused where a string or the closing bracket may stand: there is neither, or neither a
comma nor the bracket stands behind the string. -/
inductive BreaksOff : List Char → Refusal → Prop
  | noString {cs : List Char} {e : Refusal} (h : NoString cs e)
    (hhead : ∀ c ∈ cs.head?, Text.isBlank c = false ∧ c ≠ ']') : BreaksOff cs e
  | noComma (q : QuotedString) (gap : Blanks) {cs : List Char}
    (h : ∀ c ∈ cs.head?, Text.isBlank c = false ∧ c ≠ ',' ∧ c ≠ ']') :
    BreaksOff (q.text ++ (gap.text ++ cs)) (.expected ']' cs)

/-- Where a list breaks off no blank stands. -/
theorem BreaksOff.head?_not_blank {cs : List Char} {e : Refusal} (h : BreaksOff cs e) :
    ∀ c ∈ cs.head?, Text.isBlank c = false := by
  cases h with
  | noString h hhead => exact fun c hc ↦ (hhead c hc).1
  | noComma q gap h => exact fun c hc ↦ (head?_text_append q _ c hc).1

private theorem strings_of_breaksOff {cs : List Char} {e : Refusal} (h : BreaksOff cs e)
    (fuel : Nat) : strings (fuel + 1) cs = .error e := by
  cases h with
  | noString h hhead =>
    have hopen : cs.head? ≠ some ']' := fun hclose ↦ (hhead ']' hclose).2 rfl
    rw [strings, if_neg hopen, (string_eq_error_iff cs e).mpr h, error_bind]
  | noComma q gap h =>
    rename_i rest
    have hrest : Text.trimStart (gap.text ++ rest) = rest :=
      trimStart_append gap.isBlank_of_mem fun c hc ↦ (h c hc).1
    have hcomma : rest.head? ≠ some ',' := fun hcomma ↦ (h ',' hcomma).2.1 rfl
    have hclose : rest.head? ≠ some ']' := fun hclose ↦ (h ']' hclose).2.2 rfl
    rw [strings_text_append, hrest]
    simp only [if_neg hcomma, if_neg hclose]

private theorem itemsText_cons_append (item : QuotedString × Separator)
    (items : List (QuotedString × Separator)) (cs : List Char) : itemsText (item :: items) ++ cs =
      item.1.text ++ (item.2.written ++ (itemsText items ++ cs)) := by
  simp [itemsText]

private theorem head?_items_append (items : List (QuotedString × Separator)) {cs : List Char}
    (h : ∀ c ∈ cs.head?, Text.isBlank c = false) :
    ∀ c ∈ (itemsText items ++ cs).head?, Text.isBlank c = false := by
  cases items with
  | nil => exact h
  | cons item items =>
    rw [itemsText_cons_append]
    exact fun c hc ↦ (head?_text_append item.1 _ c hc).1

/-- Strings with a comma behind each are read whatever stands behind them. -/
theorem strings_items_append (items : List (QuotedString × Separator)) {cs : List Char}
    (h : ∀ c ∈ cs.head?, Text.isBlank c = false) (fuel : Nat) :
    strings (fuel + items.length) (itemsText items ++ cs) = strings fuel cs >>= fun found ↦
      .ok (items.map (·.1.value) ++ found.1, found.2) := by
  induction items with
  | nil => cases hread : strings fuel cs <;> simp [itemsText, hread]
  | cons item items ih =>
    obtain ⟨q, separator⟩ := item
    have hcomma : Text.trimStart (separator.written ++ (itemsText items ++ cs)) =
        ',' :: (separator.after ++ (itemsText items ++ cs)) := by
      rw [Separator.written, List.append_assoc, List.cons_append]
      exact trimStart_append separator.blank_before (by rintro _ ⟨⟩; rfl)
    rw [itemsText_cons_append, List.length_cons, ← Nat.add_assoc, strings_comma q hcomma,
      trimStart_append separator.blank_after (head?_items_append items h), ih]
    cases strings fuel cs <;> rfl

/-- The strings of a list are refused behind some of them that have commas. -/
theorem exists_breaksOff_of_strings {fuel : Nat} {cs : List Char} {e : Refusal}
    (hfuel : cs.length < fuel) (hcs : ∀ c ∈ cs.head?, Text.isBlank c = false)
    (h : strings fuel cs = .error e) :
    ∃ items rest, cs = itemsText items ++ rest ∧ BreaksOff rest e := by
  induction fuel generalizing cs with
  | zero => omega
  | succ fuel ih =>
    have hturn := turn fuel cs
    generalize strings (fuel + 1) cs = result at hturn h
    cases hturn with
    | bracket | last => cases h
    | noString hopen hstring =>
      cases h
      refine ⟨[], cs, rfl, .noString ((string_eq_error_iff cs e).mp hstring) fun c hc ↦ ?_⟩
      exact ⟨hcs c hc, fun hc' ↦ hopen (hc' ▸ hc)⟩
    | noComma q gap hrest =>
      cases h
      exact ⟨[], _, rfl, .noComma q gap hrest⟩
    | @comma q separator rest hrest =>
      have hshort : rest.length < fuel := by
        simp only [List.length_append, Separator.written, List.length_cons] at hfuel
        omega
      have herror : strings fuel rest = .error e := by
        rcases bind_eq_error_iff.mp h with h | ⟨found, -, h⟩
        · exact h
        · cases h
      obtain ⟨items, rest, rfl, hbreaks⟩ := ih hshort hrest herror
      have htext := itemsText_cons_append (q, separator) items rest
      exact ⟨(q, separator) :: items, rest, htext.symm, hbreaks⟩

/-! ### Refused literals -/

/-- What is refused as a literal. -/
inductive Refused : List Char → Refusal → Prop
  | unopened (gap : Blanks) {cs : List Char}
    (h : ∀ c ∈ cs.head?, Text.isBlank c = false ∧ c ≠ '[') :
    Refused (gap.text ++ cs) (.expected '[' cs)
  | inside (l : OpenList) {cs : List Char} {e : Refusal} (h : BreaksOff cs e) :
    Refused (l.text ++ cs) e
  | trailing (w : WrittenList) {cs : List Char} (hne : cs ≠ [])
    (h : ∀ c ∈ cs.head?, Text.isBlank c = false) : Refused (w.text ++ cs) (.trailingContent cs)
  | tooMany (w : WrittenList) (h : maxElements < w.strings.length) :
    Refused w.text (.tooManyElements w.strings.length)

/-- Behind the beginning of a literal its strings are read on. -/
theorem list_open_append (l : OpenList) {cs : List Char}
    (h : ∀ c ∈ cs.head?, Text.isBlank c = false) :
    ∃ fuel, list (l.text ++ cs) = strings (fuel + 1) cs >>= fun found ↦
      closed (l.items.map (·.1.value) ++ found.1, found.2) := by
  obtain ⟨before, opened, items⟩ := l
  have htext : OpenList.text ⟨before, opened, items⟩ ++ cs =
      before.text ++ '[' :: (opened.text ++ (itemsText items ++ cs)) := by
    simp [OpenList.text]
  have hlength : items.length ≤ (itemsText items).length :=
    length_le_length_flatMap (fun e ↦ by simp [QuotedString.text]) items
  obtain ⟨fuel, hfuel⟩ : ∃ fuel, (opened.text ++ (itemsText items ++ cs)).length + 2 =
      fuel + 1 + items.length := by
    refine ⟨(opened.text ++ (itemsText items ++ cs)).length + 1 - items.length, ?_⟩
    rw [List.length_append, List.length_append]
    omega
  refine ⟨fuel, ?_⟩
  rw [htext, list_bracket before opened (head?_items_append items h), hfuel,
    strings_items_append items h]
  cases strings (fuel + 1) cs <;> rfl

private theorem refused_of_list {cs : List Char} {e : Refusal} (h : list cs = .error e) :
    Refused cs e := by
  rcases list_cases cs with ⟨before, hbefore, hopen⟩ | ⟨before, opened, inside, rfl, hinside⟩
  · rw [list_of_head?_ne hopen] at h
    cases h
    have hrefused : Refused (before.text ++ Text.trimStart cs)
        (.expected '[' (Text.trimStart cs)) :=
      .unopened before fun c hc ↦ ⟨head?_trimStart cs c hc, fun hc' ↦ hopen (hc' ▸ hc)⟩
    rwa [← hbefore] at hrefused
  · rw [list_bracket before opened hinside, bind_eq_error_iff] at h
    rcases h with h | ⟨⟨found, last⟩, hfound, h⟩
    · have hfuel : inside.length < (opened.text ++ inside).length + 2 := by
        rw [List.length_append]
        omega
      obtain ⟨items, rest, rfl, hbreaks⟩ := exists_breaksOff_of_strings hfuel hinside h
      have hrefused := Refused.inside ⟨before, opened, items⟩ hbreaks
      simpa [OpenList.text] using hrefused
    · obtain ⟨w, htext, rfl⟩ := exists_written_of_strings before opened hfound
      rw [htext]
      rcases (closed_eq_error_iff _ last e).mp h with ⟨hne, rfl⟩ | ⟨hnil, hcount, rfl⟩
      · exact .trailing w hne (head?_trimStart last)
      · rw [hnil, List.append_nil]
        exact .tooMany w hcount

private theorem list_of_refused {cs : List Char} {e : Refusal} (h : Refused cs e) :
    list cs = .error e := by
  cases h with
  | unopened gap h =>
    rename_i rest
    have hrest : Text.trimStart (gap.text ++ rest) = rest :=
      trimStart_append gap.isBlank_of_mem fun c hc ↦ (h c hc).1
    rw [list_of_head?_ne, hrest]
    rw [hrest]
    exact fun hopen ↦ (h '[' hopen).2 rfl
  | inside l h =>
    obtain ⟨fuel, hread⟩ := list_open_append l h.head?_not_blank
    rw [hread, strings_of_breaksOff h, error_bind]
  | trailing w hne h =>
    rename_i rest
    rw [list_text_append w h, closed_eq_error_iff, trimStart_of_head?_not_blank h]
    exact .inl ⟨hne, rfl⟩
  | tooMany w h =>
    rw [list_text, closed_eq_error_iff]
    exact .inr ⟨rfl, h, rfl⟩

/-- A text is refused for what stands in it and at the place where it stands. -/
theorem list_eq_error_iff (cs : List Char) (e : Refusal) : list cs = .error e ↔ Refused cs e :=
  ⟨refused_of_list, list_of_refused⟩

end Literal

end KeyHarvest.Plural
