import KeyHarvest.Plural.Message
import KeyHarvest.Proofs.Plural.Reading

/-!
# Reading back a list of strings

Strings in single quotes, without quotes and backslashes in them, are read back from a list in which
commas, perhaps with blanks around them, stand between them (`list_written`). A list of two or three
such strings gives the message made of them (`defaultText_written`).
-/

namespace KeyHarvest.Plural

/-- A string that needs no escapes in single quotes. -/
structure PlainString where
  /-- The text of the string. -/
  text : List Char
  quote_not_mem : '\'' ∉ text
  slash_not_mem : '\\' ∉ text

/-- A string in its quotes. -/
def PlainString.written (s : PlainString) : List Char :=
  '\'' :: (s.text ++ ['\''])

/-- A string and those behind it, each behind a comma. -/
def writtenStrings (s : PlainString) : List (Separator × PlainString) → List Char
  | [] => s.written
  | (separator, next) :: more => s.written ++ (separator.written ++ writtenStrings next more)

/-- A string without escapes is a quoted string. -/
theorem PlainString.exists_quoted (s : PlainString) :
    ∃ q : QuotedString, q.text = s.written ∧ q.value = s.text := by
  obtain ⟨text, hq, hb⟩ := s
  have hparts : ∃ parts : List (Part '\''),
      parts.flatMap Part.text = text ∧ parts.map Part.value = text := by
    induction text with
    | nil => exact ⟨[], rfl, rfl⟩
    | cons c text ih =>
      rw [List.mem_cons, not_or] at hq hb
      obtain ⟨parts, htext, hvalue⟩ := ih hq.2 hb.2
      refine ⟨.plain c (Ne.symm hq.1) (Ne.symm hb.1) :: parts, ?_, ?_⟩
      · exact congrArg (c :: ·) htext
      · exact congrArg (c :: ·) hvalue
  obtain ⟨parts, htext, hvalue⟩ := hparts
  exact ⟨⟨'\'', .inl rfl, parts⟩, by rw [QuotedString.text, htext]; rfl, hvalue⟩

/-- Strings without escapes are a row of strings. -/
theorem exists_row_writtenStrings (s : PlainString) (more : List (Separator × PlainString)) :
    ∃ row : Row, row.text = writtenStrings s more ∧
      row.strings = s.text :: more.map (·.2.text) := by
  obtain ⟨q, htext, hvalue⟩ := s.exists_quoted
  induction more generalizing s q with
  | nil =>
    refine ⟨⟨q, [], none⟩, ?_, ?_⟩
    · simp [Row.text, writtenStrings, htext]
    · simp [Row.strings, hvalue]
  | cons item more ih =>
    obtain ⟨separator, next⟩ := item
    obtain ⟨q', htext', hvalue'⟩ := next.exists_quoted
    obtain ⟨⟨first, items, comma?⟩, hrow, hstrings⟩ := ih next q' htext' hvalue'
    refine ⟨⟨q, (separator, first) :: items, comma?⟩, ?_, ?_⟩
    · rw [Row.text_cons, hrow, htext, writtenStrings]
    · rw [Row.strings] at hstrings ⊢
      rw [List.map_cons, List.map_cons, hvalue, hstrings]

/-- A list of at most three strings is read back. -/
theorem Literal.list_written (s : PlainString) (more : List (Separator × PlainString))
    (hmore : more.length < maxElements) :
    list ('[' :: (writtenStrings s more ++ [']'])) = .ok (s.text :: more.map (·.2.text)) := by
  obtain ⟨row, htext, hstrings⟩ := exists_row_writtenStrings s more
  have hcount : (s.text :: more.map (·.2.text)).length ≤ maxElements := by
    rw [List.length_cons, List.length_map]
    exact hmore
  let w : WrittenList := ⟨.none, .none, some row, .none, .none⟩
  refine (list_eq_ok_iff _ _).mpr ⟨hcount, w, ?_, hstrings.symm⟩
  rw [← htext]
  rfl

/-- A list of two or three strings. -/
structure WrittenForms where
  /-- The string of the singular. -/
  one : PlainString
  /-- The comma before the string of the plural. -/
  separator : Separator
  /-- The string of the plural. -/
  other : PlainString
  /-- A further string, behind a comma. -/
  trailer? : Option (Separator × PlainString)

namespace WrittenForms

/-- The list as it is written. -/
def written (forms : WrittenForms) : List Char :=
  '[' :: (writtenStrings forms.one ((forms.separator, forms.other) :: forms.trailer?.toList) ++
    [']'])

/-- The message of the strings. -/
def message (forms : WrittenForms) : String :=
  "\x7bNB, plural, one\x7b" ++ String.ofList forms.one.text ++ "\x7d other\x7b" ++
    String.ofList forms.other.text ++ "\x7d" ++
    (match forms.trailer? with
      | none => ""
      | some (_, trailer) =>
        if String.ofList trailer.text = "" then "" else " " ++ String.ofList trailer.text) ++
    "\x7d"

/-- A plural message has text. -/
theorem message_ne_empty (forms : WrittenForms) : forms.message ≠ "" := by
  unfold message
  simp [String.append_eq_empty_iff]

/-- Written forms end with the closing bracket. -/
theorem getLast?_written (forms : WrittenForms) : forms.written.getLast? = some ']' := by
  rw [written, ← List.cons_append, List.getLast?_concat]

/-- The strings of the list. -/
def strings (forms : WrittenForms) : List PlainString :=
  forms.one :: forms.other :: forms.trailer?.toList.map (·.2)

private theorem mem_writtenStrings {s : PlainString} {more : List (Separator × PlainString)}
    {c : Char} (h : c ∈ writtenStrings s more) :
    c = '\'' ∨ c = ',' ∨ Text.isBlank c = true ∨ ∃ t ∈ s :: more.map (·.2), c ∈ t.text := by
  have hwritten {s : PlainString} (h : c ∈ s.written) : c = '\'' ∨ c ∈ s.text := by
    simpa [PlainString.written, or_comm] using h
  induction more generalizing s with
  | nil =>
    rcases hwritten h with h | h
    · exact .inl h
    · exact .inr (.inr (.inr ⟨s, List.mem_cons_self, h⟩))
  | cons item more ih =>
    obtain ⟨separator, next⟩ := item
    rw [writtenStrings, List.mem_append, List.mem_append] at h
    rcases h with h | h | h
    · rcases hwritten h with h | h
      · exact .inl h
      · exact .inr (.inr (.inr ⟨s, List.mem_cons_self, h⟩))
    · rw [Separator.written, List.mem_append, List.mem_cons] at h
      rcases h with h | h | h
      · exact .inr (.inr (.inl (separator.blank_before c h)))
      · exact .inr (.inl h)
      · exact .inr (.inr (.inl (separator.blank_after c h)))
    · rcases ih h with h | h | h | ⟨t, ht, h⟩
      · exact .inl h
      · exact .inr (.inl h)
      · exact .inr (.inr (.inl h))
      · exact .inr (.inr (.inr ⟨t, List.mem_cons_of_mem _ ht, h⟩))

/-- Besides the characters of its strings a list has brackets, quotes, commas and blanks. -/
theorem mem_written {forms : WrittenForms} {c : Char} (h : c ∈ forms.written) :
    c ∈ ['[', ']', '\'', ','] ∨ Text.isBlank c = true ∨ ∃ s ∈ forms.strings, c ∈ s.text := by
  rw [written, List.mem_cons, List.mem_append, List.mem_singleton] at h
  rcases h with rfl | h | rfl
  · simp
  · rcases mem_writtenStrings h with rfl | rfl | h | h
    · simp
    · simp
    · exact .inr (.inl h)
    · exact .inr (.inr h)
  · simp

/-- A list of two or three strings gives the message of the strings. -/
theorem defaultText_written (forms : WrittenForms) :
    defaultText (String.ofList forms.written) = forms.message := by
  have hlength : ((forms.separator, forms.other) :: forms.trailer?.toList).length <
      Literal.maxElements := by
    have htrailer : forms.trailer?.toList.length ≤ 1 := Option.length_toList_le
    rw [List.length_cons, Literal.maxElements]
    omega
  rw [defaultText, Literal.parse, String.toList_ofList, written,
    Literal.list_written forms.one _ hlength]
  simp only [List.map_cons, message?, Option.getD_some]
  unfold message
  cases forms.trailer? <;> rfl

end WrittenForms

end KeyHarvest.Plural
