import KeyHarvest.Proofs.Plural.Refusal
import Mathlib.Control.Monad.Basic

/-!
# Where the errors of plural literals point

A text is viable if some literal of any number of strings begins with it. An error that points at a
character which must not stand there points at the first one with which the text is no longer
viable; the place of an unclosed string is its opening quote, and the whole text is viable then.
Too many strings are found in literals only (`parse_error_offsets`).
-/

namespace KeyHarvest.Plural

/-- Some literal, of any number of strings, begins with the text. -/
def Viable (cs : List Char) : Prop :=
  ∃ w : WrittenList, cs <+: w.text

/-- A byte offset behind a viable text and before a character with which it is no longer viable, or
at the end of the input. -/
def OffendsAt (input : String) (o : Nat) : Prop :=
  ∃ before after : String, input = before ++ after ∧ before.utf8ByteSize = o ∧
    Viable before.toList ∧ ∀ c ∈ after.toList.head?, ¬ Viable (before.toList ++ [c])

namespace LiteralError

/-- The place of an error that points at what must not stand there. -/
def offender? {Place : Type} : LiteralError Place → Option Place
  | .expected _ place | .notAString place | .trailingContent place => some place
  | .unterminated _ | .invalidEscape _ | .tooManyElements _ => none

private theorem offender?_map {α β : Type} (f : α → β) (e : LiteralError α) :
    (e.map f).offender? = e.offender?.map f := by
  cases e <;> rfl

end LiteralError

namespace Literal

/-! ### Viable texts -/

private theorem viable_blanks (gap : Blanks) : Viable gap.text :=
  ⟨⟨gap, .none, none, .none, .none⟩, ['[', ']'], rfl⟩

/-- What can be gone on with to the closing bracket is viable. -/
theorem viable_open_append (l : OpenList) (front back : List Char) {ss : List (List Char)}
    (h : ∀ c ∈ (front ++ back).head?, Text.isBlank c = false)
    (hread : strings 1 (front ++ back) = .ok (ss, [])) : Viable (l.text ++ front) := by
  obtain ⟨before, opened, items⟩ := l
  have hitems := strings_items_append items h 1
  rw [hread, ok_bind] at hitems
  obtain ⟨w, htext, -⟩ := exists_written_of_strings before opened hitems
  rw [show Text.trimStart [] = [] from rfl, List.append_nil] at htext
  refine ⟨w, back, ?_⟩
  rw [← htext]
  simp [OpenList.text]

private theorem viable_open (l : OpenList) : Viable l.text := by
  have h := viable_open_append l [] [']'] (by rintro _ ⟨⟩; rfl) rfl
  rwa [List.append_nil] at h

private theorem viable_string (l : OpenList) (q : QuotedString) (gap : Blanks) :
    Viable (l.text ++ (q.text ++ gap.text)) := by
  have hbracket : Text.trimStart (gap.text ++ [']']) = [']'] := trimStart_blanks gap rfl []
  have hread := strings_bracket q hbracket 0
  have hhead := head?_text_append q (gap.text ++ [']'])
  rw [← List.append_assoc] at hread hhead
  exact viable_open_append l _ [']'] (fun c hc ↦ (hhead c hc).1) hread

/-- An unclosed string is closed by a quote, behind a character that a last backslash escapes. -/
theorem exists_quoted_of_open (s : OpenString) : ∃ (q : QuotedString) (back : List Char),
    s.text ++ back = q.text := by
  obtain ⟨quote, hquote, parts, cut⟩ := s
  cases cut with
  | false => exact ⟨⟨quote, hquote, parts⟩, [quote], by simp [OpenString.text, QuotedString.text]⟩
  | true =>
    refine ⟨⟨quote, hquote, parts ++ [.escape 'n' (by decide)]⟩, ['n', quote], ?_⟩
    simp [OpenString.text, QuotedString.text, Part.text]

private theorem viable_of_prefix {cs ds : List Char} (h : Viable ds) (hp : cs <+: ds) :
    Viable cs := by
  obtain ⟨w, hw⟩ := h
  exact ⟨w, hp.trans hw⟩

private theorem viable_openString (l : OpenList) (s : OpenString) : Viable (l.text ++ s.text) := by
  obtain ⟨q, back, hq⟩ := exists_quoted_of_open s
  refine viable_of_prefix (viable_string l q .none) ⟨back, ?_⟩
  rw [List.append_assoc, hq]
  simp [Blanks.none]

/-- With a character that an error points at, whatever stands behind it, a text is not viable. -/
theorem not_viable {before : List Char} {c : Char} (h : ∀ more, ∃ e,
    Refused (before ++ c :: more) e ∧ e.offender? = some (c :: more)) :
    ¬ Viable (before ++ [c]) := by
  rintro ⟨w, more, hw⟩
  obtain ⟨e, hrefused, he⟩ := h more
  rw [List.append_assoc, List.singleton_append] at hw
  have hread := (list_eq_error_iff _ e).mpr hrefused
  rw [hw, list_text, closed_eq_error_iff] at hread
  rcases hread with ⟨hne, -⟩ | ⟨-, -, rfl⟩
  · exact hne rfl
  · cases he

/-! ### Places of errors -/

/-- An error that points at what must not stand there points behind a viable text and at a character
with which the text is not viable. -/
theorem exists_viable_of_refused {cs unread : List Char} {e : Refusal} (h : Refused cs e)
    (he : e.offender? = some unread) : ∃ before, cs = before ++ unread ∧ Viable before ∧
      ∀ c ∈ unread.head?, ¬ Viable (before ++ [c]) := by
  -- In each case the refusal depends on the text before the character and on the character alone.
  cases h with
  | unopened gap h =>
    cases he
    refine ⟨gap.text, rfl, viable_blanks gap, fun c hc ↦ not_viable fun more ↦ ?_⟩
    exact ⟨_, .unopened gap (by rintro _ ⟨⟩; exact h c hc), rfl⟩
  | inside l h =>
    cases h with
    | noString h hhead =>
      cases h with
      | unquoted h =>
        cases he
        refine ⟨l.text, rfl, viable_open l, fun c hc ↦ not_viable fun more ↦ ?_⟩
        exact ⟨_, .inside l (.noString (.unquoted (by rintro _ ⟨⟩; exact h c hc))
          (by rintro _ ⟨⟩; exact hhead c hc)), rfl⟩
      | broken hquote parts h => cases h <;> cases he
    | noComma q gap h =>
      cases he
      refine ⟨l.text ++ (q.text ++ gap.text), by simp, viable_string l q gap,
        fun c hc ↦ not_viable fun more ↦ ?_⟩
      rw [List.append_assoc, List.append_assoc]
      exact ⟨_, .inside l (.noComma q gap (by rintro _ ⟨⟩; exact h c hc)), rfl⟩
  | trailing w hne h =>
    cases he
    refine ⟨w.text, rfl, ⟨w, List.prefix_rfl⟩, fun c hc ↦ not_viable fun more ↦ ?_⟩
    exact ⟨_, .trailing w (List.cons_ne_nil c more) (by rintro _ ⟨⟩; exact h c hc), rfl⟩
  | tooMany w h => cases he

private theorem refused_unterminated_iff (cs start : List Char) : Refused cs (.unterminated start) ↔
    ∃ (l : OpenList) (s : OpenString), cs = l.text ++ s.text ∧ start = s.text := by
  constructor
  · rintro (- | ⟨l, h⟩)
    cases h with
    | noString h hhead =>
      obtain ⟨s, rfl, rfl⟩ := (noString_unterminated_iff _ _).mp h
      exact ⟨l, s, rfl, rfl⟩
  · rintro ⟨l, s, rfl, rfl⟩
    refine .inside l (.noString ((noString_unterminated_iff _ _).mpr ⟨s, rfl, rfl⟩) ?_)
    rintro _ ⟨⟩
    rcases s.isQuote with h | h <;> rw [h] <;> decide

private theorem refused_tooMany_iff (cs : List Char) (n : Nat) : Refused cs (.tooManyElements n) ↔
    ∃ w : WrittenList, cs = w.text ∧ w.strings.length = n ∧ maxElements < n := by
  constructor
  · intro h
    cases h with
    | inside l h =>
      cases h with
      | noString h hhead =>
        cases h with
        | broken hquote parts h => cases h
    | tooMany w h => exact ⟨w, rfl, rfl, h⟩
  · rintro ⟨w, rfl, rfl, h⟩
    exact .tooMany w h

/-! ### Byte offsets -/

private theorem offset_append (before unread : List Char) :
    offset (before ++ unread) unread = (String.ofList before).utf8ByteSize := by
  rw [offset, Text.byteLength_append, Text.utf8ByteSize_ofList, Nat.add_sub_cancel]

private theorem parse_eq_error_iff (input : String) (e : LiteralError Nat) :
    parse input = .error e ↔
      ∃ refusal, Refused input.toList refusal ∧ e = refusal.map (offset input.toList) := by
  simp only [← list_eq_error_iff]
  rw [parse]
  cases list input.toList with
  | ok ss => simp
  | error refusal => simp [eq_comm]

private theorem offendsAt_of_parse {input : String} {e : LiteralError Nat} {o : Nat}
    (h : parse input = .error e) (he : e.offender? = some o) : OffendsAt input o := by
  obtain ⟨refusal, hrefused, rfl⟩ := (parse_eq_error_iff input e).mp h
  rw [LiteralError.offender?_map, Option.map_eq_some_iff] at he
  obtain ⟨unread, hunread, rfl⟩ := he
  obtain ⟨before, hsplit, hviable, hoffends⟩ := exists_viable_of_refused hrefused hunread
  refine ⟨String.ofList before, String.ofList unread, ?_, ?_, ?_, ?_⟩
  · rw [← String.ofList_append, ← hsplit, String.ofList_toList]
  · rw [hsplit, offset_append]
  · rwa [String.toList_ofList]
  · rwa [String.toList_ofList, String.toList_ofList]

/-- A string is unclosed where a literal has begun and goes on with a string whose closing quote is
missing; the error points at the opening one. -/
theorem parse_unterminated_iff (input : String) (o : Nat) :
    parse input = .error (.unterminated o) ↔ ∃ (l : OpenList) (s : OpenString),
      input.toList = l.text ++ s.text ∧ (String.ofList l.text).utf8ByteSize = o := by
  rw [parse_eq_error_iff]
  constructor
  · rintro ⟨refusal, h, he⟩
    cases refusal <;> cases he
    obtain ⟨l, s, hsplit, rfl⟩ := (refused_unterminated_iff _ _).mp h
    exact ⟨l, s, hsplit, by rw [hsplit, offset_append]⟩
  · rintro ⟨l, s, hsplit, rfl⟩
    refine ⟨.unterminated s.text, (refused_unterminated_iff _ _).mpr ⟨l, s, hsplit, rfl⟩, ?_⟩
    rw [LiteralError.map, hsplit, offset_append]

private theorem parse_tooMany_iff (input : String) (n : Nat) :
    parse input = .error (.tooManyElements n) ↔
      ∃ w : WrittenList, input.toList = w.text ∧ w.strings.length = n ∧ 3 < n := by
  rw [parse_eq_error_iff]
  constructor
  · rintro ⟨refusal, h, he⟩
    cases refusal <;> cases he
    exact (refused_tooMany_iff _ n).mp h
  · intro h
    exact ⟨.tooManyElements n, (refused_tooMany_iff _ n).mpr h, rfl⟩

/-- An error about what must not stand somewhere points at the first character with which the text
is not viable. An unclosed string is reported at its opening quote, and then the whole text is
viable. Too many strings are reported with their number for just the literals that have more than
three. -/
theorem parse_error_offsets (input : String) :
    (∀ o, (∃ c, parse input = .error (.expected c o)) ∨ parse input = .error (.notAString o) ∨
      parse input = .error (.trailingContent o) → OffendsAt input o) ∧
    (∀ o, parse input = .error (.unterminated o) → Viable input.toList) ∧
    (∀ o, parse input = .error (.unterminated o) ↔ ∃ (l : OpenList) (s : OpenString),
      input.toList = l.text ++ s.text ∧ (String.ofList l.text).utf8ByteSize = o) ∧
    ∀ n, parse input = .error (.tooManyElements n) ↔
      ∃ w : WrittenList, input.toList = w.text ∧ w.strings.length = n ∧ 3 < n := by
  refine ⟨?_, fun o h ↦ ?_, parse_unterminated_iff input, parse_tooMany_iff input⟩
  · rintro o (⟨c, h⟩ | h | h) <;> exact offendsAt_of_parse h rfl
  · obtain ⟨l, s, hsplit, -⟩ := (parse_unterminated_iff input o).mp h
    rw [hsplit]
    exact viable_openString l s

/-- A digit in the place of a string, behind a character of two bytes; a string that ends in a
backslash; and four strings. -/
theorem parse_error_offsets_accents :
    (parse "['é', 2]" = .error (.notAString 7) ∧ OffendsAt "['é', 2]" 7) ∧
    (parse " ['it\\" = .error (.unterminated 2) ∧ Viable " ['it\\".toList) ∧
    parse "['a', 'b', \"c\", 'd', ]" = .error (.tooManyElements 4) ∧
    ∃ w : WrittenList, "['a', 'b', \"c\", 'd', ]".toList = w.text ∧ w.strings.length = 4 ∧
      3 < 4 := by
  have hdigit : parse "['é', 2]" = .error (.notAString 7) := by decide +kernel
  have hcut : parse " ['it\\" = .error (.unterminated 2) := by decide +kernel
  have hmany : parse "['a', 'b', \"c\", 'd', ]" = .error (.tooManyElements 4) := by decide +kernel
  exact ⟨⟨hdigit, (parse_error_offsets _).1 7 (.inr (.inl hdigit))⟩,
    ⟨hcut, (parse_error_offsets _).2.1 2 hcut⟩, hmany, ((parse_error_offsets _).2.2.2 4).mp hmany⟩

end Literal

end KeyHarvest.Plural
