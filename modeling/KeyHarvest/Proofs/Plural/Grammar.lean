import KeyHarvest.Text.Blank

/-!
# The grammar of plural literals

A plural literal is a row of quoted strings in brackets. Commas stand between the strings and one
may stand behind the last; blanks may stand around brackets, strings and commas. The trees of this
module spell that grammar out: a `WrittenList` is a literal of any number of strings, with its text
and the strings that it stands for. Any list of strings is written by some tree
(`WrittenList.strings_ofStrings`).
-/

namespace KeyHarvest.Plural

/-! ### Strings -/

/-- A hexadecimal digit, in either case. -/
structure HexDigit where
  /-- The value of the digit. -/
  value : Nat
  /-- Whether it is written in upper case. -/
  upper : Bool
  value_lt : value < 16

/-- The digit as it is written. -/
def HexDigit.char (d : HexDigit) : Char :=
  if d.upper then d.value.digitChar.toUpper else d.value.digitChar

/-- What the characters behind a backslash stand for that do not stand for themselves. -/
def controls : List (Char × Char) :=
  [('n', '\n'), ('r', '\r'), ('t', '\t'), ('b', '\x08'), ('f', '\x0c'), ('v', '\x0b'),
    ('0', '\x00')]

/-- A part of a string between the given quotes, which stands for one character. -/
inductive Part (quote : Char) where
  /-- A character that stands for itself. -/
  | plain (c : Char) (hq : c ≠ quote) (hb : c ≠ '\\')
  /-- A backslash and another character than `u`. -/
  | escape (c : Char) (hu : c ≠ 'u')
  /-- A character given by the four digits of its code point. -/
  | codePoint (a b c d : HexDigit) (x : Char)
    (hx : x.toNat = ((a.value * 16 + b.value) * 16 + c.value) * 16 + d.value)

namespace Part

variable {quote : Char}

/-- The part as it is written. -/
def text : Part quote → List Char
  | .plain c _ _ => [c]
  | .escape c _ => ['\\', c]
  | .codePoint a b c d _ _ => ['\\', 'u', a.char, b.char, c.char, d.char]

/-- The character that the part stands for. -/
def value : Part quote → Char
  | .plain c _ _ => c
  | .escape c _ => (controls.lookup c).getD c
  | .codePoint _ _ _ _ x _ => x

end Part

/-- A string in single or double quotes. -/
structure QuotedString where
  /-- The quote at either end. -/
  quote : Char
  isQuote : quote = '\'' ∨ quote = '"'
  /-- What stands between the quotes. -/
  parts : List (Part quote)

namespace QuotedString

/-- The string as it is written. -/
def text (s : QuotedString) : List Char :=
  s.quote :: (s.parts.flatMap Part.text ++ [s.quote])

/-- The characters that the string stands for. -/
def value (s : QuotedString) : List Char :=
  s.parts.map Part.value

end QuotedString

/-! ### Lists -/

/-- Any number of blanks. -/
structure Blanks where
  /-- The blanks. -/
  text : List Char
  isBlank_of_mem : ∀ c ∈ text, Text.isBlank c = true

/-- Blanks and those behind them. -/
def Blanks.append (a b : Blanks) : Blanks :=
  ⟨a.text ++ b.text, List.forall_mem_append.mpr ⟨a.isBlank_of_mem, b.isBlank_of_mem⟩⟩

/-- A comma with the blanks around it. -/
structure Separator where
  /-- The blanks before the comma. -/
  before : List Char
  /-- The blanks behind the comma. -/
  after : List Char
  blank_before : ∀ c ∈ before, Text.isBlank c = true
  blank_after : ∀ c ∈ after, Text.isBlank c = true

/-- The comma with its blanks, as it is written. -/
def Separator.written (s : Separator) : List Char :=
  s.before ++ ',' :: s.after

/-- One string or more with commas between them, and perhaps one behind the last. -/
structure Row where
  /-- The first string. -/
  first : QuotedString
  /-- The other strings, each with the comma before it. -/
  more : List (Separator × QuotedString)
  /-- The blanks before a comma behind the last string. -/
  comma? : Option Blanks

namespace Row

/-- The row as it is written. -/
def text (row : Row) : List Char :=
  row.first.text ++ (row.more.flatMap (fun e ↦ e.1.written ++ e.2.text) ++
    match row.comma? with
    | none => []
    | some gap => gap.text ++ [','])

/-- The strings of the row. -/
def strings (row : Row) : List (List Char) :=
  row.first.value :: row.more.map (·.2.value)

/-- A list of strings is its first string, what separates it, and the list of the others. -/
theorem text_cons (first : QuotedString) (separator : Separator) (next : QuotedString)
    (more : List (Separator × QuotedString)) (comma? : Option Blanks) :
    text ⟨first, (separator, next) :: more, comma?⟩ =
      first.text ++ (separator.written ++ text ⟨next, more, comma?⟩) := by
  simp [text]

end Row

/-- A literal of any number of strings. -/
structure WrittenList where
  /-- The blanks before the opening bracket. -/
  before : Blanks
  /-- The blanks behind the opening bracket. -/
  opened : Blanks
  /-- The strings, if there are any. -/
  row? : Option Row
  /-- The blanks before the closing bracket. -/
  closing : Blanks
  /-- The blanks behind the closing bracket. -/
  behind : Blanks

namespace WrittenList

/-- The literal as it is written. -/
def text (w : WrittenList) : List Char :=
  w.before.text ++ '[' :: (w.opened.text ++ ((w.row?.map Row.text).getD [] ++
    (w.closing.text ++ ']' :: w.behind.text)))

/-- The strings that the literal stands for. -/
def strings (w : WrittenList) : List (List Char) :=
  (w.row?.map Row.strings).getD []

end WrittenList

/-! ### Writing -/

/-- A character as a part of a string in single quotes; the quote and the backslash are escaped. -/
def Part.ofChar (c : Char) : Part '\'' :=
  if h : c = '\'' ∨ c = '\\' then .escape c (by rintro rfl; simp at h)
  else .plain c (not_or.mp h).1 (not_or.mp h).2

/-- A string in single quotes. -/
def QuotedString.ofChars (s : List Char) : QuotedString :=
  ⟨'\'', .inl rfl, s.map Part.ofChar⟩

/-- No blanks. -/
def Blanks.none : Blanks :=
  ⟨[], by simp⟩

/-- A comma and a space. -/
def Separator.space : Separator :=
  ⟨[], [' '], by simp, by simp [Text.isBlank]⟩

/-- Strings in single quotes with a comma and a space between them. -/
def WrittenList.ofStrings (ss : List (List Char)) : WrittenList :=
  let row? := match ss with
    | [] => .none
    | s :: more => some ⟨.ofChars s, more.map fun t ↦ (.space, .ofChars t), .none⟩
  ⟨.none, .none, row?, .none, .none⟩

private theorem Part.value_ofChar (c : Char) : (Part.ofChar c).value = c := by
  rw [ofChar]
  split
  · next h => rcases h with rfl | rfl <;> rfl
  · rfl

private theorem QuotedString.value_ofChars (s : List Char) : (ofChars s).value = s := by
  rw [value, ofChars, List.map_map]
  exact (List.map_congr_left fun c _ ↦ Part.value_ofChar c).trans (List.map_id s)

/-- The literal written for some strings stands for them. -/
theorem WrittenList.strings_ofStrings (ss : List (List Char)) : (ofStrings ss).strings = ss := by
  cases ss with
  | nil => rfl
  | cons s more =>
    simp only [ofStrings, strings, Row.strings, Option.map_some, Option.getD_some, List.map_map,
      QuotedString.value_ofChars, Function.comp_def, List.map_id']

end KeyHarvest.Plural
