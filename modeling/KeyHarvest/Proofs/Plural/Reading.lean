import KeyHarvest.Plural.Literal
import KeyHarvest.Proofs.Except
import KeyHarvest.Proofs.Plural.Grammar

/-!
# Which plural literals are accepted

The parser accepts exactly the texts of the grammar with at most three strings, and gives these
strings (`parse_eq_ok_iff`). Each of its readers takes what one kind of tree writes, whatever stands
behind it, and nothing else: a string (`string_eq_ok_iff`), the strings up to the closing bracket
(`strings_row`, `exists_row_of_strings`) and the whole literal (`list_eq_ok_iff`). What the loop
over the strings can meet in one turn is said once, by `Turn`.
-/

namespace KeyHarvest.Plural.Literal

/-! ### Reading strings -/

/-- The hexadecimal digits are read by their values. -/
theorem hexValue?_eq_some_iff (c : Char) (n : Nat) :
    Text.hexValue? c = some n ↔ ∃ d : HexDigit, d.char = c ∧ d.value = n := by
  constructor
  · intro h
    have hdigit := (Text.isSome_hexValue? c).mp (by rw [h]; rfl)
    have hlt : c.toNat < 103 := by
      simp only [Char.le_def, UInt32.le_iff_toNat_le] at hdigit
      change (48 ≤ c.toNat ∧ c.toNat ≤ 57) ∨ (97 ≤ c.toNat ∧ c.toNat ≤ 102) ∨
        (65 ≤ c.toNat ∧ c.toNat ≤ 70) at hdigit
      omega
    have hchar : ∀ m < 103, ∀ n ∈ Text.hexValue? (Char.ofNat m), n < 16 ∧ ∃ upper : Bool,
        (if upper then n.digitChar.toUpper else n.digitChar) = Char.ofNat m := by
      decide
    obtain ⟨hn, upper, hupper⟩ := hchar c.toNat hlt n (by rw [Char.ofNat_toNat]; exact h)
    exact ⟨⟨n, upper, hn⟩, hupper.trans (Char.ofNat_toNat c), rfl⟩
  · rintro ⟨⟨n, upper, hn⟩, rfl, rfl⟩
    have hdigit : ∀ n < 16, ∀ upper : Bool,
        Text.hexValue? (if upper then n.digitChar.toUpper else n.digitChar) = some n := by
      decide
    exact hdigit n hn upper

/-- Four hexadecimal digits are read as the number that their values make. -/
theorem hexNumber?_eq_some_iff (a b c d : Char) (n : Nat) :
    Text.hexNumber? [a, b, c, d] = some n ↔ ∃ a' b' c' d' : HexDigit,
      a'.char = a ∧ b'.char = b ∧ c'.char = c ∧ d'.char = d ∧
      n = ((a'.value * 16 + b'.value) * 16 + c'.value) * 16 + d'.value := by
  simp only [Text.hexNumber?, List.foldlM_cons, List.foldlM_nil, Option.bind_eq_bind,
    Option.bind_eq_some_iff, Option.map_eq_some_iff, hexValue?_eq_some_iff, Option.pure_def,
    Option.some.injEq, Nat.zero_mul, Nat.zero_add, exists_eq_right]
  constructor
  · rintro ⟨_, ⟨a', ha, rfl⟩, _, ⟨_, ⟨b', hb, rfl⟩, rfl⟩, _, ⟨_, ⟨c', hc, rfl⟩, rfl⟩, _,
      ⟨d', hd, rfl⟩, hn⟩
    exact ⟨a', b', c', d', ha, hb, hc, hd, hn.symm⟩
  · rintro ⟨a', b', c', d', ha, hb, hc, hd, hn⟩
    exact ⟨_, ⟨a', ha, rfl⟩, _, ⟨_, ⟨b', hb, rfl⟩, rfl⟩, _, ⟨_, ⟨c', hc, rfl⟩, rfl⟩, _,
      ⟨d', hd, rfl⟩, hn.symm⟩

/-- Four hexadecimal digits stand for the character whose code point they are. -/
theorem codePoint?_eq_some_iff (a b c d : Char) (x : Char) :
    codePoint? a b c d = some x ↔ ∃ a' b' c' d' : HexDigit,
      a'.char = a ∧ b'.char = b ∧ c'.char = c ∧ d'.char = d ∧
      x.toNat = ((a'.value * 16 + b'.value) * 16 + c'.value) * 16 + d'.value := by
  rw [← hexNumber?_eq_some_iff, codePoint?, Option.bind_eq_bind, Option.bind_eq_some_iff]
  constructor
  · rintro ⟨n, hn, hx⟩
    split at hx
    · next hvalid =>
      cases hx
      rw [hn, Char.ofNat, dif_pos hvalid]
      rfl
    · cases hx
  · intro hn
    have hvalid : x.toNat.isValidChar := x.valid
    exact ⟨x.toNat, hn, by rw [if_pos hvalid, Char.ofNat_toNat]⟩

/-- A character behind a backslash is read as what it stands for. -/
theorem escaped_eq (c : Char) : escaped c = (controls.lookup c).getD c := by
  simp only [escaped, controls, List.lookup_cons]
  repeat' split
  all_goals simp_all

/-- The parts of a string are read whatever stands behind them. -/
theorem stringBody_parts_append {quote : Char} (hquote : quote = '\'' ∨ quote = '"')
    (start : List Char) (parts : List (Part quote)) (cs : List Char) :
    stringBody quote start (parts.flatMap Part.text ++ cs) =
      (stringBody quote start cs).map fun found ↦ (parts.map Part.value ++ found.1, found.2) := by
  have hslash : '\\' ≠ quote := by
    rcases hquote with rfl | rfl <;> decide
  induction parts with
  | nil => cases h : stringBody quote start cs <;> simp [h, Except.map]
  | cons part parts ih =>
    have hread : stringBody quote start (part.text ++ (parts.flatMap Part.text ++ cs)) =
        prepend part.value (stringBody quote start (parts.flatMap Part.text ++ cs)) := by
      cases part with
      | plain c hq hb =>
        rw [Part.text, List.singleton_append, stringBody.eq_def]
        simp only [if_neg hq, if_neg hb]
        rfl
      | escape c hu =>
        rw [Part.text, List.cons_append, List.singleton_append, stringBody.eq_def]
        simp only [if_neg hslash, if_pos, if_neg hu, escaped_eq]
        rfl
      | codePoint a b c d x hx =>
        have hdigits := (codePoint?_eq_some_iff a.char b.char c.char d.char x).mpr
          ⟨a, b, c, d, rfl, rfl, rfl, rfl, hx⟩
        simp only [Part.text, List.cons_append, List.nil_append]
        rw [stringBody.eq_def]
        simp only [if_neg hslash, if_pos, hdigits]
        rfl
    rw [List.flatMap_cons, List.append_assoc, hread, ih]
    cases stringBody quote start cs <;> rfl

/-- The parts of a string are read up to the closing quote. -/
theorem stringBody_parts {quote : Char} (hquote : quote = '\'' ∨ quote = '"') (start : List Char)
    (parts : List (Part quote)) (rest : List Char) :
    stringBody quote start (parts.flatMap Part.text ++ quote :: rest) =
      .ok (parts.map Part.value, rest) := by
  have hclose : stringBody quote start (quote :: rest) = .ok ([], rest) := by
    rw [stringBody.eq_def]
    exact if_pos rfl
  rw [stringBody_parts_append hquote, hclose, Except.map, List.append_nil]

private theorem prepend_eq_ok_iff (c : Char) (result : Except Refusal (List Char × List Char))
    (body rest : List Char) : prepend c result = .ok (body, rest) ↔
      ∃ behind, result = .ok (behind, rest) ∧ body = c :: behind := by
  cases result with
  | error e => simp [prepend, Except.map]
  | ok found =>
    obtain ⟨behind, rest'⟩ := found
    simp only [prepend, Except.map, Except.ok.injEq, Prod.mk.injEq]
    constructor
    · rintro ⟨rfl, rfl⟩
      exact ⟨behind, ⟨rfl, rfl⟩, rfl⟩
    · rintro ⟨_, ⟨rfl, rfl⟩, rfl⟩
      exact ⟨rfl, rfl⟩

/-- What is read as a string consists of parts and the closing quote. -/
theorem exists_parts_of_stringBody {quote : Char} {start cs body rest : List Char}
    (h : stringBody quote start cs = .ok (body, rest)) :
    ∃ parts : List (Part quote),
      cs = parts.flatMap Part.text ++ quote :: rest ∧ body = parts.map Part.value := by
  fun_induction stringBody quote start cs generalizing body rest with
  | case1 => cases h
  | case2 =>
    cases h
    exact ⟨[], rfl, rfl⟩
  | case3 => cases h
  | case4 a b c d after x hx _ ih =>
    obtain ⟨behind, hbehind, rfl⟩ := (prepend_eq_ok_iff _ _ _ _).mp h
    obtain ⟨parts, rfl, rfl⟩ := ih hbehind
    obtain ⟨a', b', c', d', rfl, rfl, rfl, rfl, hcode⟩ := (codePoint?_eq_some_iff a b c d x).mp hx
    exact ⟨.codePoint a' b' c' d' x hcode :: parts, rfl, rfl⟩
  | case5 => cases h
  | case6 => cases h
  | case7 e cs hu _ ih =>
    obtain ⟨behind, hbehind, rfl⟩ := (prepend_eq_ok_iff _ _ _ _).mp h
    obtain ⟨parts, rfl, rfl⟩ := ih hbehind
    rw [escaped_eq]
    exact ⟨.escape e hu :: parts, rfl, rfl⟩
  | case8 c cs hq hb ih =>
    obtain ⟨behind, hbehind, rfl⟩ := (prepend_eq_ok_iff _ _ _ _).mp h
    obtain ⟨parts, rfl, rfl⟩ := ih hbehind
    exact ⟨.plain c hq hb :: parts, rfl, rfl⟩

/-- A string is read exactly where one is written. -/
theorem string_eq_ok_iff (cs s rest : List Char) :
    string cs = .ok (s, rest) ↔ ∃ q : QuotedString, cs = q.text ++ rest ∧ s = q.value := by
  constructor
  · intro h
    cases cs with
    | nil => cases h
    | cons quote cs =>
      rw [string] at h
      split at h
      · next hquote =>
        obtain ⟨parts, rfl, rfl⟩ := exists_parts_of_stringBody h
        exact ⟨⟨quote, hquote, parts⟩, by simp [QuotedString.text], rfl⟩
      · cases h
  · rintro ⟨⟨quote, hquote, parts⟩, rfl, rfl⟩
    have htext : QuotedString.text ⟨quote, hquote, parts⟩ ++ rest =
        quote :: (parts.flatMap Part.text ++ quote :: rest) := by
      simp [QuotedString.text]
    rw [htext, string, if_pos hquote]
    exact stringBody_parts hquote _ parts rest

/-! ### Reading lists -/

/-- Nothing is trimmed where no blank stands first. -/
theorem trimStart_of_head?_not_blank {cs : List Char}
    (h : ∀ c ∈ cs.head?, Text.isBlank c = false) : Text.trimStart cs = cs := by
  cases cs with
  | nil => rfl
  | cons c cs => exact List.dropWhile_cons_of_neg (by simp [h c rfl])

/-- Blanks in front are trimmed up to what is not blank. -/
theorem trimStart_append {gap rest : List Char} (hgap : ∀ c ∈ gap, Text.isBlank c = true)
    (hrest : ∀ c ∈ rest.head?, Text.isBlank c = false) : Text.trimStart (gap ++ rest) = rest := by
  rw [Text.trimStart, List.dropWhile_append_of_pos hgap]
  exact trimStart_of_head?_not_blank hrest

/-- Blanks before a character that is none are passed over. -/
theorem trimStart_blanks (gap : Blanks) {c : Char} (hc : Text.isBlank c = false)
    (rest : List Char) : Text.trimStart (gap.text ++ c :: rest) = c :: rest :=
  trimStart_append gap.isBlank_of_mem (by rintro _ ⟨⟩; exact hc)

/-- What is trimmed begins with no blank. -/
theorem head?_trimStart (cs : List Char) : ∀ c ∈ (Text.trimStart cs).head?,
    Text.isBlank c = false := by
  intro c hc
  have hdrop := List.head?_dropWhile_not Text.isBlank cs
  rw [Text.trimStart] at hc
  rw [Option.mem_def.mp hc] at hdrop
  exact hdrop

/-- What is passed over are blanks. -/
theorem exists_blanks (cs : List Char) : ∃ gap : Blanks, cs = gap.text ++ Text.trimStart cs := by
  refine ⟨⟨cs.takeWhile Text.isBlank, fun c hc ↦ ?_⟩, List.takeWhile_append_dropWhile.symm⟩
  exact List.all_eq_true.mp List.all_takeWhile c hc

/-- A quoted string begins with neither a blank nor the closing bracket. -/
theorem head?_text_append (q : QuotedString) (cs : List Char) :
    ∀ c ∈ (q.text ++ cs).head?, Text.isBlank c = false ∧ c ≠ ']' := by
  rintro _ ⟨⟩
  rcases q.isQuote with h | h <;> rw [h] <;> decide

private theorem trimStart_string {gap : List Char} (hgap : ∀ c ∈ gap, Text.isBlank c = true)
    (q : QuotedString) (cs : List Char) : Text.trimStart (gap ++ (q.text ++ cs)) = q.text ++ cs :=
  trimStart_append hgap fun c hc ↦ (head?_text_append q cs c hc).1

private theorem head?_row_append (row : Row) (cs : List Char) :
    ∀ c ∈ (row.text ++ cs).head?, Text.isBlank c = false ∧ c ≠ ']' := by
  obtain ⟨tail, htail⟩ : ∃ tail, row.text = row.first.text ++ tail := ⟨_, rfl⟩
  rw [htail, List.append_assoc]
  exact head?_text_append row.first (tail ++ cs)

/-- Behind a string the list goes on after a comma and ends at the closing bracket. -/
theorem strings_text_append (q : QuotedString) (cs : List Char) (fuel : Nat) :
    strings (fuel + 1) (q.text ++ cs) =
      let rest := Text.trimStart cs
      if rest.head? = some ',' then
        strings fuel (Text.trimStart rest.tail) >>= fun found ↦ .ok (q.value :: found.1, found.2)
      else if rest.head? = some ']' then .ok ([q.value], rest.tail)
      else .error (.expected ']' rest) := by
  have hstring := (string_eq_ok_iff (q.text ++ cs) q.value cs).mpr ⟨q, rfl, rfl⟩
  have hstart : (q.text ++ cs).head? ≠ some ']' := fun hclose ↦
    (head?_text_append q cs ']' hclose).2 rfl
  rw [strings, if_neg hstart, hstring, ok_bind]

/-- Behind a string and a comma the reader goes on with the next one. -/
theorem strings_comma (q : QuotedString) {cs behind : List Char}
    (h : Text.trimStart cs = ',' :: behind) (fuel : Nat) :
    strings (fuel + 1) (q.text ++ cs) = strings fuel (Text.trimStart behind) >>= fun found ↦
      .ok (q.value :: found.1, found.2) := by
  rw [strings_text_append, h]
  rfl

/-- Behind a string and the closing bracket the reader ends. -/
theorem strings_bracket (q : QuotedString) {cs behind : List Char}
    (h : Text.trimStart cs = ']' :: behind) (fuel : Nat) :
    strings (fuel + 1) (q.text ++ cs) = .ok ([q.value], behind) := by
  rw [strings_text_append, h]
  rfl

/-- A row of strings is read up to the closing bracket. -/
theorem strings_row (row : Row) (closing : Blanks) (rest : List Char) {fuel : Nat}
    (hfuel : row.more.length + 1 < fuel) :
    strings fuel (row.text ++ (closing.text ++ ']' :: rest)) = .ok (row.strings, rest) := by
  have hclosing : Text.trimStart (closing.text ++ ']' :: rest) = ']' :: rest :=
    trimStart_blanks closing rfl rest
  obtain ⟨first, more, comma?⟩ := row
  induction more generalizing first fuel with
  | nil =>
    obtain ⟨fuel, rfl⟩ : ∃ n, fuel = n + 2 := ⟨fuel - 2, by simp at hfuel; omega⟩
    cases comma? with
    | none =>
      simp only [Row.text, List.flatMap_nil, List.append_nil]
      exact strings_bracket first hclosing _
    | some gap =>
      simp only [Row.text, List.flatMap_nil, List.nil_append, List.append_assoc,
        List.singleton_append]
      rw [strings_comma first (trimStart_blanks gap rfl _), hclosing]
      rfl
  | cons item more ih =>
    obtain ⟨separator, next⟩ := item
    obtain ⟨fuel, rfl⟩ : ∃ n, fuel = n + 1 := ⟨fuel - 1, by omega⟩
    rw [List.length_cons] at hfuel
    have hcomma (cs : List Char) : Text.trimStart (separator.written ++ cs) =
        ',' :: (separator.after ++ cs) := by
      rw [Separator.written, List.append_assoc, List.cons_append]
      exact trimStart_append separator.blank_before (by rintro _ ⟨⟩; rfl)
    have hread := ih next (Nat.lt_of_succ_lt_succ hfuel)
    rw [Row.text_cons, List.append_assoc, List.append_assoc, strings_comma first (hcomma _)]
    rw [Row.text, List.append_assoc] at hread ⊢
    rw [trimStart_string separator.blank_after, hread]
    rfl

/-- One turn of the loop over the strings of a list: what may stand there, and what it gives. -/
inductive Turn (fuel : Nat) :
    List Char → Except Refusal (List (List Char) × List Char) → Prop
  | bracket (rest : List Char) : Turn fuel (']' :: rest) (.ok ([], rest))
  | noString {cs : List Char} {e : Refusal} (hopen : cs.head? ≠ some ']')
    (h : string cs = .error e) : Turn fuel cs (.error e)
  | comma (q : QuotedString) (separator : Separator) {rest : List Char}
    (h : ∀ c ∈ rest.head?, Text.isBlank c = false) :
    Turn fuel (q.text ++ (separator.written ++ rest))
      (strings fuel rest >>= fun found ↦ .ok (q.value :: found.1, found.2))
  | last (q : QuotedString) (gap : Blanks) (rest : List Char) :
    Turn fuel (q.text ++ (gap.text ++ ']' :: rest)) (.ok ([q.value], rest))
  | noComma (q : QuotedString) (gap : Blanks) {rest : List Char}
    (h : ∀ c ∈ rest.head?, Text.isBlank c = false ∧ c ≠ ',' ∧ c ≠ ']') :
    Turn fuel (q.text ++ (gap.text ++ rest)) (.error (.expected ']' rest))

/-- What one turn of the reader meets. -/
theorem turn (fuel : Nat) (cs : List Char) : Turn fuel cs (strings (fuel + 1) cs) := by
  by_cases hclosed : cs.head? = some ']'
  · obtain ⟨rest, rfl⟩ := List.head?_eq_some_iff.mp hclosed
    exact .bracket rest
  cases hstring : string cs with
  | error e =>
    rw [strings, if_neg hclosed, hstring, error_bind]
    exact .noString hclosed hstring
  | ok found =>
    obtain ⟨s, behind⟩ := found
    obtain ⟨q, rfl, rfl⟩ := (string_eq_ok_iff cs s behind).mp hstring
    obtain ⟨gap, hgap⟩ := exists_blanks behind
    have hblank := head?_trimStart behind
    rw [strings_text_append]
    generalize Text.trimStart behind = rest at hgap hblank ⊢
    subst hgap
    simp only
    split
    · next hcomma =>
      obtain ⟨tail, rfl⟩ := List.head?_eq_some_iff.mp hcomma
      obtain ⟨after, hafter⟩ := exists_blanks tail
      let separator : Separator :=
        ⟨gap.text, after.text, gap.isBlank_of_mem, after.isBlank_of_mem⟩
      have hwritten : gap.text ++ ',' :: tail = separator.written ++ Text.trimStart tail := by
        rw [Separator.written, List.append_assoc, List.cons_append, ← hafter]
      rw [hwritten]
      exact .comma q separator (head?_trimStart tail)
    · next hcomma =>
      split
      · next hbracket =>
        obtain ⟨tail, rfl⟩ := List.head?_eq_some_iff.mp hbracket
        exact .last q gap tail
      · next hbracket =>
        exact .noComma q gap fun c hc ↦
          ⟨hblank c hc, fun hc' ↦ hcomma (hc' ▸ hc), fun hc' ↦ hbracket (hc' ▸ hc)⟩

/-- What is read up to the closing bracket is nothing or a row of strings. -/
theorem exists_row_of_strings {fuel : Nat} {cs : List Char} {ss : List (List Char)}
    {rest : List Char} (h : strings fuel cs = .ok (ss, rest)) :
    ∃ (row? : Option Row) (closing : Blanks), ss = (row?.map Row.strings).getD [] ∧
      cs = (row?.map Row.text).getD [] ++ (closing.text ++ ']' :: rest) := by
  induction fuel generalizing cs ss with
  | zero => cases h
  | succ fuel ih =>
    have hturn := turn fuel cs
    generalize strings (fuel + 1) cs = result at hturn h
    cases hturn with
    | bracket =>
      cases h
      exact ⟨none, ⟨[], by simp⟩, rfl, rfl⟩
    | noString | noComma => cases h
    | last q gap =>
      cases h
      exact ⟨some ⟨q, [], none⟩, gap, rfl, by simp [Row.text]⟩
    | comma q separator =>
      rw [bind_eq_ok_iff] at h
      obtain ⟨⟨found, last⟩, hfound, h⟩ := h
      cases h
      obtain ⟨row?, closing, rfl, rfl⟩ := ih hfound
      cases row? with
      | none =>
        obtain ⟨before, after, hbefore, hafter⟩ := separator
        refine ⟨some ⟨q, [], some ⟨before, hbefore⟩⟩, .append ⟨after, hafter⟩ closing, rfl, ?_⟩
        simp [Row.text, Blanks.append, Separator.written]
      | some row =>
        obtain ⟨next, more, comma?⟩ := row
        refine ⟨some ⟨q, (separator, next) :: more, comma?⟩, closing, rfl, ?_⟩
        simp [Row.text_cons]

/-- A list is no longer than texts made of its members, none of them empty. -/
theorem length_le_length_flatMap {α β : Type} {f : α → List β} (hf : ∀ a, f a ≠ []) (l : List α) :
    l.length ≤ (l.flatMap f).length := by
  induction l with
  | nil => exact Nat.zero_le _
  | cons a l ih =>
    have hpos := List.length_pos_iff.mpr (hf a)
    rw [List.flatMap_cons, List.length_append, List.length_cons]
    omega

private theorem length_more_lt (row : Row) : row.more.length + 1 < row.text.length := by
  have hmore := length_le_length_flatMap
    (f := fun e : Separator × QuotedString ↦ e.1.written ++ e.2.text)
    (fun e ↦ by simp [Separator.written]) row.more
  have hquotes : 2 ≤ row.first.text.length := by simp [QuotedString.text]
  rw [Row.text, List.length_append, List.length_append]
  omega

/-- What comes of the strings up to the closing bracket, given the text behind it. -/
def closed (found : List (List Char) × List Char) : Except Refusal (List (List Char)) :=
  let rest := Text.trimStart found.2
  if !rest.isEmpty then .error (.trailingContent rest)
  else if maxElements < found.1.length then .error (.tooManyElements found.1.length)
  else .ok found.1

private theorem closed_eq_ok_iff (found : List (List Char)) (last : List Char)
    (ss : List (List Char)) : closed (found, last) = .ok ss ↔
      Text.trimStart last = [] ∧ ss.length ≤ maxElements ∧ found = ss := by
  rw [closed]
  cases Text.trimStart last with
  | cons c rest => simp
  | nil =>
    by_cases hcount : maxElements < found.length
    · simp only [List.isEmpty_nil, Bool.not_true, Bool.false_eq_true, if_false, if_pos hcount,
        reduceCtorEq, true_and, false_iff, not_and]
      rintro hss rfl
      exact Nat.not_lt.mpr hss hcount
    · simp only [List.isEmpty_nil, Bool.not_true, Bool.false_eq_true, if_false, if_neg hcount,
        Except.ok.injEq, true_and]
      constructor
      · rintro rfl
        exact ⟨Nat.not_lt.mp hcount, rfl⟩
      · exact And.right

/-- What is read is refused for what trails it, or else for too many strings. -/
theorem closed_eq_error_iff (found : List (List Char)) (last : List Char) (e : Refusal) :
    closed (found, last) = .error e ↔
      Text.trimStart last ≠ [] ∧ e = .trailingContent (Text.trimStart last) ∨
      Text.trimStart last = [] ∧ maxElements < found.length ∧
        e = .tooManyElements found.length := by
  rw [closed]
  cases Text.trimStart last with
  | cons c rest => simp [eq_comm]
  | nil => by_cases hcount : maxElements < found.length <;> simp [hcount, eq_comm]

/-- A literal is read by its strings from the opening bracket on. -/
theorem list_bracket (before opened : Blanks) {inside : List Char}
    (h : ∀ c ∈ inside.head?, Text.isBlank c = false) :
    list (before.text ++ '[' :: (opened.text ++ inside)) =
      strings ((opened.text ++ inside).length + 2) inside >>= closed := by
  have hopen : Text.trimStart (before.text ++ '[' :: (opened.text ++ inside)) =
      '[' :: (opened.text ++ inside) := trimStart_blanks before rfl _
  rw [list, hopen]
  simp only [List.head?_cons, if_true, List.tail_cons, List.length_cons,
    trimStart_append opened.isBlank_of_mem h]
  rfl

/-- A text that begins with no bracket is refused there. -/
theorem list_of_head?_ne {cs : List Char} (h : (Text.trimStart cs).head? ≠ some '[') :
    list cs = .error (.expected '[' (Text.trimStart cs)) := by
  rw [list]
  exact if_neg h

/-- A text without an opening bracket is refused, and one with it is read from there on. -/
theorem list_cases (cs : List Char) :
    (∃ before : Blanks, cs = before.text ++ Text.trimStart cs ∧
      (Text.trimStart cs).head? ≠ some '[') ∨
    ∃ (before opened : Blanks) (inside : List Char),
      cs = before.text ++ '[' :: (opened.text ++ inside) ∧
      ∀ c ∈ inside.head?, Text.isBlank c = false := by
  obtain ⟨before, hbefore⟩ := exists_blanks cs
  by_cases hopen : (Text.trimStart cs).head? = some '['
  · obtain ⟨tail, htail⟩ := List.head?_eq_some_iff.mp hopen
    obtain ⟨opened, hopened⟩ := exists_blanks tail
    refine .inr ⟨before, opened, Text.trimStart tail, ?_, head?_trimStart tail⟩
    rw [← hopened, ← htail]
    exact hbefore
  · exact .inl ⟨before, hbefore, hopen⟩

/-- The strings of a written literal are read up to the closing bracket, whatever is behind it. -/
theorem list_text_append (w : WrittenList) {rest : List Char}
    (h : ∀ c ∈ rest.head?, Text.isBlank c = false) :
    list (w.text ++ rest) = closed (w.strings, rest) := by
  obtain ⟨before, opened, row?, closing, behind⟩ := w
  have hclosed (ss : List (List Char)) : closed (ss, behind.text ++ rest) = closed (ss, rest) := by
    simp only [closed, trimStart_append behind.isBlank_of_mem h, trimStart_of_head?_not_blank h]
  cases row? with
  | none =>
    -- The blanks on either side of no strings are passed over together.
    have htext : WrittenList.text ⟨before, opened, none, closing, behind⟩ ++ rest =
        before.text ++ '[' :: ((opened.append closing).text ++ ']' :: (behind.text ++ rest)) := by
      simp [WrittenList.text, Blanks.append]
    rw [htext, list_bracket before _ (by rintro _ ⟨⟩; rfl)]
    exact hclosed []
  | some row =>
    let inside := row.text ++ (closing.text ++ ']' :: (behind.text ++ rest))
    have htext : WrittenList.text ⟨before, opened, some row, closing, behind⟩ ++ rest =
        before.text ++ '[' :: (opened.text ++ inside) := by
      simp [WrittenList.text, inside]
    have hinside : ∀ c ∈ inside.head?, Text.isBlank c = false := fun c hc ↦
      (head?_row_append row _ c hc).1
    have hlength : row.more.length + 1 < (opened.text ++ inside).length + 2 := by
      have hrow := length_more_lt row
      simp only [inside, List.length_append]
      omega
    rw [htext, list_bracket before opened hinside, strings_row row closing _ hlength]
    exact hclosed row.strings

/-- A written list is read up to its closing bracket. -/
theorem list_text (w : WrittenList) : list w.text = closed (w.strings, []) := by
  have hread : list (w.text ++ []) = closed (w.strings, []) := list_text_append w (by simp)
  rwa [List.append_nil] at hread

/-- What is read up to the closing bracket is a written literal. -/
theorem exists_written_of_strings (before opened : Blanks) {fuel : Nat} {inside : List Char}
    {ss : List (List Char)} {last : List Char} (h : strings fuel inside = .ok (ss, last)) :
    ∃ w : WrittenList, before.text ++ '[' :: (opened.text ++ inside) =
      w.text ++ Text.trimStart last ∧ ss = w.strings := by
  obtain ⟨row?, closing, hss, hrow⟩ := exists_row_of_strings h
  obtain ⟨behind, hbehind⟩ := exists_blanks last
  refine ⟨⟨before, opened, row?, closing, behind⟩, ?_, hss⟩
  have hlast : ']' :: last = ']' :: (behind.text ++ Text.trimStart last) := by rw [← hbehind]
  rw [hrow, hlast]
  simp [WrittenList.text]

/-- What is read as a literal is one that is written with at most three strings. -/
theorem list_eq_ok_iff (cs : List Char) (ss : List (List Char)) :
    list cs = .ok ss ↔
      ss.length ≤ maxElements ∧ ∃ w : WrittenList, cs = w.text ∧ ss = w.strings := by
  constructor
  · intro h
    rcases list_cases cs with ⟨before, -, hopen⟩ | ⟨before, opened, inside, rfl, hinside⟩
    · rw [list_of_head?_ne hopen] at h
      cases h
    · rw [list_bracket before opened hinside, bind_eq_ok_iff] at h
      obtain ⟨⟨found, last⟩, hfound, h⟩ := h
      obtain ⟨hlast, hcount, rfl⟩ := (closed_eq_ok_iff found last ss).mp h
      obtain ⟨w, htext, hstrings⟩ := exists_written_of_strings before opened hfound
      rw [hlast, List.append_nil] at htext
      exact ⟨hcount, w, htext, hstrings⟩
  · rintro ⟨hcount, w, rfl, rfl⟩
    rw [list_text, closed_eq_ok_iff]
    exact ⟨rfl, hcount, rfl⟩

/-- A text is accepted exactly if a literal of at most three strings is written so, and the strings
of the literal are the result. So there is a text for every list of at most three strings. -/
theorem parse_eq_ok_iff :
    (∀ (input : String) (ss : List String), parse input = .ok ss ↔
      ss.length ≤ 3 ∧
        ∃ w : WrittenList, input.toList = w.text ∧ ss = w.strings.map String.ofList) ∧
    ∀ ss : List String, ss.length ≤ 3 → ∃ input, parse input = .ok ss := by
  have hparse (input : String) (ss : List String) : parse input = .ok ss ↔
      ss.length ≤ 3 ∧
        ∃ w : WrittenList, input.toList = w.text ∧ ss = w.strings.map String.ofList := by
    have hlist (found : List (List Char)) := list_eq_ok_iff input.toList found
    rw [parse]
    constructor
    · intro h
      split at h
      · next found hfound =>
        obtain ⟨hcount, w, htext, rfl⟩ := (hlist found).mp hfound
        cases h
        exact ⟨by rwa [List.length_map], w, htext, rfl⟩
      · cases h
    · rintro ⟨hcount, w, htext, rfl⟩
      rw [List.length_map] at hcount
      rw [(hlist w.strings).mpr ⟨hcount, w, htext, rfl⟩]
  refine ⟨hparse, fun ss hcount ↦ ?_⟩
  let w := WrittenList.ofStrings (ss.map String.toList)
  refine ⟨String.ofList w.text, (hparse _ ss).mpr ⟨hcount, w, String.toList_ofList, ?_⟩⟩
  rw [WrittenList.strings_ofStrings, List.map_map]
  exact ((List.map_congr_left fun s _ ↦ String.ofList_toList).trans (List.map_id ss)).symm

/-- A literal with both kinds of quotes, escapes and a comma behind its last string. -/
theorem parse_eq_ok_escapes :
    parse " [\"it's\\u00E9\" ,'\\'\\n', ]" = .ok ["it'sé", "'\n"] ∧
      ∃ input, parse input = .ok ["'", "\\", ""] := by
  let none : Blanks := .none
  let space : Blanks := ⟨[' '], by simp [Text.isBlank]⟩
  let first : QuotedString := ⟨'"', .inr rfl, [.plain 'i' (by decide) (by decide),
    .plain 't' (by decide) (by decide), .plain '\'' (by decide) (by decide),
    .plain 's' (by decide) (by decide),
    .codePoint ⟨0, false, by decide⟩ ⟨0, false, by decide⟩ ⟨14, true, by decide⟩
      ⟨9, false, by decide⟩ 'é' (by decide +kernel)]⟩
  let second : QuotedString := ⟨'\'', .inl rfl, [.escape '\'' (by decide), .escape 'n' (by decide)]⟩
  let row : Row := ⟨first, [(⟨[' '], [], by simp [Text.isBlank], by simp⟩, second)], some none⟩
  refine ⟨?_, parse_eq_ok_iff.2 _ (by decide)⟩
  exact (parse_eq_ok_iff.1 _ _).mpr
    ⟨by decide, ⟨space, none, some row, space, none⟩, by decide +kernel, rfl⟩

end KeyHarvest.Plural.Literal
