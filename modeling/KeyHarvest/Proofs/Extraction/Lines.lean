import KeyHarvest.Proofs.Extraction.Page
import KeyHarvest.Proofs.Plural.Strings
import Mathlib.Data.Bool.AllAny
import Mathlib.Data.List.Nodup

/-!
# Elements on lines of their own

Where each line of a page holds one element, the usual catalog gives every key the message of the
plural literal in its own element, on whichever side of the key the literal stands, and no default
text to a key without one (`get?_extract_lines`).
-/

namespace KeyHarvest.Catalog

/-- The value of a key attribute: a key, perhaps with blanks around it. -/
structure KeyValue where
  /-- The value as it is written. -/
  text : String
  trim_ne_nil : Text.trim text.toList ≠ []
  plain : ∀ c ∈ Text.trim text.toList, c ∉ ['"', '\'', '\\', '=', '$', '<', '>', '\n']

/-- The value of a plural attribute: a list of two or three strings. -/
structure PluralValue where
  /-- The list. -/
  forms : Plural.WrittenForms
  plain : ∀ s ∈ forms.strings, ∀ c ∈ s.text, c ∉ ['"', '$', '\n']

/-- The key without the blanks around it. -/
def KeyValue.key (k : KeyValue) : String :=
  String.ofList (Text.trim k.text.toList)

/-- The message of a plural literal, none if there is no literal. -/
def messageOf (plural? : Option PluralValue) : String :=
  (plural?.map fun v ↦ v.forms.message).getD ""

/-- The list as it is written. -/
def PluralValue.text (v : PluralValue) : String :=
  String.ofList v.forms.written

/-- Characters that are not blank stand in the value only where they stand in the key. -/
theorem KeyValue.not_mem (k : KeyValue) {c : Char} (hblank : Text.isBlank c = false)
    (hc : c ∈ ['"', '\'', '\\', '=', '$', '<', '>', '\n']) : c ∉ k.text.toList := by
  obtain ⟨front, back, hsplit, hfront, hback⟩ := Text.trim_spec k.text.toList
  have outside {cs : List Char} (h : cs.all Text.isBlank = true) : c ∉ cs := by
    intro hm
    rw [List.all_eq_true.mp h c hm] at hblank
    cases hblank
  rw [hsplit, List.mem_append, List.mem_append]
  rintro ((hm | hm) | hm)
  · exact outside hfront hm
  · exact k.plain c hm hc
  · exact outside hback hm

private theorem PluralValue.not_mem (v : PluralValue) {c : Char} (hblank : Text.isBlank c = false)
    (hc : c ∉ ['[', ']', '\'', ',']) (hstrings : ∀ s ∈ v.forms.strings, c ∉ s.text) :
    c ∉ v.text.toList := by
  rw [PluralValue.text, String.toList_ofList]
  intro hm
  rcases Plural.WrittenForms.mem_written hm with h | h | ⟨s, hs, h⟩
  · exact hc h
  · rw [h] at hblank
    cases hblank
  · exact hstrings s hs h

/-- A stretch before an attribute. -/
structure Lead where
  /-- The stretch as it is written. -/
  text : List Char
  quote_not_mem : '"' ∉ text
  newline_not_mem : '\n' ∉ text

namespace Lead

/-- The beginning of an element. -/
def opening : Lead :=
  ⟨"<span ".toList, by decide, by decide⟩

/-- The space between two attributes of an element. -/
def space : Lead :=
  ⟨[' '], by decide, by decide⟩

/-- The end of an element and the beginning of the next one. -/
def reopening : Lead :=
  ⟨"></span><span ".toList, by decide, by decide⟩

/-- The text that opens an element. -/
@[simp] theorem text_opening : opening.text = "<span ".toList := rfl

/-- The text between two attributes. -/
@[simp] theorem text_space : space.text = [' '] := rfl

end Lead

/-- The attribute with the key, behind a stretch. -/
def KeyValue.attribute (k : KeyValue) (lead : Lead) : Attribute where
  lead := lead.text
  name := .key
  value := k.text.toList
  quote_not_mem_lead := lead.quote_not_mem
  newline_not_mem_lead := lead.newline_not_mem
  quote_not_mem_value := k.not_mem rfl (by simp)
  slash_not_mem_value := k.not_mem rfl (by simp)
  getLast?_value_ne := fun h ↦ k.not_mem rfl (by simp) (List.mem_of_getLast? h)

/-- The attribute with the plural literal, behind a stretch. -/
def PluralValue.attribute (v : PluralValue) (lead : Lead) : Attribute where
  lead := lead.text
  name := .plural
  value := v.text.toList
  quote_not_mem_lead := lead.quote_not_mem
  newline_not_mem_lead := lead.newline_not_mem
  quote_not_mem_value := v.not_mem rfl (by simp) fun s hs hm ↦ v.plain s hs _ hm (by simp)
  slash_not_mem_value := v.not_mem rfl (by simp) fun s _ ↦ s.slash_not_mem
  getLast?_value_ne := by
    rw [PluralValue.text, String.toList_ofList, Plural.WrittenForms.getLast?_written]
    decide

/-- A written list gives the message of its strings. -/
theorem PluralValue.defaultText_attribute (v : PluralValue) (lead : Lead) :
    (v.attribute lead).defaultText = v.forms.message := by
  have hvalue : (v.attribute lead).defaultText =
      Plural.defaultText (String.ofList (String.ofList v.forms.written).toList) := rfl
  rw [hvalue, String.toList_ofList, v.forms.defaultText_written]

/-- A key in an attribute has text. -/
theorem KeyValue.key_ne_empty (k : KeyValue) : k.key ≠ "" := by
  rw [KeyValue.key, ne_eq, String.ofList_eq_empty_iff]
  exact k.trim_ne_nil

/-- An element with a key, perhaps with a plural literal behind the key. -/
structure Element where
  /-- The value of its key attribute. -/
  key : KeyValue
  /-- The value of its plural attribute, if it has one. -/
  plural? : Option PluralValue

/-- A line of a page with one element. -/
inductive PageLine where
  /-- An element with the plural literal, if any, behind the key. -/
  | keyFirst (element : Element)
  /-- An element with the plural literal before the key. -/
  | pluralFirst (plural : PluralValue) (key : KeyValue)

/-- The attributes of an element as they are written. -/
def Element.inner (e : Element) : String :=
  match e.plural? with
  | none => "translate=\"" ++ e.key.text ++ "\""
  | some plural =>
    "translate=\"" ++ e.key.text ++ "\" angular-plural-extract=\"" ++ plural.text ++ "\""

/-- The element as it is written. -/
def Element.text (e : Element) : String :=
  "<span " ++ e.inner ++ "></span>"

namespace PageLine

/-- The line as it is written. -/
def text : PageLine → String
  | .keyFirst e => e.text
  | .pluralFirst plural key => "<span angular-plural-extract=\"" ++ plural.text ++
      "\" translate=\"" ++ key.text ++ "\"></span>"

/-- The key of the line. -/
def key : PageLine → String
  | .keyFirst e => e.key.key
  | .pluralFirst _ key => key.key

/-- The plural literal of the line, if it has one. -/
def plural? : PageLine → Option PluralValue
  | .keyFirst e => e.plural?
  | .pluralFirst plural _ => some plural

end PageLine

/-! ### Lines as rows of attributes -/

private theorem KeyValue.text_attribute (k : KeyValue) (lead : Lead) :
    (k.attribute lead).text =
      lead.text ++ ("translate=\"".toList ++ (k.text.toList ++ ['"'])) := by
  simp [Attribute.text, Attribute.opened, KeyValue.attribute, AttributeName.text]

private theorem PluralValue.text_attribute (v : PluralValue) (lead : Lead) :
    (v.attribute lead).text =
      lead.text ++ ("angular-plural-extract=\"".toList ++ (v.text.toList ++ ['"'])) := by
  simp [Attribute.text, Attribute.opened, PluralValue.attribute, AttributeName.text,
    Builtin.pluralAttribute]

/-- The text of an element is its opening, its attributes and its closing. -/
theorem Element.toList_text (e : Element) :
    e.text.toList = Lead.opening.text ++ (e.inner.toList ++ "></span>".toList) := by
  have htext : e.text = "<span " ++ e.inner ++ "></span>" := rfl
  rw [htext, String.toList_append, String.toList_append, List.append_assoc]
  rfl

private theorem Element.toList_inner (e : Element) :
    e.inner.toList = "translate=\"".toList ++ (e.key.text.toList ++ '"' ::
      e.plural?.toList.flatMap fun plural ↦
        " angular-plural-extract=\"".toList ++ (plural.text.toList ++ ['"'])) := by
  obtain ⟨key, plural?⟩ := e
  cases plural? with
  | none =>
    have hinner : inner ⟨key, none⟩ = "translate=\"" ++ key.text ++ "\"" := rfl
    simp [hinner]
  | some plural =>
    have hinner : inner ⟨key, some plural⟩ = "translate=\"" ++ key.text ++
      "\" angular-plural-extract=\"" ++ plural.text ++ "\"" := rfl
    simp [hinner]

/-- The attributes of an element, behind a stretch. -/
def Element.attributes (e : Element) (lead : Lead) : List Attribute :=
  e.key.attribute lead :: e.plural?.toList.map fun plural ↦ plural.attribute .space

/-- The texts of the attributes are what stands within the tag. -/
theorem Element.texts_attributes (e : Element) (lead : Lead) :
    texts (e.attributes lead) = lead.text ++ e.inner.toList := by
  rw [e.toList_inner]
  simp [attributes, texts, KeyValue.text_attribute, PluralValue.text_attribute, List.flatMap_map]

/-- The attributes of a line. -/
def PageLine.attributes : PageLine → List Attribute
  | .keyFirst e => e.attributes .opening
  | .pluralFirst plural key =>
    [plural.attribute .opening,
      key.attribute .space]

/-- No quote stands in the closing of an element. -/
theorem quote_not_mem_closing : '"' ∉ "></span>".toList := by
  decide

/-- The line as a row of attributes. -/
def PageLine.line (l : PageLine) : Line where
  attributes := l.attributes
  tail := "></span>".toList
  quote_not_mem_tail := quote_not_mem_closing
  newline_not_mem_value := by
    have hshort : l.attributes.tail.dropLast = [] := by
      obtain ⟨key, plural?⟩ | ⟨plural, key⟩ := l
      · cases plural? <;> rfl
      · rfl
    simp [hshort]

private theorem PageLine.toList_text_pluralFirst (plural : PluralValue) (key : KeyValue) :
    (pluralFirst plural key).text.toList = "<span angular-plural-extract=\"".toList ++
      (plural.text.toList ++ ("\" translate=\"".toList ++
        (key.text.toList ++ "\"></span>".toList))) := by
  have htext : (pluralFirst plural key).text = "<span angular-plural-extract=\"" ++ plural.text ++
      "\" translate=\"" ++ key.text ++ "\"></span>" := rfl
  rw [htext]
  simp only [String.toList_append, List.append_assoc]

private theorem PageLine.text_line (l : PageLine) : l.line.text = l.text.toList := by
  cases l with
  | keyFirst e =>
    have hline : (keyFirst e).line.text =
      texts (e.attributes .opening) ++ "></span>".toList := rfl
    rw [hline, e.texts_attributes, List.append_assoc]
    exact e.toList_text.symm
  | pluralFirst plural key =>
    have hline : (pluralFirst plural key).line.text =
      texts [plural.attribute .opening,
        key.attribute .space] ++ "></span>".toList := rfl
    rw [toList_text_pluralFirst, hline]
    simp [texts, KeyValue.text_attribute, PluralValue.text_attribute]

private theorem toList_intercalate_text (lines : List PageLine) :
    ("\n".intercalate (lines.map PageLine.text)).toList = pageText (lines.map PageLine.line) := by
  rw [String.toList_intercalate, pageText, List.map_map, List.map_map]
  congr 1
  apply List.map_congr_left
  exact fun l _ ↦ l.text_line.symm

/-- The pairs of a line: its key with the message of its literal, if it has one. -/
theorem PageLine.mem_pairs_iff (l : PageLine) (entry : String × String) :
    entry ∈ l.line.literalBehind?.toList ++ l.line.literalBefore?.toList ↔
      ∃ v, l.plural? = some v ∧ entry = (l.key, v.forms.message) := by
  obtain ⟨key, plural?⟩ | ⟨plural, key⟩ := l
  · cases plural? with
    | none =>
      have hnone : (keyFirst ⟨key, none⟩).line.literalBehind?.toList ++
          (keyFirst ⟨key, none⟩).line.literalBefore?.toList = [] := rfl
      simp [hnone, PageLine.plural?]
    | some plural =>
      have hpair : (keyFirst ⟨key, some plural⟩).line.literalBehind?.toList ++
          (keyFirst ⟨key, some plural⟩).line.literalBefore?.toList =
          [(key.key, (plural.attribute .space).defaultText)] := rfl
      rw [hpair, plural.defaultText_attribute]
      simp [PageLine.plural?, PageLine.key]
  · have hpair : (pluralFirst plural key).line.literalBehind?.toList ++
        (pluralFirst plural key).line.literalBefore?.toList =
        [(key.key, (plural.attribute .opening).defaultText)] := rfl
    rw [hpair, plural.defaultText_attribute]
    simp [PageLine.plural?, PageLine.key]

private theorem mem_pairs_lines_iff (lines : List PageLine) (k message : String) :
    (k, message) ∈ (lines.map PageLine.line).filterMap Line.literalBehind? ++
        (lines.map PageLine.line).filterMap Line.literalBefore? ↔
      ∃ l ∈ lines, ∃ v, l.plural? = some v ∧ (k, message) = (l.key, v.forms.message) := by
  have hpairs : (k, message) ∈ (lines.map PageLine.line).filterMap Line.literalBehind? ++
        (lines.map PageLine.line).filterMap Line.literalBefore? ↔
      ∃ l ∈ lines, (k, message) ∈ l.line.literalBehind?.toList ++ l.line.literalBefore?.toList := by
    simp only [List.filterMap_map, List.mem_append, List.mem_filterMap, Function.comp_apply,
      Option.mem_toList, and_or_left, exists_or]
  rw [hpairs]
  simp only [PageLine.mem_pairs_iff]

/-- No dollar stands in a key. -/
theorem KeyValue.dollar_not_mem (k : KeyValue) : '$' ∉ k.text.toList :=
  k.not_mem rfl (by simp)

/-- No dollar stands in a plural literal. -/
theorem PluralValue.dollar_not_mem (v : PluralValue) : '$' ∉ v.text.toList :=
  v.not_mem rfl (by simp) fun s hs hm ↦ v.plain s hs _ hm (by simp)

/-- No dollar stands in an element. -/
theorem Element.dollar_not_mem (e : Element) : '$' ∉ e.text.toList := by
  simp [e.toList_text, e.toList_inner, e.key.dollar_not_mem, PluralValue.dollar_not_mem]

/-- No dollar stands in a line. -/
theorem PageLine.dollar_not_mem (l : PageLine) : '$' ∉ l.line.text := by
  rw [l.text_line]
  cases l with
  | keyFirst e =>
    have htext : (keyFirst e).text = e.text := rfl
    exact htext ▸ e.dollar_not_mem
  | pluralFirst plural key =>
    simp [toList_text_pluralFirst, key.dollar_not_mem, plural.dollar_not_mem]

/-- No attribute of an element is the binding. -/
theorem Element.name_ne_html (e : Element) (lead : Lead) :
    ∀ a ∈ e.attributes lead, a.name ≠ .html := by
  intro a ha
  rcases List.mem_cons.mp ha with rfl | ha
  · exact AttributeName.noConfusion
  · obtain ⟨plural, -, rfl⟩ := List.mem_map.mp ha
    exact AttributeName.noConfusion

/-- No attribute of a line is the binding. -/
theorem PageLine.name_ne_html (l : PageLine) : ∀ a ∈ l.line.attributes, a.name ≠ .html := by
  cases l with
  | keyFirst e => exact e.name_ne_html _
  | pluralFirst plural key =>
    intro a ha
    rcases List.mem_cons.mp ha with rfl | ha
    · exact AttributeName.noConfusion
    · rw [List.mem_singleton.mp ha]
      exact AttributeName.noConfusion

/-- Each line has an attribute with its key. -/
theorem PageLine.exists_key (l : PageLine) :
    ∃ a ∈ l.line.attributes, a.name = .key ∧ a.keyText = l.key := by
  cases l with
  | keyFirst e => exact ⟨_, List.mem_cons_self, rfl, rfl⟩
  | pluralFirst plural key => exact ⟨_, List.mem_cons_of_mem _ List.mem_cons_self, rfl, rfl⟩

/-- The key of a line has text. -/
theorem PageLine.key_ne_empty (l : PageLine) : l.key ≠ "" := by
  cases l with
  | keyFirst e => exact e.key.key_ne_empty
  | pluralFirst plural key => exact key.key_ne_empty

/-- Where each line holds one element, a key gets the message of the literal in its own element,
wherever in the element the literal stands, and no default text without one. -/
theorem get?_extract_lines (lines : List PageLine) (hd : (lines.map PageLine.key).Nodup) :
    ∃ catalog, ofOptions {} = .ok catalog ∧ ∀ l ∈ lines,
      (catalog.extract ("\n".intercalate (lines.map PageLine.text))).get? l.key =
        some (messageOf l.plural?) := by
  refine ⟨usual, ofOptions_usual, fun l hl ↦ ?_⟩
  obtain ⟨a, ha, hname, hkey⟩ := l.exists_key
  have hdollar : '$' ∉ pageText (lines.map PageLine.line) := by
    apply not_mem_pageText (by decide)
    rw [List.forall_mem_map]
    exact fun l _ ↦ l.dollar_not_mem
  have hhtml : ∀ l ∈ lines.map PageLine.line, ∀ a ∈ l.attributes, a.name ≠ .html := by
    rw [List.forall_mem_map]
    exact fun l _ ↦ l.name_ne_html
  have hlookup := get?_extract_page hdollar hhtml (toList_intercalate_text lines)
    (List.mem_map_of_mem hl) ha hname (hkey ▸ l.key_ne_empty)
  rw [hkey] at hlookup
  -- Of all the pairs only that of the line itself has its key.
  have hpair : KeyMap.firstValue ((lines.map PageLine.line).filterMap Line.literalBehind? ++
      (lines.map PageLine.line).filterMap Line.literalBefore?).reverse l.key =
        l.plural?.map fun v ↦ v.forms.message := by
    apply KeyMap.firstValue_eq_of_mem_iff
    intro message
    rw [List.mem_reverse, mem_pairs_lines_iff, Option.map_eq_some_iff]
    constructor
    · rintro ⟨l', hl', v, hv, hpair⟩
      obtain ⟨hkey, hmessage⟩ := Prod.mk.inj hpair
      obtain rfl : l = l' := List.inj_on_of_nodup_map hd hl hl' hkey
      exact ⟨v, hv, hmessage.symm⟩
    · rintro ⟨v, hv, rfl⟩
      exact ⟨l, hl, v, hv, rfl⟩
  rw [hlookup, hpair]
  rfl

/-- A page of two lines, the second with a literal of three strings before its key. -/
theorem get?_extract_lines_cats :
    let cat : Plural.PlainString := ⟨"a cat".toList, by decide, by decide⟩
    let cats : Plural.PlainString := ⟨"# cats".toList, by decide, by decide⟩
    let trailer : Plural.PlainString := ⟨"in all".toList, by decide, by decide⟩
    let comma : Plural.Separator := ⟨[], [' '], by simp, by simp [Text.isBlank]⟩
    let lines : List PageLine :=
      [.keyFirst ⟨⟨"hello", by decide, List.all_iff_forall_prop.mp rfl⟩, none⟩,
        .pluralFirst ⟨⟨cat, comma, cats, some (comma, trailer)⟩,
            by simp [Plural.WrittenForms.strings, cat, cats, trailer]⟩
          ⟨" pets.cats ", by decide, List.all_iff_forall_prop.mp rfl⟩]
    (lines.map PageLine.key).Nodup ∧ ∃ catalog, ofOptions {} = .ok catalog ∧
      (catalog.extract ("<span translate=\"hello\"></span>\n" ++
        "<span angular-plural-extract=\"['a cat', '# cats', 'in all']\" " ++
        "translate=\" pets.cats \"></span>")).get? "pets.cats" =
          some "\x7bNB, plural, one\x7ba cat\x7d other\x7b# cats\x7d in all\x7d" := by
  intro cat cats trailer comma lines
  have hd : (lines.map PageLine.key).Nodup := by decide
  obtain ⟨catalog, hcatalog, h⟩ := get?_extract_lines lines hd
  have hlast := h lines[1] (List.getElem_mem _)
  exact ⟨hd, catalog, hcatalog, hlast⟩

end KeyHarvest.Catalog
