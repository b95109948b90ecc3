import KeyHarvest.Proofs.Extraction.Lines

/-!
# Elements that share a line

Where elements stand one after the other in one line, each plural pattern of the usual catalog finds
at most one pair in it. The one takes the first key of the line with the last plural literal, the
other the first plural literal with the last key, whichever elements the two stand in. So no key but
the first and the last gets a default text, and these two may get each other's
(`get?_extract_sharedLine`).
-/

namespace KeyHarvest.Catalog

/-! ### Pairs in rows of attributes -/

private theorem lastNamed_eq_getLast?_filter (name : AttributeName) (attributes : List Attribute) :
    lastNamed name attributes = (attributes.filter (·.name = name)).getLast? := by
  rw [lastNamed, ← List.head?_filter, List.filter_reverse, List.head?_reverse]

private theorem pairIn_eq_none {second : AttributeName} (first : AttributeName)
    {attributes : List Attribute} (h : ∀ a ∈ attributes, a.name ≠ second) :
    pairIn first second attributes = none := by
  induction attributes with
  | nil => rfl
  | cons a attributes ih =>
    rw [List.forall_mem_cons] at h
    rw [pairIn, (lastNamed_eq_none_iff second attributes).mpr h.2, ih h.2, Option.map_none,
      ite_self]

/-- An attribute of the first name is paired with the last one of the second name behind it. -/
theorem pairIn_cons {first second : AttributeName} (hne : first ≠ second) {a : Attribute}
    (ha : a.name = first) (rest : List Attribute) :
    pairIn first second (a :: rest) =
      (((a :: rest).filter (·.name = second)).getLast?).map (a, ·) := by
  have hsecond : a.name ≠ second := ha ▸ hne
  rw [pairIn, if_pos ha, lastNamed_eq_getLast?_filter,
    List.filter_cons_of_neg (by simpa using hsecond)]

/-- The last attribute of the second name is paired with the first one of the first name before
it. -/
theorem pairIn_append_cons {first second : AttributeName} (hne : first ≠ second) {b : Attribute}
    (hb : b.name = second) (before : List Attribute) {after : List Attribute}
    (hafter : ∀ a ∈ after, a.name ≠ second) :
    pairIn first second (before ++ b :: after) =
      ((before.filter (·.name = first)).head?).map (·, b) := by
  induction before with
  | nil => rw [List.nil_append, pairIn, if_neg (hb ▸ hne.symm), pairIn_eq_none first hafter]; rfl
  | cons a before ih =>
    have hlast : lastNamed second (before ++ b :: after) = some b :=
      (lastNamed_eq_some_iff second _ b).mpr ⟨hb, before, after, rfl, hafter⟩
    rw [List.cons_append, pairIn, hlast, ih]
    by_cases hname : a.name = first
    · rw [if_pos hname, List.filter_cons_of_pos (by simpa using hname)]
      rfl
    · rw [if_neg hname, List.filter_cons_of_neg (by simpa using hname)]

/-! ### A line of elements as a row of attributes -/

/-- The attributes of elements that stand one after the other in a line. -/
def sharedAttributes (first : Element) (others : List Element) : List Attribute :=
  first.attributes .opening ++ others.flatMap (·.attributes .reopening)

private theorem Element.filter_attributes (e : Element) (lead : Lead) :
    (e.attributes lead).filter (·.name = .plural) =
      e.plural?.toList.map (·.attribute .space) := by
  obtain ⟨key, plural?⟩ := e
  cases plural? <;> rfl

/-- The plural attributes of a line are those of its elements. -/
theorem filter_sharedAttributes (first : Element) (others : List Element) :
    (sharedAttributes first others).filter (·.name = .plural) =
      ((first :: others).filterMap Element.plural?).map (·.attribute .space) := by
  rw [sharedAttributes, List.filter_append, List.filter_flatMap,
    List.filterMap_eq_flatMap_toList, List.map_flatMap, List.flatMap_cons, first.filter_attributes]
  simp only [Element.filter_attributes]

private theorem texts_flatMap_attributes (others : List Element) :
    texts (others.flatMap (·.attributes .reopening)) ++ "></span>".toList =
      "></span>".toList ++ (String.join (others.map Element.text)).toList := by
  induction others with
  | nil => rfl
  | cons e others ih =>
    have hlead : Lead.reopening.text = "></span>".toList ++ Lead.opening.text := rfl
    rw [List.flatMap_cons, texts, List.flatMap_append, ← texts, ← texts, e.texts_attributes,
      List.append_assoc, ih, hlead, List.map_cons, String.join_cons, String.toList_append,
      e.toList_text]
    simp only [List.append_assoc]

private theorem texts_sharedAttributes (first : Element) (others : List Element) :
    texts (sharedAttributes first others) ++ "></span>".toList =
      (String.join ((first :: others).map Element.text)).toList := by
  rw [sharedAttributes, texts, List.flatMap_append, ← texts, ← texts, first.texts_attributes,
    List.append_assoc, texts_flatMap_attributes, List.map_cons, String.join_cons,
    String.toList_append, first.toList_text]
  simp only [List.append_assoc]

section SharedLine

variable {first : Element} {others : List Element}
  (hline : '\n' ∉ (String.join ((first :: others).map Element.text)).toList)

/-- Elements that stand one after the other in a line, as a row of attributes. -/
def sharedLine : Line where
  attributes := sharedAttributes first others
  tail := "></span>".toList
  quote_not_mem_tail := quote_not_mem_closing
  newline_not_mem_value := by
    intro a ha hm
    apply hline
    rw [← texts_sharedAttributes, List.mem_append]
    refine .inl (List.mem_flatMap.mpr ⟨a, List.mem_of_mem_tail (List.dropLast_subset _ ha), ?_⟩)
    simp [Attribute.text, Attribute.opened, hm]

private theorem pageText_sharedLine : (String.join ((first :: others).map Element.text)).toList =
    pageText [sharedLine hline] := by
  rw [← texts_sharedAttributes]
  simp [pageText, Line.text, sharedLine]

/-- The first key of a line goes with the last plural literal. -/
theorem literalBehind?_sharedLine : (sharedLine hline).literalBehind? =
    ((first :: others).filterMap Element.plural?).getLast?.map fun v ↦
      (first.key.key, v.forms.message) := by
  have hne : AttributeName.key ≠ .plural := by decide
  have hpair : pairIn .key .plural (sharedAttributes first others) =
      ((sharedAttributes first others).filter (·.name = .plural)).getLast?.map
        (first.key.attribute .opening, ·) :=
    pairIn_cons hne rfl _
  have hline : (sharedLine hline).literalBehind? =
      (pairIn .key .plural (sharedAttributes first others)).map fun p ↦
        (p.1.keyText, p.2.defaultText) := rfl
  rw [hline, hpair, filter_sharedAttributes, List.getLast?_map, Option.map_map, Option.map_map]
  refine Option.map_congr fun v _ ↦ ?_
  exact congrArg (Prod.mk first.key.key) (v.defaultText_attribute .space)

end SharedLine

/-- The last key of a line goes with the first plural literal before it. -/
theorem literalBefore?_sharedLine {first last : Element} {middle : List Element}
    (hline : '\n' ∉ (String.join ((first :: (middle ++ [last])).map Element.text)).toList) :
    (sharedLine hline).literalBefore? =
      ((first :: middle).filterMap Element.plural?).head?.map fun v ↦
        (last.key.key, v.forms.message) := by
  let key := last.key.attribute .reopening
  let behind := last.plural?.toList.map (·.attribute .space)
  have hattributes : sharedAttributes first (middle ++ [last]) =
      sharedAttributes first middle ++ key :: behind := by
    rw [sharedAttributes, List.flatMap_append, List.flatMap_singleton, ← List.append_assoc]
    rfl
  have hbehind : ∀ a ∈ behind, a.name ≠ .key := by
    intro a ha
    obtain ⟨v, -, rfl⟩ := List.mem_map.mp ha
    exact AttributeName.noConfusion
  have hne : AttributeName.plural ≠ .key := by decide
  have hpair := pairIn_append_cons hne (b := key) rfl (sharedAttributes first middle) hbehind
  have hline : (sharedLine hline).literalBefore? =
      (pairIn .plural .key (sharedAttributes first (middle ++ [last]))).map fun p ↦
        (p.2.keyText, p.1.defaultText) := rfl
  rw [hline, hattributes, hpair, filter_sharedAttributes, List.head?_map, Option.map_map,
    Option.map_map]
  refine Option.map_congr fun v _ ↦ ?_
  exact congrArg (Prod.mk last.key.key) (v.defaultText_attribute .space)

/-! ### What is extracted -/

private theorem firstValue_map_message (plural? : Option PluralValue) (k k' : String) :
    KeyMap.firstValue (plural?.map fun v ↦ (k, v.forms.message)).toList k' =
      if k = k' then plural?.map fun v ↦ v.forms.message else none := by
  cases plural? with
  | none => exact (ite_self _).symm
  | some v => exact KeyMap.firstValue_cons _ _ _

private theorem messageOf_eq_empty_iff (plural? : Option PluralValue) :
    messageOf plural? = "" ↔ plural? = none := by
  cases plural? with
  | none => exact iff_of_true rfl rfl
  | some v => exact iff_of_false v.forms.message_ne_empty (Option.some_ne_none v)

section Extract

variable {first last : Element} {middle : List Element}
  (hline : '\n' ∉ (String.join ((first :: (middle ++ [last])).map Element.text)).toList)
include hline

private theorem dollar_not_mem_sharedLine : '$' ∉ pageText [sharedLine hline] := by
  rw [← pageText_sharedLine, String.toList_join, List.mem_flatMap]
  rintro ⟨text, htext, hm⟩
  obtain ⟨e, -, rfl⟩ := List.mem_map.mp htext
  exact e.dollar_not_mem hm

private theorem name_ne_html_sharedLine : ∀ a ∈ (sharedLine hline).attributes, a.name ≠ .html := by
  intro a ha
  rcases List.mem_append.mp ha with ha | ha
  · exact first.name_ne_html _ a ha
  · obtain ⟨e, -, ha⟩ := List.mem_flatMap.mp ha
    exact e.name_ne_html _ a ha

private theorem exists_key_sharedLine {e : Element} (he : e ∈ first :: (middle ++ [last])) :
    ∃ a ∈ (sharedLine hline).attributes, a.name = .key ∧ a.keyText = e.key.key := by
  rcases List.mem_cons.mp he with rfl | he
  · exact ⟨_, List.mem_append_left _ List.mem_cons_self, rfl, rfl⟩
  · exact ⟨_, List.mem_append_right _ (List.mem_flatMap.mpr ⟨e, he, List.mem_cons_self⟩), rfl, rfl⟩

/-- A key of a line gets the message of the first plural literal before the last element if it is
the last key, and that of the last literal of the line if it is the first key. -/
theorem get?_extract_of_mem {e : Element} (he : e ∈ first :: (middle ++ [last])) :
    (usual.extract (String.join ((first :: (middle ++ [last])).map Element.text))).get? e.key.key =
      some (((if last.key.key = e.key.key then
          ((first :: middle).filterMap Element.plural?).head?.map fun v ↦ v.forms.message
        else none).or
        (if first.key.key = e.key.key then
          ((first :: (middle ++ [last])).filterMap Element.plural?).getLast?.map fun v ↦
            v.forms.message
        else none)).getD "") := by
  obtain ⟨a, ha, hname, hkey⟩ := exists_key_sharedLine hline he
  have hhtml : ∀ l ∈ [sharedLine hline], ∀ a ∈ l.attributes, a.name ≠ .html :=
    List.forall_mem_singleton.mpr (name_ne_html_sharedLine hline)
  have hlookup := get?_extract_page (dollar_not_mem_sharedLine hline) hhtml
    (pageText_sharedLine hline) List.mem_cons_self ha hname (hkey ▸ e.key.key_ne_empty)
  have hpairs : [sharedLine hline].filterMap Line.literalBehind? ++
      [sharedLine hline].filterMap Line.literalBefore? =
        (sharedLine hline).literalBehind?.toList ++ (sharedLine hline).literalBefore?.toList := by
    simp only [List.filterMap_eq_flatMap_toList, List.flatMap_singleton]
  have hreverse (pair? : Option (String × String)) : pair?.toList.reverse = pair?.toList := by
    cases pair? <;> rfl
  rw [hkey, hpairs, List.reverse_append, hreverse, hreverse, KeyMap.firstValue_append,
    literalBefore?_sharedLine, literalBehind?_sharedLine, firstValue_map_message,
    firstValue_map_message] at hlookup
  exact hlookup

end Extract

/-- Without literals between them the first and the last element of a line have their own messages
exactly if they have the same one. -/
theorem messageOf_ends_iff {first last : Element} {middle : List Element}
    (h : ∀ e ∈ middle, e.plural? = none) :
    messageOf ((first :: (middle ++ [last])).filterMap (·.plural?)).getLast? =
          messageOf first.plural? ∧
        messageOf last.plural? = messageOf ((first :: middle).filterMap (·.plural?)).head? ↔
      messageOf first.plural? = messageOf last.plural? := by
  have hmiddle : middle.flatMap (·.plural?.toList) = [] := by
    rw [← List.filterMap_eq_flatMap_toList]
    exact List.filterMap_eq_nil_iff.mpr h
  rw [List.filterMap_eq_flatMap_toList, List.filterMap_eq_flatMap_toList, List.flatMap_cons,
    List.flatMap_cons, List.flatMap_append, List.flatMap_singleton, hmiddle, List.nil_append,
    List.append_nil, List.getLast?_append]
  cases first.plural? <;> cases last.plural? <;> simp [eq_comm]

/-- Of the keys of a line only the first and the last get default texts: the first key has the
message of the last plural literal in the line, the last key that of the first literal before the
last element. So each key has the message of its own literal only where the first and the last
element have the same message and no element between them has a literal. -/
theorem get?_extract_sharedLine (first last : Element) (middle : List Element)
    (hd : ((first :: (middle ++ [last])).map (·.key.key)).Nodup)
    (hline : '\n' ∉ (String.join ((first :: (middle ++ [last])).map Element.text)).toList) :
    ∃ catalog, ofOptions {} = .ok catalog ∧
      let keys := catalog.extract (String.join ((first :: (middle ++ [last])).map Element.text))
      keys.get? first.key.key =
          some (messageOf ((first :: (middle ++ [last])).filterMap (·.plural?)).getLast?) ∧
        keys.get? last.key.key =
          some (messageOf ((first :: middle).filterMap (·.plural?)).head?) ∧
        (∀ e ∈ middle, keys.get? e.key.key = some "") ∧
        ((∀ e ∈ first :: (middle ++ [last]), keys.get? e.key.key = some (messageOf e.plural?)) ↔
          messageOf first.plural? = messageOf last.plural? ∧ ∀ e ∈ middle, e.plural? = none) := by
  refine ⟨usual, ofOptions_usual, ?_⟩
  intro keys
  rw [List.map_cons, List.map_append, List.nodup_cons, List.nodup_append] at hd
  obtain ⟨hfirst, -, -, hlast⟩ := hd
  have hne : first.key.key ≠ last.key.key := fun h ↦ hfirst (by simp [h])
  have hmiddle : ∀ e ∈ middle, first.key.key ≠ e.key.key ∧ last.key.key ≠ e.key.key := by
    intro e he
    have hmem := List.mem_map_of_mem (f := fun e : Element ↦ e.key.key) he
    exact ⟨fun h ↦ hfirst (h ▸ List.mem_append_left _ hmem), (hlast _ hmem _ (by simp)).symm⟩
  have hfirstKey : keys.get? first.key.key =
      some (messageOf ((first :: (middle ++ [last])).filterMap (·.plural?)).getLast?) := by
    rw [get?_extract_of_mem hline List.mem_cons_self, if_neg hne.symm, if_pos rfl, Option.none_or]
    rfl
  have hlastKey : keys.get? last.key.key =
      some (messageOf ((first :: middle).filterMap (·.plural?)).head?) := by
    rw [get?_extract_of_mem hline (by simp), if_pos rfl, if_neg hne, Option.or_none]
    rfl
  have hmiddleKey : ∀ e ∈ middle, keys.get? e.key.key = some "" := by
    intro e he
    rw [get?_extract_of_mem hline (by simp [he]), if_neg (hmiddle e he).2, if_neg (hmiddle e he).1]
    rfl
  have hmiddleOwn : (∀ e ∈ middle, keys.get? e.key.key = some (messageOf e.plural?)) ↔
      ∀ e ∈ middle, e.plural? = none := by
    refine forall₂_congr fun e he ↦ ?_
    rw [hmiddleKey e he, Option.some_inj, eq_comm, messageOf_eq_empty_iff]
  refine ⟨hfirstKey, hlastKey, hmiddleKey, ?_⟩
  rw [List.forall_mem_cons, List.forall_mem_append, List.forall_mem_singleton, hfirstKey,
    hlastKey, hmiddleOwn, Option.some_inj, Option.some_inj]
  constructor
  · rintro ⟨hfirst, hmiddle, hlast⟩
    exact ⟨(messageOf_ends_iff hmiddle).mp ⟨hfirst, hlast.symm⟩, hmiddle⟩
  · rintro ⟨hends, hmiddle⟩
    obtain ⟨hfirst, hlast⟩ := (messageOf_ends_iff hmiddle).mpr hends
    exact ⟨hfirst, hmiddle, hlast.symm⟩

/-- Three elements, each with a literal: the first key gets the last one, the last key the first
one, and the key between them none. -/
theorem get?_extract_sharedLine_cats :
    let comma : Plural.Separator := ⟨[], [' '], by simp, by simp [Text.isBlank]⟩
    let cats : PluralValue := ⟨⟨⟨"cat".toList, by decide, by decide⟩, comma,
      ⟨"cats".toList, by decide, by decide⟩, none⟩, by simp [Plural.WrittenForms.strings]⟩
    let dogs : PluralValue := ⟨⟨⟨"dog".toList, by decide, by decide⟩, comma,
      ⟨"dogs".toList, by decide, by decide⟩, none⟩, by simp [Plural.WrittenForms.strings]⟩
    let cows : PluralValue := ⟨⟨⟨"cow".toList, by decide, by decide⟩, comma,
      ⟨"cows".toList, by decide, by decide⟩, none⟩, by simp [Plural.WrittenForms.strings]⟩
    let first : Element := ⟨⟨"cats", by decide, List.all_iff_forall_prop.mp rfl⟩, some cats⟩
    let second : Element := ⟨⟨"dogs", by decide, List.all_iff_forall_prop.mp rfl⟩, some dogs⟩
    let last : Element := ⟨⟨"cows", by decide, List.all_iff_forall_prop.mp rfl⟩, some cows⟩
    let line := String.join ([first, second, last].map Element.text)
    ([first, second, last].map (·.key.key)).Nodup ∧ '\n' ∉ line.toList ∧
      ∃ catalog, ofOptions {} = .ok catalog ∧
        (catalog.extract line).get? "cats" =
          some "\x7bNB, plural, one\x7bcow\x7d other\x7bcows\x7d\x7d" ∧
        (catalog.extract line).get? "dogs" = some "" ∧
        (catalog.extract line).get? "cows" =
          some "\x7bNB, plural, one\x7bcat\x7d other\x7bcats\x7d\x7d" := by
  intro comma cats dogs cows first second last line
  have hd : ([first, second, last].map (·.key.key)).Nodup := by decide
  have hline : '\n' ∉ line.toList := by
    have htexts : ∀ text ∈ [first, second, last].map Element.text, '\n' ∉ text.toList := by
      decide +kernel
    simpa only [line, String.toList_join, List.mem_flatMap, not_exists, not_and] using htexts
  obtain ⟨catalog, hcatalog, hfirst, hlast, hmiddle, -⟩ :=
    get?_extract_sharedLine first last [second] hd hline
  have hcows : messageOf (some cows) = "\x7bNB, plural, one\x7bcow\x7d other\x7bcows\x7d\x7d" := by
    decide +kernel
  have hcats : messageOf (some cats) = "\x7bNB, plural, one\x7bcat\x7d other\x7bcats\x7d\x7d" := by
    decide +kernel
  have hkey : first.key.key = "cats" ∧ second.key.key = "dogs" ∧ last.key.key = "cows" := by
    decide +kernel
  have hfirst : (catalog.extract line).get? first.key.key = some (messageOf (some cows)) := hfirst
  have hlast : (catalog.extract line).get? last.key.key = some (messageOf (some cats)) := hlast
  have hsecond := hmiddle second List.mem_cons_self
  rw [hkey.1, hcows] at hfirst
  rw [hkey.2.2, hcats] at hlast
  rw [hkey.2.1] at hsecond
  exact ⟨hd, hline, catalog, hcatalog, hfirst, hsecond, hlast⟩

/-- The literal of the second of two elements goes to the key of the first, and its own key gets no
default text. -/
theorem get?_extract_literal_behind_key :
    let comma : Plural.Separator := ⟨[], [' '], by simp, by simp [Text.isBlank]⟩
    let literal : PluralValue := ⟨⟨⟨"x".toList, by decide, by decide⟩, comma,
      ⟨"y".toList, by decide, by decide⟩, none⟩, by simp [Plural.WrittenForms.strings]⟩
    let first : Element := ⟨⟨"A", by decide, List.all_iff_forall_prop.mp rfl⟩, none⟩
    let last : Element := ⟨⟨"B", by decide, List.all_iff_forall_prop.mp rfl⟩, some literal⟩
    let line := "<span translate=\"A\"></span>" ++
      "<span translate=\"B\" angular-plural-extract=\"['x', 'y']\"></span>"
    String.join ([first, last].map Element.text) = line ∧
      ∃ catalog, ofOptions {} = .ok catalog ∧
        (catalog.extract line).get? "A" = some "\x7bNB, plural, one\x7bx\x7d other\x7by\x7d\x7d" ∧
        (catalog.extract line).get? "B" = some "" ∧
        ¬ ∀ e ∈ [first, last],
          (catalog.extract line).get? e.key.key = some (messageOf e.plural?) := by
  intro comma literal first last line
  have htext : String.join ((first :: ([] ++ [last])).map Element.text) = line := by decide +kernel
  have hline : '\n' ∉ (String.join ((first :: ([] ++ [last])).map Element.text)).toList := by
    rw [htext]
    decide +kernel
  have hne : first.key.key ≠ last.key.key := by decide +kernel
  have hkey : first.key.key = "A" ∧ last.key.key = "B" := by decide +kernel
  have hmessage : messageOf (some literal) = "\x7bNB, plural, one\x7bx\x7d other\x7by\x7d\x7d" := by
    decide +kernel
  have hfirst := get?_extract_of_mem hline List.mem_cons_self
  rw [htext, if_neg hne.symm, if_pos rfl] at hfirst
  have hlast := get?_extract_of_mem hline (List.mem_cons_of_mem first List.mem_cons_self)
  rw [htext, if_pos rfl, if_neg hne] at hlast
  have hlast : (usual.extract line).get? last.key.key = some "" := hlast
  refine ⟨htext, usual, ofOptions_usual, ?_, ?_, fun h ↦ ?_⟩
  · rw [← hkey.1, ← hmessage]
    exact hfirst
  · rw [← hkey.2]
    exact hlast
  · have hown := h last (by simp)
    rw [hlast, Option.some_inj, eq_comm, messageOf_eq_empty_iff] at hown
    exact Option.some_ne_none literal hown

end KeyHarvest.Catalog
