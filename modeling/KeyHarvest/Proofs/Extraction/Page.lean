import KeyHarvest.Proofs.Catalog.Attributes
import KeyHarvest.Proofs.Extraction.Recording

/-!
# Pages of attributes

What the usual catalog extracts from a page, that is from lines of attributes, is decided by the two
plural patterns. Each finds at most one pair of a key and a plural literal in a line, and of all
these pairs the last one with a key decides the default text of the key. A key in no pair has no
default text (`get?_extract_page`).
-/

namespace KeyHarvest

namespace Catalog

/-- A line of attributes. Only the values of its first and of its last attribute may go over the end
of a line. -/
structure Line where
  /-- The attributes. -/
  attributes : List Attribute
  /-- The stretch behind the last attribute. -/
  tail : List Char
  quote_not_mem_tail : '"' ∉ tail
  newline_not_mem_value : ∀ a ∈ attributes.tail.dropLast, '\n' ∉ a.value

/-- The line as it is written. -/
def Line.text (l : Line) : List Char :=
  texts l.attributes ++ l.tail

/-- Lines joined by line breaks. -/
def pageText (lines : List Line) : List Char :=
  ['\n'].intercalate (lines.map Line.text)

private theorem pageText_cons_cons (l l' : Line) (lines : List Line) :
    pageText (l :: l' :: lines) = l.text ++ '\n' :: pageText (l' :: lines) := by
  simp [pageText, List.intercalate_cons_cons]

/-- A character other than the line break that no line has is not in the page. -/
theorem not_mem_pageText {c : Char} (hc : c ≠ '\n') {lines : List Line}
    (h : ∀ l ∈ lines, c ∉ l.text) : c ∉ pageText lines := by
  induction lines with
  | nil => exact List.not_mem_nil
  | cons l lines ih =>
    rw [List.forall_mem_cons] at h
    cases lines with
    | nil => simpa [pageText] using h.1
    | cons l' lines =>
      rw [pageText_cons_cons, List.mem_append, List.mem_cons]
      rintro (hm | hm | hm)
      · exact h.1 hm
      · exact hc hm
      · exact ih h.2 hm

/-! ### The matches in a page -/

private theorem map_matchesBehind_page {β : Type} {r : Regex} {name : AttributeName}
    (hr : OpensWith r name) (hc : r.Consuming) (g : Match → β) (f : Line → List β)
    (done : List Char) {lines : List Line}
    (h : ∀ l ∈ lines, ∀ done rest, (∀ c ∈ rest.head?, c = '\n') →
      (r.matchesBehind done (l.text ++ rest)).map g =
        f l ++ (r.matchesBehind (done ++ l.text) rest).map g) :
    (r.matchesBehind done (pageText lines)).map g = lines.flatMap f := by
  induction lines generalizing done with
  | nil => exact congrArg _ (Regex.matchesBehind_nil hc done)
  | cons l lines ih =>
    cases lines with
    | nil =>
      have hline := h l List.mem_cons_self done [] (by simp)
      rw [Regex.matchesBehind_nil hc, List.append_nil] at hline
      simpa [pageText] using hline
    | cons l' lines =>
      have hnewline : r.matchesBehind (done ++ l.text) ('\n' :: pageText (l' :: lines)) =
          r.matchesBehind (done ++ l.text ++ ['\n']) (pageText (l' :: lines)) :=
        Regex.matchesBehind_of_misses hr.misses_newline
      rw [pageText_cons_cons, h l List.mem_cons_self done _ (by rintro c ⟨⟩; rfl), hnewline,
        ih _ fun l hl ↦ h l (List.mem_cons_of_mem _ hl)]
      exact List.flatMap_cons.symm

/-- The attributes of a name in a page are found line by line. -/
theorem map_allMatches_attributeValue (name : AttributeName) (index : Nat) (lines : List Line) :
    ((Builtin.attributeValue name.text index).allMatches (pageText lines)).map (·.group index) =
      lines.flatMap fun l ↦ (l.attributes.filter (·.name = name)).map (·.value) :=
  map_matchesBehind_page (opensWith_attributeValue name index)
    (consuming_attributeValue name index) (·.group index) _ []
    fun l _ _ _ hrest ↦ matchesBehind_attributeValue l.quote_not_mem_tail hrest name index

/-- In each line of a page at most one pair of attributes is found. -/
theorem map_allMatches_attributePair (first second : AttributeName) (lines : List Line) :
    ((Builtin.attributePair first.text second.text).allMatches (pageText lines)).map
        (fun m ↦ (m.group 1, m.group 2)) =
      lines.flatMap fun l ↦ (pairIn first second l.attributes).toList.map
        fun p ↦ (p.1.value, p.2.value) :=
  map_matchesBehind_page (opensWith_attributePair first second)
    (consuming_attributePair first second) (fun m ↦ (m.group 1, m.group 2)) _ []
    fun l _ _ _ hrest ↦
      matchesBehind_attributePair l.quote_not_mem_tail hrest l.newline_not_mem_value

/-- A page without an attribute that binds a filtered literal has no match of it. -/
theorem allMatches_bindHtml {lines : List Line}
    (h : ∀ l ∈ lines, ∀ a ∈ l.attributes, a.name ≠ .html) :
    Builtin.bindHtml.allMatches (pageText lines) = [] := by
  have hc : Builtin.bindHtml.Consuming :=
    (Regex.consuming_literal (by decide)).concat _
  have hmatches := map_matchesBehind_page opensWith_bindHtml hc id (fun _ ↦ []) [] fun l hl done
    rest hrest ↦ congrArg _ (Regex.matchesBehind_of_misses
      (opensWith_bindHtml.misses_texts l.quote_not_mem_tail hrest (h l hl)))
  rw [List.map_id] at hmatches
  rw [Regex.allMatches_eq_matchesBehind, hmatches]
  exact List.flatMap_eq_nil_iff.mpr fun _ _ ↦ rfl

private theorem allMatches_call {s : String} {cs : List Char} (hs : s.toList = '$' :: cs)
    (function : List Regex) (quote : Char) {content : List Char} (h : '$' ∉ content) :
    (Builtin.call (Builtin.text s :: function) quote).allMatches content = [] := by
  have hliteral : Builtin.text s = Regex.literal ('$' :: cs) := congrArg Regex.literal hs
  rw [Builtin.call, List.cons_append, hliteral]
  apply Regex.allMatches_eq_nil
  · exact (Regex.consuming_literal (List.cons_ne_nil _ _)).concat _
  · exact (Regex.misses_literal (by decide) cs h).concat _

/-! ### The keys in a page -/

/-- The key that the value of an attribute is. -/
def Attribute.keyText (a : Attribute) : String :=
  String.ofList (Text.trim a.value)

/-- The default text that the value of an attribute gives. -/
def Attribute.defaultText (a : Attribute) : String :=
  Plural.defaultText (String.ofList a.value)

/-- The key of a line and the default text of a literal behind it. -/
def Line.literalBehind? (l : Line) : Option (String × String) :=
  (pairIn .key .plural l.attributes).map fun p ↦ (p.1.keyText, p.2.defaultText)

/-- The key of a line and the default text of a literal before it. -/
def Line.literalBefore? (l : Line) : Option (String × String) :=
  (pairIn .plural .key l.attributes).map fun p ↦ (p.2.keyText, p.1.defaultText)

/-- A found key with its default text. -/
def entry (m : KeyMatch) : String × String :=
  (m.key, m.defaultText)

private theorem map_entry_keyMatches {p : Pattern} (hp : p.unescape = .verbatim)
    (content : List Char) : (p.keyMatches content).map entry =
      ((p.regex.allMatches content).map fun m ↦
        (String.ofList (Text.trim (m.group p.kind.keyGroup)), p.defaultText m)).filter
          (·.1 ≠ "") := by
  rw [Pattern.keyMatches]
  induction p.regex.allMatches content with
  | nil => rfl
  | cons m ms ih =>
    rw [List.filterMap_cons, List.map_cons, List.filter_cons, Pattern.keyMatch?]
    by_cases hkey : Text.trim (m.group p.kind.keyGroup) = []
    · simp [hkey, ih]
    · simp [hkey, ih, hp, Unescape.apply, entry, String.ofList_eq_empty_iff]

private theorem defaultText_of_mem_keyMatches {p : Pattern} (hp : p.kind = .plain)
    {content : List Char}
    {m : KeyMatch} (hm : m ∈ p.keyMatches content) : m.defaultText = "" := by
  obtain ⟨found, -, hfound⟩ := List.mem_filterMap.mp hm
  simp only [Pattern.keyMatch?] at hfound
  split at hfound
  · cases hfound
  · rw [← Option.some.inj hfound, Pattern.defaultText, hp]
    rfl

/-- The pairs that a pattern for two attributes finds in a page, where the key and the default text
are made of the two values. -/
theorem map_entry_attributePair (p : Pattern) (first second : AttributeName)
    (hp : p.unescape = .verbatim) (hregex : p.regex = Builtin.attributePair first.text second.text)
    (made : List Char → List Char → String × String)
    (hmade : ∀ m, (String.ofList (Text.trim (m.group p.kind.keyGroup)), p.defaultText m) =
      made (m.group 1) (m.group 2)) (lines : List Line) :
    (p.keyMatches (pageText lines)).map entry =
      (lines.filterMap fun l ↦ (pairIn first second l.attributes).map fun q ↦
        made q.1.value q.2.value).filter (·.1 ≠ "") := by
  have hpairs : ((Builtin.attributePair first.text second.text).allMatches (pageText lines)).map
      (fun m ↦ made (m.group 1) (m.group 2)) =
        lines.flatMap fun l ↦ ((pairIn first second l.attributes).map fun q ↦
          made q.1.value q.2.value).toList := by
    have hmap := congrArg (List.map fun q : List Char × List Char ↦ made q.1 q.2)
      (map_allMatches_attributePair first second lines)
    rw [List.map_map, List.map_flatMap] at hmap
    refine Eq.trans hmap (List.flatMap_congr fun l _ ↦ ?_)
    cases pairIn first second l.attributes <;> rfl
  rw [map_entry_keyMatches hp, hregex, funext hmade, List.filterMap_eq_flatMap_toList, hpairs]

/-! ### The usual catalog -/

/-- The catalog that the usual options describe. -/
def usual : Catalog :=
  ⟨Builtin.patterns "\x7b\x7b" "\x7d\x7d" "translate"⟩

/-- The catalog of the default options. -/
theorem ofOptions_usual : ofOptions {} = .ok usual := rfl

/-- The pattern for a literal behind a key. -/
def literalBehind : Pattern :=
  ⟨"HtmlDirectivePluralLast", .pluralLast, .verbatim,
    Builtin.attributePair AttributeName.key.text AttributeName.plural.text⟩

/-- The pattern for a literal before a key. -/
def literalBefore : Pattern :=
  ⟨"HtmlDirectivePluralFirst", .pluralFirst, .verbatim,
    Builtin.attributePair AttributeName.plural.text AttributeName.key.text⟩

/-- The two patterns for plural literals stand next to each other. -/
theorem patterns_usual : usual.patterns =
    usual.patterns.take 6 ++ ([literalBehind, literalBefore] ++ usual.patterns.drop 8) := rfl

private theorem kind_of_mem_take : ∀ p ∈ usual.patterns.take 6, p.kind = .plain := by
  decide

section Usual

variable {lines : List Line}

/-- The patterns behind those for plural literals find nothing in a page. -/
theorem keyMatches_of_mem_drop (hdollar : '$' ∉ pageText lines)
    (hhtml : ∀ l ∈ lines, ∀ a ∈ l.attributes, a.name ≠ .html) :
    ∀ p ∈ usual.patterns.drop 8, p.keyMatches (pageText lines) = [] := by
  intro p hp
  have hnone : p.regex.allMatches (pageText lines) = [] := by
    simp only [usual, Builtin.patterns, List.drop_succ_cons, List.drop_zero, List.mem_cons,
      List.not_mem_nil, or_false] at hp
    rcases hp with rfl | rfl | rfl | rfl | rfl | rfl | rfl
    · exact allMatches_bindHtml hhtml
    all_goals exact allMatches_call rfl _ _ hdollar
  rw [Pattern.keyMatches, hnone]
  rfl

/-- Each key attribute of a page is found without a literal. -/
theorem mem_entry_keyMatches_take {l : Line} (hl : l ∈ lines) {a : Attribute}
    (ha : a ∈ l.attributes) (hname : a.name = .key) (hkey : a.keyText ≠ "") :
    (a.keyText, "") ∈
      ((usual.patterns.take 6).flatMap (·.keyMatches (pageText lines))).map entry := by
  let standalone : Pattern :=
    ⟨"HtmlDirectiveStandalone", .plain, .verbatim, Builtin.attributeValue AttributeName.key.text 1⟩
  have hstandalone : standalone ∈ usual.patterns.take 6 := by
    simp [usual, Builtin.patterns, standalone, AttributeName.text]
  have hvalue : a.value ∈ (standalone.regex.allMatches (pageText lines)).map (·.group 1) := by
    rw [map_allMatches_attributeValue]
    exact List.mem_flatMap.mpr
      ⟨l, hl, List.mem_map.mpr ⟨a, List.mem_filter.mpr ⟨ha, decide_eq_true hname⟩, rfl⟩⟩
  obtain ⟨m, hm, hgroup⟩ := List.mem_map.mp hvalue
  have hentry : (a.keyText, "") ∈ (standalone.keyMatches (pageText lines)).map entry := by
    rw [map_entry_keyMatches rfl]
    refine List.mem_filter.mpr ⟨List.mem_map.mpr ⟨m, hm, ?_⟩, decide_eq_true hkey⟩
    exact congrArg (fun value ↦ (String.ofList (Text.trim value), "")) hgroup
  rw [List.map_flatMap]
  exact List.mem_flatMap.mpr ⟨standalone, hstandalone, hentry⟩

/-- The matches in a page: those without default texts, then the pairs. -/
theorem map_entry_keyMatches_usual (hdollar : '$' ∉ pageText lines)
    (hhtml : ∀ l ∈ lines, ∀ a ∈ l.attributes, a.name ≠ .html) {content : String}
    (hcontent : content.toList = pageText lines) :
    (usual.keyMatches content).map entry =
      ((usual.patterns.take 6).flatMap (·.keyMatches (pageText lines))).map entry ++
        (lines.filterMap Line.literalBehind? ++ lines.filterMap Line.literalBefore?).filter
          (·.1 ≠ "") := by
  have hdrop := List.flatMap_eq_nil_iff.mpr (keyMatches_of_mem_drop hdollar hhtml)
  have hbehind : (literalBehind.keyMatches (pageText lines)).map entry =
      (lines.filterMap Line.literalBehind?).filter (·.1 ≠ "") :=
    map_entry_attributePair literalBehind .key .plural rfl rfl (fun key literal ↦
      (String.ofList (Text.trim key), Plural.defaultText (String.ofList literal)))
      (fun _ ↦ rfl) lines
  have hbefore : (literalBefore.keyMatches (pageText lines)).map entry =
      (lines.filterMap Line.literalBefore?).filter (·.1 ≠ "") :=
    map_entry_attributePair literalBefore .plural .key rfl rfl (fun literal key ↦
      (String.ofList (Text.trim key), Plural.defaultText (String.ofList literal)))
      (fun _ ↦ rfl) lines
  have hmatches : usual.keyMatches content =
      (usual.patterns.take 6).flatMap (·.keyMatches (pageText lines)) ++
        (literalBehind.keyMatches (pageText lines) ++
          literalBefore.keyMatches (pageText lines)) := by
    rw [keyMatches, hcontent]
    nth_rewrite 1 [patterns_usual]
    rw [List.flatMap_append, List.flatMap_append, hdrop, List.append_nil, List.flatMap_cons,
      List.flatMap_singleton]
  rw [hmatches, List.map_append, List.map_append, hbehind, hbefore, List.filter_append]

/-- In a page a key gets the default text of the last pair with it that a plural pattern finds, and
none if there is no such pair. -/
theorem get?_extract_page (hdollar : '$' ∉ pageText lines)
    (hhtml : ∀ l ∈ lines, ∀ a ∈ l.attributes, a.name ≠ .html) {content : String}
    (hcontent : content.toList = pageText lines) {l : Line} (hl : l ∈ lines) {a : Attribute}
    (ha : a ∈ l.attributes) (hname : a.name = .key) (hkey : a.keyText ≠ "") :
    (usual.extract content).get? a.keyText =
      some ((KeyMap.firstValue (lines.filterMap Line.literalBehind? ++
        lines.filterMap Line.literalBefore?).reverse a.keyText).getD "") := by
  have hextract : usual.extract content =
      Extracted.record .empty (usual.keyMatches content) := rfl
  have hplain : KeyMap.firstValue (((usual.patterns.take 6).flatMap
      (·.keyMatches (pageText lines))).map entry).reverse a.keyText = some "" := by
    apply KeyMap.firstValue_eq_of_mem_iff
    intro v
    rw [List.mem_reverse]
    constructor
    · intro hv
      obtain ⟨m, hm, hentry⟩ := List.mem_map.mp hv
      obtain ⟨p, hp, hm⟩ := List.mem_flatMap.mp hm
      have hdefault := defaultText_of_mem_keyMatches (kind_of_mem_take p hp) hm
      exact congrArg some (hdefault.symm.trans (congrArg Prod.snd hentry))
    · rintro ⟨⟩
      exact mem_entry_keyMatches_take hl ha hname hkey
  have hfound := map_entry_keyMatches_usual hdollar hhtml hcontent
  rw [hextract, Extracted.get?_record]
  change (KeyMap.firstValue ((usual.keyMatches content).map entry).reverse a.keyText).or _ = _
  rw [hfound, List.reverse_append, KeyMap.firstValue_append, hplain, ← List.filter_reverse,
    KeyMap.firstValue_filter (fun k ↦ decide (k ≠ "")), if_pos (decide_eq_true hkey)]
  cases KeyMap.firstValue (lines.filterMap Line.literalBehind? ++
    lines.filterMap Line.literalBefore?).reverse a.keyText <;> rfl

end Usual

end Catalog

end KeyHarvest
