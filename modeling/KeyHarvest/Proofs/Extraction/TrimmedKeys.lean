import KeyHarvest.Proofs.Catalog.Forms
import KeyHarvest.Proofs.Plural.Reading
import KeyHarvest.Proofs.Sources.Harvest

/-!
# Trimmed keys

Whatever a group of a pattern captures, the key that is found is not empty and has no blanks at
either end (`trimmed_of_keyMatch?`): it is trimmed first, and undoing escapes only drops backslashes
that stand before a quote, so the key ends as it did and begins as it did or with a quote. Only the
two patterns with a plural literal give a key a default text, the message of the strings of the
literal (`message_of_keyMatch?`). So recording the keys of a text records no blank key.
-/

namespace KeyHarvest

/-! ### Trimmed text -/

/-- Text that is not empty and has no blank at either end. -/
structure Text.Trimmed (cs : List Char) : Prop where
  ne_nil : cs ≠ []
  head?_not_blank : ∀ c ∈ cs.head?, isBlank c = false
  getLast?_not_blank : ∀ c ∈ cs.getLast?, isBlank c = false

private theorem Text.trimmed_trim {cs : List Char} (h : trim cs ≠ []) : Trimmed (trim cs) :=
  ⟨h, fun _ ↦ head?_trim cs, fun _ ↦ getLast?_trim cs⟩

/-- Trimmed text is more than blanks. -/
theorem Text.Trimmed.trim_ne_nil {cs : List Char} (h : Trimmed cs) : trim cs ≠ [] := by
  cases cs with
  | nil => exact absurd rfl h.ne_nil
  | cons c cs =>
    have hc : isBlank c = false := h.head?_not_blank c rfl
    rw [trim, trimStart, List.dropWhile_cons_of_neg (by simp [hc]),
      Catalog.trimEnd_cons_of_not_blank hc]
    exact List.cons_ne_nil c _

/-! ### Messages -/

namespace Plural

private theorem length_of_message? {strings : List String} {message : String}
    (h : message? strings = some message) : 2 ≤ strings.length := by
  match strings with
  | [] | [_] => cases h
  | _ :: _ :: _ => exact Nat.le_add_left 2 _

/-- The strings of a plural literal, two or three of them, and the message that they make. -/
structure MessageOf (literal : String) (strings : List String) (message : String) : Prop where
  parse_eq : Literal.parse literal = .ok strings
  length_eq : strings.length = 2 ∨ strings.length = 3
  message?_eq : message? strings = some message

private theorem length_of_parse {literal : String} {strings : List String}
    (h : Literal.parse literal = .ok strings) : strings.length ≤ 3 := by
  rw [Literal.parse] at h
  split at h
  · next found hfound =>
    cases h
    rw [List.length_map]
    exact ((Literal.list_eq_ok_iff _ _).mp hfound).1
  · cases h

/-- A literal that gives a default text has two or three strings. -/
theorem exists_messageOf {literal : String} (h : defaultText literal ≠ "") :
    ∃ strings, MessageOf literal strings (defaultText literal) := by
  rw [defaultText] at h ⊢
  split at h
  · next strings hparse =>
    cases hmessage : message? strings with
    | none =>
      rw [hmessage] at h
      exact absurd rfl h
    | some message =>
      have hmin := length_of_message? hmessage
      have hmax := length_of_parse hparse
      exact ⟨strings, hparse, by omega, hmessage⟩
  · exact absurd rfl h

end Plural

namespace Catalog

variable {quote : Char}

/-- Undoing escapes keeps the last character. -/
theorem getLast?_unescapeQuote (cs : List Char) :
    (unescapeQuote quote cs).getLast? = cs.getLast? := by
  fun_induction unescapeQuote quote cs with
  | case1 => rfl
  | case2 => rfl
  | case3 a b rest hab ih => simp [List.getLast?_cons, ih, hab.2]
  | case4 a b rest hab ih =>
    rw [List.getLast?_cons, ih, ← List.getLast?_cons]

/-- Undoing escapes keeps the first character, or there is a quote in its place. -/
theorem head?_unescapeQuote {cs : List Char} {c : Char}
    (h : c ∈ (unescapeQuote quote cs).head?) : c = quote ∨ c ∈ cs.head? := by
  fun_cases unescapeQuote quote cs with
  | case1 => exact .inr h
  | case2 a => exact .inr h
  | case3 a b rest hab =>
    rw [unescapeQuote, if_pos hab] at h
    exact .inl (Option.some.inj h).symm
  | case4 a b rest hab =>
    rw [unescapeQuote, if_neg hab] at h
    exact .inr h

private theorem trimmed_unescapeQuote (hquote : IsQuote quote) {cs : List Char}
    (h : Text.Trimmed cs) : Text.Trimmed (unescapeQuote quote cs) := by
  refine ⟨fun hnil ↦ h.ne_nil ((unescapeQuote_eq_nil_iff cs).mp hnil), fun c hc ↦ ?_, fun c hc ↦ ?_⟩
  · rcases head?_unescapeQuote hc with rfl | hc
    · exact hquote.not_blank
    · exact h.head?_not_blank c hc
  · rw [getLast?_unescapeQuote] at hc
    exact h.getLast?_not_blank c hc

private theorem Unescape.trimmed_apply (u : Unescape) {cs : List Char} (h : Text.Trimmed cs) :
    Text.Trimmed (u.apply cs) := by
  cases u with
  | singleQuote => exact trimmed_unescapeQuote (.inl rfl) h
  | doubleQuote => exact trimmed_unescapeQuote (.inr rfl) h
  | verbatim => exact h

/-! ### One match -/

section

variable {p : Pattern} {found : Match} {m : KeyMatch}

private theorem Pattern.keyMatch?_eq_some_iff : p.keyMatch? found = some m ↔
    Text.trim (found.group p.kind.keyGroup) ≠ [] ∧
      ⟨p.name, String.ofList (p.unescape.apply (Text.trim (found.group p.kind.keyGroup))),
        p.defaultText found⟩ = m := by
  rw [Pattern.keyMatch?]
  by_cases h : Text.trim (found.group p.kind.keyGroup) = []
  · simp [h]
  · simp [h]

/-- The key of a match is trimmed, whatever the group for it has captured. -/
theorem trimmed_of_keyMatch? (h : p.keyMatch? found = some m) : Text.Trimmed m.key.toList := by
  obtain ⟨hne, rfl⟩ := Pattern.keyMatch?_eq_some_iff.mp h
  rw [String.toList_ofList]
  exact p.unescape.trimmed_apply (Text.trimmed_trim hne)

/-- A match gives a key no default text but the message of the plural literal that the pattern
captures. -/
theorem message_of_keyMatch? (h : p.keyMatch? found = some m) (hdefault : m.defaultText ≠ "") :
    ∃ i, p.kind.literalGroup? = some i ∧
      ∃ strings, Plural.MessageOf (String.ofList (found.group i)) strings m.defaultText := by
  obtain ⟨-, rfl⟩ := Pattern.keyMatch?_eq_some_iff.mp h
  simp only [Pattern.defaultText] at hdefault ⊢
  cases hgroup : p.kind.literalGroup? with
  | none =>
    rw [hgroup] at hdefault
    exact absurd rfl hdefault
  | some i =>
    rw [hgroup] at hdefault
    exact ⟨i, rfl, Plural.exists_messageOf hdefault⟩

end

/-! ### Patterns with literals -/

/-- The patterns that capture a plural literal, and the groups that capture it. -/
def literalGroups : List (String × Nat) :=
  [("HtmlDirectivePluralLast", 2), ("HtmlDirectivePluralFirst", 1)]

private theorem mem_literalGroups_of_mem_builtin {start stop filter : String} {p : Pattern}
    (hp : p ∈ Builtin.patterns start stop filter) {i : Nat}
    (hi : p.kind.literalGroup? = some i) : (p.name, i) ∈ literalGroups := by
  have hall : ∀ p ∈ Builtin.patterns start stop filter, ∀ i ∈ p.kind.literalGroup?,
      (p.name, i) ∈ literalGroups := by
    simp [Builtin.patterns, Kind.literalGroup?, literalGroups]
  exact hall p hp i hi

private theorem kind_of_customPattern {engine : Regex.Engine} {name source : String} {p : Pattern}
    (h : customPattern engine name source = .ok p) : p.kind = .plain := by
  rw [customPattern] at h
  split at h
  · cases h
  · split at h
    · cases h
    · cases h
      rfl

section

variable {options : Options} {engine : Regex.Engine} {catalog : Catalog}
  (hcatalog : ofOptions options engine = .ok catalog)
include hcatalog

private theorem mem_patterns_of_ofOptions {p : Pattern} (hp : p ∈ catalog.patterns) :
    p ∈ Builtin.patterns options.startDelimiter options.endDelimiter options.filterName ∨
      ∃ e ∈ options.customPatterns.entries, customPattern engine e.1 e.2 = .ok p := by
  obtain ⟨custom, hcustom, hpatterns⟩ := exists_patterns_eq_of_ofOptions hcatalog
  rw [hpatterns, List.mem_append] at hp
  exact hp.imp id ((mapM_eq_ok hcustom).1 p)

/-- Of the patterns of a catalog two capture a plural literal, and no custom one does. -/
theorem mem_literalGroups {p : Pattern} (hp : p ∈ catalog.patterns) {i : Nat}
    (hi : p.kind.literalGroup? = some i) : (p.name, i) ∈ literalGroups := by
  rcases mem_patterns_of_ofOptions hcatalog hp with hp | ⟨e, -, he⟩
  · exact mem_literalGroups_of_mem_builtin hp hi
  · rw [kind_of_customPattern he] at hi
    cases hi

end

/-! ### Found keys -/

/-- A found key comes from a match of a pattern of the catalog. The key is trimmed, and its default
text is empty unless the pattern captures a plural literal, whose message it then is. -/
structure Normalized (catalog : Catalog) (content : String) (m : KeyMatch) (p : Pattern)
    (found : Match) : Prop where
  mem_patterns : p ∈ catalog.patterns
  name_eq : p.name = m.pattern
  mem_allMatches : found ∈ p.regex.allMatches content.toList
  keyMatch?_eq : p.keyMatch? found = some m
  trimmed : Text.Trimmed m.key.toList
  message : m.defaultText ≠ "" → ∃ i, p.kind.literalGroup? = some i ∧
    (m.pattern, i) ∈ literalGroups ∧
    ∃ strings, Plural.MessageOf (String.ofList (found.group i)) strings m.defaultText

/-- None of the keys is blank. -/
def NoneBlank (keys : Extracted) : Prop :=
  ∀ key ∈ keys.keys, Text.trim key.toList ≠ []

private theorem exists_of_mem_keyMatches {catalog : Catalog} {content : String} {m : KeyMatch}
    (h : m ∈ catalog.keyMatches content) :
    ∃ p ∈ catalog.patterns, ∃ found ∈ p.regex.allMatches content.toList,
      p.keyMatch? found = some m := by
  obtain ⟨p, hp, hm⟩ := List.mem_flatMap.mp h
  exact ⟨p, hp, List.mem_filterMap.mp hm⟩

private theorem trimmed_of_mem_keyMatches {catalog : Catalog} {content : String} {m : KeyMatch}
    (h : m ∈ catalog.keyMatches content) : Text.Trimmed m.key.toList := by
  obtain ⟨p, -, found, -, hkey⟩ := exists_of_mem_keyMatches h
  exact trimmed_of_keyMatch? hkey

private theorem mem_keys_record {keys : Extracted} {found : List KeyMatch} {key : String}
    (h : key ∈ (keys.record found).keys) : (∃ m ∈ found, m.key = key) ∨ key ∈ keys.keys := by
  rw [KeyMap.mem_keys_iff, KeyMap.contains, Extracted.get?_record, Option.isSome_or,
    Bool.or_eq_true] at h
  refine h.imp (fun h ↦ ?_) (KeyMap.mem_keys_iff keys key).mpr
  rw [Option.isSome_iff_ne_none, Ne, KeyMap.firstValue_eq_none_iff, Decidable.not_not] at h
  simpa using h

/-- Extracting a text adds no blank key. -/
theorem NoneBlank.extractInto {keys : Extracted} (h : NoneBlank keys) (catalog : Catalog)
    (content : String) : NoneBlank (catalog.extractInto content keys).1 := by
  intro key hkey
  rcases mem_keys_record hkey with ⟨m, hm, rfl⟩ | hkey
  · exact (trimmed_of_mem_keyMatches hm).trim_ne_nil
  · exact h key hkey

/-- Extracting texts adds no blank key. -/
theorem NoneBlank.extractAll {keys : Extracted} (h : NoneBlank keys) (catalog : Catalog)
    (contents : List String) : NoneBlank (catalog.extractAll contents keys).1 := by
  induction contents generalizing keys with
  | nil => exact h
  | cons content contents ih => exact ih (h.extractInto catalog content)

/-- The keys that a catalog finds are trimmed, and only those with a plural literal have a default
text. So no text and no source file adds a blank key to those found before. -/
theorem keyMatches_normalized {options : Options} {engine : Regex.Engine} {catalog : Catalog}
    (hcatalog : ofOptions options engine = .ok catalog) :
    (∀ content, ∀ m ∈ catalog.keyMatches content, ∃ p found,
      catalog.Normalized content m p found) ∧
    (∀ contents keys, NoneBlank keys → NoneBlank (catalog.extractAll contents keys).1) ∧
    ∀ (t : FileTree) files, NoneBlank (catalog.harvest t files).keys := by
  have hempty : NoneBlank .empty := fun _ hkey ↦ absurd hkey List.not_mem_nil
  refine ⟨fun content m hm ↦ ?_, fun contents keys h ↦ h.extractAll catalog contents,
    fun t files ↦ ?_⟩
  · obtain ⟨p, hp, found, hfound, hkey⟩ := exists_of_mem_keyMatches hm
    have hname : p.name = m.pattern := by
      rw [← (Pattern.keyMatch?_eq_some_iff.mp hkey).2]
    refine ⟨p, found, hp, hname, hfound, hkey, trimmed_of_keyMatch? hkey, fun hdefault ↦ ?_⟩
    obtain ⟨i, hi, hmessage⟩ := message_of_keyMatch? hkey hdefault
    exact ⟨i, hi, hname ▸ mem_literalGroups hcatalog hp hi, hmessage⟩
  · rw [harvest_eq]
    exact hempty.extractAll catalog _

/-- A custom pattern whose group takes no part in the first of its matches, and a plural literal. -/
theorem keyMatches_normalized_call :
    let options : Options := { customPatterns := .ofList [("call", "tr\\(( *\\w* *)?\\)")] }
    let content := "tr() tr( a ) translate=\" b \" angular-plural-extract=\"['x','y']\""
    ∃ catalog, ofOptions options = .ok catalog ∧
      catalog.keyMatches content = [⟨"HtmlDirectiveStandalone", "b", ""⟩,
        ⟨"HtmlDirectivePluralLast", "b", "\x7bNB, plural, one\x7bx\x7d other\x7by\x7d\x7d"⟩,
        ⟨"others_call", "a", ""⟩] ∧
      (∀ m ∈ catalog.keyMatches content, ∃ p found, catalog.Normalized content m p found) ∧
      NoneBlank (catalog.extractAll [content] .empty).1 := by
  intro options content
  have hfound : (ofOptions options).toOption.map (·.keyMatches content) =
      some [⟨"HtmlDirectiveStandalone", "b", ""⟩,
        ⟨"HtmlDirectivePluralLast", "b", "\x7bNB, plural, one\x7bx\x7d other\x7by\x7d\x7d"⟩,
        ⟨"others_call", "a", ""⟩] := by decide +kernel
  cases hcatalog : ofOptions options with
  | error e => simp [hcatalog, Except.toOption] at hfound
  | ok catalog =>
    rw [hcatalog] at hfound
    obtain ⟨hmatches, hall, -⟩ := keyMatches_normalized hcatalog
    exact ⟨catalog, rfl, Option.some.inj hfound, hmatches content,
      hall [content] .empty fun _ hkey ↦ absurd hkey List.not_mem_nil⟩

end Catalog

end KeyHarvest
