import KeyHarvest.Config.Reader
import KeyHarvest.Proofs.Json.RoundTrip
import KeyHarvest.Proofs.KeyMap
import Mathlib.Data.List.Nodup

/-!
# Settings read back

Settings that are written and read are the same in every field, and a field that is left out has its
default (`read_written`). A setting is described once, by what it writes and what it reads
(`Setting`), and takes its own value back by law; so the settings are read one after the other
whichever of them are written (`namedFields_dividedMembers`), under their names or under the further
names that some of them have. That no two settings share a name is decided once
(`nodup_names_fields`).
-/

namespace KeyHarvest.Config

open Json Json.Reader

namespace Reader

/-! ### Values of settings -/

variable {α : Type} {width level limit : Nat}

private theorem takes_space {element : List Char → Except Fault (α × List Char)} {v : Json} {a : α}
    (hspace : ∀ cs, element (' ' :: cs) = element cs)
    (h : Takes element [] width level limit v a) : Takes element [' '] width level limit v a := by
  intro rest hr hshort
  rw [List.singleton_append, hspace]
  exact h rest hr hshort

private theorem takes_text (s : String) :
    Takes (text limit) [] width level limit (.string s) s := by
  intro rest _ hshort
  have hlength := length_le_length_escaped s.toList
  rw [prettyChars, compactChars, stringText] at hshort ⊢
  simp only [List.cons_append, List.append_assoc, List.nil_append, List.length_cons,
    List.length_append] at hshort ⊢
  exact string_stringText s rest (by omega)

private theorem takes_flag (b : Bool) : Takes (flag limit) [] width level limit (.bool b) b := by
  intro rest _ _
  cases b <;> rfl

private theorem takes_texts (l : List String) :
    Takes (texts limit) [] width level limit (textsJson l) l := by
  intro rest _ hshort
  have hitems : List.Forall₂ (Takes (text limit) [] width (level + 1) limit) (l.map .string) l :=
    List.forall₂_map_left_iff.mpr (List.forall₂_same.mpr fun s _ ↦ takes_text s)
  have hi : ∀ v ∈ l.map Json.string, v.isIntegral = true := by
    intro v hv
    obtain ⟨s, -, rfl⟩ := List.mem_map.mp hv
    rfl
  obtain ⟨body, htext, hread⟩ := elements_array hi hitems hshort
  rw [List.nil_append, textsJson, htext, texts, skipSpace_cons (by decide)]
  exact hread

/-- Texts by name as JSON. -/
def tableJson (m : KeyMap String String) : Json :=
  .object (m.entries.map fun (name, source) ↦ (name, .string source))

private theorem takes_table (m : KeyMap String String) :
    Takes (table limit) [] width level limit (tableJson m) m := by
  intro rest _ hshort
  have hmembers : List.Forall₂ (TakesMember (text limit) width (level + 1) limit)
      (m.entries.map fun (name, source) ↦ (name, .string source)) m.entries :=
    List.forall₂_map_left_iff.mpr (List.forall₂_same.mpr fun e _ ↦
      ⟨rfl, takes_space (fun _ ↦ rfl) (takes_text e.2)⟩)
  obtain ⟨body, htext, hread⟩ := members_object KeyMap.insert .empty hmembers hshort
  rw [List.nil_append, tableJson, htext, table, skipSpace_cons (by decide)]
  show members (text limit) KeyMap.insert true .empty limit body = _
  rw [hread]
  exact congrArg (fun made ↦ Except.ok (made, rest)) (KeyMap.ofList_entries m)

/-! ### Settings by name -/

/-- All names of a setting. -/
def Field.names (f : Field) : List String :=
  f.name :: f.alias?.toList

private theorem Field.called_iff (f : Field) (name : String) :
    f.called name = true ↔ name ∈ f.names := by
  rw [Field.called, Field.names, Bool.or_eq_true, beq_iff_eq, beq_iff_eq, List.mem_cons,
    Option.mem_toList]
  exact or_congr eq_comm Iff.rfl

/-- Among settings that share no name each is found by its names. -/
theorem find?_called {l : List Field} (hd : (l.flatMap Field.names).Nodup) {f : Field}
    (hf : f ∈ l) {name : String} (hname : name ∈ f.names) :
    l.find? (·.called name) = some f := by
  obtain ⟨front, back, rfl⟩ := List.append_of_mem hf
  refine List.find?_eq_some_iff_append.mpr
    ⟨(f.called_iff name).mpr hname, front, back, rfl, fun g hg ↦ ?_⟩
  rw [List.flatMap_append, List.nodup_append] at hd
  have hback : name ∈ (f :: back).flatMap Field.names :=
    List.mem_flatMap.mpr ⟨f, List.mem_cons_self, hname⟩
  rw [Bool.not_eq_true', Bool.eq_false_iff]
  intro hcalled
  have hfront : name ∈ front.flatMap Field.names :=
    List.mem_flatMap.mpr ⟨g, hg, (g.called_iff name).mp hcalled⟩
  exact hd.2.2 name hfront name hback rfl

/-- One turn of the loop over the settings reads the value of a setting that was not given
before. -/
theorem namedFields_divided {f : Field} {key : String}
    (hf : fields.find? (·.called key) = some f) {seen : List String} (hnew : f.name ∉ seen)
    (first : Bool) (c : Config) (x : Json) (es : Members) (tail : List Char) {fuel : Nat}
    (hfuel : (dividedMembers width level first ((key, x) :: es) ++ tail).length < fuel + 1) :
    namedFields first seen c (fuel + 1)
        (dividedMembers width level first ((key, x) :: es) ++ tail) =
      f.read (fuel + 1) c
          ([' '] ++ (prettyChars width level x ++ (dividedMembers width level false es ++ tail)))
        >>= fun e ↦ namedFields false (f.name :: seen) e.1 fuel e.2 := by
  have hkey := length_key_lt width level first key x es tail
  have hcolon (tail : List Char) : colon (':' :: tail) = .ok tail := rfl
  rw [namedFields, nextKey_dividedMembers, ok_bind]
  simp only [if_true]
  rw [string_stringText key _ (Nat.lt_trans hkey hfuel), ok_bind]
  simp only [hf, List.contains_eq_mem, hnew, decide_false, Bool.false_eq_true, if_false, hcolon,
    ok_bind]

/-- What values of some kind are written as, and how they are read back. -/
structure Form where
  /-- The values. -/
  Value : Type
  /-- A value as JSON. -/
  json : Value → Json
  /-- Read a value. -/
  read : Nat → List Char → Except Json.Fault (Value × List Char)
  takes : ∀ width level limit v, Takes (read limit) [' '] width level limit (json v) v

namespace Form

/-- Texts. -/
def text : Form :=
  ⟨String, .string, Reader.text, fun _ _ _ s ↦ takes_space (fun _ ↦ rfl) (takes_text s)⟩

/-- Truth values. -/
def flag : Form :=
  ⟨Bool, .bool, Reader.flag, fun _ _ _ b ↦ takes_space (fun _ ↦ rfl) (takes_flag b)⟩

/-- Lists of texts. -/
def texts : Form :=
  ⟨List String, textsJson, Reader.texts, fun _ _ _ l ↦ takes_space (fun _ ↦ rfl) (takes_texts l)⟩

/-- Texts by name. -/
def table : Form :=
  ⟨KeyMap String String, tableJson, Reader.table,
    fun _ _ _ m ↦ takes_space (fun _ ↦ rfl) (takes_table m)⟩

end Form

/-- A setting with the form of its value. -/
structure Setting where
  /-- The form of the value. -/
  form : Form
  /-- The name of the setting. -/
  name : String
  /-- A further name. -/
  alias? : Option String
  /-- The value when the setting is not given. -/
  standard : form.Value
  /-- The value in settings. -/
  get : Config → form.Value
  /-- Put a value into settings. -/
  put : Config → form.Value → Config
  put_get : ∀ c, put c (get c) = c

/-- How a setting is read. -/
def Setting.field (s : Setting) : Field :=
  .of s.name s.alias? s.form.read s.standard s.put

/-- The settings, in order. -/
def settings : List Setting := [
  ⟨.text, "startDelimiter", none, standardStart, (·.startDelimiter),
    fun c v ↦ { c with startDelimiter := v }, fun _ ↦ rfl⟩,
  ⟨.text, "endDelimiter", none, standardEnd, (·.endDelimiter),
    fun c v ↦ { c with endDelimiter := v }, fun _ ↦ rfl⟩,
  ⟨.text, "defaultLocale", some "defaultLang", standardLocale, (·.defaultLocale),
    fun c v ↦ { c with defaultLocale := v }, fun _ ↦ rfl⟩,
  ⟨.texts, "locales", some "lang", [], (·.locales), fun c v ↦ { c with locales := v },
    fun _ ↦ rfl⟩,
  ⟨.text, "filterName", some "customTranslateMatch", standardFilterName, (·.filterName),
    fun c v ↦ { c with filterName := v }, fun _ ↦ rfl⟩,
  ⟨.table, "customPatterns", none, .empty, (·.customPatterns),
    fun c v ↦ { c with customPatterns := v }, fun _ ↦ rfl⟩,
  ⟨.flag, "safeMode", none, false, (·.safeMode), fun c v ↦ { c with safeMode := v }, fun _ ↦ rfl⟩,
  ⟨.flag, "nullOnEmpty", none, false, (·.nullOnEmpty), fun c v ↦ { c with nullOnEmpty := v },
    fun _ ↦ rfl⟩,
  ⟨.flag, "namespace", none, false, (·.namespaced), fun c v ↦ { c with namespaced := v },
    fun _ ↦ rfl⟩,
  ⟨.text, "sourceRoot", none, standardSourceRoot, (·.sourceRoot),
    fun c v ↦ { c with sourceRoot := v }, fun _ ↦ rfl⟩,
  ⟨.texts, "includes", none, [], (·.includes), fun c v ↦ { c with includes := v }, fun _ ↦ rfl⟩,
  ⟨.texts, "ignores", none, standardIgnores, (·.ignores), fun c v ↦ { c with ignores := v },
    fun _ ↦ rfl⟩,
  ⟨.texts, "extensions", none, standardExtensions, (·.extensions),
    fun c v ↦ { c with extensions := v }, fun _ ↦ rfl⟩,
  ⟨.text, "dest", none, standardDest, (·.dest), fun c v ↦ { c with dest := v }, fun _ ↦ rfl⟩,
  ⟨.text, "prefix", none, "", (·.front), fun c v ↦ { c with front := v }, fun _ ↦ rfl⟩,
  ⟨.text, "suffix", none, standardSuffix, (·.back), fun c v ↦ { c with back := v }, fun _ ↦ rfl⟩]

private theorem fields_eq : fields = settings.map Setting.field := rfl

private theorem toJson_eq (c : Config) :
    c.toJson = .object (settings.map fun s ↦ (s.name, s.form.json (s.get c))) := rfl

private theorem nodup_names_fields : (fields.flatMap Field.names).Nodup := by decide

private theorem nodup_names_settings : (settings.map Setting.name).Nodup := by decide

end Reader

/-! ### Settings in part -/

/-- The further names that settings have. -/
def furtherNames : List (String × String) :=
  [("defaultLocale", "defaultLang"), ("locales", "lang"), ("filterName", "customTranslateMatch")]

/-- The name to write a setting under: its further name, if it has one and is to be renamed. -/
def nameUnder (renamed : String → Bool) (name : String) : String :=
  if renamed name then (furtherNames.lookup name).getD name else name

/-- Settings as JSON without those that are not kept, some of the others renamed. -/
def partJson (c : Config) (kept renamed : String → Bool) : Json :=
  match c.toJson with
  | .object members =>
    .object ((members.filter (kept ·.1)).map fun e ↦ (nameUnder renamed e.1, e.2))
  | v => v

/-- Settings with defaults in place of those that are not kept. -/
def keeping (c : Config) (kept : String → Bool) : Config :=
  let missing : Config := {}
  { startDelimiter := if kept "startDelimiter" then c.startDelimiter else missing.startDelimiter
    endDelimiter := if kept "endDelimiter" then c.endDelimiter else missing.endDelimiter
    defaultLocale := if kept "defaultLocale" then c.defaultLocale else missing.defaultLocale
    locales := if kept "locales" then c.locales else missing.locales
    filterName := if kept "filterName" then c.filterName else missing.filterName
    customPatterns := if kept "customPatterns" then c.customPatterns else missing.customPatterns
    safeMode := if kept "safeMode" then c.safeMode else missing.safeMode
    nullOnEmpty := if kept "nullOnEmpty" then c.nullOnEmpty else missing.nullOnEmpty
    namespaced := if kept "namespace" then c.namespaced else missing.namespaced
    sourceRoot := if kept "sourceRoot" then c.sourceRoot else missing.sourceRoot
    includes := if kept "includes" then c.includes else missing.includes
    ignores := if kept "ignores" then c.ignores else missing.ignores
    extensions := if kept "extensions" then c.extensions else missing.extensions
    dest := if kept "dest" then c.dest else missing.dest
    front := if kept "prefix" then c.front else missing.front
    back := if kept "suffix" then c.back else missing.back }

namespace Reader

private theorem nameUnder_mem_names (renamed : String → Bool) :
    ∀ s ∈ settings, nameUnder renamed s.name ∈ s.field.names := by
  have hfurther : ∀ s ∈ settings, (furtherNames.lookup s.name).getD s.name ∈ s.field.names := by
    decide
  intro s hs
  rw [nameUnder]
  split
  · exact hfurther s hs
  · exact List.mem_cons_self

/-- A setting as it is written, perhaps renamed. -/
def Setting.member (s : Setting) (renamed : String → Bool) (c : Config) : String × Json :=
  (nameUnder renamed s.name, s.form.json (s.get c))

/-- Settings that have the value of one of them from other settings. -/
def Setting.copy (s : Setting) (c sofar : Config) : Config :=
  s.put sofar (s.get c)

private theorem Setting.takes_field (s : Setting) (c sofar : Config) (width level limit : Nat) :
    Takes (s.field.read limit sofar) [' '] width level limit (s.form.json (s.get c))
      (s.copy c sofar) := by
  intro rest hr hshort
  show (s.form.read limit _ >>= _) = _
  rw [s.form.takes width level limit (s.get c) rest hr hshort]
  rfl

private theorem partJson_eq (c : Config) (kept renamed : String → Bool) :
    c.partJson kept renamed =
      .object ((settings.filter (kept ·.name)).map fun s ↦ s.member renamed c) := by
  rw [partJson, toJson_eq]
  simp only [List.filter_map, List.map_map]
  rfl

/-- Omitting the settings that are not kept gives them the values of the default settings. -/
theorem omitted_eq_keeping (c : Config) (kept : String → Bool) :
    omitted (fields.filter fun f ↦ !kept f.name) c = c.keeping kept := by
  have homit (sofar : Config) (s : Setting) :
      (if !kept s.name then s.field.leaveOut sofar else sofar) =
        s.put sofar (if kept s.name then s.get sofar else s.standard) := by
    cases kept s.name
    · rfl
    · exact (s.put_get sofar).symm
  have hfield (s : Setting) : s.field.name = s.name := rfl
  rw [omitted, fields_eq, List.foldl_filter, List.foldl_map]
  simp only [hfield, homit]
  rfl

/-- The defaults of the single settings are those of the settings as a whole. -/
theorem omitted_fields (c : Config) : omitted fields c = {} := by
  have h := omitted_eq_keeping c fun _ ↦ false
  rw [List.filter_eq_self.mpr fun _ _ ↦ Bool.not_false] at h
  exact h

/-- The settings that are kept are copied from the given ones, whatever the others are. -/
theorem keeping_foldl_copy (c sofar : Config) (kept : String → Bool) :
    ((settings.filter (kept ·.name)).foldl (fun sofar s ↦ s.copy c sofar) sofar).keeping kept =
      c.keeping kept := by
  have hcopy (sofar : Config) (s : Setting) : (if kept s.name then s.copy c sofar else sofar) =
      s.put sofar (if kept s.name then s.get c else s.get sofar) := by
    split
    · rfl
    · exact (s.put_get sofar).symm
  have hkept {α : Type} (name : String) (a b d : α) :
      (if kept name then (if kept name then a else b) else d) = if kept name then a else d := by
    split <;> rfl
  rw [List.foldl_filter]
  simp only [hcopy]
  simp only [settings, Form.text, Form.flag, Form.texts, Form.table, List.foldl_cons,
    List.foldl_nil, keeping, hkept]

/-- Fields are chosen alike by what holds alike of the names of the settings. -/
private theorem filter_fields_congr (p q : String → Bool)
    (h : ∀ s ∈ settings, p s.name = q s.name) :
    (fields.filter fun f ↦ p f.name) = fields.filter fun f ↦ q f.name := by
  refine List.filter_congr fun f hf ↦ ?_
  rw [fields_eq] at hf
  obtain ⟨s, hs, rfl⟩ := List.mem_map.mp hf
  exact h s hs

/-- The loop over the settings copies each setting that is written, and gives the others their
defaults. -/
theorem namedFields_dividedMembers (c : Config) (kept renamed : String → Bool)
    (width level outer : Nat) {ss : List Setting} (hss : ∀ s ∈ ss, s ∈ settings)
    (hd : (ss.map Setting.name).Nodup) (first : Bool) {seen : List String}
    (hseen : ∀ s ∈ ss, s.name ∉ seen)
    (hkept : ∀ s ∈ settings, kept s.name = true ↔ s.name ∈ seen ∨ s.name ∈ ss.map Setting.name)
    (sofar : Config) (rest : List Char) {fuel : Nat}
    (hfuel : (dividedMembers width level first (ss.map fun s ↦ s.member renamed c) ++
      (newline width outer ++ '\x7d' :: rest)).length < fuel) :
    namedFields first seen sofar fuel
        (dividedMembers width level first (ss.map fun s ↦ s.member renamed c) ++
          (newline width outer ++ '\x7d' :: rest)) =
      .ok (omitted (fields.filter fun f ↦ !kept f.name)
        (ss.foldl (fun sofar s ↦ s.copy c sofar) sofar), rest) := by
  induction ss generalizing first seen sofar fuel with
  | nil =>
    have hfields : (fields.filter fun f ↦ !kept f.name) =
        fields.filter fun f ↦ !seen.contains f.name := by
      refine filter_fields_congr (!kept ·) (!seen.contains ·) fun s hs ↦ ?_
      have hseen : kept s.name = true ↔ s.name ∈ seen := by simpa using hkept s hs
      rw [Bool.eq_iff_iff.mpr (hseen.trans List.contains_iff_mem.symm)]
    cases fuel with
    | zero => cases hfuel
    | succ fuel =>
      rw [namedFields, List.map_nil, dividedMembers, List.nil_append, nextKey_closed, hfields]
      rfl
  | cons s ss ih =>
    obtain ⟨hs, hss⟩ := List.forall_mem_cons.mp hss
    obtain ⟨hnew, hseen⟩ := List.forall_mem_cons.mp hseen
    rw [List.map_cons, List.nodup_cons] at hd
    have hmem : s.field ∈ fields := by
      rw [fields_eq]
      exact List.mem_map_of_mem hs
    have hf : fields.find? (·.called (nameUnder renamed s.name)) = some s.field :=
      find?_called nodup_names_fields hmem (nameUnder_mem_names renamed s hs)
    -- The name that is read now is not that of a setting still to come.
    have hseen' : ∀ s' ∈ ss, s'.name ∉ s.field.name :: seen := by
      intro s' hs' hmem
      rcases List.mem_cons.mp hmem with heq | hmem
      · exact hd.1 (List.mem_map.mpr ⟨s', hs', heq⟩)
      · exact hseen s' hs' hmem
    have hkept' : ∀ s' ∈ settings, kept s'.name = true ↔
        s'.name ∈ s.field.name :: seen ∨ s'.name ∈ ss.map Setting.name := by
      intro s' hs'
      rw [hkept s' hs', List.map_cons, List.mem_cons, List.mem_cons, or_left_comm, ← or_assoc]
      rfl
    have hends := endsNumber_dividedMembers width level (ss.map fun s ↦ s.member renamed c)
      (endsNumber_newline width outer ('\x7d' :: rest))
    cases fuel with
    | zero => cases hfuel
    | succ fuel =>
      rw [List.map_cons, Setting.member] at hfuel ⊢
      have hshort := length_dividedMembers_cons width level first (nameUnder renamed s.name)
        (s.form.json (s.get c)) (ss.map fun s ↦ s.member renamed c)
      rw [namedFields_divided hf hnew first sofar _ _ _ hfuel]
      rw [List.length_append] at hfuel
      have hread := s.takes_field c sofar width level (fuel + 1) _ hends
        (by simp only [List.length_append] at hfuel ⊢; omega)
      rw [hread, ok_bind, List.foldl_cons]
      exact ih hss hd.2 false hseen' hkept' _ (by rw [List.length_append]; omega)

/-- Written settings are read with defaults in place of those that are left out. -/
theorem config_partJson (c : Config) (kept renamed : String → Bool) {limit : Nat}
    (hlimit : (prettyChars 2 0 (c.partJson kept renamed)).length < limit) :
    config limit (prettyChars 2 0 (c.partJson kept renamed)) = .ok (c.keeping kept, []) := by
  have hss : ∀ s ∈ settings.filter (kept ·.name), s ∈ settings :=
    fun _ hs ↦ List.mem_of_mem_filter hs
  have hd : ((settings.filter (kept ·.name)).map Setting.name).Nodup :=
    nodup_names_settings.sublist (List.filter_sublist.map _)
  have hmem : ∀ s ∈ settings, kept s.name = true ↔
      s.name ∈ [] ∨ s.name ∈ (settings.filter (kept ·.name)).map Setting.name := by
    intro s hs
    simp only [List.not_mem_nil, false_or, List.mem_map, List.mem_filter]
    constructor
    · exact fun hkept ↦ ⟨s, ⟨hs, hkept⟩, rfl⟩
    · rintro ⟨s', ⟨-, hkept⟩, hname⟩
      exact hname ▸ hkept
  have hcopied := (omitted_eq_keeping _ kept).trans (keeping_foldl_copy c blank kept)
  rw [partJson_eq] at hlimit ⊢
  rw [← hcopied]
  generalize settings.filter (kept ·.name) = ss at *
  cases ss with
  | nil =>
    have hfields : (fields.filter fun f ↦ !kept f.name) = fields.filter fun _ ↦ true :=
      filter_fields_congr (!kept ·) (fun _ ↦ true) fun s hs ↦ by simpa using hmem s hs
    rw [List.filter_true] at hfields
    cases limit with
    | zero => cases hlimit
    | succ limit =>
      rw [hfields]
      rfl
  | cons s ss =>
    rw [prettyChars, prettyMembers_eq] at hlimit ⊢
    · simp only [List.cons_append, List.append_assoc] at hlimit ⊢
      rw [config, skipSpace_cons (by decide)]
      exact namedFields_dividedMembers c kept renamed 2 1 0 hss hd true
        (fun _ _ ↦ List.not_mem_nil) hmem blank [] (Nat.lt_of_succ_lt hlimit)
    · simp
    · simp

end Reader

private theorem parse_partJson (c : Config) (kept renamed : String → Bool) :
    parse ((c.partJson kept renamed).pretty 2) = .ok (c.keeping kept) := by
  rw [parse, Json.pretty, String.toList_ofList, Reader.config_partJson]
  · rfl
  · rw [← String.length_toList, String.toList_ofList]
    exact Nat.lt_succ_self _

/-- Settings that are written are read back in every field, in whole or in part: whichever settings
are left out, they have their defaults and the others are as they were. To write settings under
their further names changes nothing. -/
theorem read_written (c : Config) : Config.read c.render = .ok c ∧
    ∀ kept renamed : String → Bool,
      Config.read ((c.partJson kept renamed).pretty 2) = .ok (c.keeping kept) := by
  have hpart (kept renamed : String → Bool) :
      Config.read ((c.partJson kept renamed).pretty 2) = .ok (c.keeping kept) := by
    rw [Config.read, parse_partJson]
    rfl
  exact ⟨hpart (fun _ ↦ true) (fun _ ↦ false), hpart⟩

end KeyHarvest.Config
