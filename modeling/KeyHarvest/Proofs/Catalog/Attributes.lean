import KeyHarvest.Proofs.Catalog.Quoted
import KeyHarvest.Proofs.Regex.Matches
import KeyHarvest.Proofs.Text.Pieces

/-!
# Attributes in a text

A text with attributes is a row of stretches without double quotes, each followed by an attribute
with a quoted value (`Attribute`). The expression of an attribute matches in such a text where an
attribute of its name begins, and nowhere else (`eq_of_opens`): the first double quote behind a
place decides whether an attribute begins there.

The expression of two attributes in one line finds the first attribute of the one name together with
the last attribute of the other name behind it in the line (`pairIn`), whatever stands in between:
its run of any characters is greedy. At most one pair is found in a line.
-/

namespace KeyHarvest.Catalog

open MatchState (between)
open Regex (literal concat star Misses behindRun)
open Text (Alike)

/-- The attributes that the built-in patterns look for. -/
inductive AttributeName where
  /-- The attribute whose value is a key. -/
  | key
  /-- The attribute whose value is a plural literal. -/
  | plural
  /-- The attribute that binds a filtered literal. -/
  | html
  deriving DecidableEq

/-- The name as it is written. -/
def AttributeName.text : AttributeName → String
  | .key => "translate"
  | .plural => Builtin.pluralAttribute
  | .html => "ng-bind-html"

/-- An attribute with the stretch before it. -/
structure Attribute where
  /-- The stretch before the attribute. -/
  lead : List Char
  /-- The name. -/
  name : AttributeName
  /-- The text between the quotes. -/
  value : List Char
  quote_not_mem_lead : '"' ∉ lead
  newline_not_mem_lead : '\n' ∉ lead
  quote_not_mem_value : '"' ∉ value
  slash_not_mem_value : '\\' ∉ value
  getLast?_value_ne : value.getLast? ≠ some '='

/-- The attribute from its name on. -/
def Attribute.opened (a : Attribute) : List Char :=
  a.name.text.toList ++ '=' :: '"' :: (a.value ++ ['"'])

/-- The attribute with the stretch before it. -/
def Attribute.text (a : Attribute) : List Char :=
  a.lead ++ a.opened

namespace Attribute

variable (a : Attribute)

private theorem exists_opened_eq : ∃ c w, a.opened = c :: w ∧ c ≠ '\n' := by
  rw [opened]
  cases a.name <;> exact ⟨_, _, rfl, by decide⟩

private theorem not_mem_text {c : Char} (hc : c ∉ ['=', '"']) (hname : c ∉ a.name.text.toList)
    (hlead : c ∉ a.lead) (hvalue : c ∉ a.value) : c ∉ a.text := by
  rw [List.mem_cons, List.mem_singleton, not_or] at hc
  simp [text, opened, hc, hname, hlead, hvalue]

private theorem newline_not_mem_text (h : '\n' ∉ a.value) : '\n' ∉ a.text :=
  a.not_mem_text (by decide) (by cases a.name <;> decide) a.newline_not_mem_lead h

end Attribute

/-! ### Where an attribute begins -/

/-- An attribute of the given name begins at the start of a text. -/
def Opens (name : AttributeName) (cs : List Char) : Prop :=
  ∃ w left, cs = w ++ '=' :: '"' :: left ∧ Alike w name.text.toList

/-- What is like the name of an attribute holds no quote. -/
theorem Opens.quote_not_mem {name : AttributeName} {w : List Char}
    (h : Alike w name.text.toList) : '"' ∉ w := by
  rw [h.mem_iff (by decide)]
  cases name <;> decide

/-- The first double quote decides whether an attribute begins. -/
theorem opens_append_quote_iff {name : AttributeName} {u v : List Char} (hu : '"' ∉ u) :
    Opens name (u ++ '"' :: v) ↔ ∃ w, u = w ++ ['='] ∧ Alike w name.text.toList := by
  constructor
  · rintro ⟨w, left, h, hw⟩
    have hsplit : u ++ '"' :: v = (w ++ ['=']) ++ '"' :: left := by
      rw [h, List.append_assoc, List.singleton_append]
    have hquote : '"' ∉ w ++ ['='] := by
      simpa using Opens.quote_not_mem hw
    exact ⟨w, ((Text.append_cons_inj_of_not_mem hu hquote).mp hsplit).1, hw⟩
  · rintro ⟨w, rfl, hw⟩
    exact ⟨w, v, by simp, hw⟩

-- The names end in different letters, also up to case.
private theorem eq_of_alike_suffix {name name' : AttributeName} {x w lead : List Char}
    (h : x ++ w = lead ++ name'.text.toList) (hw : Alike w name.text.toList) :
    x = lead ∧ name = name' := by
  have hne : name'.text.toList ≠ [] := by cases name' <;> decide
  have hwne : w ≠ [] := by
    rintro rfl
    cases name <;> cases hw
  have hend : w.getLast? = name'.text.toList.getLast? := by
    have hboth := congrArg List.getLast? h
    rwa [List.getLast?_append_of_ne_nil x hwne, List.getLast?_append_of_ne_nil lead hne] at hboth
  have hfold : name.text.toList.getLast?.map Text.foldChar =
      name'.text.toList.getLast?.map Text.foldChar := by
    rw [← hend, ← List.getLast?_map, ← List.getLast?_map, hw]
  have hname : name = name' := by
    cases name <;> cases name' <;> first | rfl | exact absurd hfold (by decide)
  subst hname
  exact ⟨(List.append_inj' h hw.length_eq).1, rfl⟩

-- A value does not end in an equality sign, so its closing quote opens no attribute.
private theorem Attribute.not_opens_value (a : Attribute) {name : AttributeName}
    {x b rest : List Char} (h : a.value ++ ['"'] = x ++ b) (hb : b ≠ []) :
    ¬ Opens name (b ++ rest) := by
  obtain ⟨u, d, rfl⟩ := (List.eq_nil_or_concat' b).resolve_left hb
  rw [← List.append_assoc] at h
  obtain ⟨hvalue, hd⟩ := List.append_inj' h rfl
  rw [List.singleton_inj] at hd
  have hu : '"' ∉ u := fun hm ↦ a.quote_not_mem_value (by simp [hvalue, hm])
  intro hopens
  rw [← hd, List.append_assoc, List.singleton_append, opens_append_quote_iff hu] at hopens
  obtain ⟨w, rfl, -⟩ := hopens
  apply a.getLast?_value_ne
  rw [hvalue, ← List.append_assoc, List.getLast?_concat]

/-- In the text of an attribute an attribute begins where its name stands, and nowhere else. -/
theorem Attribute.eq_of_opens (a : Attribute) {name : AttributeName} {x b rest : List Char}
    (h : a.text = x ++ b) (hb : b ≠ []) (hopens : Opens name (b ++ rest)) :
    x = a.lead ∧ name = a.name := by
  have hquote : '"' ∉ a.lead ++ a.name.text.toList ++ ['='] := by
    have hname : '"' ∉ a.name.text.toList := by cases a.name <;> decide
    simpa [a.quote_not_mem_lead] using hname
  have htext : a.lead ++ a.name.text.toList ++ ['='] ++ '"' :: (a.value ++ ['"']) = x ++ b := by
    rw [← h, Attribute.text, Attribute.opened]
    simp
  rcases List.append_eq_append_iff.mp htext with ⟨x', -, hx'⟩ | ⟨b', hb', rfl⟩
  · exfalso
    cases x' with
    | nil =>
      rw [List.nil_append] at hx'
      rw [← hx', List.cons_append, ← List.nil_append ('"' :: _),
        opens_append_quote_iff List.not_mem_nil] at hopens
      obtain ⟨w, hw, -⟩ := hopens
      exact List.append_ne_nil_of_right_ne_nil _ (List.cons_ne_nil _ _) hw.symm
    | cons c x' => exact a.not_opens_value (List.cons.inj hx').2 hb hopens
  · rw [List.append_assoc, List.cons_append] at hopens
    have hquote' : '"' ∉ b' := fun hm ↦ hquote (by rw [hb']; exact List.mem_append_right x hm)
    obtain ⟨w, rfl, hw⟩ := (opens_append_quote_iff hquote').mp hopens
    rw [← List.append_assoc] at hb'
    exact eq_of_alike_suffix (List.append_inj' hb' rfl).1.symm hw

/-- A stretch without quotes up to the end of a line opens no attribute. -/
theorem not_opens_tail {name : AttributeName} {b rest : List Char} (hb : '"' ∉ b)
    (hrest : ∀ c ∈ rest.head?, c = '\n') : ¬ Opens name (b ++ rest) := by
  rintro ⟨w, left, h, hw⟩
  have hnewline : '\n' ∉ w ++ ['='] := by
    have hw : '\n' ∉ w := by
      rw [hw.mem_iff (by decide)]
      cases name <;> decide
    simpa using hw
  have hhead {left : List Char} (h : rest = '"' :: left) : False := by
    have := hrest '"' (by rw [h]; rfl)
    cases this
  have hsplit : b ++ rest = (w ++ ['=']) ++ '"' :: left := by
    rw [h, List.append_assoc, List.singleton_append]
  rcases List.append_eq_append_iff.mp hsplit with ⟨b', hb', hrest'⟩ | ⟨w', hw', hrest'⟩
  · cases b' with
    | nil => exact hhead hrest'
    | cons c b' =>
      rw [hrest c (by rw [hrest']; rfl)] at hb'
      exact hnewline (by rw [hb']; simp)
  · cases w' with
    | nil => exact hhead hrest'.symm
    | cons c w' =>
      rw [(List.cons.inj hrest').1, hw'] at hb
      simp at hb

/-! ### Expressions that begin with an attribute -/

/-- Where the expression matches, an attribute of the given name begins. -/
def OpensWith (r : Regex) (name : AttributeName) : Prop :=
  ∀ done rest captures, ∀ t ∈ r.ends (between done rest captures), Opens name rest

/-- A sequence opens with the name that its first expression opens with. -/
theorem OpensWith.concat {r : Regex} {name : AttributeName} (h : OpensWith r name)
    (rs : List Regex) : OpensWith (concat (r :: rs)) name := by
  intro done rest captures t ht
  rw [Regex.ends_concat_cons] at ht
  obtain ⟨u, hu, -⟩ := List.mem_flatMap.mp ht
  exact h done rest captures u hu

/-- An attribute with its value opens with the name of the attribute. -/
theorem opensWith_attributeValue (name : AttributeName) (index : Nat) :
    OpensWith (Builtin.attributeValue name.text index) name := by
  intro done rest captures t ht
  obtain ⟨w, left, rfl, hw, ht⟩ := (Regex.mem_ends_concat_literal_iff _ _ t).mp ht
  obtain ⟨w', left, rfl, hw', ht⟩ := (Regex.mem_ends_concat_literal_iff _ _ t).mp ht
  obtain rfl : w' = ['='] := (Text.alike_singleton_iff (by decide) w').mp hw'
  by_cases hquote : left.head? = some '"'
  · obtain ⟨left, rfl⟩ := List.head?_eq_some_iff.mp hquote
    exact ⟨w, left, rfl, hw⟩
  · rw [Regex.ends_concat_of_nil (ends_quotedBody_of_head?_ne (.inr rfl) index hquote)] at ht
    cases ht

/-- A pair of attributes opens with the name of the first. -/
theorem opensWith_attributePair (first second : AttributeName) :
    OpensWith (Builtin.attributePair first.text second.text) first :=
  (opensWith_attributeValue first 1).concat _

/-- The binding of a filtered literal opens with the name of its attribute. -/
theorem opensWith_bindHtml : OpensWith Builtin.bindHtml .html := by
  intro done rest captures t ht
  obtain ⟨w, left, rfl, hw, -⟩ := (Regex.mem_ends_concat_literal_iff _ _ t).mp ht
  obtain ⟨u, v, rfl, hu, hv⟩ :=
    (Text.alike_append_iff AttributeName.html.text.toList ['=', '"'] w).mp hw
  obtain ⟨w₁, w₂, rfl, hw₁, hw₂⟩ := (Text.alike_append_iff ['='] ['"'] v).mp hv
  obtain rfl : w₁ = ['='] := (Text.alike_singleton_iff (by decide) w₁).mp hw₁
  obtain rfl : w₂ = ['"'] := (Text.alike_singleton_iff (by decide) w₂).mp hw₂
  exact ⟨u, left, by simp, hu⟩

section Misses

variable {r : Regex} {name : AttributeName} (hr : OpensWith r name) {done rest : List Char}
include hr

private theorem OpensWith.misses {w : List Char}
    (h : ∀ x b, w = x ++ b → b ≠ [] → ¬ Opens name (b ++ rest)) : r.Misses done w rest := by
  intro x b hw hb captures
  apply List.eq_nil_iff_forall_not_mem.mpr
  exact fun t ht ↦ h x b hw hb (hr _ _ _ t ht)

private theorem OpensWith.misses_of_name_ne (a : Attribute) (h : a.name ≠ name) :
    r.Misses done a.text rest :=
  hr.misses fun _ _ hw hb hopens ↦ h (a.eq_of_opens hw hb hopens).2.symm

private theorem OpensWith.misses_lead (a : Attribute) :
    r.Misses done a.lead (a.opened ++ rest) := by
  apply hr.misses
  intro x b hw hb hopens
  have htext : a.text = x ++ (b ++ a.opened) := by rw [Attribute.text, hw, List.append_assoc]
  rw [← List.append_assoc] at hopens
  have hx := (a.eq_of_opens htext (List.append_ne_nil_of_left_ne_nil hb _) hopens).1
  exact hb (List.self_eq_append_right.mp (hx ▸ hw))

private theorem OpensWith.misses_within (a : Attribute) {c : Char} {w : List Char}
    (hw : a.opened = c :: w) : r.Misses done w rest := by
  apply hr.misses
  intro x b hxb hb hopens
  have htext : a.text = (a.lead ++ c :: x) ++ b := by rw [Attribute.text, hw, hxb]; simp
  have hx := (a.eq_of_opens htext hb hopens).1
  exact List.cons_ne_nil c x (List.self_eq_append_right.mp hx.symm)

private theorem OpensWith.misses_tail {tail : List Char} (htail : '"' ∉ tail)
    (hrest : ∀ c ∈ rest.head?, c = '\n') : r.Misses done tail rest := by
  apply hr.misses
  rintro x b rfl -
  exact not_opens_tail (fun hm ↦ htail (List.mem_append_right x hm)) hrest

/-- An expression that opens with a name is not found at a line break. -/
theorem OpensWith.misses_newline : r.Misses done ['\n'] rest := by
  apply Regex.misses_singleton
  intro captures
  apply List.eq_nil_iff_forall_not_mem.mpr
  intro t ht
  exact not_opens_tail (b := []) List.not_mem_nil (by rintro c ⟨⟩; rfl) (hr _ _ _ t ht)

end Misses

/-- An attribute with its value matches no empty text. -/
theorem consuming_attributeValue (name : AttributeName) (index : Nat) :
    (Builtin.attributeValue name.text index).Consuming := by
  apply Regex.Consuming.concat
  apply Regex.consuming_literal
  cases name <;> decide

/-- At an attribute of the name, the expression of the name takes the attribute and its value. -/
theorem Attribute.ends_attributeValue (a : Attribute) (index : Nat) {done rest : List Char}
    {captures : List Capture} :
    (Builtin.attributeValue a.name.text index).ends (between done (a.opened ++ rest) captures) =
      [between (done ++ a.opened) rest
        (⟨index, a.value ++ '"' :: rest, a.value.length⟩ :: captures)] := by
  obtain ⟨body, hbody⟩ := LiteralBody.exists_text_eq a.quote_not_mem_value a.slash_not_mem_value
  have hopened : a.opened ++ rest = a.name.text.toList ++ ("=".toList ++
      '"' :: (body.text ++ '"' :: rest)) := by
    simp [opened, hbody]
  rw [hopened, Builtin.attributeValue, Builtin.text, Builtin.text,
    Regex.ends_concat_of_singleton (Regex.ends_literal_of_alike (.refl _)),
    Regex.ends_concat_of_singleton (Regex.ends_literal_of_alike (.refl _)),
    Regex.ends_concat_of_singleton (ends_quotedBody (.inr rfl) index body), ← hbody]
  simp [opened, Regex.concat, Regex.ends, hbody]

private theorem Attribute.exists_match_attributeValue (a : Attribute) (index : Nat)
    (done rest : List Char) : ∃ m : Match, m.group index = a.value ∧
      (Builtin.attributeValue a.name.text index).matchesBehind done (a.text ++ rest) =
        m :: (Builtin.attributeValue a.name.text index).matchesBehind (done ++ a.text) rest := by
  have hr := opensWith_attributeValue a.name index
  let found : Match := ⟨(done ++ a.lead).length, (done ++ a.lead ++ a.opened).length,
    [⟨index, a.value ++ '"' :: rest, a.value.length⟩]⟩
  have hfound : found.captures = [] ++ ⟨index, a.value ++ '"' :: rest, a.value.length⟩ :: [] := rfl
  have hhead : ((Builtin.attributeValue a.name.text index).ends
      (between (done ++ a.lead) (a.opened ++ rest) [])).head? =
        some (between (done ++ a.lead ++ a.opened) rest found.captures) := by
    rw [a.ends_attributeValue, List.head?_cons]
  refine ⟨found, Match.group_of_captures hfound (by simp), ?_⟩
  have hdone : done ++ a.text = done ++ a.lead ++ a.opened := (List.append_assoc _ _ _).symm
  rw [hdone, Attribute.text, List.append_assoc a.lead,
    Regex.matchesBehind_of_misses (hr.misses_lead a),
    Regex.matchesBehind_of_match (consuming_attributeValue a.name index) hhead]

/-! ### Attributes in a line -/

/-- Attributes one after the other, as they are written. -/
def texts (attributes : List Attribute) : List Char :=
  attributes.flatMap Attribute.text

/-- The last attribute of a name. -/
def lastNamed (name : AttributeName) (attributes : List Attribute) : Option Attribute :=
  attributes.reverse.find? (·.name = name)

/-- The first attribute of one name that an attribute of another follows, and the last of these. -/
def pairIn (first second : AttributeName) : List Attribute → Option (Attribute × Attribute)
  | [] => none
  | a :: rest =>
    if a.name = first then (lastNamed second rest).map (a, ·) else pairIn first second rest

/-- There is no last attribute of a name exactly if none has the name. -/
theorem lastNamed_eq_none_iff (name : AttributeName) (attributes : List Attribute) :
    lastNamed name attributes = none ↔ ∀ a ∈ attributes, a.name ≠ name := by
  simp [lastNamed]

/-- The last attribute of a name has it, and none behind it does. -/
theorem lastNamed_eq_some_iff (name : AttributeName) (attributes : List Attribute)
    (b : Attribute) : lastNamed name attributes = some b ↔ b.name = name ∧
      ∃ before after, attributes = before ++ b :: after ∧ ∀ a ∈ after, a.name ≠ name := by
  rw [lastNamed, List.find?_eq_some_iff_append, decide_eq_true_iff]
  refine and_congr_right fun _ ↦ ⟨?_, ?_⟩
  · rintro ⟨after, before, h, hafter⟩
    refine ⟨before.reverse, after.reverse, ?_, by simpa using hafter⟩
    rw [← List.reverse_reverse attributes, h]
    simp
  · rintro ⟨before, after, rfl, hafter⟩
    exact ⟨after.reverse, before.reverse, by simp, by simpa using hafter⟩

/-- A pair of attributes matches no empty text. -/
theorem consuming_attributePair (first second : AttributeName) :
    (Builtin.attributePair first.text second.text).Consuming :=
  (consuming_attributeValue first 1).concat _

/-- The characters of a line. -/
def lineChar : CharClass := .compl (.single '\n')

private theorem mem_lineChar_iff (c : Char) : lineChar.mem c = true ↔ c ≠ '\n' :=
  mem_inLine_iff c

private theorem Attribute.ends_attributePair (a : Attribute) (second : AttributeName)
    {done rest : List Char} {captures : List Capture} :
    (Builtin.attributePair a.name.text second.text).ends
        (between done (a.opened ++ rest) captures) =
      (behindRun lineChar (Builtin.attributeValue second.text 2)).ends
        (between (done ++ a.opened) rest
          (⟨1, a.value ++ '"' :: rest, a.value.length⟩ :: captures)) :=
  Regex.ends_concat_of_singleton (a.ends_attributeValue 1) _

section Line

variable {tail rest : List Char} (htail : '"' ∉ tail) (hrest : ∀ c ∈ rest.head?, c = '\n')
  {first second : AttributeName} {attributes : List Attribute} {done : List Char}
  {captures : List Capture}
include htail hrest

/-- Attributes of other names are passed over. -/
theorem OpensWith.misses_texts {r : Regex} {name : AttributeName} (hr : OpensWith r name)
    (h : ∀ a ∈ attributes, a.name ≠ name) : r.Misses done (texts attributes ++ tail) rest := by
  induction attributes generalizing done with
  | nil => exact hr.misses_tail htail hrest
  | cons a attributes ih =>
    rw [List.forall_mem_cons] at h
    rw [texts, List.flatMap_cons, List.append_assoc]
    exact (hr.misses_of_name_ne a h.1).append (ih h.2)

omit htail in
private theorem ends_behindRun_of_lineEnd :
    (behindRun lineChar (Builtin.attributeValue second.text 2)).ends (between done rest captures) =
      [] := by
  have hstop : (star true (.set lineChar)).ends (between done rest captures) =
      [between done rest captures] := by
    cases rest with
    | nil => exact Regex.ends_star_set_nil lineChar
    | cons c rest =>
      apply Regex.ends_star_set_of_not
      rw [hrest c rfl]
      rfl
  rw [behindRun, Regex.ends_seq, hstop, List.flatMap_singleton]
  apply List.eq_nil_iff_forall_not_mem.mpr
  intro t ht
  exact not_opens_tail (b := []) List.not_mem_nil hrest (opensWith_attributeValue _ _ _ _ _ t ht)

private theorem ends_behindRun_texts_eq_nil (h : ∀ a ∈ attributes, a.name ≠ second) :
    (behindRun lineChar (Builtin.attributeValue second.text 2)).ends
      (between done (texts attributes ++ tail ++ rest) captures) = [] :=
  Regex.ends_behindRun_eq_nil ((opensWith_attributeValue second 2).misses_texts htail hrest h)
    (ends_behindRun_of_lineEnd hrest)

/-- In a line the attributes of a name are found one after the other. -/
theorem matchesBehind_attributeValue (name : AttributeName) (index : Nat) :
    ((Builtin.attributeValue name.text index).matchesBehind done
        (texts attributes ++ tail ++ rest)).map (·.group index) =
      ((attributes.filter (·.name = name)).map (·.value)) ++
        ((Builtin.attributeValue name.text index).matchesBehind
          (done ++ (texts attributes ++ tail)) rest).map (·.group index) := by
  have hr := opensWith_attributeValue name index
  induction attributes generalizing done with
  | nil => exact congrArg _ (Regex.matchesBehind_of_misses (hr.misses_tail htail hrest))
  | cons a attributes ih =>
    have htext : texts (a :: attributes) = a.text ++ texts attributes := List.flatMap_cons
    simp only [htext, List.append_assoc] at ih ⊢
    by_cases hname : a.name = name
    · subst hname
      obtain ⟨m, hm, hmatches⟩ := a.exists_match_attributeValue index done
        (texts attributes ++ (tail ++ rest))
      rw [hmatches, List.map_cons, hm, ih, List.filter_cons_of_pos (by simp), List.map_cons,
        List.append_assoc, List.cons_append]
    · rw [Regex.matchesBehind_of_misses (hr.misses_of_name_ne a hname), ih,
        List.filter_cons_of_neg (by simpa using hname), List.append_assoc]

/-- Behind a run of characters of the line the last attribute of a name is found first. -/
theorem head?_ends_behindRun_texts {before after : List Attribute} {b : Attribute}
    (hb : b.name = second) (hbefore : ∀ a ∈ before, '\n' ∉ a.value)
    (hafter : ∀ a ∈ after, a.name ≠ second) :
    ((behindRun lineChar (Builtin.attributeValue second.text 2)).ends
        (between done (texts before ++ (b.text ++ (texts after ++ tail ++ rest))) captures)).head? =
      some (between (done ++ texts before ++ b.text) (texts after ++ tail ++ rest)
        (⟨2, b.value ++ '"' :: (texts after ++ tail ++ rest), b.value.length⟩ :: captures)) := by
  subst hb
  have hr := opensWith_attributeValue b.name 2
  apply Regex.head?_ends_behindRun
  · intro c hc
    obtain ⟨a, ha, hc⟩ := List.mem_flatMap.mp hc
    exact (mem_lineChar_iff c).mpr fun h ↦ a.newline_not_mem_text (hbefore a ha) (h ▸ hc)
  · -- The run passes over what stands before the attribute, and finds nothing behind its first
    -- letter.
    obtain ⟨c, w, hopened, hletter⟩ := b.exists_opened_eq
    have hlead : ∀ x ∈ b.lead, lineChar.mem x = true := fun x hx ↦
      (mem_lineChar_iff x).mpr fun h ↦ b.newline_not_mem_lead (h ▸ hx)
    have hbeyond : (behindRun lineChar (Builtin.attributeValue b.name.text 2)).ends
        (between (done ++ texts before ++ b.lead ++ [c]) (w ++ (texts after ++ tail ++ rest))
          captures) = [] :=
      Regex.ends_behindRun_eq_nil (hr.misses_within b hopened)
        (ends_behindRun_texts_eq_nil htail hrest hafter)
    rw [Attribute.text, List.append_assoc, Regex.ends_behindRun_of_misses hlead (hr.misses_lead b),
      hopened, List.cons_append, Regex.ends_behindRun_cons ((mem_lineChar_iff c).mpr hletter),
      hbeyond, List.nil_append, ← List.cons_append, ← hopened, b.ends_attributeValue,
      List.append_assoc _ b.lead]
    rfl

/-- Without an attribute of the second name behind the first attribute there is no pair. -/
theorem misses_attributePair (h : ∀ a ∈ attributes.tail, a.name ≠ second) :
    (Builtin.attributePair first.text second.text).Misses done (texts attributes ++ tail) rest := by
  have hr := opensWith_attributePair first second
  induction attributes generalizing done with
  | nil => exact hr.misses_tail htail hrest
  | cons a attributes ih =>
    rw [texts, List.flatMap_cons, List.append_assoc]
    apply Regex.Misses.append
    · intro x b hxb hb captures
      by_cases hopens : Opens first (b ++ (texts attributes ++ tail ++ rest))
      · obtain ⟨rfl, rfl⟩ := a.eq_of_opens hxb hb hopens
        obtain rfl : a.opened = b := List.append_cancel_left hxb
        exact (a.ends_attributePair second).trans (ends_behindRun_texts_eq_nil htail hrest h)
      · apply List.eq_nil_iff_forall_not_mem.mpr
        exact fun t ht ↦ hopens (hr _ _ _ t ht)
    · exact ih fun a ha ↦ h a (List.mem_of_mem_tail ha)

-- The pair is found where its first attribute begins, and no other pair behind it.
private theorem exists_match_attributePair (done : List Char) (a : Attribute) {b : Attribute}
    {before after : List Attribute} (hb : b.name = second) (hbefore : ∀ x ∈ before, '\n' ∉ x.value)
    (hafter : ∀ x ∈ after, x.name ≠ second) :
    ∃ m : Match, m.group 1 = a.value ∧ m.group 2 = b.value ∧
      (Builtin.attributePair a.name.text second.text).matchesBehind done
          (texts (a :: (before ++ b :: after)) ++ tail ++ rest) =
        m :: (Builtin.attributePair a.name.text second.text).matchesBehind
          (done ++ (texts (a :: (before ++ b :: after)) ++ tail)) rest := by
  let unread := texts after ++ tail ++ rest
  let pair := a.opened ++ (texts before ++ b.text)
  let found : Match := ⟨(done ++ a.lead).length, (done ++ a.lead ++ pair).length,
    [⟨2, b.value ++ '"' :: unread, b.value.length⟩,
      ⟨1, a.value ++ '"' :: (texts before ++ (b.text ++ unread)), a.value.length⟩]⟩
  have hhead : ((Builtin.attributePair a.name.text second.text).ends
      (between (done ++ a.lead) (pair ++ unread) [])).head? =
        some (between (done ++ a.lead ++ pair) unread found.captures) := by
    have hpair : pair ++ unread = a.opened ++ (texts before ++ (b.text ++ unread)) := by
      simp [pair]
    have hdone : done ++ a.lead ++ pair = done ++ a.lead ++ a.opened ++ texts before ++ b.text := by
      simp [pair]
    rw [hpair, hdone, a.ends_attributePair]
    exact head?_ends_behindRun_texts htail hrest hb hbefore hafter
  have hlead : (Builtin.attributePair a.name.text second.text).Misses done a.lead
      (pair ++ unread) := by
    rw [List.append_assoc]
    exact (opensWith_attributePair a.name second).misses_lead a
  have htext : texts (a :: (before ++ b :: after)) = a.lead ++ pair ++ texts after := by
    simp [texts, Attribute.text, pair]
  have hunread : (Builtin.attributePair a.name.text second.text).Misses (done ++ a.lead ++ pair)
      (texts after ++ tail) rest :=
    misses_attributePair htail hrest fun x hx ↦ hafter x (List.mem_of_mem_tail hx)
  have hfirst : found.captures = [⟨2, b.value ++ '"' :: unread, b.value.length⟩] ++
      ⟨1, a.value ++ '"' :: (texts before ++ (b.text ++ unread)), a.value.length⟩ :: [] := rfl
  have hsecond : found.captures = [] ++ ⟨2, b.value ++ '"' :: unread, b.value.length⟩ ::
      [⟨1, a.value ++ '"' :: (texts before ++ (b.text ++ unread)), a.value.length⟩] := rfl
  refine ⟨found, Match.group_of_captures hfirst (by simp),
    Match.group_of_captures hsecond (by simp), ?_⟩
  calc (Builtin.attributePair a.name.text second.text).matchesBehind done
        (texts (a :: (before ++ b :: after)) ++ tail ++ rest)
    _ = (Builtin.attributePair a.name.text second.text).matchesBehind (done ++ a.lead)
        (pair ++ unread) := by
      rw [htext, ← Regex.matchesBehind_of_misses hlead]
      simp only [unread, List.append_assoc]
    _ = found :: (Builtin.attributePair a.name.text second.text).matchesBehind
        (done ++ a.lead ++ pair) unread :=
      Regex.matchesBehind_of_match (consuming_attributePair a.name second) hhead
    _ = found :: (Builtin.attributePair a.name.text second.text).matchesBehind
        (done ++ (texts (a :: (before ++ b :: after)) ++ tail)) rest := by
      rw [Regex.matchesBehind_of_misses hunread, htext]
      simp only [List.append_assoc]

/-- In a line the first attribute of one name that has an attribute of another behind it is found
together with the last of these, and no other pair. -/
theorem matchesBehind_attributePair
    (h : ∀ a ∈ attributes.tail.dropLast, '\n' ∉ a.value) :
    ((Builtin.attributePair first.text second.text).matchesBehind done
        (texts attributes ++ tail ++ rest)).map (fun m ↦ (m.group 1, m.group 2)) =
      (pairIn first second attributes).toList.map (fun p ↦ (p.1.value, p.2.value)) ++
        ((Builtin.attributePair first.text second.text).matchesBehind
          (done ++ (texts attributes ++ tail)) rest).map (fun m ↦ (m.group 1, m.group 2)) := by
  have hr := opensWith_attributePair first second
  induction attributes generalizing done with
  | nil => exact congrArg _ (Regex.matchesBehind_of_misses (hr.misses_tail htail hrest))
  | cons a attributes ih =>
    rw [pairIn]
    split
    · next hname =>
      subst hname
      cases hlast : lastNamed second attributes with
      | none =>
        have hnone : ∀ x ∈ (a :: attributes).tail, x.name ≠ second :=
          (lastNamed_eq_none_iff second attributes).mp hlast
        rw [Regex.matchesBehind_of_misses (misses_attributePair htail hrest hnone)]
        rfl
      | some b =>
        obtain ⟨hb, before, after, rfl, hafter⟩ :=
          (lastNamed_eq_some_iff second attributes b).mp hlast
        have hbefore : ∀ x ∈ before, '\n' ∉ x.value := by
          intro x hx
          apply h x
          simp [List.dropLast_append_of_ne_nil, hx]
        obtain ⟨m, hm₁, hm₂, hmatches⟩ :=
          exists_match_attributePair htail hrest done a hb hbefore hafter
        rw [hmatches, List.map_cons, hm₁, hm₂]
        rfl
    · next hname =>
      have hvalues : ∀ x ∈ attributes.tail.dropLast, '\n' ∉ x.value := by
        intro x hx
        rw [← List.tail_dropLast] at hx
        exact h x (List.mem_of_mem_tail hx)
      have htext : texts (a :: attributes) = a.text ++ texts attributes := List.flatMap_cons
      simp only [htext, List.append_assoc] at ih ⊢
      rw [Regex.matchesBehind_of_misses (hr.misses_of_name_ne a hname), ih hvalues,
        List.append_assoc]

end Line

end KeyHarvest.Catalog
