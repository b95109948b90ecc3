import KeyHarvest.Catalog.Basic
import KeyHarvest.Proofs.Catalog.Places
import KeyHarvest.Proofs.Catalog.Written
import Mathlib.Data.List.Forall2

/-!
# Delimiters and filter names are literal text

Whatever signs the delimiters and the name of the filter hold, the built-in patterns around them are
expressions, match as their sources say and capture their keys in the same groups; and a text in
which a delimiter or the name is missing has no match of a pattern that holds it
(`ofOptions_literal`).
-/

namespace KeyHarvest.Catalog

open Regex (concat)
open Text (Alike)

/-- A pattern is what an engine compiles its source to: the matches in every text are the same. -/
structure ReadFrom (engine : Regex.Engine) (source : Written.Source) (p : Pattern) : Prop where
  name : p.name = source.name
  kind : p.kind = source.kind
  unescape : p.unescape = source.unescape
  regex : ∃ r, engine.compile? source.text = some r ∧
    ∀ content, r.allMatches content = p.regex.allMatches content

/-- What writes a pattern is compiled to it where it is within the limit. -/
theorem WritesPattern.readFrom {engine : Regex.Engine} {source : Written.Source} {p : Pattern}
    (h : WritesPattern source p) (hfits : engine.fits source.text) : ReadFrom engine source p := by
  obtain ⟨hname, hkind, hunescape, g, hwrites⟩ := h
  obtain ⟨r, hr, hends⟩ := hwrites.exists_parse? (by decide) engine
  exact ⟨hname, hkind, hunescape, r, (if_pos hfits).trans hr, Regex.allMatches_congr hends⟩

/-! ### Missing text -/

/-- No part of a text is equal to the given one up to case. -/
def Lacks (content : List Char) (s : String) : Prop :=
  ∀ w, w <:+: content → ¬ Alike w s.toList

/-- A text without a character lacks every text with it. -/
theorem lacks_of_not_mem {content : List Char} {s : String} {c : Char} (hc : Text.Caseless c)
    (hs : c ∈ s.toList) (h : c ∉ content) : Lacks content s :=
  fun _ hw halike ↦ h (hw.subset ((halike.mem_iff hc).mpr hs))

private theorem requires_text (s : String) : (Builtin.text s).Requires s.toList :=
  Regex.requires_literal s.toList

private theorem requires_htmlFilter (start stop filter : String) (quote : Char) :
    ∀ s ∈ [start, stop, filter],
      (Builtin.htmlFilter start stop filter quote).Requires s.toList := by
  intro s hs
  refine (requires_text s).concat ?_
  simp only [List.mem_cons, List.not_mem_nil, or_false] at hs
  rcases hs with rfl | rfl | rfl <;> simp

private theorem requires_directive (filter : String) :
    (Builtin.directive filter).Requires filter.toList :=
  (requires_text filter).concat (by simp)

private theorem requires_attributeValue (name : String) (index : Nat) :
    (Builtin.attributeValue name index).Requires name.toList :=
  (requires_text name).concat List.mem_cons_self

private theorem requires_attributePair (first second : String) :
    (Builtin.attributePair first second).Requires first.toList :=
  (requires_attributeValue first 1).concat List.mem_cons_self

private theorem requires_filterCall (filter : String) (quote : Char) :
    (Builtin.call (Builtin.filterFunction filter quote) quote).Requires filter.toList := by
  refine (requires_text filter).concat (List.mem_append_left _ ?_)
  simp [Builtin.filterFunction]

/-! ### Literal text -/

/-- The matches of a pattern of a catalog, if the catalog has it. -/
def matches? (catalog : Catalog) (name : String) (content : List Char) : Option (List Match) :=
  (catalog.get? name).map (·.regex.allMatches content)

/-- Delimiters with text and any name of the filter give a catalog, within the limit of the engine.
Its patterns are what their sources are compiled to, the delimiters and the name standing there as
literal text, and capture their keys in the group for the key; and a pattern has no matches where
text that it holds is missing. -/
theorem ofOptions_literal {start stop : String} (hstart : start ≠ "") (hstop : stop ≠ "")
    (filter : String) {engine : Regex.Engine}
    (hfits : ∀ source ∈ Written.sources start stop filter, engine.fits source.text) :
    ∃ catalog, ofOptions
        { startDelimiter := start, endDelimiter := stop, filterName := filter } engine =
        .ok catalog ∧
      List.Forall₂ (ReadFrom engine) (Written.sources start stop filter) catalog.patterns ∧
      List.Forall₂ KeysAt (places start filter) catalog.patterns ∧
      ∀ content,
        (Lacks content start ∨ Lacks content stop ∨ Lacks content filter →
          ∀ name ∈ ["HtmlFilterSimpleQuote", "HtmlFilterDoubleQuote"],
            catalog.matches? name content = some []) ∧
        (Lacks content filter →
          ∀ name ∈ ["HtmlDirective", "HtmlDirectiveStandalone", "HtmlDirectivePluralLast",
              "JavascriptFilterSimpleQuote", "JavascriptFilterDoubleQuote"],
            catalog.matches? name content = some []) := by
  have hread :=
    (List.forall₂_and_left _ _).mpr ⟨hfits, forall₂_writesPattern start stop filter⟩
  refine ⟨⟨Builtin.patterns start stop filter⟩, ?_,
    hread.imp fun _ _ h ↦ h.2.readFrom h.1,
    forall₂_keysAt start stop filter, fun content ↦ ⟨fun h ↦ ?_, fun h ↦ ?_⟩⟩
  · rw [ofOptions, if_neg hstart, if_neg hstop, builtinPatterns_eq_ok_iff.mpr ⟨hfits, rfl⟩]
    rfl
  · obtain ⟨s, hs, hlacks⟩ : ∃ s ∈ [start, stop, filter], Lacks content s := by
      simpa using h
    have hnone (quote : Char) :=
      (requires_htmlFilter start stop filter quote s hs).allMatches_eq_nil hlacks
    rw [List.forall_mem_cons, List.forall_mem_singleton]
    exact ⟨congrArg some (hnone '\''), congrArg some (hnone '"')⟩
  · simp only [List.forall_mem_cons]
    exact ⟨congrArg some ((requires_directive filter).allMatches_eq_nil h),
      congrArg some ((requires_attributeValue filter 1).allMatches_eq_nil h),
      congrArg some ((requires_attributePair filter _).allMatches_eq_nil h),
      congrArg some ((requires_filterCall filter '\'').allMatches_eq_nil h),
      congrArg some ((requires_filterCall filter '"').allMatches_eq_nil h), List.forall_mem_nil _⟩

/-- Delimiters and a name of signs, compiled by an engine without a limit. -/
theorem ofOptions_literal_signs :
    "(*[" ≠ "" ∧ "]?)" ≠ "" ∧
    (∀ source ∈ Written.sources "(*[" "]?)" "a|b.*", Regex.Engine.standard.fits source.text) ∧
    ∃ catalog,
      ofOptions { startDelimiter := "(*[", endDelimiter := "]?)", filterName := "a|b.*" } =
        .ok catalog ∧
      List.Forall₂ (ReadFrom .standard) (Written.sources "(*[" "]?)" "a|b.*") catalog.patterns ∧
      List.Forall₂ KeysAt (places "(*[" "a|b.*") catalog.patterns ∧
      catalog.matches? "HtmlFilterSimpleQuote" "[ 'key' | a|b.* ]?)".toList = some [] ∧
      catalog.matches? "HtmlDirective" "<p a b>key</p>".toList = some [] := by
  have hstart : "(*[" ≠ "" := by decide
  have hstop : "]?)" ≠ "" := by decide
  have hbracket : Lacks "[ 'key' | a|b.* ]?)".toList "(*[" :=
    lacks_of_not_mem (c := '(') (by decide) (by decide) (by decide)
  have hbar : Lacks "<p a b>key</p>".toList "a|b.*" :=
    lacks_of_not_mem (c := '|') (by decide) (by decide) (by decide)
  have hfits : ∀ source ∈ Written.sources "(*[" "]?)" "a|b.*",
      Regex.Engine.standard.fits source.text := fun _ _ ↦ rfl
  obtain ⟨catalog, hcatalog, hsources, hkeys, hnone⟩ :=
    ofOptions_literal hstart hstop "a|b.*" hfits
  exact ⟨hstart, hstop, hfits, catalog, hcatalog, hsources, hkeys,
    (hnone _).1 (.inl hbracket) _ List.mem_cons_self, (hnone _).2 hbar _ List.mem_cons_self⟩

end KeyHarvest.Catalog
