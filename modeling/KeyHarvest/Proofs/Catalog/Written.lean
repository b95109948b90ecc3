import Mathlib.Data.Bool.AllAny
import KeyHarvest.Catalog.Written
import KeyHarvest.Proofs.Catalog.Quoted
import KeyHarvest.Proofs.Regex.Written

/-!
# What the written patterns are read to

A text whose signs have a backslash before them writes the literal of that text (`writes_escaped`),
so delimiters and the name of the filter change nothing around them: each source of a built-in
pattern is read to an expression that has the ends of the pattern's own (`forall₂_writesPattern`).
-/

namespace KeyHarvest.Catalog

open Regex (Writes literal concat)
open Regex.Reader (IsPlain standsForItself)

/-- A depth that no construct of a built-in pattern exceeds. -/
def depth : Nat := 9

/-! ### Literal text -/

private theorem writes_escaped (s : String) (g : Nat) :
    Writes (Regex.escaped s).toList (Builtin.text s) depth g g := by
  have hsigns : Regex.signs.all standsForItself := by decide
  have hplain : [')', '|', '?', '*', '+', '\x7b', '(', '[', '\\', '.', '^', '$'] ⊆ Regex.signs := by
    decide
  rw [Regex.escaped, String.toList_ofList]
  refine (Regex.writes_literal (fun c _ ↦ ?_) g).mono (Nat.zero_le _)
  by_cases hc : c ∈ Regex.signs
  · exact .inr ⟨if_pos hc, List.all_eq_true.mp hsigns c hc⟩
  · exact .inl ⟨if_neg hc, fun h ↦ hc (hplain h)⟩

example : Regex.escaped "a|b.*" = "a\\|b\\.\\*" := by decide

/-- A text written with a backslash before every sign. -/
theorem writes_signs {source s : String}
    (h : source.toList = s.toList.flatMap fun c ↦ if c ∈ Regex.signs then ['\\', c] else [c])
    (g : Nat) : Writes source.toList (Builtin.text s) depth g g := by
  have hwrites := writes_escaped s g
  rwa [Regex.escaped, String.toList_ofList, ← h] at hwrites

private theorem writes_plain {s : String} (h : s.toList.all (IsPlain ·)) (g : Nat) :
    Writes s.toList (Builtin.text s) depth g g := by
  have hwrites : Writes (s.toList.flatMap fun c ↦ [c]) (literal s.toList) 0 g g :=
    Regex.writes_literal (fun c hc ↦ .inl ⟨rfl, List.all_iff_forall_prop.mp h c hc⟩) g
  rw [List.flatMap_singleton'] at hwrites
  exact hwrites.mono (Nat.zero_le _)

/-! ### Pieces of patterns -/

private theorem writes_blanks (g : Nat) : Writes Written.blanks.toList Builtin.blanks depth g g :=
  (Regex.writesPart_blank g).star.mono (by decide)

private theorem writes_filterArguments :
    Writes Written.filterArguments.toList Builtin.filterArguments depth 1 2 := by
  have hcolon : Writes [':'] (literal [':']) 1 2 2 :=
    (Regex.writesPart_char (by decide) 2).writes.mono (Nat.zero_le 1)
  have harguments : Writes [':', '.', '*', '?'] (.seq (literal [':']) (.star false Builtin.inLine))
      1 2 2 :=
    hcolon.cons (Regex.writesPart_inLine 2).lazyStar.last
  have hoptional : Writes ['(', ':', '.', '*', '?', ')', '?'] Builtin.filterArguments 5 1 2 :=
    harguments.group.optional
  exact hoptional.mono (by decide)

variable {quote : Char}

private theorem toList_mark (quote : Char) : (Written.mark quote).toList = [quote] :=
  String.toList_ofList

private theorem writes_mark (hquote : IsQuote quote) (g : Nat) :
    Writes (Written.mark quote).toList (literal [quote]) depth g g := by
  have hplain : IsPlain quote := by
    rcases hquote with rfl | rfl <;> decide
  rw [toList_mark]
  exact (Regex.writesPart_char hplain g).writes.mono (Nat.zero_le _)

private theorem writes_body (hquote : IsQuote quote) (g : Nat) :
    Writes (Written.body quote).toList (Builtin.body quote (g + 1)) depth g (g + 1) := by
  have hslash : Writes ['\\', '\\'] (literal ['\\']) 2 (g + 1) (g + 1) :=
    (Regex.writesPart_escaped (by decide) (g + 1)).writes.mono (Nat.zero_le 2)
  have hescape : Writes ['\\', '\\', '.'] (.seq (literal ['\\']) Builtin.inLine) 2
      (g + 1) (g + 1) :=
    hslash.cons ((Regex.writesPart_inLine _).writes.mono (Nat.zero_le 2)).last
  have hplain : Writes ('[' :: '^' :: quote :: '\\' :: '\\' :: [']'])
      (.set (.compl (CharClass.ofList [quote, '\\']))) 2 (g + 1) (g + 1) := by
    have hclass : [quote, '\\'].all fun c ↦ Regex.Reader.InClass c ∧ Text.Caseless c := by
      rcases hquote with rfl | rfl <;> decide
    have hmem := List.all_iff_forall_prop.mp hclass
    have hne : quote ≠ '\\' := hquote.ne_backslash
    have hwrites := Regex.writesPart_noneOf (fun c hc ↦ (hmem c hc).1) (fun c hc ↦ (hmem c hc).2)
      (List.cons_ne_nil _ _) (g + 1)
    simpa [Regex.Reader.classText, hne] using hwrites.writes
  have hbody : Writes _ (Builtin.body quote (g + 1)) depth g (g + 1) :=
    (hescape.either hplain).star.group.writes
  rw [Written.body, String.toList_append, String.toList_append, toList_mark]
  exact hbody

private theorem writes_quotedBody (hquote : IsQuote quote) (g : Nat) :
    Writes (Written.quotedBody quote).toList (Builtin.quotedBody quote (g + 1)) depth
      g (g + 1) := by
  unfold Written.quotedBody
  simp only [String.toList_append, List.append_assoc]
  exact (writes_mark hquote g).cons ((writes_body hquote g).cons (writes_mark hquote _).last)

/-! ### Whole patterns -/

private theorem writes_comment (hquote : IsQuote quote) :
    Writes (Written.comment quote).toList (Builtin.comment quote) depth 0 1 := by
  unfold Written.comment
  simp only [String.toList_append, List.append_assoc]
  have hopen : Writes "/\\*".toList (Builtin.text "/*") depth 0 0 := writes_signs (by decide) 0
  have hclose : Writes "\\*/".toList (Builtin.text "*/") depth 0 0 := writes_signs (by decide) 0
  have hword : Writes "i18nextract".toList (Builtin.text "i18nextract") depth 0 0 :=
    writes_plain (by decide) 0
  exact hopen.cons ((writes_blanks 0).cons (hword.cons
    ((writes_blanks 0).cons (hclose.cons (writes_quotedBody hquote 0).last))))

private theorem writes_htmlFilter (start stop filter : String) (hquote : IsQuote quote) :
    Writes (Written.htmlFilter (Regex.escaped start) (Regex.escaped stop) (Regex.escaped filter)
      quote).toList (Builtin.htmlFilter start stop filter quote) depth 0 2 := by
  unfold Written.htmlFilter
  simp only [String.toList_append, List.append_assoc]
  have hbar : Writes "\\|".toList (Builtin.text "|") depth 1 1 := writes_signs (by decide) 1
  exact (writes_escaped start 0).cons ((writes_blanks 0).cons ((writes_quotedBody hquote 0).cons
    ((writes_blanks 1).cons (hbar.cons ((writes_blanks 1).cons ((writes_escaped filter 1).cons
      (writes_filterArguments.cons ((writes_blanks 2).cons (writes_escaped stop 2).last))))))))

/-- Any number of characters outside a list. -/
theorem writes_noneOf {source cs : List Char} {d : Nat}
    (hcs : cs.all fun c ↦ Regex.Reader.InClass c ∧ Text.Caseless c) (hne : cs ≠ [])
    (hsource : source = '[' :: '^' :: (cs.flatMap Regex.Reader.classText ++ [']']) ++ ['*'])
    (hd : 3 ≤ d) (g : Nat) : Writes source (Builtin.noneOf cs) d g g := by
  have hmem := List.all_iff_forall_prop.mp hcs
  have hwrites :=
    Regex.writesPart_noneOf (fun c hc ↦ (hmem c hc).1) (fun c hc ↦ (hmem c hc).2) hne g
  rw [hsource]
  exact hwrites.star.mono hd

private theorem writes_directive (filter : String) :
    Writes (Written.directive (Regex.escaped filter)).toList (Builtin.directive filter)
      depth 0 1 := by
  unfold Written.directive
  simp only [String.toList_append, List.append_assoc]
  have hopen : Writes "<".toList (Builtin.text "<") depth 0 0 := writes_plain (by decide) 0
  have houtside (g : Nat) : Writes "[^>]*".toList (Builtin.noneOf ['>']) depth g g :=
    writes_noneOf (by decide) (by decide) (by rfl) (by decide) g
  have hinside : Writes "[^\x7b>]*".toList (Builtin.noneOf ['\x7b', '>']) depth 0 0 :=
    writes_noneOf (by decide) (by decide) (by rfl) (by decide) 0
  have hclose (g : Nat) : Writes ">".toList (Builtin.text ">") depth g g :=
    writes_plain (by decide) g
  have hcontent : Writes "[^<]*".toList (Builtin.noneOf ['<']) 6 1 1 :=
    writes_noneOf (by decide) (by decide) (by rfl) (by decide) 1
  have hkey : Writes "([^<]*)".toList (.group 1 (Builtin.noneOf ['<'])) depth 0 1 :=
    hcontent.group.writes
  have hend : Writes "</".toList (Builtin.text "</") depth 1 1 := writes_plain (by decide) 1
  exact hopen.cons ((houtside 0).cons ((writes_escaped filter 0).cons (hinside.cons
    ((hclose 0).cons (hkey.cons (hend.cons ((houtside 1).cons (hclose 1).last)))))))

private theorem writes_attributeValue {source name : String} {g : Nat}
    (h : Writes source.toList (Builtin.text name) depth g g) :
    Writes (Written.attributeValue source).toList (Builtin.attributeValue name (g + 1)) depth
      g (g + 1) := by
  unfold Written.attributeValue
  simp only [String.toList_append, List.append_assoc]
  have hequals : Writes "=".toList (Builtin.text "=") depth g g := writes_plain (by decide) g
  exact h.cons (hequals.cons (writes_quotedBody (.inr rfl) g).last)

private theorem writes_attributePair {source source' first second : String}
    (h : Writes source.toList (Builtin.text first) depth 0 0)
    (h' : Writes source'.toList (Builtin.text second) depth 1 1) :
    Writes (Written.attributePair source source').toList (Builtin.attributePair first second) depth
      0 2 := by
  unfold Written.attributePair
  simp only [String.toList_append, List.append_assoc]
  have hline : Writes ".*".toList (.star true Builtin.inLine) depth 1 1 :=
    (Regex.writesPart_inLine 1).star.mono (by decide)
  have hfirst : Writes (Written.attributeValue source).toList (Builtin.attributeValue first 1) depth
      0 1 := writes_attributeValue h
  have hsecond : Writes (Written.attributeValue source').toList
      (Builtin.attributeValue second 2) depth 1 2 := writes_attributeValue h'
  exact hfirst.cons (hline.cons hsecond.last)

private theorem writes_bindHtml : Writes Written.bindHtml.toList Builtin.bindHtml depth 0 2 := by
  unfold Written.bindHtml
  simp only [String.toList_append, List.append_assoc]
  have hopen : Writes "ng-bind-html=\"".toList (Builtin.text "ng-bind-html=\"") depth 0 0 :=
    writes_plain (by decide) 0
  have hbar : Writes "\\|".toList (Builtin.text "|") depth 1 1 := writes_signs (by decide) 1
  have hname : Writes "translate".toList (Builtin.text "translate") depth 1 1 :=
    writes_plain (by decide) 1
  have hclose : Writes "\"".toList (Builtin.text "\"") depth 2 2 := writes_plain (by decide) 2
  exact hopen.cons ((writes_blanks 0).cons ((writes_quotedBody (.inl rfl) 0).cons
    ((writes_blanks 1).cons (hbar.cons ((writes_blanks 1).cons (hname.cons
      (writes_filterArguments.cons ((writes_blanks 2).cons hclose.last))))))))

private theorem writes_call {source : String} {function : List Regex} (hquote : IsQuote quote)
    (h : Writes source.toList (concat function) depth 0 0) :
    Writes (Written.call source quote).toList (Builtin.call function quote) depth 0 1 := by
  unfold Written.call
  simp only [String.toList_append, List.append_assoc]
  have hopen : Writes "\\(".toList (Builtin.text "(") depth 0 0 := writes_signs (by decide) 0
  have hmore : Writes "[^)]*".toList (Builtin.noneOf [')']) depth 1 1 :=
    writes_noneOf (by decide) (by decide) (by rfl) (by decide) 1
  have hclose : Writes "\\)".toList (Builtin.text ")") depth 1 1 := writes_signs (by decide) 1
  exact h.append (hopen.cons ((writes_blanks 0).cons ((writes_quotedBody hquote 0).cons
    (hmore.cons hclose.last))))

private theorem writes_filterFunction (filter : String) (hquote : IsQuote quote) :
    Writes (Written.filterFunction (Regex.escaped filter) quote).toList
      (concat (Builtin.filterFunction filter quote)) depth 0 0 := by
  unfold Written.filterFunction
  simp only [String.toList_append, List.append_assoc]
  have hopen : Writes "\\$filter\\(".toList (Builtin.text "$filter(") depth 0 0 :=
    writes_signs (by decide) 0
  have hclose : Writes "\\)".toList (Builtin.text ")") depth 0 0 := writes_signs (by decide) 0
  exact hopen.cons ((writes_blanks 0).cons ((writes_mark hquote 0).cons
    ((writes_escaped filter 0).cons ((writes_mark hquote 0).cons ((writes_blanks 0).cons
      (hclose.cons (writes_blanks 0).last))))))

/-- A source writes the expression of a pattern that agrees with it in everything else. -/
structure WritesPattern (source : Written.Source) (pattern : Pattern) : Prop where
  name : pattern.name = source.name
  kind : pattern.kind = source.kind
  unescape : pattern.unescape = source.unescape
  regex : ∃ g, Writes source.text.toList pattern.regex depth 0 g

/-- The sources write the built-in patterns. -/
theorem forall₂_writesPattern (start stop filter : String) :
    List.Forall₂ WritesPattern (Written.sources start stop filter)
      (Builtin.patterns start stop filter) := by
  have hsingle : IsQuote '\'' := .inl rfl
  have hdouble : IsQuote '"' := .inr rfl
  have hplural (g : Nat) : Writes "angular-plural-extract".toList
      (Builtin.text Builtin.pluralAttribute) depth g g := writes_plain (by decide) g
  have htranslate : Writes "translate".toList (Builtin.text "translate") depth 1 1 :=
    writes_plain (by decide) 1
  have hservice : Writes "\\$translate".toList (concat [Builtin.text "$translate"]) depth 0 0 :=
    (writes_signs (by decide) 0).last
  have hinstant : Writes "\\$translate\\.instant".toList
      (concat [Builtin.text "$translate.instant"]) depth 0 0 := (writes_signs (by decide) 0).last
  exact
    .cons ⟨rfl, rfl, rfl, _, writes_comment hsingle⟩ <|
    .cons ⟨rfl, rfl, rfl, _, writes_comment hdouble⟩ <|
    .cons ⟨rfl, rfl, rfl, _, writes_htmlFilter start stop filter hsingle⟩ <|
    .cons ⟨rfl, rfl, rfl, _, writes_htmlFilter start stop filter hdouble⟩ <|
    .cons ⟨rfl, rfl, rfl, _, writes_directive filter⟩ <|
    .cons ⟨rfl, rfl, rfl, _, writes_attributeValue (writes_escaped filter 0)⟩ <|
    .cons ⟨rfl, rfl, rfl, _, writes_attributePair (writes_escaped filter 0) (hplural 1)⟩ <|
    .cons ⟨rfl, rfl, rfl, _, writes_attributePair (hplural 0) htranslate⟩ <|
    .cons ⟨rfl, rfl, rfl, _, writes_bindHtml⟩ <|
    .cons ⟨rfl, rfl, rfl, _, writes_call hsingle hservice⟩ <|
    .cons ⟨rfl, rfl, rfl, _, writes_call hdouble hservice⟩ <|
    .cons ⟨rfl, rfl, rfl, _, writes_call hsingle hinstant⟩ <|
    .cons ⟨rfl, rfl, rfl, _, writes_call hdouble hinstant⟩ <|
    .cons ⟨rfl, rfl, rfl, _, writes_call hsingle (writes_filterFunction filter hsingle)⟩ <|
    .cons ⟨rfl, rfl, rfl, _, writes_call hdouble (writes_filterFunction filter hdouble)⟩ .nil

end KeyHarvest.Catalog
