import KeyHarvest.Extraction
import KeyHarvest.Proofs.Catalog.Quoted
import KeyHarvest.Proofs.Except
import KeyHarvest.Proofs.Regex.Matches
import KeyHarvest.Proofs.Text.Pieces

/-!
# What the built-in patterns find

Each built-in expression matches the form that it stands for, and its first group then has the text
of the literal, of the attribute or of the element, however the expression is matched (`Catches`).
So a catalog finds the literal of each form whatever its delimiters and its filter name are
(`finds_forms`).

For most forms this is read off from left to right: up to the literal there is only one way to
match. The tag of the directive can be matched in several ways, for the name of the filter may stand
in it more than once and may hold a closing bracket; counting the brackets shows that the tag ends
at the same place in all of them.
-/

namespace KeyHarvest.Catalog

open MatchState (between)
open Regex (literal concat star Reads Misses)
open Builtin (text blanks quotedBody)
open Text (Alike)

/-- An expression matches at the start of a text, and its first group has the text `body` however it
matches there. -/
structure Catches (r : Regex) (content body : List Char) : Prop where
  found : r.ends (between [] content []) ≠ []
  group : ∀ t ∈ r.ends (between [] content []),
    (Match.mk 0 t.cursor.position t.captures).group 1 = body

variable {content body done rest : List Char} {captures : List Capture}

private theorem Catches.mem_keyMatches {p : Pattern} (h : Catches p.regex content body)
    (hp : p.kind = .plain) (hbody : Text.trim body ≠ []) :
    ⟨p.name, String.ofList (p.unescape.apply (Text.trim body)), ""⟩ ∈ p.keyMatches content := by
  obtain ⟨t, ends, hends⟩ := List.exists_cons_of_ne_nil h.found
  have hgroup := h.group t (by rw [hends]; exact List.mem_cons_self)
  have hmatch := p.regex.mem_allMatches_of_head? (t := t) (by rw [hends, List.head?_cons])
  refine List.mem_filterMap.mpr ⟨_, hmatch, ?_⟩
  simp only [Pattern.keyMatch?, Pattern.defaultText, hp, Kind.keyGroup, Kind.literalGroup?, hgroup,
    List.isEmpty_iff, if_neg hbody]

/-- Once the first group is captured, it is enough that the rest can be matched. -/
theorem catches_of_ends_eq {r : Regex} (rs : List Regex) {w : List Char}
    (hreads : (concat rs).Reads w []) (hgroups : 1 ∉ (concat rs).groups)
    (h : ∃ done captures after, r.ends (between [] content []) =
      (concat rs).ends (between done w (⟨1, body ++ after, body.length⟩ :: captures))) :
    Catches r content body := by
  obtain ⟨done, captures, after, h⟩ := h
  constructor
  · obtain ⟨captures', hm⟩ := hreads done (⟨1, body ++ after, body.length⟩ :: captures)
    rw [List.append_nil] at hm
    rw [h]
    exact List.ne_nil_of_mem hm
  · intro t ht
    rw [h] at ht
    obtain ⟨read, left, added, -, rfl, hadded⟩ := Regex.eq_between_of_mem_ends ht
    exact Match.group_of_captures rfl fun g hg hi ↦ hgroups (hi ▸ hadded g hg)

/-! ### Matching the parts of a form -/

/-- A literal text at the place is taken, and the sequence goes on behind it. -/
theorem ends_concat_literal (cs : List Char) (rs : List Regex) :
    (concat (literal cs :: rs)).ends (between done (cs ++ rest) captures) =
      (concat rs).ends (between (done ++ cs) rest captures) :=
  Regex.ends_concat_of_singleton (Regex.ends_literal_of_alike (.refl _)) rs

/-- Blanks before a text that does not begin with one of them are passed over. -/
theorem ends_concat_blanks_literal {gap cs : List Char} {c : Char} (hc : cs.head? = some c)
    (hgap : ∀ x ∈ gap, Text.isBlank x = true ∧ Text.sameFold x c = false)
    (hstop : Text.isBlank c = false) (rs : List Regex) :
    (concat (blanks :: literal cs :: rs)).ends (between done (gap ++ (cs ++ rest)) captures) =
      (concat rs).ends (between (done ++ gap ++ cs) rest captures) := by
  obtain ⟨cs, rfl⟩ := List.head?_eq_some_iff.mp hc
  have hmisses : Misses (literal (c :: cs)) done gap (c :: cs ++ rest) := by
    intro a b hab hb captures
    obtain ⟨x, b, rfl⟩ := List.exists_cons_of_ne_nil hb
    have hx : (CharClass.like c).mem x = false := (hgap x (by simp [hab])).2
    rw [Regex.ends_literal_cons, List.cons_append, Regex.ends_set_cons, hx]
    rfl
  have hblank : ∀ x ∈ gap, CharClass.blank.mem x = true := fun x hx ↦ (hgap x hx).1
  have hnone : ∀ x ∈ (c :: cs ++ rest).head?, CharClass.blank.mem x = false := by
    rintro x ⟨⟩
    exact hstop
  rw [blanks, Regex.ends_concat_run hblank hnone hmisses, ends_concat_literal]

private theorem reads_text (s : String) (rest : List Char) : (text s).Reads s.toList rest :=
  Regex.reads_literal _ rest

private theorem isBlank_of_mem_space : ∀ c ∈ [' '], Text.isBlank c = true :=
  List.forall_mem_singleton.mpr rfl

private theorem reads_blank (rest : List Char) : blanks.Reads [' '] rest :=
  Regex.reads_star_set isBlank_of_mem_space rest

private theorem reads_no_blanks (rest : List Char) : blanks.Reads [] rest :=
  Regex.reads_star_set (by simp) rest

private theorem reads_no_arguments (rest : List Char) : Builtin.filterArguments.Reads [] rest :=
  Regex.reads_optional_nil _ rest

/-- The arguments of a filter do not hold the key. -/
theorem not_mem_groups_filterArguments : 1 ∉ Builtin.filterArguments.groups := by
  decide

/-! ### The forms -/

section Quoted

variable {quote : Char} (hquote : IsQuote quote) (body : LiteralBody quote)
include hquote

/-- A marked literal is caught. -/
theorem catches_comment :
    Catches (Builtin.comment quote)
      ("/*".toList ++ ([' '] ++ ("i18nextract".toList ++ ([' '] ++ ("*/".toList ++
        quote :: (body.text ++ [quote])))))) body.text := by
  apply catches_of_ends_eq [] (Regex.reads_concat_nil []) (by decide)
  exact ⟨_, _, _, by
    rw [Builtin.comment, text, text, text, ends_concat_literal,
      ends_concat_blanks_literal rfl (List.forall_mem_singleton.mpr ⟨rfl, rfl⟩) rfl,
      ends_concat_blanks_literal rfl (List.forall_mem_singleton.mpr ⟨rfl, rfl⟩) rfl,
      Regex.ends_concat_of_singleton (ends_quotedBody hquote 1 body)]⟩

/-- What stands behind a filtered literal. -/
private def filterTail (filter stop : String) : List Regex :=
  [blanks, text "|", blanks, text filter, Builtin.filterArguments, blanks, text stop]

omit hquote in
private theorem reads_filterTail (filter stop : String) {gap : List Char}
    (hgap : blanks.Reads gap stop.toList) :
    (concat (filterTail filter stop)).Reads (" | ".toList ++ filter.toList ++ gap ++ stop.toList)
      [] := by
  have hgap : blanks.Reads gap (stop.toList ++ [] ++ []) := by simpa using hgap
  simpa [filterTail] using (reads_blank _).concat <| (reads_text "|" _).concat <|
    (reads_blank _).concat <| (reads_text filter _).concat <| (reads_no_arguments _).concat <|
    hgap.concat <| (reads_text stop _).concat <| Regex.reads_concat_nil []

/-- A filtered literal between delimiters is caught. -/
theorem catches_htmlFilter (start stop filter : String) :
    Catches (Builtin.htmlFilter start stop filter quote)
      (start.toList ++ ([' '] ++ quote :: (body.text ++ quote ::
        (" | ".toList ++ filter.toList ++ [' '] ++ stop.toList)))) body.text := by
  apply catches_of_ends_eq _ (reads_filterTail filter stop (reads_blank _))
  · simp [filterTail, blanks, text, not_mem_groups_filterArguments]
  · exact ⟨_, _, _, by
      rw [Builtin.htmlFilter, text, ends_concat_literal,
        ends_concat_blanks_quotedBody hquote 1 isBlank_of_mem_space body]
      rfl⟩

omit hquote in
/-- A filtered literal in a binding is caught. -/
theorem catches_bindHtml (body : LiteralBody '\'') :
    Catches Builtin.bindHtml
      ("ng-bind-html=\"".toList ++ ([] ++ '\'' :: (body.text ++ '\'' ::
        (" | ".toList ++ "translate".toList ++ [] ++ "\"".toList)))) body.text := by
  apply catches_of_ends_eq _ (reads_filterTail "translate" "\"" (reads_no_blanks _))
  · simp [filterTail, blanks, text, not_mem_groups_filterArguments]
  · exact ⟨_, _, _, by
      rw [Builtin.bindHtml, text, ends_concat_literal,
        ends_concat_blanks_quotedBody (.inl rfl) 1 (List.forall_mem_nil _) body]
      rfl⟩

/-- A call is found if its function is matched in one way only. -/
theorem catches_call {function : List Regex} {w : List Char}
    (h : ∀ rs rest, (concat (function ++ rs)).ends (between [] (w ++ ("(".toList ++ rest)) []) =
      (concat rs).ends (between w ("(".toList ++ rest) [])) :
    Catches (Builtin.call function quote)
      (w ++ ("(".toList ++ ([] ++ quote :: (body.text ++ quote :: ")".toList)))) body.text := by
  have hreads : (concat [Builtin.noneOf [')'], text ")"]).Reads ")".toList [] := by
    have hnone : (Builtin.noneOf [')']).Reads [] (")".toList ++ [] ++ []) :=
      Regex.reads_star_set (by simp) _
    simpa using hnone.concat <| (reads_text ")" _).concat <| Regex.reads_concat_nil []
  apply catches_of_ends_eq _ hreads
  · simp [Builtin.noneOf, text]
  · exact ⟨_, _, _, by
      rw [Builtin.call, h, text, ends_concat_literal,
        ends_concat_blanks_quotedBody hquote 1 (List.forall_mem_nil _) body]⟩

private theorem ends_filterFunction (filter : String) (rs : List Regex) (rest : List Char) :
    (concat (Builtin.filterFunction filter quote ++ rs)).ends (between []
        ("$filter(".toList ++ ([quote] ++ (filter.toList ++ ([quote] ++ ")".toList))) ++
          ("(".toList ++ rest)) []) =
      (concat rs).ends (between
        ("$filter(".toList ++ ([quote] ++ (filter.toList ++ ([quote] ++ ")".toList))))
        ("(".toList ++ rest) []) := by
  have hblanks (done rest : List Char) :
      blanks.ends (between done ('(' :: rest) []) = [between done ('(' :: rest) []] :=
    Regex.ends_star_set_of_not rfl
  show (concat (literal "$filter(".toList :: blanks :: literal [quote] :: literal filter.toList ::
      literal [quote] :: blanks :: literal ")".toList :: blanks :: rs)).ends (between []
        ("$filter(".toList ++ ([] ++ ([quote] ++ (filter.toList ++ ([quote] ++ ")".toList)))) ++
          ("(".toList ++ rest)) []) = _
  simp only [List.append_assoc]
  rw [ends_concat_literal,
    ends_concat_blanks_literal rfl (List.forall_mem_nil _) hquote.not_blank, ends_concat_literal,
    ends_concat_literal, ← List.nil_append (")".toList ++ _),
    ends_concat_blanks_literal rfl (List.forall_mem_nil _) rfl]
  simp only [List.append_nil, List.append_assoc]
  exact Regex.ends_concat_of_singleton (hblanks _ _) rs

/-- The literal in a call of a service is caught. -/
theorem catches_service (name : String) :
    Catches (Builtin.call [text name] quote)
      (name.toList ++ ("(".toList ++ ([] ++ quote :: (body.text ++ quote :: ")".toList))))
      body.text :=
  catches_call hquote body fun rs _ ↦ ends_concat_literal name.toList rs

/-- The literal in a call of the filter function is caught. -/
theorem catches_filterCall (filter : String) :
    Catches (Builtin.call (Builtin.filterFunction filter quote) quote)
      ("$filter(".toList ++ ([quote] ++ (filter.toList ++ ([quote] ++ ")".toList))) ++
        ("(".toList ++ ([] ++ quote :: (body.text ++ quote :: ")".toList)))) body.text :=
  catches_call hquote body (ends_filterFunction hquote filter)

end Quoted

/-- The value of an attribute is caught. -/
theorem catches_attributeValue (name : String) (body : LiteralBody '"') :
    Catches (Builtin.attributeValue name 1)
      (name.toList ++ ("=".toList ++ '"' :: (body.text ++ ['"']))) body.text := by
  apply catches_of_ends_eq [] (Regex.reads_concat_nil []) (by decide)
  exact ⟨_, _, _, by
    rw [Builtin.attributeValue, text, text, ends_concat_literal, ends_concat_literal,
      Regex.ends_concat_of_singleton (ends_quotedBody (.inr rfl) 1 body)]⟩

/-! ### The directive in a tag -/

private theorem reads_noneOf {cs w : List Char} (h : ∀ c ∈ w, c ∉ cs) (rest : List Char) :
    (Builtin.noneOf cs).Reads w rest :=
  Regex.reads_star_set (fun c hc ↦ (CharClass.mem_compl_ofList_iff cs c).mpr (h c hc)) rest

/-- A match of the directive: the name of the filter stands in a tag that ends behind it, and what
stands between the tag and the next one is captured. -/
theorem exists_of_mem_ends_directive {filter : String} {t : MatchState}
    (ht : t ∈ (Builtin.directive filter).ends (between done rest captures)) :
    ∃ before name after key behind,
      rest = '<' :: (before ++ name ++ after ++ '>' :: (key ++ '<' :: (behind ++ t.cursor.rest))) ∧
      '>' ∉ before ∧ Alike name filter.toList ∧ '>' ∉ after ∧ '<' ∉ key ∧
      t.captures = ⟨1, key ++ '<' :: (behind ++ t.cursor.rest), key.length⟩ :: captures := by
  have noneOf {c : Char} {cs w : List Char} (hc : c ∈ cs)
      (h : ∀ x ∈ w, (CharClass.compl (.ofList cs)).mem x = true) : c ∉ w := fun hw ↦
    (CharClass.mem_compl_ofList_iff cs c).mp (h c hw) hc
  have bracket {c : Char} (hc : Text.Caseless c) {w : List Char} (h : Alike w [c]) : w = [c] :=
    (Text.alike_singleton_iff hc w).mp h
  obtain ⟨w₁, left₁, rfl, hw₁, ht⟩ := (Regex.mem_ends_concat_literal_iff _ _ t).mp ht
  obtain ⟨before, left₂, rfl, hbefore, ht⟩ := (Regex.mem_ends_concat_star_set_iff _ _ t).mp ht
  obtain ⟨name, left₃, rfl, hname, ht⟩ := (Regex.mem_ends_concat_literal_iff _ _ t).mp ht
  obtain ⟨after, left₄, rfl, hafter, ht⟩ := (Regex.mem_ends_concat_star_set_iff _ _ t).mp ht
  obtain ⟨w₂, left₅, rfl, hw₂, ht⟩ := (Regex.mem_ends_concat_literal_iff _ _ t).mp ht
  obtain ⟨key, left₆, rfl, hkey, ht⟩ := (Regex.mem_ends_concat_group_star_set_iff _ _ _ t).mp ht
  obtain ⟨w₃, left₇, rfl, hw₃, ht⟩ := (Regex.mem_ends_concat_literal_iff _ _ t).mp ht
  obtain ⟨w₄, w₅, rfl, hw₄, -⟩ := (Text.alike_append_iff ['<'] ['/'] w₃).mp hw₃
  obtain rfl : w₁ = ['<'] := bracket (by decide) hw₁
  obtain rfl : w₂ = ['>'] := bracket (by decide) hw₂
  obtain rfl : w₄ = ['<'] := bracket (by decide) hw₄
  obtain ⟨read, left, added, rfl, rfl, hadded⟩ := Regex.eq_between_of_mem_ends ht
  have hadded : added = [] := by
    apply List.eq_nil_iff_forall_not_mem.mpr
    intro g hg
    simpa [Builtin.noneOf, text] using hadded g hg
  refine ⟨before, name, after, key, w₅ ++ read, ?_, noneOf (by simp) hbefore, hname,
    noneOf (by simp) hafter, noneOf (by simp) hkey, ?_⟩
  · simp [MatchState.between, Cursor.between]
  · simp [hadded, MatchState.between, Cursor.between]

private theorem reads_directive (filter : String) {cs : List Char} (hcs : '<' ∉ cs) :
    (Builtin.directive filter).Reads
      ("<p ".toList ++ filter.toList ++ ">".toList ++ cs ++ "</p>".toList) [] := by
  have htag (rest : List Char) : (Builtin.noneOf ['>']).Reads "p ".toList rest :=
    reads_noneOf (by simp) rest
  have hend (rest : List Char) : (Builtin.noneOf ['\x7b', '>']).Reads [] rest :=
    reads_noneOf (by simp) rest
  have hkey (rest : List Char) : (Builtin.noneOf ['<']).Reads cs rest := by
    refine reads_noneOf (fun c hc hmem ↦ hcs ?_) rest
    rwa [← List.mem_singleton.mp hmem]
  have hclose (rest : List Char) : (Builtin.noneOf ['>']).Reads "p".toList rest :=
    reads_noneOf (by simp) rest
  simpa [Builtin.directive] using (reads_text "<" _).concat <| (htag _).concat <|
    (reads_text filter _).concat <| (hend _).concat <| (reads_text ">" _).concat <|
    ((hkey _).group 1).concat <| (reads_text "</" _).concat <| (hclose _).concat <|
    (reads_text ">" _).concat <| Regex.reads_concat_nil []

/-- The content of an element with the directive is caught. -/
theorem catches_directive (filter : String) {cs : List Char} (hcs : '<' ∉ cs) :
    Catches (Builtin.directive filter)
      ("<p ".toList ++ filter.toList ++ ">".toList ++ cs ++ "</p>".toList) cs := by
  constructor
  · obtain ⟨captures, hm⟩ := reads_directive filter hcs [] []
    rw [List.append_nil] at hm
    exact List.ne_nil_of_mem hm
  · intro t ht
    obtain ⟨before, name, after, key, behind, h, hbefore, hname, hafter, hkey, hcaptures⟩ :=
      exists_of_mem_ends_directive ht
    -- The tag holds as many closing brackets as the name of the filter, so it ends where it should.
    have hcount : ("p ".toList ++ filter.toList).count '>' =
        (before ++ name ++ after).count '>' := by
      rw [List.count_append, List.count_append, List.count_append, hname.count_eq (by decide),
        List.count_eq_zero_of_not_mem hbefore, List.count_eq_zero_of_not_mem hafter]
      rfl
    have htag : "p ".toList ++ filter.toList ++ '>' :: (cs ++ '<' :: "/p>".toList) =
        before ++ name ++ after ++ '>' :: (key ++ '<' :: (behind ++ t.cursor.rest)) := by
      simpa using h
    have hrest := ((Text.append_cons_inj_of_count_eq hcount).mp htag).2
    obtain ⟨rfl, -⟩ := (Text.append_cons_inj_of_not_mem hcs hkey).mp hrest
    have hlast : t.captures = [] ++ [⟨1, cs ++ '<' :: (behind ++ t.cursor.rest), cs.length⟩] :=
      hcaptures
    exact Match.group_of_captures hlast (by simp)

/-! ### All forms -/

/-- A pattern of a catalog finds a key in a text, with no default text. -/
def Finds (catalog : Catalog) (pattern content : String) (key : List Char) : Prop :=
  ⟨pattern, String.ofList key, ""⟩ ∈ catalog.keyMatches content

/-- The text of a literal, as a string. -/
def LiteralBody.written {quote : Char} (body : LiteralBody quote) : String :=
  String.ofList body.text

/-- The text of a literal and its characters. -/
@[simp] theorem LiteralBody.toList_written {quote : Char} (body : LiteralBody quote) :
    body.written.toList = body.text :=
  String.toList_ofList

section

variable {options : Options} {engine : Regex.Engine} {catalog : Catalog}
  (hcatalog : ofOptions options engine = .ok catalog)
include hcatalog

/-- The patterns of a catalog are the built-in ones and behind them the custom ones. -/
theorem exists_patterns_eq_of_ofOptions :
    ∃ custom, options.customPatterns.entries.mapM (fun e ↦ customPattern engine e.1 e.2) =
        .ok custom ∧
      catalog.patterns = Builtin.patterns options.startDelimiter options.endDelimiter
        options.filterName ++ custom := by
  rw [ofOptions] at hcatalog
  split at hcatalog
  · cases hcatalog
  · split at hcatalog
    · cases hcatalog
    · obtain ⟨builtin, hbuiltin, hcatalog⟩ := bind_eq_ok_iff.mp hcatalog
      obtain ⟨custom, hcustom, hcatalog⟩ := bind_eq_ok_iff.mp hcatalog
      obtain ⟨-, rfl⟩ := builtinPatterns_eq_ok_iff.mp hbuiltin
      exact ⟨custom, hcustom, congrArg patterns (Except.ok.inj hcatalog).symm⟩

/-- A built-in pattern without a plural literal finds what its expression catches. -/
theorem Catches.finds {p : Pattern}
    (hp : p ∈ Builtin.patterns options.startDelimiter options.endDelimiter options.filterName)
    (hkind : p.kind = .plain) {content : String} (h : Catches p.regex content.toList body)
    (hbody : Text.trim body ≠ []) :
    catalog.Finds p.name content (p.unescape.apply (Text.trim body)) := by
  obtain ⟨custom, -, hpatterns⟩ := exists_patterns_eq_of_ofOptions hcatalog
  rw [Finds, keyMatches, hpatterns]
  exact List.mem_flatMap.mpr ⟨p, List.mem_append_left _ hp, h.mem_keyMatches hkind hbody⟩

/-- A pattern that undoes the escapes of a quote finds the text of a literal with bare quotes. -/
theorem Catches.finds_bare {quote : Char} (hquote : IsQuote quote) {p : Pattern}
    (hp : p ∈ Builtin.patterns options.startDelimiter options.endDelimiter options.filterName)
    (hkind : p.kind = .plain) (hunescape : p.unescape.apply = unescapeQuote quote)
    {content : String} {body : LiteralBody quote} (h : Catches p.regex content.toList body.text)
    (hbody : Text.trim body.text ≠ []) :
    catalog.Finds p.name content (Text.trim body.bare) := by
  have hfinds := h.finds hcatalog hp hkind hbody
  rwa [hunescape, unescapeQuote_trim hquote] at hfinds

end

/-- Whatever its delimiters and its filter name, a catalog finds the literal of each quoted form
with its escaped quotes written bare, and the text of the directive as it is written. -/
theorem finds_forms {options : Options} {engine : Regex.Engine} {catalog : Catalog}
    (hcatalog : ofOptions options engine = .ok catalog) :
    (∀ r : LiteralBody '\'', Text.trim r.text ≠ [] →
      catalog.Finds "commentSimpleQuote" ("/* i18nextract */'" ++ r.written ++ "'")
        (Text.trim r.bare) ∧
      catalog.Finds "HtmlFilterSimpleQuote"
        (options.startDelimiter ++ " '" ++ r.written ++ "' | " ++ options.filterName ++ " " ++
          options.endDelimiter) (Text.trim r.bare) ∧
      catalog.Finds "HtmlNgBindHtml" ("ng-bind-html=\"'" ++ r.written ++ "' | translate\"")
        (Text.trim r.bare) ∧
      catalog.Finds "JavascriptServiceSimpleQuote" ("$translate('" ++ r.written ++ "')")
        (Text.trim r.bare) ∧
      catalog.Finds "JavascriptServiceInstantSimpleQuote"
        ("$translate.instant('" ++ r.written ++ "')") (Text.trim r.bare) ∧
      catalog.Finds "JavascriptFilterSimpleQuote"
        ("$filter('" ++ options.filterName ++ "')('" ++ r.written ++ "')") (Text.trim r.bare)) ∧
    (∀ s : LiteralBody '"', Text.trim s.text ≠ [] →
      catalog.Finds "commentDoubleQuote" ("/* i18nextract */\"" ++ s.written ++ "\"")
        (Text.trim s.bare) ∧
      catalog.Finds "HtmlFilterDoubleQuote"
        (options.startDelimiter ++ " \"" ++ s.written ++ "\" | " ++ options.filterName ++ " " ++
          options.endDelimiter) (Text.trim s.bare) ∧
      catalog.Finds "JavascriptServiceDoubleQuote" ("$translate(\"" ++ s.written ++ "\")")
        (Text.trim s.bare) ∧
      catalog.Finds "JavascriptServiceInstantDoubleQuote"
        ("$translate.instant(\"" ++ s.written ++ "\")") (Text.trim s.bare) ∧
      catalog.Finds "JavascriptFilterDoubleQuote"
        ("$filter(\"" ++ options.filterName ++ "\")(\"" ++ s.written ++ "\")")
        (Text.trim s.bare) ∧
      catalog.Finds "HtmlDirectiveStandalone" (options.filterName ++ "=\"" ++ s.written ++ "\"")
        (Text.trim s.text)) ∧
    (∀ t : String, Text.trim t.toList ≠ [] → '<' ∉ t.toList →
      catalog.Finds "HtmlDirective" ("<p " ++ options.filterName ++ ">" ++ t ++ "</p>")
        (Text.trim t.toList)) := by
  have hsingle : IsQuote '\'' := .inl rfl
  have hdouble : IsQuote '"' := .inr rfl
  refine ⟨fun r hr ↦ ?_, fun s hs ↦ ?_, fun t ht htag ↦ ?_⟩
  · have finds {name content : String} (regex : Regex)
        (hp : ⟨name, .plain, .singleQuote, regex⟩ ∈ Builtin.patterns options.startDelimiter
          options.endDelimiter options.filterName)
        (h : Catches regex content.toList r.text) :
        catalog.Finds name content (Text.trim r.bare) :=
      h.finds_bare hcatalog hsingle hp rfl rfl hr
    refine ⟨?_, ?_, ?_, ?_, ?_, ?_⟩
    · exact finds (Builtin.comment '\'') (by simp [Builtin.patterns])
        (by simpa using catches_comment hsingle r)
    · exact finds (Builtin.htmlFilter options.startDelimiter options.endDelimiter
        options.filterName '\'') (by simp [Builtin.patterns])
        (by simpa using catches_htmlFilter hsingle r _ _ _)
    · exact finds Builtin.bindHtml (by simp [Builtin.patterns]) (by simpa using catches_bindHtml r)
    · exact finds (Builtin.call [text "$translate"] '\'') (by simp [Builtin.patterns])
        (by simpa using catches_service hsingle r "$translate")
    · exact finds (Builtin.call [text "$translate.instant"] '\'') (by simp [Builtin.patterns])
        (by simpa using catches_service hsingle r "$translate.instant")
    · exact finds (Builtin.call (Builtin.filterFunction options.filterName '\'') '\'')
        (by simp [Builtin.patterns]) (by simpa using catches_filterCall hsingle r _)
  · have finds {name content : String} (regex : Regex)
        (hp : ⟨name, .plain, .doubleQuote, regex⟩ ∈ Builtin.patterns options.startDelimiter
          options.endDelimiter options.filterName)
        (h : Catches regex content.toList s.text) :
        catalog.Finds name content (Text.trim s.bare) :=
      h.finds_bare hcatalog hdouble hp rfl rfl hs
    refine ⟨?_, ?_, ?_, ?_, ?_, ?_⟩
    · exact finds (Builtin.comment '"') (by simp [Builtin.patterns])
        (by simpa using catches_comment hdouble s)
    · exact finds (Builtin.htmlFilter options.startDelimiter options.endDelimiter
        options.filterName '"') (by simp [Builtin.patterns])
        (by simpa using catches_htmlFilter hdouble s _ _ _)
    · exact finds (Builtin.call [text "$translate"] '"') (by simp [Builtin.patterns])
        (by simpa using catches_service hdouble s "$translate")
    · exact finds (Builtin.call [text "$translate.instant"] '"') (by simp [Builtin.patterns])
        (by simpa using catches_service hdouble s "$translate.instant")
    · exact finds (Builtin.call (Builtin.filterFunction options.filterName '"') '"')
        (by simp [Builtin.patterns]) (by simpa using catches_filterCall hdouble s _)
    · exact Catches.finds hcatalog
        (p := ⟨_, .plain, .verbatim, Builtin.attributeValue options.filterName 1⟩)
        (by simp [Builtin.patterns]) rfl (by simpa using catches_attributeValue _ s) hs
  · exact Catches.finds hcatalog
      (p := ⟨_, .plain, .verbatim, Builtin.directive options.filterName⟩)
      (by simp [Builtin.patterns]) rfl (by simpa using catches_directive _ htag) ht

/-- The form of an interpolation with the usual delimiters, and an escaped quote in its literal. -/
theorem finds_forms_escaped_quote :
    ofOptions {} = .ok ⟨Builtin.patterns "\x7b\x7b" "\x7d\x7d" "translate"⟩ ∧
      Finds ⟨Builtin.patterns "\x7b\x7b" "\x7d\x7d" "translate"⟩ "HtmlFilterSimpleQuote"
        "\x7b\x7b 'it\\'s' | translate \x7d\x7d" "it's".toList := by
  have hcatalog : ofOptions {} = .ok ⟨Builtin.patterns "\x7b\x7b" "\x7d\x7d" "translate"⟩ := rfl
  let body : LiteralBody '\'' :=
    .plain 'i' (by decide) (by decide) <| .plain 't' (by decide) (by decide) <|
      .escape '\'' (by decide) <| .plain 's' (by decide) (by decide) .nil
  exact ⟨hcatalog, ((finds_forms hcatalog).1 body (by decide)).2.1⟩

end KeyHarvest.Catalog
