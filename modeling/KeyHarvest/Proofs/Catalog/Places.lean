import KeyHarvest.Proofs.Catalog.Forms

/-!
# Where keys stand

A key stands in a match between quotes, behind pieces of text with blanks between them, or between
two tags (`Place`). A pattern captures the key at its place in every match (`Captures`), and each
built-in pattern does so in the group for the key, whatever the delimiters and the name of the
filter are (`forall₂_keysAt`).
-/

namespace KeyHarvest.Catalog

open MatchState (between)
open Regex (literal concat)
open Text (Alike)

/-- A piece of what stands before a quoted key. -/
inductive Piece where
  /-- A text, up to case. -/
  | text (s : String)
  /-- Any number of blanks. -/
  | blanks

/-- The expression of a piece. -/
def Piece.regex : Piece → Regex
  | .text s => Builtin.text s
  | .blanks => Builtin.blanks

/-- A stretch of text is the piece. -/
def Piece.Is : Piece → List Char → Prop
  | .text s, w => Alike w s.toList
  | .blanks, w => ∀ c ∈ w, Text.isBlank c = true

/-- A stretch of text is made of pieces. -/
def MadeOf : List Piece → List Char → Prop
  | [], w => w = []
  | p :: ps, w => ∃ u v, w = u ++ v ∧ p.Is u ∧ MadeOf ps v

/-- Where a key stands in a match. -/
inductive Place where
  /-- Between quotes, behind pieces with which the match begins. -/
  | quoted (lead : List Piece) (quote : Char)
  /-- Between a tag that holds a name and the next tag. -/
  | content (name : String)
  /-- At a place with something before it. -/
  | behind (place : Place)

namespace Place

/-- The key stands at the place in a stretch of text. -/
def Holds : Place → List Char → List Char → Prop
  | .quoted lead quote, w, key => ∃ before after, ∃ body : LiteralBody quote,
      w = before ++ quote :: (body.text ++ quote :: after) ∧ MadeOf lead before ∧ key = body.text
  | .content name, w, key => ∃ before w' after behind,
      w = '<' :: (before ++ w' ++ after ++ '>' :: (key ++ '<' :: behind)) ∧
        '>' ∉ before ∧ Alike w' name.toList ∧ '>' ∉ after ∧ '<' ∉ key
  | .behind place, w, key => ∃ u v, w = u ++ v ∧ place.Holds v key

/-- A text can stand at the place. -/
def Admits : Place → List Char → Prop
  | .quoted _ quote, key => ∃ body : LiteralBody quote, key = body.text
  | .content _, key => '<' ∉ key
  | .behind place, key => place.Admits key

variable {place : Place} {w v key : List Char}

/-- What holds a key holds it with more text behind. -/
theorem Holds.append (h : place.Holds w key) (v : List Char) : place.Holds (w ++ v) key := by
  induction place generalizing w with
  | quoted lead quote =>
    obtain ⟨before, after, body, rfl, hbefore, hkey⟩ := h
    exact ⟨before, after ++ v, body, by simp, hbefore, hkey⟩
  | content name =>
    obtain ⟨before, w', after, behind, rfl, h⟩ := h
    exact ⟨before, w', after, behind ++ v, by simp, h⟩
  | behind place ih =>
    obtain ⟨u, u', rfl, h⟩ := h
    exact ⟨u, u' ++ v, List.append_assoc _ _ _, ih h⟩

end Place

/-! ### Captured keys -/

/-- In every match the key stands at the place and is what the group captured last. -/
def Captures (r : Regex) (i : Nat) (place : Place) : Prop :=
  ∀ done rest captures, ∀ t ∈ r.ends (between done rest captures), ∃ w key after added more,
    rest = w ++ t.cursor.rest ∧ place.Holds w key ∧
      t.captures = added ++ ⟨i, key ++ after, key.length⟩ :: more ∧ ∀ g ∈ added, g.index ≠ i

section Captures

variable {r : Regex} {i : Nat} {place : Place} {rs : List Regex}

/-- What follows takes nothing away if it does not have the group. -/
theorem Captures.cons (h : Captures r i place) (hrs : i ∉ (concat rs).groups) :
    Captures (concat (r :: rs)) i place := by
  intro done rest captures t ht
  rw [Regex.ends_concat_cons] at ht
  obtain ⟨u, hu, hbehind⟩ := List.mem_flatMap.mp ht
  obtain ⟨w, key, after, added, more, rfl, hholds, hcaptures, hadded⟩ := h _ _ _ u hu
  obtain ⟨read, left, before, hread, rfl, -⟩ := Regex.eq_between_of_mem_ends hu
  obtain ⟨read', left, later, rfl, rfl, hlater⟩ := Regex.eq_between_of_mem_ends hbehind
  refine ⟨w ++ read', key, after, later ++ added, more, (List.append_assoc _ _ _).symm,
    hholds.append read', ?_, List.forall_mem_append.mpr ⟨fun g hg hi ↦ ?_, hadded⟩⟩
  · rw [List.append_assoc later, ← hcaptures]
    rfl
  · exact hrs (hi ▸ hlater g hg)

/-- A group of a sequence is one of a longer sequence, behind its first expression. -/
theorem Captures.behind (h : Captures (concat rs) i place) (r : Regex) :
    Captures (concat (r :: rs)) i (.behind place) := by
  intro done rest captures t ht
  rw [Regex.ends_concat_cons] at ht
  obtain ⟨u, hu, ht⟩ := List.mem_flatMap.mp ht
  obtain ⟨read, left, added, rfl, rfl, -⟩ := Regex.eq_between_of_mem_ends hu
  obtain ⟨w, key, after, added', more, rfl, hholds, hcaptures, hadded⟩ := h _ _ _ t ht
  exact ⟨read ++ w, key, after, added', more, (List.append_assoc _ _ _).symm,
    ⟨read, w, rfl, hholds⟩, hcaptures, hadded⟩

private theorem exists_of_mem_ends_pieces {pieces : List Piece} {done rest : List Char}
    {captures : List Capture} {t : MatchState}
    (ht : t ∈ (concat (pieces.map Piece.regex ++ rs)).ends (between done rest captures)) :
    ∃ w left, rest = w ++ left ∧ MadeOf pieces w ∧
      t ∈ (concat rs).ends (between (done ++ w) left captures) := by
  induction pieces generalizing done rest with
  | nil => exact ⟨[], rest, rfl, rfl, by rwa [List.append_nil]⟩
  | cons p pieces ih =>
    have hpiece : ∃ w left, rest = w ++ left ∧ p.Is w ∧
        t ∈ (concat (pieces.map Piece.regex ++ rs)).ends (between (done ++ w) left captures) := by
      cases p with
      | text s => exact (Regex.mem_ends_concat_literal_iff _ _ t).mp ht
      | blanks => exact (Regex.mem_ends_concat_star_set_iff _ _ t).mp ht
    obtain ⟨u, left, rfl, hu, ht⟩ := hpiece
    obtain ⟨v, left, rfl, hv, ht⟩ := ih ht
    exact ⟨u ++ v, left, (List.append_assoc _ _ _).symm, ⟨u, v, rfl, hu, hv⟩,
      by rwa [← List.append_assoc]⟩

/-- A quoted literal behind pieces is captured. -/
theorem captures_quotedBody {quote : Char} (hquote : IsQuote quote) (lead : List Piece)
    (hrs : i ∉ (concat rs).groups) :
    Captures (concat (lead.map Piece.regex ++ Builtin.quotedBody quote i :: rs)) i
      (.quoted lead quote) := by
  intro done rest captures t ht
  obtain ⟨before, left, rfl, hbefore, ht⟩ := exists_of_mem_ends_pieces ht
  obtain ⟨body, left, rfl, hbehind⟩ := exists_of_mem_ends_concat_quotedBody hquote i ht
  obtain ⟨read, left, added, rfl, rfl, hadded⟩ := Regex.eq_between_of_mem_ends hbehind
  refine ⟨before ++ quote :: (body.text ++ quote :: read), body.text, _, added, captures, ?_,
    ⟨before, read, body, rfl, hbefore, rfl⟩, rfl, fun g hg hi ↦ hrs (hi ▸ hadded g hg)⟩
  simp [MatchState.between, Cursor.between]

private theorem captures_directive (filter : String) :
    Captures (Builtin.directive filter) 1 (.content filter) := by
  intro done rest captures t ht
  obtain ⟨before, name, after, key, behind, rfl, hbefore, hname, hafter, hkey, hcaptures⟩ :=
    exists_of_mem_ends_directive ht
  refine ⟨'<' :: (before ++ name ++ after ++ '>' :: (key ++ '<' :: behind)), key, _, [], captures,
    by simp, ⟨before, name, after, behind, rfl, hbefore, hname, hafter, hkey⟩, hcaptures, by simp⟩

/-- In a match of the text the key is captured where it stands. -/
theorem Captures.exists_group?_eq (h : Captures r i place) {text : List Char} {m : Match}
    (hm : m ∈ r.allMatches text) :
    ∃ key, m.group? i = some key ∧ place.Holds (m.stretch text) key := by
  obtain ⟨done, rest, t, rfl, ht, rfl⟩ := Regex.exists_of_mem_allMatches hm
  obtain ⟨w, key, after, added, more, hrest, hholds, hcaptures, hadded⟩ := h _ _ _ t ht
  obtain ⟨read, left, added', rfl, rfl, -⟩ := Regex.eq_between_of_mem_ends ht
  obtain rfl : read = w := List.append_cancel_right hrest
  refine ⟨key, Match.group?_of_captures hcaptures hadded, ?_⟩
  rw [← List.append_assoc, Match.stretch_eq rfl List.length_append]
  exact hholds

end Captures

/-! ### The places of the built-in patterns -/

/-- What stands before a literal that a comment marks. -/
def commentLead : List Piece :=
  [.text "/*", .blanks, .text "i18nextract", .blanks, .text "*/"]

/-- What stands before the value of an attribute. -/
def attributeLead (name : String) : List Piece :=
  [.text name, .text "="]

/-- What stands before the first argument of a call. -/
def callLead (function : List Piece) : List Piece :=
  function ++ [.text "(", .blanks]

/-- The function that the name of a filter is looked up to give. -/
def filterPieces (filter : String) (quote : Char) : List Piece :=
  [.text "$filter(", .blanks, .text (String.ofList [quote]), .text filter,
    .text (String.ofList [quote]), .blanks, .text ")", .blanks]

/-- The places at which the built-in patterns find keys, in order. -/
def places (start filter : String) : List Place := [
  .quoted commentLead '\'', .quoted commentLead '"',
  .quoted [.text start, .blanks] '\'', .quoted [.text start, .blanks] '"',
  .content filter,
  .quoted (attributeLead filter) '"',
  .quoted (attributeLead filter) '"',
  .behind (.behind (.quoted (attributeLead "translate") '"')),
  .quoted [.text "ng-bind-html=\"", .blanks] '\'',
  .quoted (callLead [.text "$translate"]) '\'', .quoted (callLead [.text "$translate"]) '"',
  .quoted (callLead [.text "$translate.instant"]) '\'',
  .quoted (callLead [.text "$translate.instant"]) '"',
  .quoted (callLead (filterPieces filter '\'')) '\'',
  .quoted (callLead (filterPieces filter '"')) '"']

section Patterns

variable {quote : Char} (hquote : IsQuote quote)
include hquote

private theorem captures_comment : Captures (Builtin.comment quote) 1 (.quoted commentLead quote) :=
  captures_quotedBody hquote commentLead (by decide)

private theorem captures_htmlFilter (start stop filter : String) :
    Captures (Builtin.htmlFilter start stop filter quote) 1
      (.quoted [.text start, .blanks] quote) := by
  refine captures_quotedBody hquote [.text start, .blanks] ?_
  simp [Builtin.blanks, Builtin.text, not_mem_groups_filterArguments]

omit hquote in
private theorem captures_bindHtml :
    Captures Builtin.bindHtml 1 (.quoted [.text "ng-bind-html=\"", .blanks] '\'') :=
  captures_quotedBody (.inl rfl) [.text "ng-bind-html=\"", .blanks] (by decide)

private theorem captures_call {function : List Regex} (pieces : List Piece)
    (h : pieces.map Piece.regex = function) :
    Captures (Builtin.call function quote) 1 (.quoted (callLead pieces) quote) := by
  have hcall : Builtin.call function quote = concat ((callLead pieces).map Piece.regex ++
      Builtin.quotedBody quote 1 :: [Builtin.noneOf [')'], Builtin.text ")"]) := by
    rw [callLead, List.map_append, h, List.append_assoc]
    rfl
  rw [hcall]
  exact captures_quotedBody hquote (callLead pieces) (by decide)

omit hquote in
private theorem captures_attributeValue (name : String) (i : Nat) :
    Captures (Builtin.attributeValue name i) i (.quoted (attributeLead name) '"') :=
  captures_quotedBody (.inr rfl) (attributeLead name) List.not_mem_nil

end Patterns

/-! ### Two attributes in a line -/

section Pairs

variable {done rest : List Char} {captures : List Capture}

/-- An attribute as it is written. -/
def attributeText (name : String) (body : LiteralBody '"') : List Char :=
  name.toList ++ ("=".toList ++ '"' :: (body.text ++ ['"']))

/-- At an attribute with a literal value, the expression takes it and captures the literal. -/
theorem ends_attributeValue (name : String) (i : Nat) (body : LiteralBody '"') :
    (Builtin.attributeValue name i).ends
        (between done (attributeText name body ++ rest) captures) =
      [between (done ++ attributeText name body) rest
        (⟨i, body.text ++ '"' :: rest, body.text.length⟩ :: captures)] := by
  have htext : attributeText name body ++ rest =
      name.toList ++ ("=".toList ++ '"' :: (body.text ++ '"' :: rest)) := by
    simp [attributeText]
  rw [htext, Builtin.attributeValue, Builtin.text, Builtin.text, ends_concat_literal,
    ends_concat_literal, Regex.ends_concat_of_singleton (ends_quotedBody (.inr rfl) i body)]
  simp [concat, Regex.ends, attributeText]

private theorem reads_attributeText (name : String) (i : Nat) (body : LiteralBody '"')
    (rest : List Char) : (Builtin.attributeValue name i).Reads (attributeText name body) rest := by
  intro done captures
  rw [ends_attributeValue]
  exact ⟨_, List.mem_singleton_self _⟩

-- The second attribute does not capture what the first one does.
private theorem one_not_mem_groups (second : String) :
    1 ∉ (concat [.star true Builtin.inLine, Builtin.attributeValue second 2]).groups := by
  have hbody : (Builtin.body '"' 2).groups = [2] := by decide
  simp [Builtin.attributeValue, Builtin.quotedBody, Builtin.text, Builtin.inLine, hbody]

private theorem captures_pluralLast (first second : String) :
    Captures (Builtin.attributePair first second) 1 (.quoted (attributeLead first) '"') :=
  (captures_attributeValue first 1).cons (one_not_mem_groups second)

private theorem captures_pluralFirst (first second : String) :
    Captures (Builtin.attributePair first second) 2
      (.behind (.behind (.quoted (attributeLead second) '"'))) := by
  have hsecond : Captures (concat [Builtin.attributeValue second 2]) 2
      (.quoted (attributeLead second) '"') := captures_attributeValue second 2
  exact (hsecond.behind (.star true Builtin.inLine)).behind (Builtin.attributeValue first 1)

private theorem catches_pluralLast (first second : String) (body : LiteralBody '"') :
    Catches (Builtin.attributePair first second)
      (attributeText first body ++ attributeText second .nil) body.text := by
  have hline : (Regex.star true Builtin.inLine).Reads [] (attributeText second .nil ++ [] ++ []) :=
    Regex.reads_star_set (List.forall_mem_nil _) _
  have hreads : (concat [.star true Builtin.inLine, Builtin.attributeValue second 2]).Reads
      (attributeText second .nil) [] := by
    simpa using hline.concat ((reads_attributeText second 2 .nil _).concat
      (Regex.reads_concat_nil []))
  apply catches_of_ends_eq _ hreads (one_not_mem_groups second)
  exact ⟨_, _, _, by
    rw [Builtin.attributePair, Regex.ends_concat_of_singleton (ends_attributeValue first 1 body)]⟩

-- In a value an equality sign stands before a quote at most where the value ends.
private theorem eq_nil_of_text_eq (body : LiteralBody '"') {x y : List Char}
    (h : body.text ++ ['"'] = x ++ '=' :: '"' :: y) : y = [] := by
  have hquote (body : LiteralBody '"') (h : body.text ++ ['"'] = '"' :: y) : y = [] := by
    cases body with
    | nil => exact (List.cons.inj h).2.symm
    | plain c hq hb rest => exact absurd (List.cons.inj h).1 hq
    | escape c hc rest => exact absurd (List.cons.inj h).1 (by decide)
  induction body generalizing x with
  | nil => cases x <;> simp [LiteralBody.text] at h
  | plain c hq hb rest ih =>
    cases x with
    | nil => exact hquote rest (List.cons.inj h).2
    | cons a x => exact ih (List.cons.inj h).2
  | escape c hc rest ih =>
    cases x with
    | nil => exact absurd (List.cons.inj h).1 (by decide)
    | cons a x =>
      have h := (List.cons.inj h).2
      cases x with
      | nil => exact hquote rest (List.cons.inj h).2
      | cons b x => exact ih (List.cons.inj h).2

/-- Only from its first character on does the text of an attribute match the expression of one. -/
theorem eq_nil_of_mem_ends_attributeValue {name : String} (hname : '"' ∉ name.toList) (i : Nat)
    (body : LiteralBody '"') {w left : List Char} (hw : attributeText name body = w ++ left)
    {t : MatchState} (ht : t ∈ (Builtin.attributeValue name i).ends (between done left captures)) :
    w = [] := by
  obtain ⟨u, left, rfl, hu, ht⟩ := (Regex.mem_ends_concat_literal_iff _ _ t).mp ht
  obtain ⟨v, left, rfl, hv, ht⟩ := (Regex.mem_ends_concat_literal_iff _ _ t).mp ht
  obtain rfl : v = ['='] := (Text.alike_singleton_iff (by decide) v).mp hv
  obtain ⟨body', left, rfl⟩ := exists_of_mem_ends_quotedBody (.inr rfl) i ht
  have hu' : '"' ∉ u := by rwa [hu.mem_iff (by decide)]
  have hname : '"' ∉ name.toList ++ ['='] := by simpa using hname
  by_cases hquote : '"' ∈ w
  · -- The quotes before the last one stand behind another sign.
    obtain ⟨a, b, rfl, ha⟩ := List.eq_append_cons_of_mem hquote
    have hsplit : (name.toList ++ ['=']) ++ '"' :: (body.text ++ ['"']) =
        a ++ '"' :: (b ++ u ++ '=' :: '"' :: (body'.text ++ '"' :: left)) := by
      simpa [attributeText] using hw
    have hrest := ((Text.append_cons_inj_of_not_mem hname ha).mp hsplit).2
    have hnil := eq_nil_of_text_eq body hrest
    simp at hnil
  · have hsplit : (name.toList ++ ['=']) ++ '"' :: (body.text ++ ['"']) =
        (w ++ u ++ ['=']) ++ '"' :: (body'.text ++ '"' :: left) := by
      simpa [attributeText] using hw
    have hquote : '"' ∉ w ++ u ++ ['='] := by simp [hquote, hu']
    have hfirst := ((Text.append_cons_inj_of_not_mem hname hquote).mp hsplit).1
    have hlength := congrArg List.length hfirst
    simp only [List.length_append, hu.length_eq] at hlength
    exact List.length_eq_zero_iff.mp (by omega)

/-- Every text of a literal is captured as the second attribute of a line. -/
theorem exists_match_pluralFirst (first : String) {second : String} (h : '"' ∉ second.toList)
    (body : LiteralBody '"') :
    ∃ text, ∃ m ∈ (Builtin.attributePair first second).allMatches text,
      m.group? 2 = some body.text := by
  let text := attributeText first .nil ++ attributeText second body
  let found : MatchState := between text []
    [⟨2, body.text ++ ['"'], body.text.length⟩, ⟨1, '"' :: attributeText second body, 0⟩]
  let ends := (Builtin.attributePair first second).ends (between [] text [])
  have hends : ends = (concat [.star true Builtin.inLine, Builtin.attributeValue second 2]).ends
      (between (attributeText first .nil) (attributeText second body)
        [⟨1, '"' :: attributeText second body, 0⟩]) :=
    Regex.ends_concat_of_singleton (ends_attributeValue first 1 .nil) _
  have hlast : (concat [Builtin.attributeValue second 2]).ends
      (between (attributeText first .nil) (attributeText second body ++ [])
        [⟨1, '"' :: attributeText second body, 0⟩]) = [found] :=
    ends_attributeValue second 2 body
  rw [List.append_nil] at hlast
  -- The run before the second attribute is empty, so there is one way to match.
  have hmem (t : MatchState) : t ∈ ends ↔ t = found := by
    rw [hends, Builtin.inLine, Regex.mem_ends_concat_star_set_iff, ← List.mem_singleton, ← hlast]
    constructor
    · rintro ⟨w, left, hw, -, ht⟩
      obtain rfl := eq_nil_of_mem_ends_attributeValue h 2 body hw ht
      obtain rfl : attributeText second body = left := hw
      rwa [List.append_nil] at ht
    · intro ht
      exact ⟨[], _, rfl, List.forall_mem_nil _, by rwa [List.append_nil]⟩
  obtain ⟨t, more, ht⟩ : ∃ t more, ends = t :: more :=
    List.exists_cons_of_ne_nil (List.ne_nil_of_mem ((hmem _).mpr rfl))
  obtain rfl : t = found := (hmem t).mp (by rw [ht]; exact List.mem_cons_self)
  have hmatch := Regex.mem_allMatches_of_head? (congrArg List.head? ht)
  exact ⟨text, _, hmatch, Match.group?_of_captures (List.nil_append _).symm (List.forall_mem_nil _)⟩

end Pairs

/-! ### All patterns -/

/-- In every match the pattern captures a key that stands at the place, and it captures every key
that the place admits in some text. -/
structure KeysAt (place : Place) (p : Pattern) : Prop where
  holds : ∀ text, ∀ m ∈ p.regex.allMatches text, ∃ key,
    m.group? p.kind.keyGroup = some key ∧ place.Holds (m.stretch text) key
  found : ∀ key, place.Admits key → ∃ text, ∃ m ∈ p.regex.allMatches text,
    m.group? p.kind.keyGroup = some key

private theorem Captures.keysAt {place : Place} {p : Pattern} (hkind : p.kind.keyGroup = 1)
    (h : Captures p.regex 1 place)
    (hfound : ∀ key, place.Admits key → ∃ content, Catches p.regex content key) :
    KeysAt place p := by
  constructor
  · intro text m hm
    rw [hkind]
    exact h.exists_group?_eq hm
  · intro key hkey
    obtain ⟨content, hcatches⟩ := hfound key hkey
    obtain ⟨t, ends, hends⟩ := List.exists_cons_of_ne_nil hcatches.found
    have ht : t ∈ p.regex.ends (between [] content []) := by
      rw [hends]
      exact List.mem_cons_self
    have hm := Regex.mem_allMatches_of_head? (congrArg List.head? hends)
    obtain ⟨key', hgroup, -⟩ := h.exists_group?_eq hm
    have hkey' := hcatches.group t ht
    rw [Match.group, hgroup, Option.getD_some] at hkey'
    refine ⟨content, _, hm, ?_⟩
    rw [hkind, hgroup, hkey']

/-- Each built-in pattern captures its keys in the group for the key, where they stand. -/
theorem forall₂_keysAt (start stop filter : String) :
    List.Forall₂ KeysAt (places start filter) (Builtin.patterns start stop filter) := by
  have quoted {lead : List Piece} {quote : Char} {p : Pattern} (hkind : p.kind.keyGroup = 1)
      (h : Captures p.regex 1 (.quoted lead quote))
      (hfound : ∀ body : LiteralBody quote, ∃ content, Catches p.regex content body.text) :
      KeysAt (.quoted lead quote) p :=
    h.keysAt hkind fun _ ⟨body, hbody⟩ ↦ hbody ▸ hfound body
  have hsingle : IsQuote '\'' := .inl rfl
  have hdouble : IsQuote '"' := .inr rfl
  have hfirst : KeysAt (.behind (.behind (.quoted (attributeLead "translate") '"')))
      ⟨"HtmlDirectivePluralFirst", .pluralFirst, .verbatim,
        Builtin.attributePair Builtin.pluralAttribute "translate"⟩ :=
    ⟨fun _ _ hm ↦ (captures_pluralFirst _ _).exists_group?_eq hm,
      fun _ ⟨body, hbody⟩ ↦ hbody ▸ exists_match_pluralFirst _ (by decide) body⟩
  exact
    .cons (quoted rfl (captures_comment hsingle) fun b ↦ ⟨_, catches_comment hsingle b⟩) <|
    .cons (quoted rfl (captures_comment hdouble) fun b ↦ ⟨_, catches_comment hdouble b⟩) <|
    .cons (quoted rfl (captures_htmlFilter hsingle start stop filter) fun b ↦
      ⟨_, catches_htmlFilter hsingle b start stop filter⟩) <|
    .cons (quoted rfl (captures_htmlFilter hdouble start stop filter) fun b ↦
      ⟨_, catches_htmlFilter hdouble b start stop filter⟩) <|
    .cons ((captures_directive filter).keysAt rfl fun _ h ↦ ⟨_, catches_directive filter h⟩) <|
    .cons (quoted rfl (captures_attributeValue filter 1) fun b ↦
      ⟨_, catches_attributeValue filter b⟩) <|
    .cons (quoted rfl (captures_pluralLast filter Builtin.pluralAttribute) fun b ↦
      ⟨_, catches_pluralLast filter Builtin.pluralAttribute b⟩) <|
    .cons hfirst <|
    .cons (quoted rfl captures_bindHtml fun b ↦ ⟨_, catches_bindHtml b⟩) <|
    .cons (quoted rfl (captures_call hsingle [.text "$translate"] rfl) fun b ↦
      ⟨_, catches_service hsingle b "$translate"⟩) <|
    .cons (quoted rfl (captures_call hdouble [.text "$translate"] rfl) fun b ↦
      ⟨_, catches_service hdouble b "$translate"⟩) <|
    .cons (quoted rfl (captures_call hsingle [.text "$translate.instant"] rfl) fun b ↦
      ⟨_, catches_service hsingle b "$translate.instant"⟩) <|
    .cons (quoted rfl (captures_call hdouble [.text "$translate.instant"] rfl) fun b ↦
      ⟨_, catches_service hdouble b "$translate.instant"⟩) <|
    .cons (quoted rfl (captures_call hsingle (filterPieces filter '\'') rfl) fun b ↦
      ⟨_, catches_filterCall hsingle b filter⟩) <|
    .cons (quoted rfl (captures_call hdouble (filterPieces filter '"') rfl) fun b ↦
      ⟨_, catches_filterCall hdouble b filter⟩) .nil

end KeyHarvest.Catalog
