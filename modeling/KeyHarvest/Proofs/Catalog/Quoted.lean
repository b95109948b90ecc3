import KeyHarvest.Catalog.Builtin
import KeyHarvest.Proofs.Regex.Stretches

/-!
# String literals

The text of a string literal is a row of plain characters and escapes (`LiteralBody`). The
expression for a quoted literal matches such a text in exactly one way, up to the closing quote
(`ends_quotedBody`), also after any number of blanks (`ends_concat_blanks_quotedBody`).

Undoing the escaped quotes of the trimmed text gives the trimmed text with each escaped quote
written bare (`unescapeQuote_trim`): trimming cuts no escaped quote in two, and a backslash that is
itself escaped escapes nothing.
-/

namespace KeyHarvest.Catalog

open MatchState (between)
open Regex (literal concat star Misses)
open Text (Caseless)

/-- The characters that quote a string literal. -/
def IsQuote (quote : Char) : Prop :=
  quote = '\'' ∨ quote = '"'

/-- A quote has no case. -/
theorem IsQuote.caseless {quote : Char} (h : IsQuote quote) : Caseless quote := by
  rcases h with rfl | rfl <;> decide

/-- A quote is not blank. -/
theorem IsQuote.not_blank {quote : Char} (h : IsQuote quote) : Text.isBlank quote = false := by
  rcases h with rfl | rfl <;> rfl

/-- A quote is no backslash. -/
theorem IsQuote.ne_backslash {quote : Char} (h : IsQuote quote) : quote ≠ '\\' := by
  rcases h with rfl | rfl <;> decide

/-- The text of a string literal between its quotes. -/
inductive LiteralBody (quote : Char) where
  /-- The empty text. -/
  | nil
  /-- A character other than the quote and the backslash, and what follows. -/
  | plain (c : Char) (hq : c ≠ quote) (hb : c ≠ '\\') (rest : LiteralBody quote)
  /-- A backslash, the character behind it, which is no line break, and what follows. -/
  | escape (c : Char) (hc : c ≠ '\n') (rest : LiteralBody quote)

namespace LiteralBody

variable {quote : Char}

/-- The text as it is written. -/
def text : LiteralBody quote → List Char
  | .nil => []
  | .plain c _ _ rest => c :: rest.text
  | .escape c _ rest => '\\' :: c :: rest.text

/-- The text with each escaped quote written bare, and all else as it is written. -/
def bare : LiteralBody quote → List Char
  | .nil => []
  | .plain c _ _ rest => c :: rest.bare
  | .escape c _ rest => if c = quote then quote :: rest.bare else '\\' :: c :: rest.bare

/-- A text without quotes and backslashes is that of a literal. -/
theorem exists_text_eq {cs : List Char} (hq : quote ∉ cs) (hb : '\\' ∉ cs) :
    ∃ body : LiteralBody quote, body.text = cs := by
  induction cs with
  | nil => exact ⟨.nil, rfl⟩
  | cons c cs ih =>
    rw [List.mem_cons, not_or] at hq hb
    obtain ⟨body, hbody⟩ := ih hq.2 hb.2
    exact ⟨.plain c (Ne.symm hq.1) (Ne.symm hb.1) body, congrArg (c :: ·) hbody⟩

/-- The text of a literal does not begin with the quote. -/
theorem head?_text_ne (hquote : IsQuote quote) (body : LiteralBody quote) :
    body.text.head? ≠ some quote := by
  cases body with
  | nil => simp [text]
  | plain c hq hb rest => simpa [text] using hq
  | escape c hc rest => simpa [text] using hquote.ne_backslash.symm

end LiteralBody

/-! ### Undoing escapes -/

section Unescape

variable {quote : Char}

private theorem unescapeQuote_cons {c : Char} {cs : List Char}
    (h : c ≠ '\\' ∨ cs.head? ≠ some quote) :
    unescapeQuote quote (c :: cs) = c :: unescapeQuote quote cs := by
  cases cs with
  | nil => rfl
  | cons d cs =>
    rw [unescapeQuote, if_neg]
    rintro ⟨rfl, rfl⟩
    simp at h

/-- Undoing escapes leaves nothing of the empty text only. -/
theorem unescapeQuote_eq_nil_iff (cs : List Char) : unescapeQuote quote cs = [] ↔ cs = [] := by
  fun_cases unescapeQuote quote cs <;> simp_all

private theorem trimEnd_cons (c : Char) (cs : List Char) :
    Text.trimEnd (c :: cs) =
      if Text.isBlank c = true ∧ Text.trimEnd cs = [] then [] else c :: Text.trimEnd cs := by
  rw [Text.trimEnd]
  cases Text.trimEnd cs <;> by_cases hc : Text.isBlank c = true <;> simp [hc]

/-- A text that begins with no blank keeps its first character. -/
theorem trimEnd_cons_of_not_blank {c : Char} (hc : Text.isBlank c = false) (cs : List Char) :
    Text.trimEnd (c :: cs) = c :: Text.trimEnd cs := by
  rw [trimEnd_cons, if_neg (by simp [hc])]

private theorem unescapeQuote_trimEnd (hquote : IsQuote quote) (body : LiteralBody quote) :
    unescapeQuote quote (Text.trimEnd body.text) = Text.trimEnd body.bare := by
  have hslash : Text.isBlank '\\' = false := rfl
  induction body with
  | nil => rfl
  | plain c hq hb rest ih =>
    have hnil : Text.trimEnd rest.bare = [] ↔ Text.trimEnd rest.text = [] := by
      rw [← ih, unescapeQuote_eq_nil_iff]
    rw [LiteralBody.text, LiteralBody.bare, trimEnd_cons, trimEnd_cons]
    simp only [hnil]
    split
    · rfl
    · rw [unescapeQuote_cons (.inl hb), ih]
  | escape c hc rest ih =>
    have hnil : Text.trimEnd rest.bare = [] ↔ Text.trimEnd rest.text = [] := by
      rw [← ih, unescapeQuote_eq_nil_iff]
    -- What follows does not begin with the quote, so an escaped backslash escapes nothing there.
    have hhead : (Text.trimEnd rest.text).head? ≠ some quote := fun h ↦
      rest.head?_text_ne hquote (Text.head?_trimEnd _ h)
    rw [LiteralBody.text, LiteralBody.bare, trimEnd_cons_of_not_blank hslash]
    by_cases heq : c = quote
    · rw [if_pos heq, heq, trimEnd_cons_of_not_blank hquote.not_blank,
        trimEnd_cons_of_not_blank hquote.not_blank, unescapeQuote, if_pos ⟨rfl, rfl⟩, ih]
    · rw [if_neg heq, trimEnd_cons_of_not_blank hslash, trimEnd_cons, trimEnd_cons]
      simp only [hnil]
      split
      · rfl
      · rw [unescapeQuote_cons (.inr (by simpa using heq)), unescapeQuote_cons (.inr hhead), ih]

private theorem exists_trimStart (hquote : IsQuote quote) (body : LiteralBody quote) :
    ∃ kept : LiteralBody quote, Text.trimStart body.text = kept.text ∧
      Text.trimStart body.bare = kept.bare := by
  induction body with
  | nil => exact ⟨.nil, rfl, rfl⟩
  | plain c hq hb rest ih =>
    by_cases hc : Text.isBlank c = true
    · obtain ⟨kept, htext, hbare⟩ := ih
      refine ⟨kept, htext ▸ ?_, hbare ▸ ?_⟩ <;> exact List.dropWhile_cons_of_pos hc
    · refine ⟨.plain c hq hb rest, ?_, ?_⟩ <;> exact List.dropWhile_cons_of_neg hc
  | escape c hc rest =>
    refine ⟨.escape c hc rest, List.dropWhile_cons_of_neg (by decide), ?_⟩
    rw [LiteralBody.bare]
    split
    · exact List.dropWhile_cons_of_neg (by simp [hquote.not_blank])
    · exact List.dropWhile_cons_of_neg (by decide)

/-- Undoing the escapes of the trimmed text gives the trimmed text with bare quotes. -/
theorem unescapeQuote_trim (hquote : IsQuote quote) (body : LiteralBody quote) :
    unescapeQuote quote (Text.trim body.text) = Text.trim body.bare := by
  obtain ⟨kept, htext, hbare⟩ := exists_trimStart hquote body
  rw [Text.trim, Text.trim, htext, hbare, unescapeQuote_trimEnd hquote]

end Unescape

/-! ### Matching a quoted literal -/

section Matching

variable {quote : Char} {done rest : List Char} {captures : List Capture}

/-- One escape or plain character, as it is matched. -/
def literalPart (quote : Char) : Regex :=
  .alt (.seq (literal ['\\']) Builtin.inLine)
    (.set (.compl (CharClass.ofList [quote, '\\'])))

/-- Within a line stands every character but the line break. -/
theorem mem_inLine_iff (c : Char) : (CharClass.compl (.single '\n')).mem c = true ↔ c ≠ '\n' := by
  simp [CharClass.mem]

private theorem mem_outside_iff (quote c : Char) :
    (CharClass.compl (CharClass.ofList [quote, '\\'])).mem c = true ↔ c ≠ quote ∧ c ≠ '\\' := by
  simp [CharClass.mem, CharClass.ofList, CharClass.unions]

private theorem mem_slash_iff (c : Char) : (CharClass.like '\\').mem c = true ↔ c = '\\' :=
  Text.sameFold_iff_eq (by decide) c

private theorem consuming_literalPart (quote : Char) : (literalPart quote).Consuming :=
  ((Regex.consuming_literal (List.cons_ne_nil _ _)).seq_left _).alt (Regex.consuming_set _)

private theorem ends_literalPart_cons (quote c : Char) :
    (literalPart quote).ends (between done (c :: rest) captures) =
      if c = '\\' then Builtin.inLine.ends (between (done ++ [c]) rest captures)
      else if c = quote then [] else [between (done ++ [c]) rest captures] := by
  have hliteral : literal ['\\'] = .set (.like '\\') := rfl
  rw [literalPart, Regex.ends_alt, Regex.ends_seq, hliteral, Regex.ends_set_cons,
    Regex.ends_set_cons]
  simp only [mem_slash_iff, mem_outside_iff]
  by_cases hb : c = '\\'
  · simp [hb]
  · by_cases hq : c = quote
    · subst hq
      simp [hb]
    · simp [hb, hq]

-- Of all the places where a run of parts can end only the one before the closing quote counts.
private theorem flatMap_ends_parts (hquote : IsQuote quote) (body : LiteralBody quote)
    (next : MatchState → List MatchState)
    (hnext : ∀ done rest, rest.head? ≠ some quote → next (between done rest captures) = []) :
    ((star true (literalPart quote)).ends
        (between done (body.text ++ quote :: rest) captures)).flatMap next =
      next (between (done ++ body.text) (quote :: rest) captures) := by
  induction body generalizing done with
  | nil =>
    rw [LiteralBody.text, List.nil_append, List.append_nil,
      Regex.ends_star (consuming_literalPart quote), ends_literalPart_cons,
      if_neg hquote.ne_backslash, if_pos rfl]
    exact List.flatMap_singleton _ _
  | plain c hq hb body ih =>
    have hhere := hnext done (c :: (body.text ++ quote :: rest)) (by simpa using hq)
    rw [LiteralBody.text, List.cons_append, Regex.ends_star (consuming_literalPart quote),
      ends_literalPart_cons, if_neg hb, if_neg hq, List.flatMap_singleton, List.flatMap_append,
      ih, List.flatMap_singleton, hhere, List.append_nil, List.append_assoc,
      List.singleton_append]
  | escape c hc body ih =>
    have hhere := hnext done ('\\' :: c :: (body.text ++ quote :: rest))
      (by simpa using hquote.ne_backslash.symm)
    rw [LiteralBody.text, List.cons_append, List.cons_append,
      Regex.ends_star (consuming_literalPart quote), ends_literalPart_cons, if_pos rfl,
      Builtin.inLine, Regex.ends_set_cons, if_pos ((mem_inLine_iff c).mpr hc),
      List.flatMap_singleton, List.flatMap_append, ih, List.flatMap_singleton, hhere,
      List.append_nil, List.append_assoc, List.append_assoc]
    rfl

private theorem ends_quote_cons (quote : Char) :
    (literal [quote]).ends (between done (quote :: rest) captures) =
      [between (done ++ [quote]) rest captures] :=
  Regex.ends_literal_of_alike (.refl [quote])

private theorem ends_quote_of_head?_ne (hquote : IsQuote quote) (h : rest.head? ≠ some quote) :
    (literal [quote]).ends (between done rest captures) = [] := by
  apply Regex.ends_literal_eq_nil
  rintro w left rfl hw
  rw [(Text.alike_singleton_iff hquote.caseless w).mp hw] at h
  simp at h

/-- A quoted literal is matched up to its closing quote, and its text is captured. -/
theorem ends_quotedBody (hquote : IsQuote quote) (index : Nat) (body : LiteralBody quote) :
    (Builtin.quotedBody quote index).ends
        (between done (quote :: (body.text ++ quote :: rest)) captures) =
      [between (done ++ quote :: (body.text ++ [quote])) rest
        (⟨index, body.text ++ quote :: rest, body.text.length⟩ :: captures)] := by
  -- The closing quote is looked for where a run of parts ends, its text having been captured.
  let captured (t : MatchState) : MatchState :=
    { t with captures := ⟨index, body.text ++ quote :: rest,
        t.cursor.position - (done ++ [quote]).length⟩ :: t.captures }
  have hbody : (Builtin.body quote index).ends
      (between (done ++ [quote]) (body.text ++ quote :: rest) captures) =
      ((star true (literalPart quote)).ends
        (between (done ++ [quote]) (body.text ++ quote :: rest) captures)).map captured := rfl
  let closed (t : MatchState) : List MatchState := (literal [quote]).ends (captured t)
  have hparts : ((star true (literalPart quote)).ends
        (between (done ++ [quote]) (body.text ++ quote :: rest) captures)).flatMap closed =
      closed (between (done ++ [quote] ++ body.text) (quote :: rest) captures) :=
    flatMap_ends_parts hquote body closed fun _ _ h ↦ ends_quote_of_head?_ne hquote h
  have hcaptured : captured (between (done ++ [quote] ++ body.text) (quote :: rest) captures) =
      between (done ++ [quote] ++ body.text) (quote :: rest)
        (⟨index, body.text ++ quote :: rest, body.text.length⟩ :: captures) := by
    have hlength : (done ++ [quote] ++ body.text).length - (done ++ [quote]).length =
        body.text.length := by
      rw [List.length_append, Nat.add_sub_cancel_left]
    simp only [captured, MatchState.between, Cursor.between, hlength]
  rw [Builtin.quotedBody, Regex.ends_concat_of_singleton (ends_quote_cons quote),
    Regex.ends_concat_cons, hbody, List.flatMap_map]
  refine hparts.trans ?_
  rw [show closed _ = (literal [quote]).ends (captured _) from rfl, hcaptured, ends_quote_cons]
  simp only [List.append_assoc, List.singleton_append]
  rfl

-- A run of parts ends behind the text of a literal.
private theorem exists_of_mem_ends_parts (n : Nat) (hn : rest.length ≤ n) {t : MatchState}
    (ht : t ∈ (star true (literalPart quote)).ends (between done rest captures)) :
    ∃ (body : LiteralBody quote) (left : List Char), rest = body.text ++ left ∧
      t = between (done ++ body.text) left captures := by
  have hstop {done rest : List Char} (ht : t = between done rest captures) :
      ∃ (body : LiteralBody quote) (left : List Char), rest = body.text ++ left ∧
        t = between (done ++ body.text) left captures :=
    ⟨.nil, rest, rfl, by rw [LiteralBody.text, List.append_nil, ht]⟩
  induction n generalizing done rest with
  | zero =>
    obtain rfl := List.length_eq_zero_iff.mp (Nat.le_zero.mp hn)
    rw [Regex.ends_star (consuming_literalPart quote)] at ht
    exact hstop (List.mem_singleton.mp ht)
  | succ n ih =>
    rw [Regex.ends_star (consuming_literalPart quote), List.mem_append, List.mem_singleton] at ht
    rcases ht with ht | ht
    · obtain ⟨u, hu, hround⟩ := List.mem_flatMap.mp ht
      cases rest with
      | nil => cases hu
      | cons c rest =>
        have hn := Nat.le_of_succ_le_succ hn
        rw [ends_literalPart_cons] at hu
        split at hu
        · next hb =>
          -- A backslash takes the character behind it along.
          cases rest with
          | nil => cases hu
          | cons d rest =>
            rw [Builtin.inLine, Regex.ends_set_cons] at hu
            split at hu
            · next hd =>
              rw [List.mem_singleton.mp hu] at hround
              obtain ⟨body, left, rfl, rfl⟩ := ih (Nat.le_of_succ_le hn) hround
              exact ⟨.escape d ((mem_inLine_iff d).mp hd) body, left, by rw [hb]; rfl,
                by rw [hb, LiteralBody.text]; simp⟩
            · cases hu
        · next hb =>
          split at hu
          · cases hu
          · next hq =>
            rw [List.mem_singleton.mp hu] at hround
            obtain ⟨body, left, rfl, rfl⟩ := ih hn hround
            exact ⟨.plain c hq hb body, left, rfl, by rw [LiteralBody.text]; simp⟩
    · exact hstop ht

/-- Where a quoted literal is matched, one stands. -/
theorem exists_of_mem_ends_quotedBody (hquote : IsQuote quote) (index : Nat) {t : MatchState}
    (ht : t ∈ (Builtin.quotedBody quote index).ends (between done rest captures)) :
    ∃ (body : LiteralBody quote) (left : List Char),
      rest = quote :: (body.text ++ quote :: left) := by
  obtain ⟨w, left, rfl, hw, ht⟩ := (Regex.mem_ends_concat_literal_iff _ _ t).mp ht
  obtain rfl := (Text.alike_singleton_iff hquote.caseless w).mp hw
  rw [Regex.ends_concat_cons] at ht
  obtain ⟨u, hu, ht⟩ := List.mem_flatMap.mp ht
  obtain ⟨v, hv, rfl⟩ := List.mem_map.mp hu
  obtain ⟨body, left, rfl, rfl⟩ := exists_of_mem_ends_parts _ (Nat.le_refl _) hv
  obtain ⟨w, left, rfl, hw, -⟩ := (Regex.mem_ends_literal_iff _ t).mp ht
  obtain rfl := (Text.alike_singleton_iff hquote.caseless w).mp hw
  exact ⟨body, left, rfl⟩

/-- A sequence that begins with a quoted literal finds one at the place and goes on behind it. -/
theorem exists_of_mem_ends_concat_quotedBody (hquote : IsQuote quote) (index : Nat)
    {rs : List Regex} {t : MatchState}
    (ht : t ∈ (concat (Builtin.quotedBody quote index :: rs)).ends (between done rest captures)) :
    ∃ (body : LiteralBody quote) (left : List Char), rest = quote :: (body.text ++ quote :: left) ∧
      t ∈ (concat rs).ends (between (done ++ quote :: (body.text ++ [quote])) left
        (⟨index, body.text ++ quote :: left, body.text.length⟩ :: captures)) := by
  have hfirst := ht
  rw [Regex.ends_concat_cons] at hfirst
  obtain ⟨u, hu, -⟩ := List.mem_flatMap.mp hfirst
  obtain ⟨body, left, rfl⟩ := exists_of_mem_ends_quotedBody hquote index hu
  rw [Regex.ends_concat_of_singleton (ends_quotedBody hquote index body)] at ht
  exact ⟨body, left, rfl, ht⟩

/-- Where no quote stands, no quoted literal is found. -/
theorem ends_quotedBody_of_head?_ne (hquote : IsQuote quote) (index : Nat)
    (h : rest.head? ≠ some quote) :
    (Builtin.quotedBody quote index).ends (between done rest captures) = [] :=
  Regex.ends_concat_of_nil (ends_quote_of_head?_ne hquote h) _

/-- Blanks before a quoted literal are passed over. -/
theorem ends_concat_blanks_quotedBody (hquote : IsQuote quote) (index : Nat)
    {gap : List Char} (hgap : ∀ c ∈ gap, Text.isBlank c = true) (body : LiteralBody quote)
    (rs : List Regex) :
    (concat (Builtin.blanks :: Builtin.quotedBody quote index :: rs)).ends
        (between done (gap ++ quote :: (body.text ++ quote :: rest)) captures) =
      (concat rs).ends (between (done ++ gap ++ quote :: (body.text ++ [quote])) rest
        (⟨index, body.text ++ quote :: rest, body.text.length⟩ :: captures)) := by
  have hmisses : Misses (Builtin.quotedBody quote index) done gap
      (quote :: (body.text ++ quote :: rest)) := by
    intro a b hab hb captures
    apply ends_quotedBody_of_head?_ne hquote
    intro hhead
    cases b with
    | nil => exact hb rfl
    | cons c b =>
      have hc : c = quote := by simpa using hhead
      have hblank := hgap c (by rw [hab]; simp)
      rw [hc, hquote.not_blank] at hblank
      cases hblank
  have hstop : ∀ c ∈ (quote :: (body.text ++ quote :: rest)).head?,
      CharClass.blank.mem c = false := by
    rintro c ⟨⟩
    exact hquote.not_blank
  rw [Builtin.blanks, Regex.ends_concat_run hgap hstop hmisses,
    Regex.ends_concat_of_singleton (ends_quotedBody hquote index body)]

end Matching

end KeyHarvest.Catalog
