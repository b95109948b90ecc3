import KeyHarvest.Proofs.Files.Glob
import KeyHarvest.Proofs.Files.Path
import Mathlib.Data.List.Basic

/-!
# The grammar of patterns

`Written` says which texts are patterns, and a text can be read if it is written so
(`isPattern_iff_written`). Texts that are patterns make a pattern when they are joined by slashes
(`isPattern_of_pieces`). The other way round brackets may hold a slash, so the pieces of a pattern
need not be patterns; without brackets they are (`isPattern_of_mem_pieces`).
-/

namespace KeyHarvest.Glob

open KeyHarvest.Path

/-- The text of a pattern from some place on. Stars for whole pieces stand at the edge of a piece,
so it matters whether that place is one. -/
inductive Written : Bool → List Char → Prop
  | nil {edge : Bool} : Written edge []
  | anyChar {edge : Bool} {cs : List Char} (h : Written false cs) : Written edge ('?' :: cs)
  | anySequence {edge : Bool} {cs : List Char} (hstar : cs.head? ≠ some '*')
    (h : Written false cs) : Written edge ('*' :: cs)
  | lastPieces : Written true ['*', '*']
  | anyPieces {cs : List Char} (h : Written true cs) : Written true ('*' :: '*' :: '/' :: cs)
  | brackets {edge : Bool} {cs rest : List Char} {token : Token}
    (hb : brackets? ('[' :: cs) = some (token, rest)) (h : Written false rest) :
    Written edge ('[' :: cs)
  | char {edge : Bool} {c : Char} {cs : List Char} (hquestion : c ≠ '?') (hstar : c ≠ '*')
    (hbracket : c ≠ '[') (h : Written (c == '/') cs) : Written edge (c :: cs)

/-! ### What can stand at the front -/

section Front

variable {edge : Bool} {cs : List Char}

private theorem written_anyChar_iff : Written edge ('?' :: cs) ↔ Written false cs := by
  refine ⟨fun h ↦ ?_, .anyChar⟩
  cases h with
  | anyChar h => exact h
  | char hquestion => exact absurd rfl hquestion

private theorem written_anySequence_iff (hstar : cs.head? ≠ some '*') :
    Written edge ('*' :: cs) ↔ Written false cs := by
  refine ⟨fun h ↦ ?_, .anySequence hstar⟩
  cases h with
  | anySequence _ h => exact h
  | lastPieces => simp at hstar
  | anyPieces => simp at hstar
  | char _ hne => exact absurd rfl hne

private theorem written_anyPieces_iff : Written edge ('*' :: '*' :: cs) ↔
    edge = true ∧ (cs = [] ∨ ∃ rest, cs = '/' :: rest ∧ Written true rest) := by
  constructor
  · intro h
    cases h with
    | anySequence hstar => simp at hstar
    | lastPieces => exact ⟨rfl, .inl rfl⟩
    | anyPieces h => exact ⟨rfl, .inr ⟨_, rfl, h⟩⟩
    | char _ hne => exact absurd rfl hne
  · rintro ⟨rfl, rfl | ⟨rest, rfl, h⟩⟩
    · exact .lastPieces
    · exact .anyPieces h

private theorem written_brackets_iff : Written edge ('[' :: cs) ↔
    ∃ token rest, brackets? ('[' :: cs) = some (token, rest) ∧ Written false rest := by
  refine ⟨fun h ↦ ?_, fun ⟨_, _, hb, h⟩ ↦ .brackets hb h⟩
  cases h with
  | brackets hb h => exact ⟨_, _, hb, h⟩
  | char _ _ hne => exact absurd rfl hne

private theorem written_char_iff {c : Char} (hquestion : c ≠ '?') (hstar : c ≠ '*')
    (hbracket : c ≠ '[') : Written edge (c :: cs) ↔ Written (c == '/') cs := by
  refine ⟨fun h ↦ ?_, .char hquestion hstar hbracket⟩
  cases h with
  | anyChar => exact absurd rfl hquestion
  | anySequence => exact absurd rfl hstar
  | lastPieces => exact absurd rfl hstar
  | anyPieces => exact absurd rfl hstar
  | brackets => exact absurd rfl hbracket
  | char _ _ _ h => exact h

end Front

/-! ### Brackets -/

/-- What brackets hold ends at the first closing bracket behind their first character. -/
private theorem behind_append {inner : List Char} (h : inner.contains ']' = true)
    (more : List Char) : (inner ++ more).contains ']' = true ∧
      (inner ++ more).takeWhile (· != ']') = inner.takeWhile (· != ']') ∧
      ((inner ++ more).dropWhile (· != ']')).drop 1 =
        (inner.dropWhile (· != ']')).drop 1 ++ more := by
  obtain ⟨held, rest, rfl, hheld⟩ := List.eq_append_cons_of_mem (List.contains_iff_mem.mp h)
  have hopen : ∀ c ∈ held, (c != ']') = true := fun c hc ↦ bne_iff_ne.mpr fun heq ↦ hheld (heq ▸ hc)
  rw [List.append_assoc, List.cons_append, List.takeWhile_append_of_pos hopen,
    List.takeWhile_append_of_pos hopen, List.dropWhile_append_of_pos hopen,
    List.dropWhile_append_of_pos hopen]
  simp

/-- Brackets that close open in one of two ways, and what follows that is only divided at the first
closing bracket. -/
private theorem exists_of_brackets? {cs rest : List Char} {token : Token}
    (h : brackets? cs = some (token, rest)) :
    ∃ (opening : List Char) (make : List Char → Token) (inner : List Char),
      cs = opening ++ inner ∧ opening ≠ [] ∧ inner.contains ']' = true ∧
        ∀ inner, inner.contains ']' = true → brackets? (opening ++ inner) =
          some (make (inner.takeWhile (· != ']')), (inner.dropWhile (· != ']')).drop 1) := by
  unfold brackets? at h
  split at h
  · next first inner =>
    split at h
    · next hclosed =>
      refine ⟨['[', '!', first], fun held ↦ .without (elements (first :: held)), inner, rfl,
        List.cons_ne_nil _ _, hclosed, fun inner hclosed ↦ ?_⟩
      simp only [brackets?, List.cons_append, List.nil_append, hclosed, if_true]
    · cases h
  · next first inner _ =>
    split at h
    · cases h
    next hne =>
    split at h
    · next hclosed =>
      refine ⟨['[', first], fun held ↦ .within (elements (first :: held)), inner, rfl,
        List.cons_ne_nil _ _, hclosed, fun inner hclosed ↦ ?_⟩
      rw [List.cons_append, List.cons_append, List.nil_append, brackets?, if_neg hne,
        if_pos hclosed]
      exact fun _ _ heq _ ↦ hne heq
    · cases h
  · cases h

private theorem brackets?_append {cs rest : List Char} {token : Token}
    (h : brackets? cs = some (token, rest)) (more : List Char) :
    brackets? (cs ++ more) = some (token, rest ++ more) := by
  obtain ⟨opening, make, inner, rfl, -, hclosed, hbrackets⟩ := exists_of_brackets? h
  obtain ⟨hclosed', htake, hdrop⟩ := behind_append hclosed more
  rw [hbrackets inner hclosed] at h
  cases h
  rw [List.append_assoc, hbrackets _ hclosed', htake, hdrop]

private theorem length_lt_of_brackets? {cs rest : List Char} {token : Token}
    (h : brackets? cs = some (token, rest)) : rest.length < cs.length := by
  obtain ⟨opening, make, inner, rfl, hne, hclosed, hbrackets⟩ := exists_of_brackets? h
  rw [hbrackets inner hclosed] at h
  cases h
  have hrest : ((inner.dropWhile (· != ']')).drop 1).length ≤ inner.length :=
    ((List.drop_suffix _ _).trans (List.dropWhile_suffix _)).length_le
  have hopening := List.length_pos_of_ne_nil hne
  rw [List.length_append]
  omega

/-! ### Reading what is written so -/

section Reading

variable {fuel : Nat} (before : Option Char) (position : Nat) (sofar : List Token)

/-- A star that no other follows stands for any sequence. -/
theorem tokensFrom_star {cs : List Char} (hstar : cs.head? ≠ some '*') :
    tokensFrom (fuel + 1) before position sofar ('*' :: cs) =
      tokensFrom fuel (some '*') (position + 1) (.anySequence :: sofar) cs := by
  have hstars : ('*' :: cs).takeWhile (· == '*') = ['*'] := by
    cases cs with
    | nil => rfl
    | cons c cs =>
      have hc : (c == '*') = false := by simpa using hstar
      simp [hc]
  rw [tokensFrom, hstars]
  rfl

/-- Two stars are read where a piece begins, at the end of the text or before a slash. -/
theorem exists_tokensFrom_stars_iff (cs : List Char) :
    (∃ tokens, tokensFrom (fuel + 1) before position sofar ('*' :: '*' :: cs) = .ok tokens) ↔
      before.all (· == '/') = true ∧ (cs = [] ∨ ∃ rest, cs = '/' :: rest ∧
        ∃ tokens, tokensFrom fuel (some '/') (position + 3) (addPieces sofar) rest =
          .ok tokens) := by
  have hedge : before.all (· == '/') = true ↔ before = none ∨ before = some '/' := by
    cases before <;> simp
  rw [hedge, tokensFrom]
  cases cs with
  | nil => by_cases h : before = none ∨ before = some '/' <;> simp [h]
  | cons c rest =>
    by_cases hstar : c = '*'
    · simp [hstar]
    have hstars : ('*' :: '*' :: c :: rest).takeWhile (· == '*') = ['*', '*'] := by simp [hstar]
    by_cases h : before = none ∨ before = some '/'
    · by_cases hslash : c = '/'
      · simp [hslash, h]
      · simp [hstars, h, hslash]
    · simp [hstars, h]

/-- Brackets are read if they close and what follows them is read. -/
theorem exists_tokensFrom_brackets_iff (cs : List Char) :
    (∃ tokens, tokensFrom (fuel + 1) before position sofar ('[' :: cs) = .ok tokens) ↔
      ∃ token rest, brackets? ('[' :: cs) = some (token, rest) ∧ ∃ tokens,
        tokensFrom fuel (some ']') (position + (('[' :: cs).length - rest.length))
          (token :: sofar) rest = .ok tokens := by
  rw [tokensFrom]
  cases hb : brackets? ('[' :: cs) with
  | none => simp
  | some found =>
    obtain ⟨token, rest⟩ := found
    simp

/-- A text can be read if it is written as a pattern, whatever was read before it. -/
theorem exists_tokensFrom_iff {cs : List Char} (hfuel : cs.length < fuel) :
    (∃ tokens, tokensFrom fuel before position sofar cs = .ok tokens) ↔
      Written (before.all (· == '/')) cs := by
  induction fuel generalizing before position sofar cs with
  | zero => exact absurd hfuel (Nat.not_lt_zero _)
  | succ fuel ih =>
    cases cs with
    | nil => exact ⟨fun _ ↦ .nil, fun _ ↦ ⟨_, rfl⟩⟩
    | cons c tail =>
      have hnext : tail.length < fuel := Nat.lt_of_succ_lt_succ hfuel
      by_cases hquestion : c = '?'
      · subst hquestion
        rw [tokensFrom, ih _ _ _ hnext, written_anyChar_iff]
        rfl
      by_cases hstar : c = '*'
      · subst hstar
        by_cases htail : tail.head? = some '*'
        · obtain ⟨tail, rfl⟩ := List.head?_eq_some_iff.mp htail
          rw [exists_tokensFrom_stars_iff, written_anyPieces_iff]
          refine and_congr_right fun _ ↦ or_congr_right (exists_congr fun rest ↦ ?_)
          refine and_congr_right fun heq ↦ ?_
          subst heq
          have hrest : rest.length < fuel := Nat.lt_of_succ_lt (Nat.lt_of_succ_lt hnext)
          exact ih (some '/') (position + 3) (addPieces sofar) hrest
        · rw [tokensFrom_star _ _ _ htail, written_anySequence_iff htail]
          exact ih _ _ _ hnext
      by_cases hbracket : c = '['
      · subst hbracket
        rw [exists_tokensFrom_brackets_iff, written_brackets_iff]
        refine exists_congr fun token ↦ exists_congr fun rest ↦ and_congr_right fun hb ↦ ?_
        have hrest := length_lt_of_brackets? hb
        exact ih _ _ _ (Nat.lt_of_lt_of_le hrest (Nat.le_of_lt_succ hfuel))
      · rw [tokensFrom.eq_def]
        simp only
        rw [written_char_iff hquestion hstar hbracket]
        exact ih (some c) (position + 1) (.char c :: sofar) hnext

end Reading

/-- A text is a pattern. -/
def IsPattern (text : String) : Prop :=
  ∃ g, parse text = .ok g

instance (text : String) : Decidable (IsPattern text) :=
  decidable_of_iff ((parse text).toOption.isSome = true) <| by
    rw [IsPattern]
    cases parse text <;> simp [Except.toOption]

private theorem isPattern_iff_written (text : String) :
    IsPattern text ↔ Written true text.toList := by
  have hfuel : text.toList.length < text.length + 1 := by
    rw [String.length_toList]
    exact Nat.lt_succ_self _
  rw [← Option.all_none (p := (· == '/')), ← exists_tokensFrom_iff none 0 [] hfuel, IsPattern,
    parse]
  cases tokensFrom (text.length + 1) none 0 [] text.toList <;> simp [Except.map]

/-! ### Pieces -/

/-- A pattern goes on behind a slash with any other one. -/
theorem Written.append {edge : Bool} {front back : List Char} (h : Written edge front)
    (hback : Written true back) : Written edge (front ++ '/' :: back) := by
  induction h with
  | nil => exact .char (by decide) (by decide) (by decide) hback
  | anyChar _ ih => exact .anyChar ih
  | @anySequence _ cs hstar _ ih =>
    refine .anySequence ?_ ih
    cases cs with
    | nil => simp
    | cons => simpa using hstar
  | lastPieces => exact .anyPieces hback
  | anyPieces _ ih => exact .anyPieces ih
  | brackets hb _ ih => exact .brackets (brackets?_append hb _) ih
  | char hquestion hstar hbracket _ ih => exact .char hquestion hstar hbracket ih

private theorem written_intercalate {pieces : List (List Char)}
    (h : ∀ cs ∈ pieces, Written true cs) : Written true (['/'].intercalate pieces) := by
  induction pieces with
  | nil => exact .nil
  | cons cs rest ih =>
    obtain ⟨hcs, hrest⟩ := List.forall_mem_cons.mp h
    cases rest with
    | nil => rwa [List.intercalate_singleton]
    | cons =>
      rw [List.intercalate_cons_cons, List.append_assoc, List.singleton_append]
      exact hcs.append (ih hrest)

/-- Without brackets a pattern is divided by its slashes into patterns. -/
theorem Written.of_append {edge : Bool} {front back : List Char} (hslash : '/' ∉ front)
    (hbracket : '[' ∉ front) (h : Written edge (front ++ '/' :: back)) :
    Written edge front ∧ Written true back := by
  induction front generalizing edge with
  | nil => exact ⟨.nil, (written_char_iff (by decide) (by decide) (by decide)).mp h⟩
  | cons c front ih =>
    obtain ⟨-, hslash'⟩ := not_or.mp (mt List.mem_cons.mpr hslash)
    obtain ⟨hb, hbracket'⟩ := not_or.mp (mt List.mem_cons.mpr hbracket)
    rw [List.cons_append] at h
    by_cases hquestion : c = '?'
    · subst hquestion
      obtain ⟨hfront, hback⟩ := ih hslash' hbracket' (written_anyChar_iff.mp h)
      exact ⟨.anyChar hfront, hback⟩
    by_cases hstar : c = '*'
    · subst hstar
      by_cases htwo : front.head? = some '*'
      · obtain ⟨front, rfl⟩ := List.head?_eq_some_iff.mp htwo
        rw [List.cons_append, written_anyPieces_iff] at h
        obtain ⟨rfl, h | ⟨rest, hrest, h⟩⟩ := h
        · simp at h
        -- The two stars are the whole piece, for the slash behind them is the first one.
        · cases front with
          | nil =>
            cases hrest
            exact ⟨.lastPieces, h⟩
          | cons c front =>
            cases hrest
            simp at hslash
      · have hnext : (front ++ '/' :: back).head? ≠ some '*' := by
          cases front with
          | nil => simp
          | cons => simpa using htwo
        obtain ⟨hfront, hback⟩ := ih hslash' hbracket' ((written_anySequence_iff hnext).mp h)
        exact ⟨.anySequence htwo hfront, hback⟩
    · have hchar := (written_char_iff hquestion hstar (Ne.symm hb)).mp h
      obtain ⟨hfront, hback⟩ := ih hslash' hbracket' hchar
      exact ⟨.char hquestion hstar (Ne.symm hb) hfront, hback⟩

private theorem written_of_mem_intercalate {pieces : List (List Char)}
    (hslash : ∀ cs ∈ pieces, '/' ∉ cs)
    (hbracket : ∀ cs ∈ pieces, '[' ∉ cs) (h : Written true (['/'].intercalate pieces)) :
    ∀ cs ∈ pieces, Written true cs := by
  induction pieces with
  | nil => simp
  | cons cs rest ih =>
    obtain ⟨hcs, hslash⟩ := List.forall_mem_cons.mp hslash
    obtain ⟨hcs', hbracket⟩ := List.forall_mem_cons.mp hbracket
    cases rest with
    | nil => simpa using h
    | cons =>
      rw [List.intercalate_cons_cons, List.append_assoc, List.singleton_append] at h
      obtain ⟨hfront, hback⟩ := h.of_append hcs hcs'
      exact List.forall_mem_cons.mpr ⟨hfront, ih hslash hbracket hback⟩

/-- A text without stars and brackets is a pattern. -/
theorem written_of_not_mem {cs : List Char} (hstar : '*' ∉ cs) (hbracket : '[' ∉ cs)
    (edge : Bool) : Written edge cs := by
  induction cs generalizing edge with
  | nil => exact .nil
  | cons c cs ih =>
    obtain ⟨hc, hstar⟩ := not_or.mp (mt List.mem_cons.mpr hstar)
    obtain ⟨hb, hbracket⟩ := not_or.mp (mt List.mem_cons.mpr hbracket)
    by_cases hquestion : c = '?'
    · rw [hquestion]
      exact .anyChar (ih hstar hbracket _)
    · exact .char hquestion (Ne.symm hc) (Ne.symm hb) (ih hstar hbracket _)

/-- A text whose pieces are patterns is one. -/
theorem isPattern_of_pieces {p : Path} (h : ∀ piece ∈ p.pieces, IsPattern piece) :
    IsPattern p.text := by
  rw [isPattern_iff_written, ← join_pieces p, String.toList_intercalate]
  apply written_intercalate
  intro cs hcs
  obtain ⟨piece, hpiece, rfl⟩ := List.mem_map.mp hcs
  exact (isPattern_iff_written piece).mp (h piece hpiece)

/-- The pieces of a pattern without brackets are patterns. -/
theorem isPattern_of_mem_pieces {p : Path} (h : IsPattern p.text) (hbracket : '[' ∉ p.text.toList)
    {piece : String} (hpiece : piece ∈ p.pieces) : IsPattern piece := by
  rw [isPattern_iff_written, ← join_pieces p, String.toList_intercalate] at h
  rw [isPattern_iff_written]
  refine written_of_mem_intercalate ?_ ?_ h _ (List.mem_map_of_mem hpiece) <;>
    refine List.forall_mem_map.mpr fun piece hpiece ↦ ?_
  · exact Text.not_mem_of_mem_divide hpiece
  · exact fun hmem ↦ hbracket (Text.mem_of_mem_divide hpiece hmem)

/-- The pieces of a text without stars and brackets are patterns. -/
theorem isPattern_of_not_mem {p : Path} (hstar : '*' ∉ p.text.toList)
    (hbracket : '[' ∉ p.text.toList) {piece : String} (hpiece : piece ∈ p.pieces) :
    IsPattern piece :=
  (isPattern_iff_written piece).mpr <| written_of_not_mem
    (fun hmem ↦ hstar (Text.mem_of_mem_divide hpiece hmem))
    (fun hmem ↦ hbracket (Text.mem_of_mem_divide hpiece hmem)) true

end KeyHarvest.Glob
