import KeyHarvest.Files.Glob
import Mathlib.Data.List.Basic

/-!
# Patterns without wildcards

Reading a pattern keeps the tokens read so far (`reverse_prefix_of_tokensFrom`), so a pattern that
comes out without wildcards was written without them, and stands for its own text
(`eq_of_literal?_parse`).
-/

namespace KeyHarvest.Glob

private theorem suffix_addPieces (tokens : List Token) : tokens <:+ addPieces tokens := by
  unfold addPieces
  split
  · exact List.suffix_rfl
  · exact List.suffix_cons _ _

private theorem anyPieces_mem_addPieces (tokens : List Token) : .anyPieces ∈ addPieces tokens := by
  unfold addPieces
  split <;> exact List.mem_cons_self

private theorem ne_char_of_brackets? {cs rest : List Char} {token : Token}
    (h : brackets? cs = some (token, rest)) (c : Char) : token ≠ .char c := by
  rintro rfl
  unfold brackets? at h
  split at h
  · split at h <;> cases h
  · split at h
    · cases h
    · split at h <;> cases h
  · cases h

section Reading

variable {fuel : Nat} {before : Option Char} {position : Nat} {sofar tokens : List Token}
  {cs : List Char}

/-- What has been read stands at the front of the pattern. -/
theorem reverse_prefix_of_tokensFrom (h : tokensFrom fuel before position sofar cs = .ok tokens) :
    sofar.reverse <+: tokens := by
  induction fuel generalizing before position sofar cs with
  | zero =>
    cases h
    exact List.prefix_rfl
  | succ fuel ih =>
    have more {front : List Token} (hs : sofar <:+ front) (h : front.reverse <+: tokens) :
        sofar.reverse <+: tokens :=
      (List.reverse_prefix.mpr hs).trans h
    rw [tokensFrom.eq_def] at h
    simp only at h
    split at h
    · cases h
      exact List.prefix_rfl
    · exact more (List.suffix_cons _ _) (ih h)
    · split at h
      · cases h
      split at h
      · split at h
        · split at h
          · cases h
            exact more (suffix_addPieces sofar) List.prefix_rfl
          · exact more (suffix_addPieces sofar) (ih h)
          · cases h
        · cases h
      · exact more (List.suffix_cons _ _) (ih h)
    · split at h
      · cases h
      · exact more (List.suffix_cons _ _) (ih h)
    · exact more (List.suffix_cons _ _) (ih h)

/-- Where all tokens are characters, they are those read before and those of the text. -/
theorem eq_of_tokensFrom_eq_map_char {chars : List Char} (hfuel : cs.length < fuel)
    (h : tokensFrom fuel before position sofar cs = .ok (chars.map .char)) :
    chars.map .char = sofar.reverse ++ cs.map .char ∧ ∀ c ∈ cs, c ≠ '*' ∧ c ≠ '?' := by
  induction fuel generalizing before position sofar cs with
  | zero => exact absurd hfuel (Nat.not_lt_zero _)
  | succ fuel ih =>
    -- A wildcard once read would be among the characters.
    have noWildcard {front : List Token} (hp : front.reverse <+: chars.map .char) {token : Token}
        (hmem : token ∈ front) (hne : ∀ c, token ≠ .char c) : False := by
      obtain ⟨c, -, hc⟩ := List.mem_map.mp (hp.subset (List.mem_reverse.mpr hmem))
      exact hne c hc.symm
    rw [tokensFrom.eq_def] at h
    simp only at h
    split at h
    · injection h with h
      exact ⟨by simpa using h.symm, by simp⟩
    · exact (noWildcard (reverse_prefix_of_tokensFrom h) List.mem_cons_self nofun).elim
    · split at h
      · cases h
      split at h
      · split at h
        · split at h
          · injection h with h
            exact (noWildcard (h ▸ List.prefix_rfl) (anyPieces_mem_addPieces sofar) nofun).elim
          · exact (noWildcard (reverse_prefix_of_tokensFrom h) (anyPieces_mem_addPieces sofar)
              nofun).elim
          · cases h
        · cases h
      · exact (noWildcard (reverse_prefix_of_tokensFrom h) List.mem_cons_self nofun).elim
    · split at h
      · cases h
      · next hb =>
        exact (noWildcard (reverse_prefix_of_tokensFrom h) List.mem_cons_self
          (ne_char_of_brackets? hb)).elim
    · next c rest hquestion hstar hbracket =>
      obtain ⟨heq, hrest⟩ := ih (Nat.lt_of_succ_lt_succ hfuel) h
      exact ⟨by simpa using heq, List.forall_mem_cons.mpr ⟨⟨hstar, hquestion⟩, hrest⟩⟩

end Reading

/-- A pattern without wildcards is its characters. -/
theorem tokens_of_literal? {g : Glob} {text : String} (h : g.literal? = some text) :
    g.tokens = text.toList.map .char := by
  rw [literal?, Option.map_eq_some_iff] at h
  obtain ⟨cs, hcs, rfl⟩ := h
  rw [String.toList_ofList]
  generalize g.tokens = tokens at hcs
  induction tokens generalizing cs with
  | nil =>
    cases hcs
    rfl
  | cons token tokens ih =>
    rw [List.mapM_cons] at hcs
    obtain ⟨c, hc, hcs⟩ := Option.bind_eq_some_iff.mp hcs
    obtain ⟨rest, hrest, hcs⟩ := Option.bind_eq_some_iff.mp hcs
    cases hcs
    cases token with
    | char => cases hc; exact congrArg _ (ih _ hrest)
    | _ => cases hc

/-- A pattern that is read without wildcards is written without them, and is its own text. -/
theorem eq_of_literal?_parse {text literal : String} {g : Glob} (hg : parse text = .ok g)
    (hl : g.literal? = some literal) : literal = text ∧ hasWildcard text = false := by
  rw [parse] at hg
  cases hread : tokensFrom (text.length + 1) none 0 [] text.toList with
  | error e =>
    rw [hread] at hg
    cases hg
  | ok tokens =>
    rw [hread] at hg
    cases hg
    have htokens := tokens_of_literal? hl
    simp only at htokens
    rw [htokens] at hread
    obtain ⟨heq, hplain⟩ :=
      eq_of_tokensFrom_eq_map_char (by rw [String.length_toList]; exact Nat.lt_succ_self _) hread
    refine ⟨?_, ?_⟩
    · rw [List.reverse_nil, List.nil_append] at heq
      exact String.toList_inj.mp
        ((List.map_injective_iff.mpr fun _ _ ↦ Token.char.inj) heq)
    · rw [hasWildcard, List.any_eq_false]
      intro c hc
      simp [hplain c hc]

end KeyHarvest.Glob
