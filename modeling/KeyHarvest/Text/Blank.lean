/-!
# Blank characters

The blank characters are those with the Unicode property `White_Space`. Keys are trimmed of them
at both ends, and the list literal of a plural attribute allows them between its tokens.

Main statements: `trim` keeps a contiguous part of the text (`trim_spec`), and neither end of
that part is blank (`head?_trim`, `getLast?_trim`).
-/

namespace KeyHarvest.Text

/-- The characters with the Unicode property `White_Space`; zero width space and the byte order
mark are not among them. -/
def isBlank (c : Char) : Bool :=
  let n := c.toNat
  (0x09 ≤ n && n ≤ 0x0D) || n == 0x20 || n == 0x85 || n == 0xA0 || n == 0x1680 ||
    (0x2000 ≤ n && n ≤ 0x200A) || n == 0x2028 || n == 0x2029 || n == 0x202F ||
    n == 0x205F || n == 0x3000

/-- The text without the blanks at its start. -/
def trimStart (cs : List Char) : List Char :=
  cs.dropWhile isBlank

/-- The text without the blanks at its end. -/
def trimEnd : List Char → List Char
  | [] => []
  | c :: cs =>
    match trimEnd cs with
    | [] => if isBlank c then [] else [c]
    | kept => c :: kept

/-- The text without the blanks at either end. -/
def trim (cs : List Char) : List Char :=
  trimEnd (trimStart cs)

private theorem trimEnd_spec (cs : List Char) :
    ∃ back, cs = trimEnd cs ++ back ∧ back.all isBlank := by
  induction cs with
  | nil => exact ⟨[], rfl, rfl⟩
  | cons c cs ih =>
    obtain ⟨back, hsplit, hback⟩ := ih
    rw [trimEnd]
    split
    · next hnil =>
      rw [hnil] at hsplit
      by_cases hc : isBlank c
      · exact ⟨c :: back, by simp_all, by simp_all⟩
      · exact ⟨back, by simp_all, hback⟩
    · exact ⟨back, by simp [← hsplit], hback⟩

/-- Trimming cuts a blank front and a blank back, and nothing else. -/
theorem trim_spec (cs : List Char) :
    ∃ front back, cs = front ++ trim cs ++ back ∧ front.all isBlank ∧ back.all isBlank := by
  obtain ⟨back, hsplit, hback⟩ := trimEnd_spec (trimStart cs)
  refine ⟨cs.takeWhile isBlank, back, ?_, List.all_takeWhile, hback⟩
  rw [List.append_assoc, trim, ← hsplit, trimStart, List.takeWhile_append_dropWhile]

private theorem getLast?_trimEnd (cs : List Char) {c : Char} (h : (trimEnd cs).getLast? = some c) :
    isBlank c = false := by
  induction cs with
  | nil => simp [trimEnd] at h
  | cons d cs ih =>
    rw [trimEnd] at h
    split at h
    · by_cases hd : isBlank d <;> simp_all
    · next hne =>
      cases hk : trimEnd cs with
      | nil => exact absurd hk hne
      | cons e es => rw [hk, List.getLast?_cons_cons] at h; exact ih (by rw [hk]; exact h)

/-- A trimmed text does not end in a blank. -/
theorem getLast?_trim (cs : List Char) {c : Char} (h : (trim cs).getLast? = some c) :
    isBlank c = false :=
  getLast?_trimEnd _ h

/-- What is left of a text begins as the text does. -/
theorem head?_trimEnd (cs : List Char) {c : Char} (h : (trimEnd cs).head? = some c) :
    cs.head? = some c := by
  obtain ⟨back, hsplit, -⟩ := trimEnd_spec cs
  rw [hsplit, List.head?_append, h, Option.some_or]

/-- A trimmed text does not start with a blank. -/
theorem head?_trim (cs : List Char) {c : Char} (h : (trim cs).head? = some c) :
    isBlank c = false := by
  have := head?_trimEnd _ h
  rw [trimStart] at this
  have := List.head?_dropWhile_not isBlank cs
  simp_all

end KeyHarvest.Text
