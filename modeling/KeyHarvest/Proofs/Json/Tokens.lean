import KeyHarvest.Json.Printer
import KeyHarvest.Json.Reader
import KeyHarvest.Proofs.Except
import KeyHarvest.Proofs.Json.Everywhere

/-!
# Strings and numbers read back

The reader takes a written string up to its closing quote (`string_stringText`) and an integer of at
most 64 bits up to the character behind it (`scalar_numberText`), and gives back what was written. A
number has no closing character of its own, so what follows it must not go on with it
(`EndsNumber`).
-/

namespace KeyHarvest.Json.Reader

/-! ### Strings -/

private theorem hexNumber?_byte :
    ∀ n < 32, Text.hexNumber? ['0', '0', (n / 16).digitChar, (n % 16).digitChar] = some n := by
  decide

private theorem hex4_byte {n : Nat} (h : n < 32) (rest : List Char) :
    hex4 ('0' :: '0' :: (n / 16).digitChar :: (n % 16).digitChar :: rest) = .ok (n, rest) := by
  rw [hex4, hexNumber?_byte n h]

private theorem eq_of_toNat {c : Char} {n : Nat} (h : c.toNat = n) : c = Char.ofNat n := by
  rw [← h, Char.ofNat_toNat]

/-- A character below the space is read back from its escape. -/
theorem escape_controlEscape {c : Char} (h : c.toNat < 32) (rest : List Char) :
    ∃ body, controlEscape c = '\\' :: body ∧ escape (body ++ rest) = .ok (c, rest) := by
  rw [controlEscape]
  split
  · next hc => exact ⟨_, rfl, by rw [eq_of_toNat hc]; rfl⟩
  split
  · next hc => exact ⟨_, rfl, by rw [eq_of_toNat hc]; rfl⟩
  split
  · next hc => exact ⟨_, rfl, by rw [eq_of_toNat hc]; rfl⟩
  split
  · next hc => exact ⟨_, rfl, by rw [eq_of_toNat hc]; rfl⟩
  split
  · next hc => exact ⟨_, rfl, by rw [eq_of_toNat hc]; rfl⟩
  · refine ⟨_, rfl, ?_⟩
    have hlow : ¬ (0xDC00 ≤ c.toNat ∧ c.toNat ≤ 0xDFFF) := by omega
    have hhigh : ¬ (0xD800 ≤ c.toNat ∧ c.toNat ≤ 0xDBFF) := by omega
    simp only [List.cons_append, List.nil_append, escape, unicodeEscape, hex4_byte h,
      ok_bind, hlow, hhigh, if_false, Char.ofNat_toNat]

/-- A character is read back as it stands in a string. -/
theorem stringBody_escapeChar (fuel : Nat) (c : Char) (rest : List Char) :
    stringBody (fuel + 1) (escapeChar c ++ rest) =
      (stringBody fuel rest).map fun read ↦ (c :: read.1, read.2) := by
  rw [escapeChar]
  split
  · next hc =>
    subst hc
    rfl
  split
  · next hc =>
    subst hc
    rfl
  split
  · next hc =>
    obtain ⟨body, htext, hread⟩ := escape_controlEscape hc rest
    rw [htext, List.cons_append, stringBody, if_neg (by decide), if_pos rfl, hread]
    rfl
  · next hquote hslash hc =>
    rw [List.singleton_append, stringBody, if_neg hquote, if_neg hslash, if_neg hc]
    rfl

private theorem stringBody_escaped (cs rest : List Char) {fuel : Nat} (h : cs.length < fuel) :
    stringBody fuel (cs.flatMap escapeChar ++ '"' :: rest) = .ok (cs, rest) := by
  induction cs generalizing fuel with
  | nil =>
    cases fuel with
    | zero => cases h
    | succ fuel => rfl
  | cons c cs ih =>
    cases fuel with
    | zero => cases h
    | succ fuel =>
      have hl : cs.length < fuel := Nat.lt_of_succ_lt_succ h
      rw [List.flatMap_cons, List.append_assoc, stringBody_escapeChar, ih hl]
      rfl

/-- A written string is read back. -/
theorem string_stringText (s : String) (rest : List Char) {fuel : Nat}
    (h : s.toList.length < fuel) :
    string fuel (s.toList.flatMap escapeChar ++ '"' :: rest) = .ok (s, rest) := by
  rw [string, stringBody_escaped _ _ h]
  simp only [ok_bind, String.ofList_toList]

/-- A string has at least as many characters written as it has. -/
theorem length_le_length_escaped (cs : List Char) :
    cs.length ≤ (cs.flatMap escapeChar).length := by
  have pos (c : Char) : 0 < (escapeChar c).length := by
    rw [escapeChar, controlEscape]
    repeat' split
    all_goals exact Nat.zero_lt_succ _
  induction cs with
  | nil => exact Nat.le_refl _
  | cons c cs ih =>
    have := pos c
    rw [List.flatMap_cons, List.length_append, List.length_cons]
    omega

/-! ### Numbers -/

/-- Text that does not go on with a number that stands before it. -/
def EndsNumber (rest : List Char) : Prop :=
  ∀ c, rest.head? = some c → c.isDigit = false ∧ c ≠ '.' ∧ c ≠ 'e' ∧ c ≠ 'E'

private theorem numberTail_of_endsNumber {rest : List Char} (hr : EndsNumber rest) (negative : Bool)
    (n : Nat) : numberTail negative n rest = .ok (integer negative n, rest) := by
  cases rest with
  | nil => rfl
  | cons c rest =>
    obtain ⟨-, hpoint, he, hE⟩ := hr c rfl
    rw [numberTail]
    · rintro _ h
      exact hpoint (List.cons.inj h).1
    · rintro _ h
      exact he (List.cons.inj h).1
    · rintro _ h
      exact hE (List.cons.inj h).1

private theorem optionalExponent_of_endsNumber {rest : List Char} (hr : EndsNumber rest)
    (negative : Bool)
    (n : Nat) (power : Int) :
    optionalExponent negative n power rest = scientific negative n power rest := by
  cases rest with
  | nil => rfl
  | cons c rest =>
    obtain ⟨-, -, he, hE⟩ := hr c rfl
    rw [optionalExponent]
    · rintro _ h
      exact he (List.cons.inj h).1
    · rintro _ h
      exact hE (List.cons.inj h).1

private theorem fractionDigits_of_endsNumber {rest : List Char} (hr : EndsNumber rest)
    (n taken : Nat) : fractionDigits n taken rest = (n, taken, rest) := by
  cases rest with
  | nil => rfl
  | cons c rest => rw [fractionDigits, (hr c rfl).1, Bool.false_and, if_neg Bool.false_ne_true]

private theorem dropWhile_of_endsNumber {rest : List Char} (hr : EndsNumber rest) :
    rest.dropWhile Char.isDigit = rest := by
  cases rest with
  | nil => rfl
  | cons c rest => rw [List.dropWhile_cons, (hr c rfl).1, if_neg Bool.false_ne_true]

private theorem le_ofDigitChars (ds : List Char) (n : Nat) : n ≤ Nat.ofDigitChars 10 ds n := by
  induction ds generalizing n with
  | nil => exact Nat.le_of_eq Nat.ofDigitChars_nil.symm
  | cons d ds ih =>
    rw [Nat.ofDigitChars_cons]
    have := ih (10 * n + (d.toNat - '0'.toNat))
    omega

/-- Digits are read onto the number before them as long as it has room for them. -/
theorem integerDigits_append {ds rest : List Char} (hds : ∀ c ∈ ds, c.isDigit = true)
    (hr : EndsNumber rest) (negative : Bool) {n : Nat}
    (hmax : Nat.ofDigitChars 10 ds n ≤ maxSignificand) :
    integerDigits negative n (ds ++ rest) =
      .ok (integer negative (Nat.ofDigitChars 10 ds n), rest) := by
  induction ds generalizing n with
  | nil =>
    rw [List.nil_append, Nat.ofDigitChars_nil]
    cases rest with
    | nil => rfl
    | cons c rest =>
      rw [integerDigits, (hr c rfl).1, if_neg Bool.false_ne_true, numberTail_of_endsNumber hr]
  | cons d ds ih =>
    obtain ⟨hd, hds⟩ := List.forall_mem_cons.mp hds
    have hnext : 10 * n + (d.toNat - '0'.toNat) = n * 10 + Text.digitValue d := by
      rw [Nat.mul_comm]
      rfl
    rw [Nat.ofDigitChars_cons, hnext] at hmax ⊢
    have hroom := Nat.le_trans (le_ofDigitChars ds _) hmax
    rw [List.cons_append, integerDigits, if_pos hd, if_pos hroom, ih hds hmax]

/-- The text of a number begins with a digit, and only that of zero begins with a zero. -/
private theorem toDigits_eq_cons (n : Nat) :
    ∃ d ds, Nat.toDigits 10 n = d :: ds ∧ d.isDigit = true ∧ (0 < n → d ≠ '0') := by
  induction n using Nat.strongRecOn with
  | _ n ih =>
    by_cases hn : n < 10
    · have digit : ∀ n < 10, n.digitChar.isDigit = true ∧ (0 < n → n.digitChar ≠ '0') := by decide
      exact ⟨n.digitChar, [], Nat.toDigits_of_lt_base hn, digit n hn⟩
    · obtain ⟨d, ds, hds, hd, hzero⟩ := ih (n / 10) (by omega)
      rw [Nat.toDigits_of_base_le (by decide) (by omega), hds]
      exact ⟨d, _, rfl, hd, fun _ ↦ hzero (by omega)⟩

/-- A natural number that is not too great is read back. -/
theorem unsigned_toDigits {rest : List Char} (hr : EndsNumber rest) (negative : Bool) {n : Nat}
    (hmax : n ≤ maxSignificand) :
    unsigned negative (Nat.toDigits 10 n ++ rest) = .ok (integer negative n, rest) := by
  have digit : ∀ c ∈ Nat.toDigits 10 n, c.isDigit = true :=
    fun _ hc ↦ Nat.isDigit_of_mem_toDigits (by decide) (by decide) hc
  by_cases hn : n = 0
  · subst hn
    have hhead : ((rest.head?.map Char.isDigit).getD false) = false := by
      cases hh : rest.head? with
      | none => rfl
      | some c => exact (hr c hh).1
    rw [Nat.toDigits_zero, List.singleton_append, unsigned, if_pos rfl, hhead,
      if_neg Bool.false_ne_true, numberTail_of_endsNumber hr]
  · obtain ⟨d, ds, hds, hdigit, hzero⟩ := toDigits_eq_cons n
    have hvalue : Nat.ofDigitChars 10 ds (Text.digitValue d) = n := by
      have := Nat.ofDigitChars_ten_toDigits (n := n)
      rw [hds, Nat.ofDigitChars_cons, Nat.mul_zero, Nat.zero_add] at this
      exact this
    rw [hds, List.forall_mem_cons] at digit
    rw [hds, List.cons_append, unsigned, if_neg (hzero (Nat.pos_of_ne_zero hn)), if_pos hdigit,
      integerDigits_append digit.2 hr negative (by rw [hvalue]; exact hmax), hvalue]

/-- The negative zero is read back. -/
theorem unsigned_negativeZero {rest : List Char} (hr : EndsNumber rest) :
    unsigned true ('0' :: '.' :: '0' :: rest) = .ok (.double ⟨true, 0, -1074⟩, rest) := by
  have hfirst : fractionDigits 0 0 ('0' :: rest) = fractionDigits 0 1 rest := by
    rw [fractionDigits]
    exact if_pos (by decide)
  have hfraction : unsigned true ('0' :: '.' :: '0' :: rest) = fraction true 0 0 ('0' :: rest) :=
    rfl
  rw [hfraction, fraction, hfirst, fractionDigits_of_endsNumber hr]
  show optionalExponent true 0 (0 - 1) (rest.dropWhile Char.isDigit) = _
  rw [dropWhile_of_endsNumber hr, optionalExponent_of_endsNumber hr]
  rfl

private theorem scalar_digit {c : Char} (h : c.isDigit = true) (fuel : Nat) (rest : List Char) :
    scalar fuel (c :: rest) =
      (unsigned false (c :: rest)).map fun read ↦ (.number read.1, read.2) := by
  have ne {d : Char} (hd : d.isDigit = false) : c ≠ d := by
    rintro rfl
    exact Bool.false_ne_true (hd.symm.trans h)
  rw [scalar]
  · rw [if_pos h]
    rfl
  all_goals exact ne (by decide)

/-- An integer of at most 64 bits is written as the negative zero of the doubles, as a minus sign
and digits or as digits alone. -/
theorem numberText_cases {n : Number} (hn : n.isIntegral = true) :
    (n = .double ⟨true, 0, -1074⟩ ∧ n.text = ['-', '0', '.', '0']) ∨
    (∃ m : Nat, m ≤ Nat.pow 2 63 ∧ n = integer true m ∧ n.text = '-' :: Nat.toDigits 10 m) ∨
    ∃ m : Nat, m ≤ maxSignificand ∧ n = integer false m ∧ n.text = Nat.toDigits 10 m := by
  cases n with
  | double x =>
    have hx : x = ⟨true, 0, -1074⟩ := by simpa [Number.isIntegral] using hn
    subst hx
    exact .inl ⟨rfl, by decide⟩
  | int n =>
    obtain ⟨hlow, hhigh⟩ : -0x8000000000000000 ≤ n ∧ n < 0x10000000000000000 := by
      simpa [Number.isIntegral] using hn
    right
    rw [Number.text, Nat.toList_repr]
    split
    · next hneg =>
      have hmax : n.natAbs ≤ Nat.pow 2 63 := by
        show n.natAbs ≤ 0x8000000000000000
        omega
      have hint : integer true n.natAbs = .int n := by
        rw [integer, if_neg (by decide), if_neg (by omega)]
        congr 1
        omega
      exact .inl ⟨n.natAbs, hmax, hint.symm, rfl⟩
    · next hpos =>
      have hmax : n.natAbs ≤ maxSignificand := by
        show n.natAbs ≤ 0xFFFFFFFFFFFFFFFF
        omega
      have hint : integer false n.natAbs = .int n := by
        rw [integer, Bool.not_false, if_pos rfl]
        congr 1
        omega
      exact .inr ⟨n.natAbs, hmax, hint.symm, rfl⟩

/-- The text of an integer begins with its sign or a digit. -/
theorem numberText_eq_cons {n : Number} (hn : n.isIntegral = true) :
    ∃ c cs, n.text = c :: cs ∧ ∀ d, d ≠ '-' → d.isDigit = false → c ≠ d := by
  rcases numberText_cases hn with ⟨-, htext⟩ | ⟨m, -, -, htext⟩ | ⟨m, -, -, htext⟩
  · exact ⟨_, _, htext, fun d hd _ ↦ hd.symm⟩
  · exact ⟨_, _, htext, fun d hd _ ↦ hd.symm⟩
  · obtain ⟨c, cs, hcons, hc, -⟩ := toDigits_eq_cons m
    refine ⟨c, cs, htext.trans hcons, ?_⟩
    rintro _ - hd rfl
    exact Bool.false_ne_true (hd.symm.trans hc)

/-- An integer of at most 64 bits is read back. -/
theorem scalar_numberText {n : Number} (hn : n.isIntegral = true) (fuel : Nat)
    {rest : List Char} (hr : EndsNumber rest) :
    scalar fuel (n.text ++ rest) = .ok (.number n, rest) := by
  rcases numberText_cases hn with ⟨rfl, htext⟩ | ⟨m, hmax, rfl, htext⟩ | ⟨m, hmax, rfl, htext⟩
  · rw [htext]
    simp only [List.cons_append, List.nil_append, scalar, unsigned_negativeZero hr, ok_bind]
  · have hroom : m ≤ maxSignificand := Nat.le_trans hmax (by decide)
    rw [htext]
    simp only [List.cons_append, scalar, unsigned_toDigits hr true hroom, ok_bind]
  · obtain ⟨c, cs, hcons, hc, -⟩ := toDigits_eq_cons m
    have hread := unsigned_toDigits hr false hmax
    rw [hcons, List.cons_append] at hread
    rw [htext, hcons, List.cons_append, scalar_digit hc, hread]
    rfl

end KeyHarvest.Json.Reader
