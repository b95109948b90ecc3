/-!
# Digits

The values of digits, and the numbers that digits write.

Main statement: `isSome_hexValue?` says which characters are hexadecimal digits.
-/

namespace KeyHarvest.Text

/-- The value of a decimal digit. -/
def digitValue (c : Char) : Nat :=
  c.toNat - 48

/-- The number that decimal digits write. -/
def decimalNumber (cs : List Char) : Nat :=
  cs.foldl (fun n c ↦ n * 10 + digitValue c) 0

/-- The value of a hexadecimal digit. -/
def hexValue? (c : Char) : Option Nat :=
  if '0' ≤ c ∧ c ≤ '9' then some (c.toNat - 48)
  else if 'a' ≤ c ∧ c ≤ 'f' then some (c.toNat - 87)
  else if 'A' ≤ c ∧ c ≤ 'F' then some (c.toNat - 55)
  else none

/-- The number that hexadecimal digits write, unless a character is none. -/
def hexNumber? (cs : List Char) : Option Nat :=
  cs.foldlM (fun n c ↦ (hexValue? c).map (n * 16 + ·)) 0

/-- The hexadecimal digits of a number, in lower case and without leading zeros. -/
def hexDigits (n : Nat) : List Char :=
  Nat.toDigits 16 n

/-- The hexadecimal digits are the decimal ones and six letters in either case. -/
theorem isSome_hexValue? (c : Char) :
    (hexValue? c).isSome ↔
      ('0' ≤ c ∧ c ≤ '9') ∨ ('a' ≤ c ∧ c ≤ 'f') ∨ ('A' ≤ c ∧ c ≤ 'F') := by
  rw [hexValue?]
  repeat' split
  all_goals simp_all

end KeyHarvest.Text
