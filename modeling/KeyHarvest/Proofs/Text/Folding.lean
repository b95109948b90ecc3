import KeyHarvest.Text.CaseFolding

/-!
# Characters without case

An ASCII character that is no letter folds to itself, and nothing else folds to it: of the
characters beyond ASCII only the Kelvin sign and the long s fold into ASCII, and they fold to
letters (`foldCode_of_le`). Matching up to case therefore means equality for quotes, brackets and
other punctuation (`sameFold_iff_eq`), and texts that are equal up to case (`Alike`) have these
characters in the same places.
-/

namespace KeyHarvest.Text

/-- The ASCII characters other than letters and the null character. -/
def Caseless (c : Char) : Prop :=
  0 < c.toNat ∧ c.toNat < 128 ∧ ¬ ('A' ≤ c ∧ c ≤ 'Z') ∧ ¬ ('a' ≤ c ∧ c ≤ 'z')

instance (c : Char) : Decidable (Caseless c) :=
  inferInstanceAs (Decidable (_ ∧ _))

private theorem sameFold_iff (a b : Char) : sameFold a b = true ↔ foldChar a = foldChar b :=
  beq_iff_eq

-- The only stretches beyond ASCII that fold into it are the long s and the Kelvin sign.
private theorem foldSpans_ascii : ∀ s ∈ foldSpans, 128 ≤ s.last →
    128 ≤ (s.first : Int) + s.shift ∨
      s.first = s.last ∧ ((s.first : Int) + s.shift = 107 ∨ (s.first : Int) + s.shift = 115) := by
  decide +kernel

/-- What lies beyond ASCII folds to something beyond ASCII, to `k` or to `s`. -/
theorem foldCode_of_le {n : Nat} (hn : 128 ≤ n) :
    128 ≤ foldCode n ∨ foldCode n = 107 ∨ foldCode n = 115 := by
  rw [foldCode]
  cases hs : foldSpans.find? (·.covers n) with
  | none => exact .inl hn
  | some s =>
    have hcovers : s.covers n = true := by simpa using List.find?_some hs
    have hspan := foldSpans_ascii s (List.mem_of_find?_eq_some hs)
    simp only [FoldSpan.covers, Bool.and_eq_true, decide_eq_true_iff] at hcovers
    simp only
    omega

private theorem foldChar_of_caseless {c : Char} (hc : Caseless c) : foldChar c = c := by
  rw [foldChar, if_pos hc.2.1, if_neg hc.2.2.1]

private theorem toNat_ofNat_of_isValidChar {n : Nat} (h : n.isValidChar) :
    (Char.ofNat n).toNat = n := by
  rw [Char.ofNat, dif_pos h]
  rfl

-- A code point that names no character gives the null character.
private theorem toNat_ofNat_of_le {n : Nat} (hn : 128 ≤ n) :
    (Char.ofNat n).toNat = 0 ∨ 128 ≤ (Char.ofNat n).toNat := by
  by_cases hv : n.isValidChar
  · exact .inr (by rwa [toNat_ofNat_of_isValidChar hv])
  · exact .inl (by rw [Char.ofNat, dif_neg hv]; rfl)

private theorem le_iff_toNat_le (a b : Char) : a ≤ b ↔ a.toNat ≤ b.toNat := by
  rw [Char.le_def, UInt32.le_iff_toNat_le]
  rfl

/-- Only a character without case folds to it. -/
theorem eq_of_foldChar_eq {x c : Char} (hc : Caseless c) (h : foldChar x = c) : x = c := by
  obtain ⟨hpos, hascii, -, hlower⟩ := hc
  rw [foldChar] at h
  split at h
  · next hx =>
    split at h
    · next hletter =>
      -- An upper case letter folds to a lower case one.
      have hn : c.toNat = x.toNat + 32 := by
        rw [← h, toNat_ofNat_of_isValidChar (.inl (by omega))]
      have hletters : 'A'.toNat = 65 ∧ 'Z'.toNat = 90 ∧ 'a'.toNat = 97 ∧ 'z'.toNat = 122 := by
        decide
      simp only [le_iff_toNat_le] at hletter hlower
      omega
    · exact h
  · next hx =>
    rcases foldCode_of_le (Nat.le_of_not_lt hx) with hfold | hfold | hfold
    · have hfar := toNat_ofNat_of_le hfold
      rw [h] at hfar
      omega
    · rw [hfold] at h
      subst h
      exact absurd ⟨by decide, by decide⟩ hlower
    · rw [hfold] at h
      subst h
      exact absurd ⟨by decide, by decide⟩ hlower

/-- Up to case only a character without case itself is equal to it. -/
theorem sameFold_iff_eq {c : Char} (hc : Caseless c) (x : Char) : sameFold x c = true ↔ x = c := by
  rw [sameFold_iff, foldChar_of_caseless hc]
  constructor
  · exact eq_of_foldChar_eq hc
  · intro hx
    rw [hx, foldChar_of_caseless hc]

-- The only stretch that begins within ASCII is that of the upper case letters.
private theorem foldSpans_first : ∀ s ∈ foldSpans, s.first = 65 ∧ s.last = 90 ∨ 128 ≤ s.first := by
  decide +kernel

private theorem not_mem_unfoldCode {c : Char} (hc : Caseless c) {n : Nat} (hn : 128 ≤ n) :
    c ∉ (unfoldCode n).map Char.ofNat := by
  obtain ⟨hpos, hascii, hupper, -⟩ := hc
  intro hm
  obtain ⟨m, hm, hcm⟩ := List.mem_map.mp hm
  have hvalid : c.toNat = m := by
    by_cases hv : m.isValidChar
    · rw [← hcm, toNat_ofNat_of_isValidChar hv]
    · rw [← hcm, Char.ofNat, dif_neg hv] at hpos
      exact absurd hpos (by decide)
  rcases List.mem_cons.mp hm with rfl | hm
  · omega
  · obtain ⟨s, hs, hcovers⟩ := List.mem_filterMap.mp hm
    dsimp only at hcovers
    split at hcovers
    · next hcovered =>
      have hspan := foldSpans_first s hs
      have hletters : 'A'.toNat = 65 ∧ 'Z'.toNat = 90 := by decide
      rw [Option.some.inj hcovers] at hcovered
      simp only [FoldSpan.covers, Bool.and_eq_true, decide_eq_true_iff] at hcovered
      simp only [le_iff_toNat_le] at hupper
      omega
    · cases hcovers

/-- A character without case is equal up to case to itself only. -/
theorem mem_orbit_iff {c : Char} (hc : Caseless c) (x : Char) : c ∈ orbit x ↔ x = c := by
  constructor
  · intro hm
    rw [orbit] at hm
    split at hm
    · split at hm
      · next hletter =>
        -- Every character listed is a letter.
        exfalso
        obtain ⟨-, hascii, hupper, hlower⟩ := hc
        have hletters : 'A'.toNat = 65 ∧ 'Z'.toNat = 90 ∧ 'a'.toNat = 97 ∧ 'z'.toNat = 122 := by
          decide
        have hne : c ≠ foldChar x := by
          rintro rfl
          exact hlower hletter
        have hne' : c ≠ Char.ofNat ((foldChar x).toNat - 32) := by
          rintro rfl
          simp only [le_iff_toNat_le] at hletter hupper
          have hn : (Char.ofNat ((foldChar x).toNat - 32)).toNat = (foldChar x).toNat - 32 :=
            toNat_ofNat_of_isValidChar (.inl (by omega))
          omega
        have hbeyond {d : Char} (hd : 128 ≤ d.toNat) : c ≠ d := by
          rintro rfl
          omega
        split at hm
        · simp [hne, hne', hbeyond (d := Char.ofNat 0x212A) (by decide)] at hm
        · split at hm
          · simp [hne, hne', hbeyond (d := Char.ofNat 0x17F) (by decide)] at hm
          · simp [hne, hne'] at hm
      · exact eq_of_foldChar_eq hc (List.mem_singleton.mp hm).symm
    · next hfar => exact absurd hm (not_mem_unfoldCode hc (Nat.le_of_not_lt hfar))
  · rintro rfl
    have hfold := foldChar_of_caseless hc
    rw [orbit, hfold, if_pos hc.2.1, if_neg hc.2.2.2]
    exact List.mem_singleton_self _

/-! ### Texts equal up to case -/

/-- Two texts are equal up to case. -/
def Alike (a b : List Char) : Prop :=
  a.map foldChar = b.map foldChar

instance (a b : List Char) : Decidable (Alike a b) :=
  inferInstanceAs (Decidable (_ = _))

/-- A text is like itself. -/
theorem Alike.refl (a : List Char) : Alike a a := rfl

/-- Texts that are alike have one length. -/
theorem Alike.length_eq {a b : List Char} (h : Alike a b) : a.length = b.length := by
  simpa using congrArg List.length h

/-- Texts whose parts are alike are alike. -/
theorem Alike.append {a b a' b' : List Char} (h : Alike a b) (h' : Alike a' b') :
    Alike (a ++ a') (b ++ b') := by
  rw [Alike, List.map_append, List.map_append, h, h']

/-- Texts are alike exactly if their first characters and the rests are. -/
theorem alike_cons_iff (a b : Char) (as bs : List Char) :
    Alike (a :: as) (b :: bs) ↔ sameFold a b = true ∧ Alike as bs := by
  rw [Alike, List.map_cons, List.map_cons, List.cons.injEq, sameFold_iff, Alike]

/-- A text like two others in a row is made of two texts like these. -/
theorem alike_append_iff (a b w : List Char) :
    Alike w (a ++ b) ↔ ∃ u v, w = u ++ v ∧ Alike u a ∧ Alike v b := by
  constructor
  · intro h
    rw [Alike, List.map_append, List.map_eq_append_iff] at h
    exact h
  · rintro ⟨u, v, rfl, hu, hv⟩
    exact hu.append hv

/-- A character without case stands as often in texts equal up to case. -/
theorem Alike.count_eq {a b : List Char} (h : Alike a b) {c : Char} (hc : Caseless c) :
    a.count c = b.count c := by
  have folded (l : List Char) : l.count c = (l.map foldChar).count c := by
    rw [List.count_eq_countP, List.count_eq_countP, List.countP_map]
    apply List.countP_congr
    intro x _
    rw [Function.comp_apply, beq_iff_eq, beq_iff_eq]
    constructor
    · rintro rfl
      exact foldChar_of_caseless hc
    · exact eq_of_foldChar_eq hc
  rw [folded a, h, ← folded b]

/-- Texts equal up to case have the same characters without case. -/
theorem Alike.mem_iff {a b : List Char} (h : Alike a b) {c : Char} (hc : Caseless c) :
    c ∈ a ↔ c ∈ b := by
  rw [← List.count_pos_iff, h.count_eq hc, List.count_pos_iff]

/-- Like a character without case is only itself. -/
theorem alike_singleton_iff {c : Char} (hc : Caseless c) (w : List Char) :
    Alike w [c] ↔ w = [c] := by
  constructor
  · intro h
    obtain ⟨x, rfl⟩ := List.length_eq_one_iff.mp h.length_eq
    have hx := ((alike_cons_iff x c [] []).mp h).1
    rw [(sameFold_iff_eq hc x).mp hx]
  · intro h
    rw [h]
    exact .refl _

end KeyHarvest.Text
