import KeyHarvest.Proofs.Regex.Stretches
import KeyHarvest.Regex.Search

/-!
# Reading off successive matches

The matches in a text are read off from left to right: a stretch that the expression misses is
passed over (`matchesBehind_of_misses`), and a match at a place is listed before the matches behind
it (`matchesBehind_of_match`). For an expression that never matches the empty text the matches
behind a place do not depend on those before it.

Each match is an end of the expression from a place in the text (`exists_of_mem_allMatches`), so a
text has no matches if something that every match contains is missing in it
(`Requires.allMatches_eq_nil`).
-/

namespace KeyHarvest

open MatchState (between)
open Text (Alike)

namespace Regex

variable {r : Regex} {done rest w : List Char} {captures : List Capture}

/-- The matches that begin in the rest of a text. -/
def matchesBehind (r : Regex) (done rest : List Char) : List Match :=
  r.matchesFrom none done.getLast? done.length rest

/-- The matches in a text are those behind nothing. -/
theorem allMatches_eq_matchesBehind (r : Regex) (text : List Char) :
    r.allMatches text = r.matchesBehind [] text := rfl

private theorem freshMatch_eq (r : Regex) (done rest : List Char) :
    r.freshMatch none (.between done rest) =
      (r.ends (between done rest [])).head?.map fun t ↦
        ⟨done.length, t.cursor.position, t.captures⟩ := by
  rw [freshMatch, matchAt_eq_head?, MatchState.between]
  cases (r.ends ⟨.between done rest, []⟩).head? with
  | none => rfl
  | some t => simp [Cursor.between]

/-- Where an expression cannot match the empty text the end of the last match does not matter. -/
theorem freshMatch_of_consuming (hr : r.Consuming) (last : Option Nat) (c : Cursor) :
    r.freshMatch last c = r.freshMatch none c := by
  rw [freshMatch, freshMatch, matchAt_eq_head?]
  cases ht : (r.ends ⟨c, []⟩).head? with
  | none => rfl
  | some t =>
    have hne : t.cursor.position ≠ c.position :=
      hr ⟨c, []⟩ t (List.mem_of_mem_head? (Option.mem_def.mpr ht))
    simp [hne]

private theorem matchesFrom_of_consuming (hr : r.Consuming) {last : Nat} (before : Option Char)
    {position : Nat} (hlast : last ≤ position) (rest : List Char) :
    r.matchesFrom (some last) before position rest = r.matchesFrom none before position rest := by
  have hover : ¬ position < last := Nat.not_lt.mpr hlast
  induction rest generalizing before position with
  | nil => simp [matchesFrom, hover, freshMatch_of_consuming hr (some last)]
  | cons c rest ih =>
    have hnext : last ≤ position + 1 := by omega
    have ih := ih (some c) hnext (Nat.not_lt.mpr hnext)
    simp only [matchesFrom, Option.any_some, hover, decide_false, Bool.false_eq_true, if_false,
      Option.any_none, freshMatch_of_consuming hr (some last), ih]

/-- Places inside the last match are passed over. -/
theorem matchesFrom_within (r : Regex) {last : Nat} (before : Option Char) {position : Nat}
    (w : List Char) (hlast : position + w.length ≤ last) (rest : List Char) :
    r.matchesFrom (some last) before position (w ++ rest) =
      r.matchesFrom (some last) (w.getLast?.or before) (position + w.length) rest := by
  induction w generalizing before position with
  | nil => rfl
  | cons c w ih =>
    have hlength : (c :: w).length = w.length + 1 := rfl
    have hover : position < last := by omega
    rw [List.cons_append, matchesFrom, Option.any_some, if_pos (decide_eq_true hover),
      ih (some c) (by omega)]
    have hlast : w.getLast?.or (some c) = (c :: w).getLast?.or before := by
      cases w <;> simp [List.getLast?_cons]
    rw [hlast, hlength, Nat.add_assoc, Nat.add_comm 1]

/-- An expression that consumes has no match at the end of a text. -/
theorem matchesBehind_nil (hr : r.Consuming) (done : List Char) : r.matchesBehind done [] = [] := by
  have hnone : r.ends (between done [] []) = [] := by
    apply List.eq_nil_iff_forall_not_mem.mpr
    intro t ht
    exact absurd (hr.lt ht).2 (Nat.not_lt_zero _)
  have hfresh := r.freshMatch_eq done []
  rw [hnone] at hfresh
  simp only [matchesBehind, matchesFrom, Option.any_none, Bool.false_eq_true, if_false]
  exact congrArg Option.toList hfresh

/-- A stretch without a match is passed over. -/
theorem matchesBehind_of_misses (h : r.Misses done w rest) :
    r.matchesBehind done (w ++ rest) = r.matchesBehind (done ++ w) rest := by
  induction w generalizing done with
  | nil => rw [List.append_nil, List.nil_append]
  | cons c w ih =>
    have hfresh := r.freshMatch_eq done (c :: (w ++ rest))
    rw [h.head, List.head?_nil, Option.map_none, Cursor.between] at hfresh
    have hstep : r.matchesBehind done (c :: (w ++ rest)) =
        r.matchesBehind (done ++ [c]) (w ++ rest) := by
      simp only [matchesBehind, matchesFrom, Option.any_none, Bool.false_eq_true, if_false, hfresh,
        List.getLast?_concat, List.length_append, List.length_singleton]
    rw [List.cons_append, hstep, ih h.tail, List.append_assoc, List.singleton_append]

/-- An expression that misses a whole text has no matches in it. -/
theorem allMatches_eq_nil (hr : r.Consuming) {text : List Char} (h : r.Misses [] text []) :
    r.allMatches text = [] := by
  rw [allMatches_eq_matchesBehind, ← List.append_nil text, matchesBehind_of_misses h,
    matchesBehind_nil hr]

/-- A match at a place is listed before the matches behind it. -/
theorem matchesBehind_of_match (hr : r.Consuming)
    (h : (r.ends (between done (w ++ rest) [])).head? =
      some (between (done ++ w) rest captures)) :
    r.matchesBehind done (w ++ rest) =
      ⟨done.length, (done ++ w).length, captures⟩ :: r.matchesBehind (done ++ w) rest := by
  cases w with
  | nil =>
    have hne := hr _ _ (List.mem_of_mem_head? (Option.mem_def.mpr h))
    simp [MatchState.between, Cursor.between] at hne
  | cons c w =>
    have hfresh := r.freshMatch_eq done (c :: (w ++ rest))
    rw [← List.cons_append, h, Option.map_some, Cursor.between] at hfresh
    have hstop : (done ++ c :: w).length = done.length + 1 + w.length := by
      rw [List.length_append, List.length_cons]
      omega
    have hlast : w.getLast?.or (some c) = (done ++ c :: w).getLast? := by
      rw [List.getLast?_append]
      cases w <;> simp [List.getLast?_cons]
    rw [matchesBehind, List.cons_append, matchesFrom, Option.any_none,
      if_neg Bool.false_ne_true, ← List.cons_append, hfresh]
    show _ :: r.matchesFrom (some (done ++ c :: w).length) (some c) (done.length + 1)
      (w ++ rest) = _
    rw [matchesFrom_within _ _ _ (by omega), hlast, ← hstop,
      matchesFrom_of_consuming hr _ (Nat.le_refl _)]
    rfl

/-- The preferred match at the start of a text is one of its matches. -/
theorem mem_allMatches_of_head? {text : List Char} {t : MatchState}
    (h : (r.ends (between [] text [])).head? = some t) :
    (⟨0, t.cursor.position, t.captures⟩ : Match) ∈ r.allMatches text := by
  have hfresh := r.freshMatch_eq [] text
  rw [h, Option.map_some] at hfresh
  rw [allMatches]
  cases text with
  | nil =>
    simp only [matchesFrom, Option.any_none, Bool.false_eq_true, if_false]
    exact Option.mem_toList.mpr hfresh
  | cons c text =>
    have hfresh : r.freshMatch none ⟨none, 0, c :: text⟩ =
        some ⟨0, t.cursor.position, t.captures⟩ := hfresh
    rw [matchesFrom, Option.any_none, if_neg Bool.false_ne_true, hfresh]
    exact List.mem_cons_self

private theorem exists_of_freshMatch {last : Option Nat} {m : Match}
    (h : r.freshMatch last (.between done rest) = some m) :
    ∃ t ∈ r.ends (between done rest []), m = ⟨done.length, t.cursor.position, t.captures⟩ := by
  rw [freshMatch, matchAt_eq_head?] at h
  cases ht : (r.ends ⟨.between done rest, []⟩).head? with
  | none =>
    rw [ht] at h
    cases h
  | some t =>
    rw [ht] at h
    dsimp only at h
    split at h
    · cases h
    · exact ⟨t, List.mem_of_mem_head? ht, (Option.some.inj h).symm⟩

/-- Each match is an end of the expression from a place in the text. -/
theorem exists_of_mem_matchesFrom {last : Option Nat} {m : Match}
    (h : m ∈ r.matchesFrom last done.getLast? done.length rest) :
    ∃ w left t, rest = w ++ left ∧ t ∈ r.ends (between (done ++ w) left []) ∧
      m = ⟨(done ++ w).length, t.cursor.position, t.captures⟩ := by
  induction rest generalizing done last with
  | nil =>
    rw [matchesFrom] at h
    split at h
    · cases h
    · obtain ⟨t, ht, hm⟩ := exists_of_freshMatch (Option.mem_toList.mp h)
      exact ⟨[], [], t, rfl, by rwa [List.append_nil], by rwa [List.append_nil]⟩
  | cons c rest ih =>
    have hlater {last : Option Nat}
        (h : m ∈ r.matchesFrom last (some c) (done.length + 1) rest) :
        ∃ w left t, c :: rest = w ++ left ∧ t ∈ r.ends (between (done ++ w) left []) ∧
          m = ⟨(done ++ w).length, t.cursor.position, t.captures⟩ := by
      have hlength : done.length + 1 = (done ++ [c]).length := by rw [List.length_append]; rfl
      have hlast : (done ++ [c]).getLast? = some c := List.getLast?_concat
      rw [← hlast, hlength] at h
      obtain ⟨w, left, t, rfl, ht, hm⟩ := ih h
      rw [List.append_assoc, List.singleton_append] at ht hm
      exact ⟨c :: w, left, t, rfl, ht, hm⟩
    rw [matchesFrom] at h
    split at h
    · exact hlater h
    · split at h
      · exact hlater h
      · next found hfound =>
        rcases List.mem_cons.mp h with rfl | h
        · obtain ⟨t, ht, hm⟩ := exists_of_freshMatch hfound
          exact ⟨[], c :: rest, t, rfl, by rwa [List.append_nil], by rwa [List.append_nil]⟩
        · exact hlater h

/-- A match is an end of the expression at some place of the text. -/
theorem exists_of_mem_allMatches {text : List Char} {m : Match} (h : m ∈ r.allMatches text) :
    ∃ done rest t, text = done ++ rest ∧ t ∈ r.ends (between done rest []) ∧
      m = ⟨done.length, t.cursor.position, t.captures⟩ := by
  have h : m ∈ r.matchesFrom none ([] : List Char).getLast? ([] : List Char).length text := h
  exact exists_of_mem_matchesFrom h

/-! ### What every match contains -/

/-- Wherever the expression matches, a text equal to the given one up to case follows. -/
def Requires (r : Regex) (cs : List Char) : Prop :=
  ∀ done rest captures, ∀ t ∈ r.ends (between done rest captures),
    ∃ w, w <:+: rest ∧ Alike w cs

/-- A literal requires its text. -/
theorem requires_literal (cs : List Char) : (literal cs).Requires cs := by
  intro done rest captures t ht
  obtain ⟨w, left, rfl, hw, -⟩ := (mem_ends_literal_iff cs t).mp ht
  exact ⟨w, List.infix_append' [] w left, hw⟩

/-- A sequence requires what any of its expressions does. -/
theorem Requires.concat {cs : List Char} (h : r.Requires cs) {rs : List Regex} (hr : r ∈ rs) :
    (Regex.concat rs).Requires cs := by
  induction rs with
  | nil => cases hr
  | cons r' rs ih =>
    intro done rest captures t ht
    rw [ends_concat_cons] at ht
    obtain ⟨u, hu, ht⟩ := List.mem_flatMap.mp ht
    rcases List.mem_cons.mp hr with rfl | hr
    · exact h done rest captures u hu
    · obtain ⟨read, left, added, rfl, rfl, -⟩ := eq_between_of_mem_ends hu
      obtain ⟨w, hw, halike⟩ := ih hr _ _ _ t ht
      exact ⟨w, hw.trans (List.suffix_append read left).isInfix, halike⟩

/-- Where the text required is missing there is no match. -/
theorem Requires.allMatches_eq_nil {cs text : List Char} (h : r.Requires cs)
    (htext : ∀ w, w <:+: text → ¬ Alike w cs) : r.allMatches text = [] := by
  apply List.eq_nil_iff_forall_not_mem.mpr
  intro m hm
  obtain ⟨done, rest, t, rfl, ht, -⟩ := exists_of_mem_allMatches hm
  obtain ⟨w, hw, halike⟩ := h _ _ _ t ht
  exact htext w (hw.trans (List.suffix_append done rest).isInfix) halike

end Regex

namespace Match

/-- A group has the text that it captured last. -/
theorem group?_of_captures {m : Match} {added more : List Capture} {i : Nat}
    {text rest : List Char} (hm : m.captures = added ++ ⟨i, text ++ rest, text.length⟩ :: more)
    (hi : ∀ g ∈ added, g.index ≠ i) : m.group? i = some text := by
  have hfind : m.captures.find? (·.index == i) = some ⟨i, text ++ rest, text.length⟩ := by
    rw [hm, List.find?_append, List.find?_eq_none.mpr (by simpa using hi), Option.none_or,
      List.find?_cons_of_pos (by simp)]
  rw [group?, hfind]
  exact congrArg some List.take_left

/-- The text of a group is that of its latest capture. -/
theorem group_of_captures {m : Match} {added more : List Capture} {i : Nat} {text rest : List Char}
    (hm : m.captures = added ++ ⟨i, text ++ rest, text.length⟩ :: more)
    (hi : ∀ g ∈ added, g.index ≠ i) : m.group i = text := by
  rw [group, group?_of_captures hm hi, Option.getD_some]

/-- The stretch of the text that is matched. -/
def stretch (m : Match) (text : List Char) : List Char :=
  (text.drop m.start).take (m.stop - m.start)

/-- The stretch of a match is what it read. -/
theorem stretch_eq {m : Match} {done read left : List Char} (hstart : m.start = done.length)
    (hstop : m.stop = done.length + read.length) : m.stretch (done ++ read ++ left) = read := by
  rw [stretch, hstart, hstop, List.append_assoc, List.drop_left, Nat.add_sub_cancel_left,
    List.take_left]

end Match

end KeyHarvest
