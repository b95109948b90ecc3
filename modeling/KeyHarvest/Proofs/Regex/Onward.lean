import KeyHarvest.Regex.Ends
import Mathlib.Data.List.Basic

/-!
# Where a match can end

An end of an expression lies further on in the same text: what was read in between stands before the
rest, and the captures of the expression's own groups stand before the earlier ones (`Onward`,
`onward_of_mem_ends`). A repetition of an expression that never matches the empty text therefore
cannot run out of rounds, and its ends are given by one round followed by the repetition again
(`ends_star`).
-/

namespace KeyHarvest

/-- The place behind a text, with the rest of the text unread. -/
def Cursor.between (done rest : List Char) : Cursor :=
  ⟨done.getLast?, done.length, rest⟩

/-- The state at the place behind a text. -/
def MatchState.between (done rest : List Char) (captures : List Capture) : MatchState :=
  ⟨.between done rest, captures⟩

/-- One state lies further on than another: `read` stands between them, and `added` was captured. -/
structure Onward (s t : MatchState) (read : List Char) (added : List Capture) : Prop where
  rest : s.cursor.rest = read ++ t.cursor.rest
  position : t.cursor.position = s.cursor.position + read.length
  before : t.cursor.before = read.getLast?.or s.cursor.before
  captures : t.captures = added ++ s.captures

namespace Onward

variable {s t u : MatchState} {read read' : List Char} {added added' : List Capture}

/-- To read nothing is to stay. -/
theorem refl (s : MatchState) : Onward s s [] [] :=
  ⟨rfl, rfl, rfl, rfl⟩

/-- What is read in two steps is read in one. -/
theorem trans (h : Onward s t read added) (h' : Onward t u read' added') :
    Onward s u (read ++ read') (added' ++ added) where
  rest := by rw [h.rest, h'.rest, List.append_assoc]
  position := by rw [h'.position, h.position, List.length_append, Nat.add_assoc]
  before := by rw [h'.before, h.before, List.getLast?_append, Option.or_assoc]
  captures := by rw [h'.captures, h.captures, List.append_assoc]

/-- From a place in a text one gets to a later place in it. -/
theorem eq_between {done rest : List Char} {captures : List Capture}
    (h : Onward (.between done rest captures) t read added) :
    rest = read ++ t.cursor.rest ∧
      t = .between (done ++ read) t.cursor.rest (added ++ captures) := by
  refine ⟨h.rest, ?_⟩
  obtain ⟨⟨before, position, left⟩, caught⟩ := t
  simp only [MatchState.between, Cursor.between, MatchState.mk.injEq, Cursor.mk.injEq, and_true]
  exact ⟨⟨h.before.trans List.getLast?_append.symm,
    h.position.trans List.length_append.symm⟩, h.captures⟩

end Onward

namespace Regex

/-- The numbers of the groups of an expression. -/
def groups : Regex → List Nat
  | .empty | .set _ | .look _ => []
  | .seq a b | .alt a b => a.groups ++ b.groups
  | .plus _ r => r.groups
  | .group i r => i :: r.groups

/-- The groups of a sequence are those of its members. -/
@[simp] theorem groups_concat (rs : List Regex) : (concat rs).groups = rs.flatMap groups := by
  induction rs with
  | nil => rfl
  | cons r rs ih =>
    cases rs with
    | nil => exact (List.append_nil _).symm
    | cons r' rs =>
      rw [List.flatMap_cons, ← ih]
      rfl

/-- A literal has no groups. -/
@[simp] theorem groups_literal (cs : List Char) : (literal cs).groups = [] := by
  rw [literal, groups_concat, List.flatMap_map, List.flatMap_eq_nil_iff]
  exact fun _ _ ↦ rfl

/-- Repeated characters have no groups. -/
@[simp] theorem groups_star_set (greedy : Bool) (p : CharClass) :
    (star greedy (.set p)).groups = [] := by
  cases greedy <;> rfl

/-- A state can be reached from another by matching an expression. -/
def Reaches (r : Regex) (s t : MatchState) : Prop :=
  ∃ read added, Onward s t read added ∧ ∀ g ∈ added, g.index ∈ r.groups

/-- An expression reaches the state it begins at. -/
theorem Reaches.refl (r : Regex) (s : MatchState) : r.Reaches s s :=
  ⟨[], [], .refl s, by simp⟩

/-- What is reached in two steps is reached. -/
theorem Reaches.trans {r : Regex} {s t u : MatchState} (h : r.Reaches s t) (h' : r.Reaches t u) :
    r.Reaches s u := by
  obtain ⟨read, added, ho, hg⟩ := h
  obtain ⟨read', added', ho', hg'⟩ := h'
  refine ⟨_, _, ho.trans ho', fun g hm ↦ ?_⟩
  rcases List.mem_append.mp hm with hm | hm
  · exact hg' g hm
  · exact hg g hm

/-- With more groups the same is reached. -/
theorem Reaches.mono {r r' : Regex} {s t : MatchState} (h : r.Reaches s t)
    (hr : ∀ i ∈ r.groups, i ∈ r'.groups) : r'.Reaches s t := by
  obtain ⟨read, added, ho, hg⟩ := h
  exact ⟨read, added, ho, fun g hm ↦ hr _ (hg g hm)⟩

private theorem reaches_of_mem_furtherEnds {r : Regex} (h : ∀ s, ∀ t ∈ r.ends s, r.Reaches s t)
    (greedy : Bool) (fuel : Nat) {s t : MatchState} (ht : t ∈ furtherEnds r.ends greedy fuel s) :
    r.Reaches s t := by
  induction fuel generalizing s t with
  | zero =>
    rw [List.mem_singleton.mp ht]
    exact .refl r s
  | succ fuel ih =>
    have onward {u : MatchState} (hu : u ∈ (r.ends s).flatMap fun t ↦
        if t.cursor.position = s.cursor.position then [] else furtherEnds r.ends greedy fuel t) :
        r.Reaches s u := by
      obtain ⟨v, hv, hu⟩ := List.mem_flatMap.mp hu
      split at hu
      · cases hu
      · exact (h s v hv).trans (ih hu)
    rw [furtherEnds] at ht
    cases greedy with
    | true =>
      rcases List.mem_append.mp ht with ht | ht
      · exact onward ht
      · rw [List.mem_singleton.mp ht]
        exact .refl r s
    | false =>
      rcases List.mem_cons.mp ht with rfl | ht
      · exact .refl r _
      · exact onward ht

/-- An end of an expression lies further on, and the captures added are those of its groups. -/
theorem reaches_of_mem_ends (r : Regex) (s : MatchState) : ∀ t ∈ r.ends s, r.Reaches s t := by
  induction r generalizing s with
  | empty =>
    intro t ht
    rw [List.mem_singleton.mp ht]
    exact .refl _ s
  | set p =>
    intro t ht
    rw [ends] at ht
    cases hrest : s.cursor.rest with
    | nil =>
      rw [hrest] at ht
      cases ht
    | cons c rest =>
      simp only [hrest] at ht
      split at ht
      · rw [List.mem_singleton.mp ht]
        exact ⟨[c], [], ⟨hrest, rfl, rfl, rfl⟩, by simp⟩
      · cases ht
  | look a =>
    intro t ht
    rw [ends] at ht
    split at ht
    · rw [List.mem_singleton.mp ht]
      exact .refl _ s
    · cases ht
  | seq a b iha ihb =>
    intro t ht
    obtain ⟨u, hu, ht⟩ := List.mem_flatMap.mp ht
    exact ((iha s u hu).mono fun _ ↦ List.mem_append_left _).trans
      ((ihb u t ht).mono fun _ ↦ List.mem_append_right _)
  | alt a b iha ihb =>
    intro t ht
    rcases List.mem_append.mp ht with ht | ht
    · exact (iha s t ht).mono fun _ ↦ List.mem_append_left _
    · exact (ihb s t ht).mono fun _ ↦ List.mem_append_right _
  | plus greedy r ih =>
    intro t ht
    obtain ⟨u, hu, ht⟩ := List.mem_flatMap.mp ht
    split at ht
    · rw [List.mem_singleton.mp ht]
      exact ih s u hu
    · exact (ih s u hu).trans (reaches_of_mem_furtherEnds ih greedy _ ht)
  | group i r ih =>
    intro t ht
    obtain ⟨u, hu, rfl⟩ := List.mem_map.mp ht
    obtain ⟨read, added, ho, hg⟩ := ih s u hu
    let found : Capture := ⟨i, s.cursor.rest, u.cursor.position - s.cursor.position⟩
    refine ⟨read, found :: added, ⟨ho.rest, ho.position, ho.before, ?_⟩, ?_⟩
    · exact congrArg (found :: ·) ho.captures
    · rw [List.forall_mem_cons]
      exact ⟨List.mem_cons_self, fun g hm ↦ List.mem_cons_of_mem _ (hg g hm)⟩

/-- An end of an expression at a place in a text is a later place in it. -/
theorem eq_between_of_mem_ends {r : Regex} {done rest : List Char} {captures : List Capture}
    {t : MatchState} (ht : t ∈ r.ends (.between done rest captures)) :
    ∃ read left added, rest = read ++ left ∧
      t = .between (done ++ read) left (added ++ captures) ∧ ∀ g ∈ added, g.index ∈ r.groups := by
  obtain ⟨read, added, ho, hg⟩ := reaches_of_mem_ends r _ t ht
  obtain ⟨hrest, ht⟩ := ho.eq_between
  exact ⟨read, t.cursor.rest, added, hrest, ht, hg⟩

/-! ### Expressions that move on -/

/-- An expression that never matches the empty text. -/
def Consuming (r : Regex) : Prop :=
  ∀ s, ∀ t ∈ r.ends s, t.cursor.position ≠ s.cursor.position

/-- An expression that consumes ends further on, with less text left. -/
theorem Consuming.lt {r : Regex} (h : r.Consuming) {s t : MatchState} (ht : t ∈ r.ends s) :
    s.cursor.position < t.cursor.position ∧ t.cursor.rest.length < s.cursor.rest.length := by
  have hne := h s t ht
  obtain ⟨read, added, ho, -⟩ := reaches_of_mem_ends r s t ht
  have hrest := congrArg List.length ho.rest
  have hposition := ho.position
  rw [List.length_append] at hrest
  omega

/-- A character consumes. -/
theorem consuming_set (p : CharClass) : (Regex.set p).Consuming := by
  intro s t ht
  rw [ends] at ht
  split at ht
  · cases ht
  · split at ht
    · rw [List.mem_singleton.mp ht]
      simp
    · cases ht

/-- A sequence consumes if its first part does. -/
theorem Consuming.seq_left {a : Regex} (h : a.Consuming) (b : Regex) :
    (Regex.seq a b).Consuming := by
  intro s t ht
  obtain ⟨u, hu, ht⟩ := List.mem_flatMap.mp ht
  have hlt := (h.lt hu).1
  obtain ⟨read, added, ho, -⟩ := reaches_of_mem_ends b u t ht
  have hposition := ho.position
  omega

/-- A choice consumes if both parts do. -/
theorem Consuming.alt {a b : Regex} (ha : a.Consuming) (hb : b.Consuming) :
    (Regex.alt a b).Consuming := by
  intro s t ht
  rcases List.mem_append.mp ht with ht | ht
  · exact ha s t ht
  · exact hb s t ht

-- Once the rounds are as many as the characters left, more of them add nothing.
private theorem furtherEnds_stable {r : Regex} (h : r.Consuming) (greedy : Bool) (fuel : Nat)
    {s : MatchState} (hs : s.cursor.rest.length ≤ fuel) :
    furtherEnds r.ends greedy (fuel + 1) s = furtherEnds r.ends greedy fuel s := by
  induction fuel generalizing s with
  | zero =>
    have hnone : r.ends s = [] := by
      apply List.eq_nil_iff_forall_not_mem.mpr
      intro t ht
      have hlt := (h.lt ht).2
      omega
    simp [furtherEnds, hnone]
  | succ fuel ih =>
    have more : ((r.ends s).flatMap fun t ↦ if t.cursor.position = s.cursor.position then []
          else furtherEnds r.ends greedy (fuel + 1) t) =
        (r.ends s).flatMap fun t ↦ if t.cursor.position = s.cursor.position then []
          else furtherEnds r.ends greedy fuel t := by
      apply List.flatMap_congr
      intro t ht
      have hlt := (h.lt ht).2
      rw [ih (by omega)]
    rw [furtherEnds, more, furtherEnds]

private theorem furtherEnds_eq_of_le {r : Regex} (h : r.Consuming) (greedy : Bool)
    {s : MatchState} (extra : Nat) :
    furtherEnds r.ends greedy (s.cursor.rest.length + extra) s =
      furtherEnds r.ends greedy s.cursor.rest.length s := by
  induction extra with
  | zero => rfl
  | succ extra ih => rw [← Nat.add_assoc, furtherEnds_stable h greedy _ (by omega), ih]

private theorem furtherEnds_eq_star {r : Regex} (h : r.Consuming) (s : MatchState) :
    furtherEnds r.ends true s.cursor.rest.length s = (star true r).ends s := by
  have hstar : (star true r).ends s = ((r.ends s).flatMap fun t ↦
      if t.cursor.position = s.cursor.position then [t]
      else furtherEnds r.ends true t.cursor.rest.length t) ++ [s] := rfl
  rw [hstar, ← furtherEnds_stable h true _ (Nat.le_refl _), furtherEnds, if_pos rfl]
  congr 1
  apply List.flatMap_congr
  intro t ht
  rw [if_neg (h s t ht), if_neg (h s t ht)]
  obtain ⟨extra, hextra⟩ := Nat.exists_eq_add_of_lt (h.lt ht).2
  rw [hextra, Nat.add_assoc, furtherEnds_eq_of_le h true]

/-- A greedy repetition of an expression that moves on prefers to end where it ends after one more
round, and else ends where it is. -/
theorem ends_star {r : Regex} (h : r.Consuming) (s : MatchState) :
    (star true r).ends s = (r.ends s).flatMap (star true r).ends ++ [s] := by
  have hstar : (star true r).ends s = ((r.ends s).flatMap fun t ↦
      if t.cursor.position = s.cursor.position then [t]
      else furtherEnds r.ends true t.cursor.rest.length t) ++ [s] := rfl
  rw [hstar]
  congr 1
  apply List.flatMap_congr
  intro t ht
  rw [if_neg (h s t ht), furtherEnds_eq_star h]

end Regex

end KeyHarvest
