import KeyHarvest.Regex.Search

/-!
# The ends of a match

`Regex.ends` lists the states that an expression can end in from a given one, the most preferred
first. It says what matching means without a continuation: one expression after another ends where
the second one ends from any end of the first, and alternatives end where either does, the first
one's ends being preferred.

Main statements: matching with a continuation accepts at the first end that the continuation accepts
(`run_eq_findSome?`), so the preferred match is the first end (`matchAt_eq_head?`).
-/

namespace KeyHarvest

/-- The ends of further rounds of a repetition, `fuel` bounding their number. Every round but the
last moves on. -/
def furtherEnds (round : MatchState → List MatchState) (greedy : Bool) :
    Nat → MatchState → List MatchState
  | 0, s => [s]
  | fuel + 1, s =>
    let onward := (round s).flatMap fun t ↦
      if t.cursor.position = s.cursor.position then [] else furtherEnds round greedy fuel t
    if greedy then onward ++ [s] else s :: onward

namespace Regex

/-- The states that an expression can end in, the most preferred first. -/
def ends : Regex → MatchState → List MatchState
  | .empty, s => [s]
  | .set p, s =>
    match s.cursor.rest with
    | [] => []
    | c :: rest =>
      if p.mem c then [{ s with cursor := ⟨some c, s.cursor.position + 1, rest⟩ }] else []
  | .look a, s => if a.holds s.cursor then [s] else []
  | .seq a b, s => (a.ends s).flatMap b.ends
  | .alt a b, s => a.ends s ++ b.ends s
  | .plus greedy r, s =>
    (r.ends s).flatMap fun t ↦
      if t.cursor.position = s.cursor.position then [t]
      else furtherEnds r.ends greedy t.cursor.rest.length t
  | .group i r, s =>
    (r.ends s).map fun t ↦
      { t with
        captures := ⟨i, s.cursor.rest, t.cursor.position - s.cursor.position⟩ :: t.captures }

end Regex

private theorem findSome?_flatMap {α β γ : Type} (f : β → Option γ) (g : α → List β) (l : List α) :
    (l.flatMap g).findSome? f = l.findSome? fun a ↦ (g a).findSome? f := by
  induction l with
  | nil => rfl
  | cons a l ih =>
    rw [List.flatMap_cons, List.findSome?_append, ih, List.findSome?_cons]
    cases (g a).findSome? f <;> rfl

private theorem furtherRounds_eq_findSome? {β : Type} {r : Regex}
    (h : ∀ s (k : MatchState → Option β), r.run s k = (r.ends s).findSome? k) (greedy : Bool)
    (k : MatchState → Option β) (fuel : Nat) (s : MatchState) :
    furtherRounds r.run greedy k fuel s = (furtherEnds r.ends greedy fuel s).findSome? k := by
  induction fuel generalizing s with
  | zero => simp [furtherRounds, furtherEnds]
  | succ fuel ih =>
    have onward : (r.run s fun t ↦
        if t.cursor.position = s.cursor.position then none
        else furtherRounds r.run greedy k fuel t) =
        ((r.ends s).flatMap fun t ↦
          if t.cursor.position = s.cursor.position then []
          else furtherEnds r.ends greedy fuel t).findSome? k := by
      rw [h, findSome?_flatMap]
      congr 1
      funext t
      split <;> simp [ih]
    rw [furtherRounds, furtherEnds]
    simp only [onward]
    cases greedy
    · rw [if_neg Bool.false_ne_true, if_neg Bool.false_ne_true, List.findSome?_cons]
      cases k s <;> rfl
    · rw [if_pos rfl, if_pos rfl, List.findSome?_append, List.findSome?_singleton]
      generalize List.findSome? k _ = result
      cases result <;> rfl

namespace Regex

/-- Matching accepts at the first end that the continuation accepts. -/
theorem run_eq_findSome? {β : Type} (r : Regex) (s : MatchState) (k : MatchState → Option β) :
    r.run s k = (r.ends s).findSome? k := by
  induction r generalizing s k with
  | empty => simp [run, ends]
  | set p =>
    rw [run, ends]
    cases s.cursor.rest with
    | nil => rfl
    | cons c rest => by_cases hc : p.mem c <;> simp [hc]
  | look a => rw [run, ends]; split <;> simp
  | seq a b iha ihb => simp only [run, ends, iha, ihb, findSome?_flatMap]
  | alt a b iha ihb =>
    simp only [run, ends, iha, ihb, List.findSome?_append]
    cases (a.ends s).findSome? k <;> rfl
  | plus greedy r ih =>
    rw [run, ends, ih, findSome?_flatMap]
    congr 1
    funext t
    split
    · simp
    · exact furtherRounds_eq_findSome? ih greedy k _ t
  | group i r ih => simp only [run, ends, ih, List.findSome?_map]; rfl

/-- The preferred match is the first end. -/
theorem matchAt_eq_head? (r : Regex) (c : Cursor) : r.matchAt c = (r.ends ⟨c, []⟩).head? := by
  rw [matchAt, run_eq_findSome?]
  cases r.ends ⟨c, []⟩ <;> rfl

end Regex

end KeyHarvest
